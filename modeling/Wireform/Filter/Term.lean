/-
# Filters

A filter takes a value and gives any number of values. A term may be followed by a
path, whose steps are all worked out for the value that the term itself was given.
Names that no filter is known by and variables that are not bound are kept in the
tree, so that they can be reported together before anything runs.

Operators from the loosest to the tightest: `|`, `,`, `//`, `or`, `and`, equality,
order, sums, products, remainders. `|` and `//` group to the right, the others to
the left. No word is reserved: one that cannot continue a term is the name of a
filter.

What is wrong inside brackets is noted, and reading goes on behind them, so one
text may have several faults.

Key definitions: `Filter.Term`, `Filter.Steps`, `Filter.Term.ofTokens?`,
`Filter.Term.unknowns`.
-/
import Wireform.Filter.Token

namespace Wireform
namespace Filter

/-- An arithmetic operation. -/
inductive Arithmetic where
  | add
  | sub
  | mul
  | div
  | rem
deriving DecidableEq

/-- The sign of an operation. -/
def Arithmetic.sign : Arithmetic → String
  | .add => "+"
  | .sub => "-"
  | .mul => "*"
  | .div => "/"
  | .rem => "%"

/-- A comparison. -/
inductive Comparison where
  | eq
  | ne
  | lt
  | le
  | gt
  | ge
deriving DecidableEq

/-- A named filter without arguments. -/
inductive Builtin where
  | empty
  | error
  | not
  | length
  | keys
  | add
  | type
  | toEntries
  | toJson
  | explode
  | asciiDowncase
deriving DecidableEq

mutual

/-- A filter. -/
inductive Term where
  | self
  | null
  | bool (b : Bool)
  | number (text : String)
  | string (text : String)
  /-- The text of a value inside a string. -/
  | shown (t : Term)
  | emptyArray
  | collect (t : Term)
  | emptyObject
  | entry (key value : Term)
  /-- An entry whose value is what the input holds under the key. -/
  | ownEntry (key : Term)
  | negate (t : Term)
  | pipe (first second : Term)
  | comma (first second : Term)
  | otherwise (first second : Term)
  | or (first second : Term)
  | and (first second : Term)
  | math (op : Arithmetic) (first second : Term)
  | compare (op : Comparison) (first second : Term)
  | path (base : Term) (steps : Steps)
  /-- A filter whose first error ends it and is handed to the second filter. -/
  | attempt (body handler : Term)
  | ifThenElse (condition yes no : Term)
  | builtin (b : Builtin)
  | map (t : Term)
  | select (t : Term)
  | raise (t : Term)
  /-- All results added up, from `null` on. -/
  | sum (t : Term)
  | range (start ending step : Term)
  /-- A name that no filter is known by, and its arguments one after the other. -/
  | unknownName (name : String) (arity : Nat) (arguments : List Term)
  | unboundVariable (name : String)

/-- Steps from a value into parts of it; an optional step keeps its own error quiet. -/
inductive Steps where
  | done
  | index (key : Term) (optional : Bool) (rest : Steps)
  | sliceFrom (lower : Term) (optional : Bool) (rest : Steps)
  | sliceTo (upper : Term) (optional : Bool) (rest : Steps)
  | slice (lower upper : Term) (optional : Bool) (rest : Steps)
  | each (optional : Bool) (rest : Steps)

end

instance : Inhabited Term := ⟨.self⟩

/-- What was missing when tokens were no filter. -/
inductive ParseNeed where
  | term
  | key
  | nothing
  | entryEnd
  | argumentEnd
  | branchEnd
  | just (text : String)
deriving DecidableEq

/-- What was missing, and the token that stood there; an empty text at the end. -/
structure ParseFault where
  need : ParseNeed
  found : String
deriving DecidableEq

/-- The wording of what was missing. -/
def ParseNeed.text : ParseNeed → String
  | .term => "Term"
  | .key => "Key"
  | .nothing => "Nothing"
  | .entryEnd => "CommaOrRBrace"
  | .argumentEnd => "SemicolonOrRParen"
  | .branchEnd => "ElseOrEnd"
  | .just text => "Just(" ++ Text.quoted text ++ ")"

/-- The wording of a fault. -/
def ParseFault.text (f : ParseFault) : String :=
  "(" ++ f.need.text ++ ", " ++ Text.quoted f.found ++ ")"

namespace Term

/-- The filter of a name and its arguments. -/
def call (name : String) (args : List Term) : Term :=
  match name, args with
  | "null", [] => .null
  | "true", [] => .bool true
  | "false", [] => .bool false
  | "empty", [] => .builtin .empty
  | "error", [] => .builtin .error
  | "not", [] => .builtin .not
  | "length", [] => .builtin .length
  | "keys", [] => .builtin .keys
  | "add", [] => .builtin .add
  | "type", [] => .builtin .type
  | "to_entries", [] => .builtin .toEntries
  | "tojson", [] => .builtin .toJson
  | "explode", [] => .builtin .explode
  | "ascii_downcase", [] => .builtin .asciiDowncase
  | "map", [t] => .map t
  | "select", [t] => .select t
  | "error", [t] => .raise t
  | "add", [t] => .sum t
  | "range", [t] => .range (.number "0") t (.number "1")
  | "range", [t, u] => .range t u (.number "1")
  | "range", [t, u, s] => .range t u s
  | name, args => .unknownName name args.length args

/-- How tight an operator binds, whether it groups to the right, and what it makes
of two filters; a comma is one only where `commas` may stand. -/
def operator? (commas : Bool) : Token → Option (Nat × Bool × (Term → Term → Term))
  | .symbol "|" => some (1, true, .pipe)
  | .symbol "," => if commas then some (2, false, .comma) else none
  | .symbol "//" => some (3, true, .otherwise)
  | .word "or" => some (4, false, .or)
  | .word "and" => some (5, false, .and)
  | .symbol "==" => some (6, false, .compare .eq)
  | .symbol "!=" => some (6, false, .compare .ne)
  | .symbol "<" => some (7, false, .compare .lt)
  | .symbol "<=" => some (7, false, .compare .le)
  | .symbol ">" => some (7, false, .compare .gt)
  | .symbol ">=" => some (7, false, .compare .ge)
  | .symbol "+" => some (8, false, .math .add)
  | .symbol "-" => some (8, false, .math .sub)
  | .symbol "*" => some (9, false, .math .mul)
  | .symbol "/" => some (9, false, .math .div)
  | .symbol "%" => some (10, false, .math .rem)
  | _ => none

/-- The field of a symbol that is a name behind a dot. -/
def field? (symbol : String) : Option String :=
  match symbol.toList with
  | '.' :: c :: cs => if Token.startsName c then some (String.ofList (c :: cs)) else none
  | _ => none

/-- A filter added to what stands before it. -/
def joined (before : Option Term) (t : Term) : Term :=
  match before with
  | some b => .math .add b t
  | none => t

/-- A term with the steps behind it, if there are any. -/
def followed (t : Term) : Steps → Term
  | .done => t
  | steps => .path t steps

/-! ### Reading -/

/-- A reader of tokens ends with a fault or a result; on the way it notes the faults
that it has met inside brackets. -/
abbrev Parser := ExceptT ParseFault (StateM (List ParseFault))

/-- The fault of tokens where something was missing. -/
def fault {α : Type} (need : ParseNeed) (ts : List Token) : Parser α :=
  throw ⟨need, (ts.head?.map Token.text).getD ""⟩

/-- Whether a token is a word or a symbol with a given text. -/
def isWritten (text : String) : Token → Bool
  | .word name => name == text
  | .symbol s => s == text
  | _ => false

/-- The same tokens without a given one at their front. -/
def expect (text : String) (ts : List Token) : Parser (List Token) :=
  match ts with
  | t :: rest => if isWritten text t then pure rest else fault (.just text) ts
  | [] => fault (.just text) []

/-- Checks that nothing is left but the token that closes a block, if it has one. -/
def finish (closing : String) (ts : List Token) : Parser Unit :=
  match ts with
  | [] => if closing = "" then pure () else fault (.just closing) []
  | [t] =>
    if closing = "" then fault .nothing [t]
    else if isWritten closing t then pure ()
    else fault (.just closing) [t]
  | ts => if closing = "" then fault .nothing ts else fault (.just closing) ts

/-- Reads the whole of a block; its fault is noted, and something else is taken in the
place of its result. -/
def enclosed {α : Type} (closing : String) (other : α) (read : Parser (α × List Token)) :
    Parser α :=
  tryCatch (do
    let (a, ts) ← read
    finish closing ts
    return a) fun f => do
    modify (· ++ [f])
    return other

/-- Whether question marks come next, and what follows them. -/
def questionMarks : List Token → Bool × List Token
  | .symbol "?" :: ts => (true, (questionMarks ts).2)
  | ts => (false, ts)

mutual

/-- A filter whose operators bind at least as tight as `tightness`, commas among them
or not. -/
def expression : Nat → Bool → Nat → List Token → Parser (Term × List Token)
  | 0, _, _, ts => fault .term ts
  | fuel + 1, commas, tightness, ts => do
    let (t, ts) ← atom fuel ts
    operators fuel commas tightness t ts

/-- The operators behind a filter. -/
def operators : Nat → Bool → Nat → Term → List Token → Parser (Term × List Token)
  | 0, _, _, _, ts => fault .term ts
  | _ + 1, _, _, t, [] => pure (t, [])
  | fuel + 1, commas, tightness, t, o :: ts =>
    match operator? commas o with
    | none => pure (t, o :: ts)
    | some (level, right, make) =>
      if level < tightness then pure (t, o :: ts)
      else do
        let (u, ts) ← expression fuel commas (if right then level else level + 1) ts
        operators fuel commas tightness (make t u) ts

/-- A term with the question marks and the steps behind it. -/
def atom : Nat → List Token → Parser (Term × List Token)
  | 0, ts => fault .term ts
  | fuel + 1, ts => do
    let (t, ts) ← head fuel ts
    let (optional, ts) := questionMarks ts
    let (behind, ts) ← steps fuel ts
    return ((if optional then Term.attempt t (.builtin .empty) else t).followed behind, ts)

/-- A term without what may follow it. -/
def head : Nat → List Token → Parser (Term × List Token)
  | 0, ts => fault .term ts
  | fuel + 1, .symbol "-" :: ts => do
    let (t, ts) ← atom fuel ts
    return (.negate t, ts)
  | fuel + 1, .word "try" :: ts => do
    let (t, ts) ← atom fuel ts
    match ts with
    | .word "catch" :: ts => do
      let (h, ts) ← atom fuel ts
      return (.attempt t h, ts)
    | ts => return (.attempt t (.builtin .empty), ts)
  | fuel + 1, .word "if" :: ts => conditional fuel ts
  | fuel + 1, .word name :: .block '(' inner _ :: ts => do
    let args ← enclosed "" [] (arguments fuel inner)
    return (call name args, ts)
  | _ + 1, .word name :: ts => return (call name [], ts)
  | _ + 1, .number text :: ts => return (.number text, ts)
  | _ + 1, .variable_ name :: ts => return (.unboundVariable name, ts)
  | fuel + 1, .quoted pieces _ :: ts => return (← parts fuel none pieces, ts)
  | fuel + 1, .block '(' inner _ :: ts =>
    return (← enclosed ")" .self (expression fuel true 1 inner), ts)
  | _ + 1, .block '[' [.symbol "]"] _ :: ts => return (.emptyArray, ts)
  | fuel + 1, .block '[' inner _ :: ts =>
    return (.collect (← enclosed "]" .self (expression fuel true 1 inner)), ts)
  | fuel + 1, .block _ inner _ :: ts =>
    return (← enclosed "" .self (entries fuel none inner), ts)
  | fuel + 1, .symbol s :: ts =>
    if s = "." then
      match ts with
      | .quoted _ _ :: _ => do
        let (behind, ts) ← steps fuel (.symbol s :: ts)
        return (Term.self.followed behind, ts)
      | ts => return (.self, ts)
    else
      match field? s with
      | some _ => do
        let (behind, ts) ← steps fuel (.symbol s :: ts)
        return (Term.self.followed behind, ts)
      | none => fault .term (.symbol s :: ts)
  | _ + 1, ts => fault .term ts

/-- The steps behind a term. -/
def steps : Nat → List Token → Parser (Steps × List Token)
  | 0, ts => fault .term ts
  | fuel + 1, .block '[' inner _ :: ts => do
    let make ← enclosed "]" Steps.each (bracket fuel inner)
    let (optional, ts) := questionMarks ts
    let (rest, ts) ← steps fuel ts
    return (make optional rest, ts)
  | fuel + 1, .symbol "." :: .quoted pieces _ :: ts => do
    let key ← parts fuel none pieces
    let (optional, ts) := questionMarks ts
    let (rest, ts) ← steps fuel ts
    return (.index key optional rest, ts)
  | _ + 1, .symbol "." :: ts => fault .key ts
  | fuel + 1, .symbol s :: ts =>
    match field? s with
    | some key => do
      let (optional, ts) := questionMarks ts
      let (rest, ts) ← steps fuel ts
      return (.index (.string key) optional rest, ts)
    | none => return (.done, .symbol s :: ts)
  | _ + 1, ts => return (.done, ts)

/-- The step in square brackets: a key, a slice, or all parts. -/
def bracket : Nat → List Token → Parser ((Bool → Steps → Steps) × List Token)
  | 0, ts => fault .term ts
  | _ + 1, [.symbol "]"] => return (.each, [.symbol "]"])
  | fuel + 1, .symbol ":" :: ts => do
    let (u, ts) ← expression fuel true 1 ts
    return (.sliceTo u, ts)
  | fuel + 1, ts => do
    let (t, ts) ← expression fuel true 1 ts
    match ts with
    | [.symbol ":", .symbol "]"] => return (.sliceFrom t, [.symbol "]"])
    | .symbol ":" :: ts => do
      let (u, ts) ← expression fuel true 1 ts
      return (.slice t u, ts)
    | ts => return (.index t, ts)

/-- The arguments of a name, to the closing bracket. -/
def arguments : Nat → List Token → Parser (List Term × List Token)
  | 0, ts => fault .term ts
  | fuel + 1, ts => do
    let (t, ts) ← expression fuel true 1 ts
    match ts with
    | .symbol ";" :: ts => do
      let (rest, ts) ← arguments fuel ts
      return (t :: rest, ts)
    | .symbol ")" :: ts => return ([t], ts)
    | ts => fault .argumentEnd ts

/-- The parts of a string, added to what stands before them. -/
def parts : Nat → Option Term → List Piece → Parser Term
  | 0, _, _ => fault .term []
  | _ + 1, t, [] => return t.getD (.string "")
  | fuel + 1, t, .text s :: pieces => parts fuel (some (joined t (.string s))) pieces
  | fuel + 1, t, .insert inner :: pieces => do
    let u ← enclosed ")" .self (expression fuel true 1 inner)
    parts fuel (some (joined t (.shown u))) pieces

/-- The entries of an object, added to those before them, to the closing brace. -/
def entries : Nat → Option Term → List Token → Parser (Term × List Token)
  | 0, _, ts => fault .key ts
  | _ + 1, before, .symbol "\x7d" :: ts => return (before.getD .emptyObject, ts)
  | fuel + 1, before, ts => do
    let (t, ts) ← entryOf fuel ts
    let t := joined before t
    match ts with
    | .symbol "," :: ts => entries fuel (some t) ts
    | .symbol "\x7d" :: ts => return (t, ts)
    | ts => fault .entryEnd ts

/-- An entry of an object; the value may be left out, unless the key is computed. -/
def entryOf : Nat → List Token → Parser (Term × List Token)
  | 0, ts => fault .key ts
  | fuel + 1, .word name :: ts => entryValue fuel (.string name) (.ownEntry (.string name)) ts
  | fuel + 1, .variable_ name :: ts =>
    entryValue fuel (.unboundVariable name)
      (.entry (.string (String.ofList (name.toList.drop 1))) (.unboundVariable name)) ts
  | fuel + 1, .quoted pieces _ :: ts => do
    let key ← parts fuel none pieces
    entryValue fuel key (.ownEntry key) ts
  | fuel + 1, .block '(' inner _ :: ts => do
    let key ← enclosed ")" .self (expression fuel true 1 inner)
    let ts ← expect ":" ts
    let (v, ts) ← expression fuel false 1 ts
    return (.entry key v, ts)
  | _ + 1, ts => fault .key ts

/-- The entry of a key with the value behind a colon, or another one without it. -/
def entryValue : Nat → Term → Term → List Token → Parser (Term × List Token)
  | 0, _, _, ts => fault .term ts
  | fuel + 1, key, _, .symbol ":" :: ts => do
    let (v, ts) ← expression fuel false 1 ts
    return (.entry key v, ts)
  | _ + 1, _, short, ts => return (short, ts)

/-- A condition after `if` or `elif`, with its branches. -/
def conditional : Nat → List Token → Parser (Term × List Token)
  | 0, ts => fault .term ts
  | fuel + 1, ts => do
    let (c, ts) ← expression fuel true 1 ts
    let ts ← expect "then" ts
    let (yes, ts) ← expression fuel true 1 ts
    match ts with
    | .word "elif" :: ts => do
      let (no, ts) ← conditional fuel ts
      return (.ifThenElse c yes no, ts)
    | .word "else" :: ts => do
      let (no, ts) ← expression fuel true 1 ts
      let ts ← expect "end" ts
      return (.ifThenElse c yes no, ts)
    | .word "end" :: ts => return (.ifThenElse c yes .self, ts)
    | ts => fault .branchEnd ts

end

/-- The filter of tokens that a text of a given length was cut into, or the faults in
them. -/
def ofTokens? (length : Nat) (ts : List Token) : Except (List ParseFault) Term :=
  match (enclosed "" .self (expression (8 * (length + 1)) true 1 ts)).run [] with
  | (.ok t, []) => .ok t
  | (.ok _, faults) => .error faults
  | (.error f, faults) => .error (faults ++ [f])

/-! ### Names -/

/-- A name that no filter is known by, or a variable that is not bound. -/
inductive Unknown where
  | name (name : String) (arity : Nat)
  | variable_ (name : String)
deriving DecidableEq

mutual

/-- The names and variables of a filter that stand for nothing: those in arguments
before the name, and those in the last branch of a condition before the others. -/
def unknowns : Term → List Unknown
  | .unknownName name arity arguments => unknownsIn arguments ++ [.name name arity]
  | .unboundVariable name => [.variable_ name]
  | .shown t => unknowns t
  | .collect t => unknowns t
  | .negate t => unknowns t
  | .map t => unknowns t
  | .select t => unknowns t
  | .raise t => unknowns t
  | .sum t => unknowns t
  | .ownEntry t => unknowns t
  | .entry a b => unknowns a ++ unknowns b
  | .pipe a b => unknowns a ++ unknowns b
  | .comma a b => unknowns a ++ unknowns b
  | .otherwise a b => unknowns a ++ unknowns b
  | .or a b => unknowns a ++ unknowns b
  | .and a b => unknowns a ++ unknowns b
  | .math _ a b => unknowns a ++ unknowns b
  | .compare _ a b => unknowns a ++ unknowns b
  | .attempt a b => unknowns a ++ unknowns b
  | .range a b c => unknowns a ++ unknowns b ++ unknowns c
  | .ifThenElse c yes no => unknowns no ++ unknowns c ++ unknowns yes
  | .path t steps => unknowns t ++ unknownsAlong steps
  | _ => []

/-- The names and variables of filters, one after the other. -/
def unknownsIn : List Term → List Unknown
  | [] => []
  | t :: ts => unknowns t ++ unknownsIn ts

/-- The names and variables of steps, one after the other. -/
def unknownsAlong : Steps → List Unknown
  | .done => []
  | .index k _ rest => unknowns k ++ unknownsAlong rest
  | .sliceFrom a _ rest => unknowns a ++ unknownsAlong rest
  | .sliceTo b _ rest => unknowns b ++ unknownsAlong rest
  | .slice a b _ rest => unknowns a ++ unknowns b ++ unknownsAlong rest
  | .each _ rest => unknownsAlong rest

end

end Term
end Filter
end Wireform
