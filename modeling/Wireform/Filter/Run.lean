/-
# Running filters

A filter gives its results in order, each a value or an error; an error stands in
the place of a value and does not end the results behind it. Where the results of
two filters are put together, each result of the first meets each of the second, so
there are none if one of them has none. Where the second filter depends on a result
of the first, an error of the first stays as it is.

Integers wrap around at 64 signed bits.

Indexing an array by a string or an object by a number is an error, and so is
indexing anything else, `null` included. A position outside an array gives `null`.

Key definitions: `Filter.RunFault`, `Filter.Term.run`, `Filter.apply`, `Filter.Fault`,
`Filter.language`.
-/
import Wireform.Filter.Term
import Wireform.Filter.Value
import Wireform.Json.Reader

namespace Wireform
namespace Filter

/-- An error while a filter runs. -/
inductive RunFault where
  /-- An error that a filter raised with a value. -/
  | raised (v : Value)
  | cannotIndex (v key : Value)
  /-- A value is not of the kind that was needed. -/
  | cannotUse (v : Value) (kind : String)
  | cannotCalculate (first : Value) (op : Arithmetic) (second : Value)

namespace RunFault

/-- The parts of a message: words, and values with their kinds. -/
def parts : List (String ⊕ Value) → String
  | ps => "Error(Str([" ++ ", ".intercalate (ps.map part) ++ "]))"
where
  /-- A part of a message. -/
  part : String ⊕ Value → String
    | .inl s => "Str(" ++ Text.quoted s ++ ")"
    | .inr v => "Val(" ++ v.detailText ++ ")"

/-- The message of an error as a list of parts; none if it was raised with a value. -/
def message : RunFault → List (String ⊕ Value)
  | .raised v => [.inr v]
  | .cannotIndex v key => [.inl "cannot index ", .inr v, .inl " with ", .inr key]
  | .cannotUse v kind => [.inl "cannot use ", .inr v, .inl " as ", .inl kind]
  | .cannotCalculate a op b =>
    [.inl "cannot calculate ", .inr a, .inl " ", .inl op.sign, .inl " ", .inr b]

/-- The text of an error with the kinds of its values. -/
def text : RunFault → String
  | .raised v => "Error(Val(" ++ v.detailText ++ "))"
  | f => parts f.message

/-- The value of an error, as a handler takes it. -/
def value : RunFault → Value
  | .raised v => v
  | f => .string (String.join (f.message.map fun p =>
      match p with
      | .inl s => s
      | .inr v => String.ofList v.text))

end RunFault

/-- A result of a filter. -/
abbrev Result := Except RunFault Value

/-! ### Access -/

namespace Value

/-- A position from the front, or from the back if it is negative, in a list of a
given length. -/
def position? (i : Int) (length : Nat) : Option Nat :=
  if 0 ≤ i then some i.toNat
  else if 0 ≤ (length : Int) + i then some ((length : Int) + i).toNat
  else none

/-- The part of a value that a key names. -/
def index (v key : Value) : Result :=
  match v, key with
  | .array items, .int i => .ok (((position? i items.length).bind (items[·]?)).getD .null)
  | .object members, .string k => .ok ((members.lookup k).getD .null)
  | .array _, _ => .error (.cannotIndex v key)
  | .object _, _ => .error (.cannotIndex v key)
  | _, _ => .error (.cannotUse v "iterable (array or object)")

/-- A bound of a slice; an absent one is the given end. -/
def bound (b : Option Value) (length ending : Nat) : Except RunFault Nat :=
  match b with
  | none => .ok ending
  | some (.int i) => .ok (min ((position? i length).getD 0) length)
  | some v => .error (.cannotUse v "integer")

/-- The part of an array or a string between two bounds. -/
def slice (v : Value) (lower upper : Option Value) : Result :=
  match v with
  | .array items => do
    let a ← bound lower items.length 0
    let b ← bound upper items.length items.length
    .ok (.array ((items.take b).drop a))
  | .string s => do
    let cs := s.toList
    let a ← bound lower cs.length 0
    let b ← bound upper cs.length cs.length
    .ok (.string (String.ofList ((cs.take b).drop a)))
  | _ => .error (.cannotUse v "rangeable (array or string)")

/-- The items of an array or the values of an object. -/
def each (v : Value) : List Result :=
  match v with
  | .array items => items.map .ok
  | .object members => members.map fun m => .ok m.2
  | _ => [.error (.cannotUse v "iterable (array or object)")]

/-- The keys of an object in their order, or the positions of an array. -/
def keysInOrder (v : Value) : Except RunFault (List Value) :=
  match v with
  | .array items => .ok ((List.range items.length).map fun i => .int (i : Nat))
  | .object members => .ok (members.map fun m => .string m.1)
  | _ => .error (.cannotUse v "iterable (array or object)")

/-! ### Arithmetic -/

/-- An operation on two binary64 numbers. -/
def onFloatings (op : Arithmetic) (x y : Floating) : Floating :=
  match op with
  | .add => x.add y
  | .sub => x.sub y
  | .mul => x.mul y
  | .div => x.div y
  | .rem => x.rem y

/-- An integer, wrapped around at 64 signed bits. -/
def wrapped (n : Int) : Value := .int (n.bmod 0x10000000000000000)

/-- An operation on two integers; a quotient is a binary64 number, and by zero there is
no remainder. -/
def onInts (op : Arithmetic) (a b : Int) : Option Value :=
  match op with
  | .add => some (wrapped (a + b))
  | .sub => some (wrapped (a - b))
  | .mul => some (wrapped (a * b))
  | .div => some (.floating (.div (.ofInt a) (.ofInt b)))
  | .rem => if b = 0 then none else some (wrapped (a.tmod b))

/-- Whether two values are the same. -/
def isSame (a b : Value) : Bool := compare a b == .eq

/-- The members of one object put onto those of another; where both hold objects,
their members in turn, down to a depth. -/
def merge : Nat → List (String × Value) → List (String × Value) → List (String × Value)
  | 0, ms, _ => ms
  | depth + 1, ms, ns => ns.foldl (fun ms n =>
      match ms.lookup n.1, n.2 with
      | some (.object old), .object new => Keyed.put ms n.1 (.object (merge depth old new))
      | _, v => Keyed.put ms n.1 v) ms

/-- A string several times over; `null` if it is no time at all. -/
def times (s : String) (n : Int) : Value :=
  if 0 < n then .string (String.join (List.replicate n.toNat s)) else .null

/-- The pieces of a string between the places where another one stands; its
characters if that one is empty. -/
def pieces (s separator : String) : Value :=
  if s = "" then .array []
  else if separator = "" then .array (s.toList.map fun c => .string (String.singleton c))
  else .array ((s.splitOn separator).map .string)

/-- A value as it takes part in an operation: a written number as the binary64 number
that it stands for. -/
def operand : Value → Value
  | .written s => .floating (.ofDecimalText s.toList)
  | v => v

/-- An operation on two operands. -/
def combine (op : Arithmetic) (a b : Value) : Result :=
  let failed : Result := .error (.cannotCalculate a op b)
  match op, a, b with
  | .add, .string s, .string t => .ok (.string (s ++ t))
  | .add, .array xs, .array ys => .ok (.array (xs ++ ys))
  | .add, .object xs, .object ys => .ok (.object (Keyed.putAll xs ys))
  | .sub, .array xs, .array ys => .ok (.array (xs.filter fun x => !ys.any (isSame x)))
  | .mul, .object xs, .object ys => .ok (.object (merge (nestingMembers ys + 1) xs ys))
  | .mul, .string s, .int n => .ok (times s n)
  | .mul, .int n, .string s => .ok (times s n)
  | .div, .string s, .string t => .ok (pieces s t)
  | op, .int m, .int n =>
    match onInts op m n with
    | some v => .ok v
    | none => failed
  | op, a, b =>
    match a.number?, b.number? with
    | some x, some y => .ok (.floating (onFloatings op x y))
    | _, _ => failed

/-- An operation on two values; `null` adds nothing. -/
def calculate (op : Arithmetic) (a b : Value) : Result :=
  match op, a, b with
  | .add, .null, v => .ok v
  | .add, v, .null => .ok v
  | op, a, b => combine op a.operand b.operand

/-- The number with the other sign. -/
def negate (v : Value) : Result :=
  match v with
  | .int n => .ok (wrapped (-n))
  | v =>
    match v.number? with
    | some x => .ok (.floating x.negate)
    | none => .error (.cannotUse v "number")

/-- Whether a comparison holds. -/
def holds (op : Comparison) (a b : Value) : Bool :=
  match op, compare a b with
  | .eq, o => o == .eq
  | .ne, o => o != .eq
  | .lt, o => o == .lt
  | .le, o => o != .gt
  | .gt, o => o == .gt
  | .ge, o => o != .lt

/-! ### Named filters -/

/-- How long a value is; the length of a number is its absolute value. -/
def lengthOf (v : Value) : Result :=
  match v with
  | .null => .ok (.int 0)
  | .bool _ => .error (.raised (.string (String.ofList v.text ++ " has no length")))
  | .int n => .ok (wrapped n.natAbs)
  | .string s => .ok (.int s.length)
  | .array items => .ok (.int items.length)
  | .object members => .ok (.int members.length)
  | .written s => .ok (.floating (Floating.ofDecimalText s.toList).abs)
  | .floating x => .ok (.floating x.abs)

/-- The name of the kind of a value. -/
def kindName : Value → String
  | .null => "null"
  | .bool _ => "boolean"
  | .int _ => "number"
  | .written _ => "number"
  | .floating _ => "number"
  | .string _ => "string"
  | .array _ => "array"
  | .object _ => "object"

/-- All results added up, from `null` on. -/
def sumOf (rs : List Result) : Result :=
  rs.foldlM (fun sum r => do calculate .add sum (← r)) .null

/-- The characters of a string as code points. -/
def explode (v : Value) : Result :=
  match v with
  | .string s => .ok (.array (s.toList.map fun c => .int c.toNat))
  | _ => .error (.cannotUse v "string")

/-- A string with its ASCII letters in lower case. -/
def asciiDowncase (v : Value) : Result :=
  match v with
  | .string s => .ok (.string (String.ofList (s.toList.map Char.toLower)))
  | _ => .error (.cannotUse v "string")

/-- The entries of an object, or of an array by position, as objects with `key` and
`value`. -/
def toEntries (v : Value) : Result := do
  let keys ← keysInOrder v
  let entries ← keys.mapM fun k => do
    let x ← index v k
    .ok (Value.object [("key", k), ("value", x)])
  .ok (.array entries)

/-- The keys of an object in sorted order, or the positions of an array. -/
def sortedKeys (v : Value) : Result :=
  match v with
  | .object members => .ok (.array ((sortedMembers members).map fun m => .string m.1))
  | v => do .ok (.array (← keysInOrder v))

/-- Whether a range that takes steps of a sign has more to give before its end. -/
def goesOn (sign : Ordering) (x ending : Value) : Bool :=
  match sign with
  | .gt => holds .lt x ending
  | .lt => holds .gt x ending
  | .eq => holds .ne x ending

/-- The values from one on, a step apart, up to an end that is left out; at most so many. -/
def stepping (step ending : Value) : Nat → Value → List Result
  | 0, _ => []
  | fuel + 1, x =>
    if goesOn (compare step (.int 0)) x ending then
      .ok x :: match calculate .add x step with
        | .ok y => stepping step ending fuel y
        | .error e => [.error e]
    else []

/-- A bound for the number of steps from one value to another; `null` counts as zero. -/
def stepBound (start ending step : Value) : Nat :=
  match start, ending, step with
  | .int a, .int b, .int c => ((b - a) / c).natAbs + 1
  | start, ending, step =>
    match ending.number?, step.number? with
    | some y, some z =>
      match (y.sub (start.number?.getD (.ofInt 0))).div z with
      | .finite d => d.magnitude.1 / d.magnitude.2 + 3
      | _ => 2
    | _, _ => 2

/-- The values from one on up to another, which is left out, a step apart. -/
def rangeOf (start ending step : Value) : List Result :=
  stepping step ending (stepBound start ending step) start

end Value

/-! ### Filters -/

/-- The results for each value in turn; errors stay in their place. -/
def bindResults {α : Type} (f : α → List Result) : List (Except RunFault α) → List Result
  | [] => []
  | .ok a :: rs => f a ++ bindResults f rs
  | .error e :: rs => .error e :: bindResults f rs

/-- The results of an operation for each pair of results, the first ones outermost; of
two errors the first counts. -/
def pairs {α β γ : Type} (f : α → β → Except RunFault γ) (xs : List (Except RunFault α))
    (ys : List (Except RunFault β)) : List (Except RunFault γ) :=
  xs.flatMap fun x => ys.map fun y => do f (← x) (← y)

/-- Results without errors if the step is optional. -/
def settle (optional : Bool) (rs : List Result) : List Result :=
  if optional then rs.filter fun r => r.toOption.isSome else rs

/-- Whether a result counts for an alternative: an error, or a value that is neither
`null` nor `false`. -/
def counts : Result → Bool
  | .ok v => v.truthy
  | .error _ => true

/-- The value of a number as it is written in a filter. -/
def literal (text : String) : Value :=
  let n := Text.ofDigits text.toList
  if text.toList.all Text.isDigit ∧ Value.fits n then .int n else .written text

/-- The result of a named filter. -/
def Builtin.run (v : Value) : Builtin → List Result
  | .empty => []
  | .error => [.error (.raised v)]
  | .not => [.ok (.bool !v.truthy)]
  | .length => [v.lengthOf]
  | .keys => [v.sortedKeys]
  | .add => [Value.sumOf v.each]
  | .type => [.ok (.string v.kindName)]
  | .toEntries => [v.toEntries]
  | .toJson => [.ok (.string (String.ofList v.text))]
  | .explode => [v.explode]
  | .asciiDowncase => [v.asciiDowncase]

/-- An object with one entry. -/
def entry (key value : Value) : Result :=
  match key with
  | .string k => .ok (.object [(k, value)])
  | k => .error (.cannotUse k "string")

/-- The values of results up to the first error, or that error. -/
def gather : List Result → Except RunFault (List Value)
  | [] => .ok []
  | .error e :: _ => .error e
  | .ok v :: rs => do
    let vs ← gather rs
    .ok (v :: vs)

/-- The values up to the first error, and that error with what follows of it. -/
def untilError (handler : RunFault → List Result) : List Result → List Result
  | [] => []
  | .ok v :: rs => .ok v :: untilError handler rs
  | .error e :: _ => handler e

/-- A step whose key or bounds are known. -/
inductive Access where
  | index (key : Value)
  | slice (lower upper : Option Value)
  | each

/-- The parts of a value that a step leads to. -/
def Access.from (v : Value) : Access → List Result
  | .index key => [v.index key]
  | .slice lower upper => [v.slice lower upper]
  | .each => v.each

/-- The parts of a value that steps lead to, one after the other; the errors of an
optional step are left out. -/
def follow : List (Access × Bool) → Value → List Result
  | [], v => [.ok v]
  | (access, optional) :: rest, v => bindResults (follow rest) (settle optional (access.from v))

/-- A step in front of further steps. -/
def before (optional : Bool) (access : Access) (rest : List (Access × Bool)) :
    Except RunFault (List (Access × Bool)) := .ok ((access, optional) :: rest)

mutual

/-- The results of a filter for a value. -/
def Term.run : Term → Value → List Result
  | .self, v => [.ok v]
  | .null, _ => [.ok .null]
  | .bool b, _ => [.ok (.bool b)]
  | .number text, _ => [.ok (literal text)]
  | .string text, _ => [.ok (.string text)]
  | .shown t, v => bindResults (fun x => [.ok (.string x.shown)]) (t.run v)
  | .emptyArray, _ => [.ok (.array [])]
  | .collect t, v => [(gather (t.run v)).map .array]
  | .emptyObject, _ => [.ok (.object [])]
  | .entry k t, v => pairs entry (k.run v) (t.run v)
  | .ownEntry k, v =>
    let keys := k.run v
    pairs entry keys (bindResults (fun k => [v.index k]) keys)
  | .negate t, v => bindResults (fun x => [x.negate]) (t.run v)
  | .pipe a b, v => bindResults b.run (a.run v)
  | .comma a b, v => a.run v ++ b.run v
  | .otherwise a b, v =>
    match (a.run v).filter counts with
    | [] => b.run v
    | rs => rs
  | .or a b, v => bindResults (fun x =>
      if x.truthy then [.ok (.bool true)]
      else bindResults (fun y => [.ok (.bool y.truthy)]) (b.run v)) (a.run v)
  | .and a b, v => bindResults (fun x =>
      if x.truthy then bindResults (fun y => [.ok (.bool y.truthy)]) (b.run v)
      else [.ok (.bool false)]) (a.run v)
  | .math op a b, v => pairs (Value.calculate op) (a.run v) (b.run v)
  | .compare op a b, v => pairs (fun x y => .ok (.bool (Value.holds op x y))) (a.run v) (b.run v)
  | .path t steps, v =>
    let ways := steps.run v
    bindResults (fun x => bindResults (fun way => follow way x) ways) (t.run v)
  | .attempt t h, v => untilError (fun e => h.run e.value) (t.run v)
  | .ifThenElse c t e, v => bindResults (fun x => if x.truthy then t.run v else e.run v) (c.run v)
  | .builtin b, v => b.run v
  | .map t, v => [(gather (bindResults t.run v.each)).map .array]
  | .select t, v => bindResults (fun x => if x.truthy then [.ok v] else []) (t.run v)
  | .raise t, v =>
    match t.run v with
    | [] => [.ok v]
    | rs => bindResults (fun x => [.error (.raised x)]) rs
  | .sum t, v => [Value.sumOf (t.run v)]
  | .range a b c, v => bindResults (fun x => bindResults (fun y =>
      bindResults (Value.rangeOf x y) (c.run v)) (b.run v)) (a.run v)
  | .unknownName _ _ _, _ => []
  | .unboundVariable _, _ => []

/-- All ways that steps describe, their keys and bounds worked out for a value. -/
def Steps.run : Steps → Value → List (Except RunFault (List (Access × Bool)))
  | .done, _ => [.ok []]
  | .index k optional rest, v =>
    pairs (fun k => before optional (.index k)) (k.run v) (rest.run v)
  | .sliceFrom a optional rest, v =>
    pairs (fun a => before optional (.slice (some a) none)) (a.run v) (rest.run v)
  | .sliceTo b optional rest, v =>
    pairs (fun b => before optional (.slice none (some b))) (b.run v) (rest.run v)
  | .slice a b optional rest, v =>
    pairs (before optional) (pairs (fun a b => .ok (.slice (some a) (some b))) (a.run v) (b.run v))
      (rest.run v)
  | .each optional rest, v => (rest.run v).map fun way => do before optional .each (← way)

end

/-! ### Filter texts -/

/-- Why a filter could not be applied. -/
inductive Fault where
  | lexical (faults : List LexFault)
  | grammatical (faults : List ParseFault)
  | unknown (unknowns : List Term.Unknown)
  | run (fault : RunFault)
  /-- A result is not JSON. -/
  | notJson (text : String) (fault : SyntaxFault)

/-- The wording of an unknown name or an unbound variable in a filter text. -/
def unknownText (filter : String) : Term.Unknown → String
  | .name name arity =>
    "undefined `" ++ name ++ "`: Filter(" ++ toString arity ++ ") in `" ++ filter ++ "`\n"
  | .variable_ name => "undefined `" ++ name ++ "`: Var in `" ++ filter ++ "`\n"

/-- The wording of a fault of a filter text. -/
def Fault.text (filter : String) : Fault → String
  | .lexical faults =>
    "parse error: Lex([" ++ ", ".intercalate (faults.map LexFault.text) ++ "]) in `" ++ filter ++
      "`\n"
  | .grammatical faults =>
    "parse error: Parse([" ++ ", ".intercalate (faults.map ParseFault.text) ++ "]) in `" ++
      filter ++ "`\n"
  | .unknown unknowns => String.join (unknowns.map (unknownText filter))
  | .run fault => "jq evaluation failed: " ++ fault.text
  | .notJson text fault =>
    "jq produced a value that is not JSON: " ++ text ++ ": " ++ fault.text

/-- The filter of a text. -/
def ofText? (text : String) : Except Fault Term :=
  match Token.ofText? text with
  | .error faults => .error (.lexical faults)
  | .ok tokens =>
    match Term.ofTokens? text.length tokens with
    | .error faults => .error (.grammatical faults)
    | .ok t =>
      match t.unknowns with
      | [] => .ok t
      | unknowns => .error (.unknown unknowns)

/-- The documents of results, which are written and read back, up to the first fault. -/
def documents : List Result → Except Fault (List Json)
  | [] => .ok []
  | .error e :: _ => .error (.run e)
  | .ok v :: rs =>
    match Json.parse? (String.ofList v.text) with
    | .error f => .error (.notJson (String.ofList v.text) f)
    | .ok doc => do
      let docs ← documents rs
      .ok (doc :: docs)

/-- The documents that a filter text makes of a document. -/
def apply (filter : String) (doc : Json) : Except Fault (List Json) := do
  let t ← ofText? filter
  documents (t.run (.ofJson doc))

/-- The filters as a language: what they make of a document, or the wording of a fault.
They all end. -/
def language (filter : String) (doc : Json) : Option (Except String (List Json)) :=
  some ((apply filter doc).mapError (Fault.text filter))

end Filter
end Wireform
