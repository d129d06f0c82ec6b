/-
# Name patterns

A pattern stands for file names. `?` is any character, `*` any run of characters,
`[..]` one character of a set and `[!..]` one outside it, where `a-z` in a set is a
range. `**` stands alone as a whole component and leads through any directories.
Every other character stands for itself.

Key definitions: `Pattern`, `Pattern.ofText?`, `Pattern.admits`.
-/

namespace Wireform

/-- Part of a set of characters. -/
inductive CharSpan where
  | single (c : Char)
  | range (first last : Char)
deriving DecidableEq

/-- Whether a character is in a part of a set. -/
def CharSpan.admits (c : Char) : CharSpan → Bool
  | .single d => c == d
  | .range first last => first ≤ c && c ≤ last

/-- One token of a pattern. -/
inductive PatternToken where
  | char (c : Char)
  | anyChar
  | anyRun
  | anyDirectories
  | within (set : List CharSpan)
  | except (set : List CharSpan)
deriving DecidableEq

/-- What can be wrong with a pattern. -/
inductive PatternFlaw where
  | longWildcard
  | partialRecursion
  | openRange
deriving DecidableEq

/-- A flaw with the number of characters before it. -/
structure PatternFault where
  flaw : PatternFlaw
  position : Nat
deriving DecidableEq

/-- The wording of a pattern fault. -/
def PatternFault.text (f : PatternFault) : String :=
  "Pattern syntax error near position " ++ toString f.position ++ ": " ++
    match f.flaw with
    | .longWildcard => "wildcards are either regular `*` or recursive `**`"
    | .partialRecursion => "recursive wildcards must form a single path component"
    | .openRange => "invalid range pattern"

/-- The tokens of a pattern for one component. -/
abbrev Pattern := List PatternToken

namespace Pattern

/-- The parts of a set of characters. -/
def spans : List Char → List CharSpan
  | a :: '-' :: b :: cs => .range a b :: spans cs
  | c :: cs => .single c :: spans cs
  | [] => []

/-- The characters of a set up to its closing bracket, which is never the first
one, and what is ahead of it. -/
def setBody : List Char → Option (List Char × List Char)
  | [] => none
  | c :: cs =>
    if cs.contains ']' then
      some (c :: cs.takeWhile (· ≠ ']'), (cs.dropWhile (· ≠ ']')).drop 1)
    else none

/-- A set of characters after its opening bracket: its token, and what is ahead. -/
def set : List Char → Option (PatternToken × List Char)
  | '!' :: cs => (setBody cs).map fun r => (.except (spans r.1), r.2)
  | cs => (setBody cs).map fun r => (.within (spans r.1), r.2)

/-- The tokens of a text that stands `position` characters into the pattern, after
the character `before` if there is one. -/
def tokens : Nat → Nat → Option Char → List Char → Except PatternFault Pattern
  | 0, _, _, _ => .ok []
  | _ + 1, _, _, [] => .ok []
  | fuel + 1, position, before, c :: cs =>
    if c = '?' then do
      let rest ← tokens fuel (position + 1) (some c) cs
      .ok (.anyChar :: rest)
    else if c = '*' then
      let stars := (cs.takeWhile (· = '*')).length + 1
      let ahead := cs.dropWhile (· = '*')
      if 2 < stars then .error ⟨.longWildcard, position + 2⟩
      else if stars = 1 then do
        let rest ← tokens fuel (position + 1) (some c) ahead
        .ok (.anyRun :: rest)
      else if before ≠ none ∧ before ≠ some '/' then
        .error ⟨.partialRecursion, position - 1⟩
      else
        match ahead with
        | [] => .ok [.anyDirectories]
        | '/' :: ahead => do
          let rest ← tokens fuel (position + 3) (some '/') ahead
          .ok (.anyDirectories :: rest)
        | _ => .error ⟨.partialRecursion, position + 2⟩
    else if c = '[' then
      match set cs with
      | none => .error ⟨.openRange, position⟩
      | some (token, ahead) => do
        let rest ← tokens fuel (position + 1 + (cs.length - ahead.length)) (some ']') ahead
        .ok (token :: rest)
    else do
      let rest ← tokens fuel (position + 1) (some c) cs
      .ok (.char c :: rest)

/-- The pattern that a text spells. -/
def ofText? (text : List Char) : Except PatternFault Pattern :=
  tokens (text.length + 1) 0 none text

/-- Whether a text is a pattern and not a plain path; a brace makes it one too, but
then stands for itself. -/
def isPattern (text : List Char) : Bool :=
  text.any fun c => c == '*' || c == '?' || c == '[' || c == '\x7b'

/-- Whether the pattern leads through directories. -/
def isRecursive (p : Pattern) : Bool := p.contains .anyDirectories

/-- The characters of a pattern in which all stand for themselves. -/
def literal? : Pattern → Option (List Char)
  | [] => some []
  | .char c :: rest => (literal? rest).map (c :: ·)
  | _ => none

/-- Whether some end of a text is admitted. -/
def anyTail (admits : List Char → Bool) : List Char → Bool
  | [] => admits []
  | c :: cs => admits (c :: cs) || anyTail admits cs

/-- Whether a pattern admits a name. -/
def admits : Pattern → List Char → Bool
  | [], name => name.isEmpty
  | .anyRun :: rest, name => anyTail (admits rest) name
  | .anyDirectories :: rest, name => anyTail (admits rest) name
  | .char d :: rest, c :: cs => c == d && admits rest cs
  | .anyChar :: rest, _ :: cs => admits rest cs
  | .within set :: rest, c :: cs => set.any (·.admits c) && admits rest cs
  | .except set :: rest, c :: cs => !set.any (·.admits c) && admits rest cs
  | _ :: _, [] => false

end Pattern
end Wireform
