/-
# Reading JSON

The reader takes one value off the front of a text and returns what is ahead.
Arrays and objects may nest 127 deep; each level of `Json.Reader.value` hands its loops
the reader of the level below, so the recursion is on that budget alone. Loops
over elements and characters are bounded by the length of the text.

Integers that fit 64 bits stay integers, `-0` and every other number become a double:
the digits and the power of ten are rounded each by itself (`Double.ofSpelled?`).
`\u` escapes outside the basic plane come in pairs of surrogates.

Key definitions: `Json.Reader.value`, `Json.readTree`, `Json.parse?`.
-/
import Wireform.Json.Basic
import Wireform.Json.Fault
import Wireform.Number.Reading

namespace Wireform
namespace Json
namespace Reader

open Text (isDigit digitValue ofDigits hexValue? splitSign)

/-- What was taken off the front of a text, with what is ahead. -/
abbrev Front (α : Type) := α × List Char

/-- A fault found by what stands ahead, its first byte counted as read. -/
def faultAt {α : Type} (flaw : Flaw) (ahead : List Char) : Except Fault α :=
  .error ⟨flaw, ahead, if ahead.isEmpty then 0 else 1, []⟩

/-- A fault found after what was read. -/
def faultAfter {α : Type} (flaw : Flaw) (ahead : List Char) : Except Fault α :=
  .error ⟨flaw, ahead, 0, []⟩

/-- The same result, a fault seen from the enclosing array or object. -/
def inside {α : Type} (step : Step) : Except Fault α → Except Fault α
  | .ok a => .ok a
  | .error f => .error (f.under step)

/-- Blank, tab, line feed and carriage return. -/
def isBlank (c : Char) : Bool := c == ' ' || c == '\t' || c == '\n' || c == '\r'

/-- What is ahead after blanks. -/
def skipBlanks (s : List Char) : List Char := s.dropWhile isBlank

/-! ### Literals and numbers -/

/-- The other letters of `null`, `true` or `false`. -/
def literal (v : Json) : List Char → List Char → Except Fault (Front Json)
  | [], s => .ok (v, s)
  | _ :: _, [] => faultAt .endOfValue []
  | c :: cs, d :: s => if c = d then literal v cs s else faultAt .expectedIdent (d :: s)

/-- The digits after a point, if there is a point. -/
def fraction : List Char → Except Fault (Front (Option (List Char)))
  | '.' :: s =>
    if (s.takeWhile isDigit).isEmpty then
      faultAt (if s.isEmpty then .endOfValue else .invalidNumber) s
    else .ok (some (s.takeWhile isDigit), s.dropWhile isDigit)
  | s => .ok (none, s)

/-- The greatest exponent that is counted. -/
def exponentLimit : Nat := 2147483647

/-- What is ahead of the digit by which an exponent passes the limit, if one does. -/
def pastLimit : Nat → List Char → Option (List Char)
  | _, [] => none
  | n, c :: cs =>
    if isDigit c then
      if exponentLimit < 10 * n + digitValue c then some cs
      else pastLimit (10 * n + digitValue c) cs
    else none

/-- The exponent of a number: none, a counted one, or one past the limit. -/
inductive Exponent where
  | absent
  | counted (value : Int)
  | huge (negative : Bool) (ahead : List Char)

/-- The exponent after `e` or `E`, if there is one. -/
def exponent : List Char → Except Fault (Front Exponent)
  | c :: s =>
    if c = 'e' ∨ c = 'E' then
      let (negative, ds) := splitSign s
      if (ds.takeWhile isDigit).isEmpty then
        faultAt (if ds.isEmpty then .endOfValue else .invalidNumber) ds
      else
        let ahead := ds.dropWhile isDigit
        match pastLimit 0 ds with
        | some rest => .ok (.huge negative rest, ahead)
        | none =>
          let n := ofDigits (ds.takeWhile isDigit)
          .ok (.counted (if negative then -n else n), ahead)
    else .ok (.absent, c :: s)
  | [] => .ok (.absent, [])

/-- The double that a decimal is read as, if it is finite. -/
def double (negative : Bool) (c : Decimal) (ahead : List Char) : Except Fault (Front Number) :=
  match Double.ofSpelled? negative c with
  | some d => .ok (.double d, ahead)
  | none => faultAfter .numberOutOfRange ahead

/-- The number that digits without a point or an exponent spell. -/
def integer (negative : Bool) (digits ahead : List Char) : Except Fault (Front Number) :=
  let n := ofDigits digits
  if negative ∧ n = 0 then .ok (.double (.zero true), ahead)
  else
    match Whole.ofInt? (if negative then -(n : Int) else n) with
    | some n => .ok (.whole n, ahead)
    | none => double negative (Decimal.collected digits []) ahead

/-- A number after its sign. -/
def number (negative : Bool) (s : List Char) : Except Fault (Front Number) :=
  match s with
  | [] => faultAt .endOfValue []
  | c :: t =>
    if !isDigit c then faultAt .invalidNumber s
    else if c == '0' && t.head?.any isDigit then faultAt .invalidNumber t
    else do
      let whole := s.takeWhile isDigit
      let (places, s) ← fraction (s.dropWhile isDigit)
      let (power, ahead) ← exponent s
      match places, power with
      | none, .absent => integer negative whole ahead
      | places, power =>
        let c := Decimal.collected whole (places.getD [])
        match power with
        | .absent => double negative c ahead
        | .counted e => double negative { c with exponent := c.exponent + e } ahead
        | .huge below rest =>
          if c.digits ≠ 0 ∧ !below then faultAfter .numberOutOfRange rest
          else .ok (.double (.zero negative), ahead)

/-! ### Strings -/

/-- The four hexadecimal digits of an escape. -/
def hexFour (s : List Char) : Except Fault (Front Nat) :=
  match s with
  | a :: b :: c :: d :: rest =>
    match hexValue? a, hexValue? b, hexValue? c, hexValue? d with
    | some w, some x, some y, some z => .ok (((w * 16 + x) * 16 + y) * 16 + z, rest)
    | _, _, _, _ => .error ⟨.invalidEscape, s, 4, []⟩
  | _ =>
    if byteCount s < 4 then faultAfter .endOfString []
    else .error ⟨.invalidEscape, s, 4, []⟩

/-- The second half of a pair of surrogates, whose first half was `high`. -/
def lowSurrogate (high : Nat) : List Char → Except Fault (Front Char)
  | '\\' :: 'u' :: s => do
    let (low, rest) ← hexFour s
    if low < 0xDC00 ∨ 0xDFFF < low then faultAfter .loneSurrogate rest
    else .ok (Char.ofNat ((high - 0xD800) * 1024 + (low - 0xDC00) + 0x10000), rest)
  | '\\' :: s => faultAt (if s.isEmpty then .endOfString else .brokenSurrogate) s
  | s => faultAt (if s.isEmpty then .endOfString else .brokenSurrogate) s

/-- The character of an escape, after its backslash. -/
def escaped : List Char → Except Fault (Front Char)
  | [] => faultAfter .endOfString []
  | '"' :: s => .ok ('"', s)
  | '\\' :: s => .ok ('\\', s)
  | '/' :: s => .ok ('/', s)
  | 'b' :: s => .ok (Char.ofNat 8, s)
  | 'f' :: s => .ok (Char.ofNat 12, s)
  | 'n' :: s => .ok ('\n', s)
  | 'r' :: s => .ok ('\r', s)
  | 't' :: s => .ok ('\t', s)
  | 'u' :: s => do
    let (n, rest) ← hexFour s
    if 0xDC00 ≤ n ∧ n ≤ 0xDFFF then faultAfter .loneSurrogate rest
    else if 0xD800 ≤ n ∧ n ≤ 0xDBFF then lowSurrogate n rest
    else .ok (Char.ofNat n, rest)
  | s => faultAt .invalidEscape s

/-- The characters of a string up to its closing quote. -/
def characters : Nat → List Char → Except Fault (Front (List Char))
  | 0, _ => faultAfter .endOfString []
  | _ + 1, [] => faultAfter .endOfString []
  | fuel + 1, c :: s =>
    if c = '"' then .ok ([], s)
    else if c = '\\' then do
      let (d, s) ← escaped s
      let (ds, s) ← characters fuel s
      .ok (d :: ds, s)
    else if c.toNat < 32 then faultAt .controlCharacter (c :: s)
    else do
      let (ds, s) ← characters fuel s
      .ok (c :: ds, s)

/-- A string after its opening quote. -/
def string (s : List Char) : Except Fault (Front String) := do
  let (cs, ahead) ← characters (s.length + 1) s
  .ok (String.ofList cs, ahead)

/-! ### Arrays and objects -/

/-- The items of an array from the one at `position` on, to the closing bracket. -/
def items (inner : List Char → Except Fault (Front Json)) :
    Nat → Nat → List Char → Except Fault (Front (List Json))
  | 0, _, _ => faultAt .endOfList []
  | fuel + 1, position, s => do
    let (v, s) ← inside (.index position) (inner s)
    match skipBlanks s with
    | ']' :: ahead => .ok ([v], ahead)
    | ',' :: s =>
      match skipBlanks s with
      | [] => faultAt .endOfValue []
      | ']' :: s => faultAt .trailingComma (']' :: s)
      | s => do
        let (vs, ahead) ← items inner fuel (position + 1) s
        .ok (v :: vs, ahead)
    | [] => faultAt .endOfList []
    | s => faultAt .expectedListEnd s

/-- An array after its opening bracket. -/
def array (inner : List Char → Except Fault (Front Json)) (s : List Char) :
    Except Fault (Front (List Json)) :=
  match skipBlanks s with
  | [] => faultAt .endOfList []
  | ']' :: ahead => .ok ([], ahead)
  | s => items inner s.length 0 s

/-- What is ahead after the colon of a member. -/
def colon (s : List Char) : Except Fault (List Char) :=
  match skipBlanks s with
  | ':' :: ahead => .ok ahead
  | [] => faultAt .endOfObject []
  | s => faultAt .expectedColon s

/-- A member of an object, from the opening quote of its key on. -/
def member (inner : List Char → Except Fault (Front Json)) (s : List Char) :
    Except Fault (Front (String × Json)) :=
  match s with
  | '"' :: s => do
    let (key, s) ← inside .unnamed (string s)
    let s ← colon s
    let (v, ahead) ← inside (.key key) (inner s)
    .ok ((key, v), ahead)
  | s => inside .unnamed (faultAt .keyNotString s)

/-- After a member: the next member's first character, or the end of the object. -/
def nextMember (s : List Char) : Except Fault (Front Bool) :=
  match skipBlanks s with
  | '\x7d' :: ahead => .ok (false, ahead)
  | ',' :: s =>
    match skipBlanks s with
    | [] => inside .unnamed (faultAt .endOfValue [])
    | '\x7d' :: s => inside .unnamed (faultAt .trailingComma ('\x7d' :: s))
    | s => .ok (true, s)
  | [] => inside .unnamed (faultAt .endOfObject [])
  | s => inside .unnamed (faultAt .expectedObjectEnd s)

/-- The members of an object from one of them on, to the closing brace. -/
def members (inner : List Char → Except Fault (Front Json)) :
    Nat → List Char → Except Fault (Front (List (String × Json)))
  | 0, _ => inside .unnamed (faultAt .endOfObject [])
  | fuel + 1, s => do
    let (m, s) ← member inner s
    let (more, s) ← nextMember s
    if more then do
      let (ms, ahead) ← members inner fuel s
      .ok (m :: ms, ahead)
    else .ok ([m], s)

/-- An object after its opening brace. -/
def object (inner : List Char → Except Fault (Front Json)) (s : List Char) :
    Except Fault (Front (List (String × Json))) :=
  match skipBlanks s with
  | [] => inside .unnamed (faultAt .endOfObject [])
  | '\x7d' :: ahead => .ok ([], ahead)
  | s => members inner s.length s

/-! ### Values -/

/-- A value, where `inner` reads the values inside arrays and objects; without
it none may be opened. -/
def valueWith (inner : Option (List Char → Except Fault (Front Json))) (s : List Char) :
    Except Fault (Front Json) :=
  match skipBlanks s with
  | [] => faultAt .endOfValue []
  | 'n' :: s => literal .null ['u', 'l', 'l'] s
  | 't' :: s => literal (.bool true) ['r', 'u', 'e'] s
  | 'f' :: s => literal (.bool false) ['a', 'l', 's', 'e'] s
  | '"' :: s => do
    let (text, ahead) ← string s
    .ok (.string text, ahead)
  | '-' :: s => do
    let (n, ahead) ← number true s
    .ok (.number n, ahead)
  | '[' :: s =>
    match inner with
    | none => faultAt .tooDeep ('[' :: s)
    | some inner => do
      let (vs, ahead) ← array inner s
      .ok (.array vs, ahead)
  | '\x7b' :: s =>
    match inner with
    | none => faultAt .tooDeep ('\x7b' :: s)
    | some inner => do
      let (ms, ahead) ← object inner s
      .ok (.object ms, ahead)
  | c :: s =>
    if isDigit c then do
      let (n, ahead) ← number false (c :: s)
      .ok (.number n, ahead)
    else faultAt .expectedValue (c :: s)

/-- A value in which arrays and objects nest at most `depth` deep. -/
def value : Nat → List Char → Except Fault (Front Json)
  | 0 => valueWith none
  | depth + 1 => valueWith (some (value depth))

end Reader

open Reader

/-- How deep arrays and objects may nest in a text. -/
def nestingLimit : Nat := 127

/-- The tree of a text that holds one value and blanks. -/
def readTree (s : List Char) : Except Fault Json := do
  let (v, ahead) ← value nestingLimit s
  match skipBlanks ahead with
  | [] => .ok v
  | ahead => faultAt .trailingCharacters ahead

/-- The document of a text, each key of an object once. -/
def parse? (text : String) : Except SyntaxFault Json :=
  match readTree text.toList with
  | .ok v => .ok v.merged
  | .error f => .error ⟨f.flaw, f.position text.toList⟩

end Json
end Wireform
