/-
# Writing JSON

A layout says what stands between the elements of an array or object and after
the colon; the compact layout puts nothing there, the pretty one a line break
with two blanks for each level and a blank after the colon. Empty arrays and
objects are `[]` and `{}` in every layout.

Key definitions: `Layout`, `Json.write`, `Json.compact`, `Json.pretty`.
-/
import Wireform.Json.Basic

namespace Wireform

/-- What is written between the tokens of a document. -/
structure Layout where
  /-- Before an element, and before the closing bracket, at a level. -/
  gap : Nat → List Char
  /-- After the colon of a member. -/
  afterColon : List Char

/-- Nothing between the tokens. -/
def Layout.compact : Layout := ⟨fun _ => [], []⟩

/-- One element a line, two blanks for each level, a blank after the colon. -/
def Layout.pretty : Layout := ⟨fun level => '\n' :: List.replicate (2 * level) ' ', [' ']⟩

namespace Json

/-- A hexadecimal digit in lower case. -/
def hexDigit (n : Nat) : Char := Char.ofNat (if n < 10 then 48 + n else 87 + n)

/-- A character inside a quoted string: quotes, backslashes and controls are escaped. -/
def escapeChar (c : Char) : List Char :=
  if c = '"' then ['\\', '"']
  else if c = '\\' then ['\\', '\\']
  else if c = '\n' then ['\\', 'n']
  else if c = '\r' then ['\\', 'r']
  else if c = '\t' then ['\\', 't']
  else if c.toNat = 8 then ['\\', 'b']
  else if c.toNat = 12 then ['\\', 'f']
  else if c.toNat < 32 then ['\\', 'u', '0', '0', hexDigit (c.toNat / 16), hexDigit (c.toNat % 16)]
  else [c]

/-- The characters of a string, escaped one by one. -/
def escape : List Char → List Char
  | [] => []
  | c :: cs => escapeChar c ++ escape cs

/-- A string in quotes. -/
def quote (s : String) : List Char := '"' :: (escape s.toList ++ ['"'])

mutual

/-- The text of a document in a layout, at a level. -/
def write (layout : Layout) (level : Nat) : Json → List Char
  | .null => ['n', 'u', 'l', 'l']
  | .bool true => ['t', 'r', 'u', 'e']
  | .bool false => ['f', 'a', 'l', 's', 'e']
  | .number n => n.text
  | .string s => quote s
  | .array [] => ['[', ']']
  | .array (v :: vs) =>
    '[' :: (layout.gap (level + 1) ++ write layout (level + 1) v ++ writeItems layout level vs)
  | .object [] => ['\x7b', '\x7d']
  | .object ((k, v) :: rest) =>
    '\x7b' :: (layout.gap (level + 1) ++ quote k ++ ':' :: layout.afterColon ++
      write layout (level + 1) v ++ writeMembers layout level rest)

/-- The items after the first, each behind a comma, and the closing bracket. -/
def writeItems (layout : Layout) (level : Nat) : List Json → List Char
  | [] => layout.gap level ++ [']']
  | v :: vs =>
    ',' :: (layout.gap (level + 1) ++ write layout (level + 1) v ++ writeItems layout level vs)

/-- The members after the first, each behind a comma, and the closing brace. -/
def writeMembers (layout : Layout) (level : Nat) : List (String × Json) → List Char
  | [] => layout.gap level ++ ['\x7d']
  | (k, v) :: rest =>
    ',' :: (layout.gap (level + 1) ++ quote k ++ ':' :: layout.afterColon ++
      write layout (level + 1) v ++ writeMembers layout level rest)

end

/-- The document on one line without blanks. -/
def compact (v : Json) : String := String.ofList (write .compact 0 v)

/-- The document with one element a line. -/
def pretty (v : Json) : String := String.ofList (write .pretty 0 v)

end Json
end Wireform
