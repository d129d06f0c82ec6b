/-
# Blanks and digits

The characters with the Unicode property `White_Space`, and text without those at
its ends; ASCII digits and the naturals they spell, in decimal and by single
hexadecimal digits, and signs before them.

Key definitions: `isSpace`, `Text.trim`, `Text.isBlank`, `Text.isDigit`, `Text.ofDigits`,
`Text.hexValue?`, `Text.splitSign`, `Text.padded`.
-/

namespace Wireform

/-! ### Blanks -/

/-- The code points with the property `White_Space`. -/
def isSpace (c : Char) : Bool :=
  let n := c.toNat
  (9 ≤ n && n ≤ 13) || n == 0x20 || n == 0x85 || n == 0xA0 || n == 0x1680 ||
    (0x2000 ≤ n && n ≤ 0x200A) || n == 0x2028 || n == 0x2029 || n == 0x202F || n == 0x205F ||
    n == 0x3000

namespace Text

/-- The text after the blanks at its front. -/
def trimStart (s : List Char) : List Char := s.dropWhile isSpace

/-- The text without the blanks at its ends. -/
def trim (s : List Char) : List Char := (trimStart (trimStart s).reverse).reverse

/-- Whether a text holds nothing but blanks. -/
def isBlank (s : List Char) : Bool := s.all isSpace

/-! ### Digits -/

/-- An ASCII digit. -/
def isDigit (c : Char) : Bool := '0' ≤ c && c ≤ '9'

/-- The value of a digit. -/
def digitValue (c : Char) : Nat := c.toNat - 48

/-- The natural number that digits spell. -/
def ofDigits (ds : List Char) : Nat := ds.foldl (fun n c => 10 * n + digitValue c) 0

/-- The value of a hexadecimal digit. -/
def hexValue? (c : Char) : Option Nat :=
  if isDigit c then some (digitValue c)
  else if 'a' ≤ c ∧ c ≤ 'f' then some (c.toNat - 87)
  else if 'A' ≤ c ∧ c ≤ 'F' then some (c.toNat - 55)
  else none

/-- Whether a minus sign stands at the front, and what follows a sign. -/
def splitSign : List Char → Bool × List Char
  | '-' :: s => (true, s)
  | '+' :: s => (false, s)
  | s => (false, s)

/-- A natural in decimal, filled up with zeros to a width. -/
def padded (width n : Nat) : List Char :=
  let ds := Nat.toDigits 10 n
  List.replicate (width - ds.length) '0' ++ ds

end Text

end Wireform
