/-
# JSON numbers

A number is an integer that fits 64 bits, signed or unsigned, or a finite
double. The two are kept apart: `1` and `1.0` are written differently, and stay
so through a conversion.

Key definitions: `Number`, `Number.same`, `Number.text`.
-/
import Wireform.Number.Shortest

namespace Wireform

/-- An integer that fits 64 bits, signed or unsigned. -/
structure Whole where
  val : Int
  val_ge : -0x8000000000000000 ≤ val
  val_lt : val < 0x10000000000000000
deriving DecidableEq

/-- The integer as a `Whole`, if it fits. -/
def Whole.ofInt? (n : Int) : Option Whole :=
  if h : -0x8000000000000000 ≤ n ∧ n < 0x10000000000000000 then some ⟨n, h.1, h.2⟩ else none

/-- An integer that fits 64 bits, or a finite double. -/
inductive Number where
  | whole (n : Whole)
  | double (d : Double)
deriving DecidableEq

namespace Number

/-- The double nearest to an integer. -/
def nearest? (n : Whole) : Option Double := Double.ofRatio? (decide (n.val < 0)) n.val.natAbs 1

/-- Numeric equality. Integers compare exactly; an integer meets a double as the
double nearest to it. -/
def same : Number → Number → Bool
  | .whole a, .whole b => a == b
  | .whole a, .double b => (nearest? a).any (·.same b)
  | .double a, .whole b => (nearest? b).any (·.same a)
  | .double a, .double b => a.same b

/-- Equality of numbers as they are spelled: `1` is not `1.0`, but the two zeros
of the doubles are equal. -/
def equal : Number → Number → Bool
  | .whole a, .whole b => a == b
  | .double a, .double b => a.same b
  | _, _ => false

/-- An integer in decimal. -/
def intText (n : Int) : List Char :=
  if n < 0 then '-' :: Nat.toDigits 10 n.natAbs else Nat.toDigits 10 n.natAbs

/-- Doubles in JSON are positional when the first digit stands for a power of ten in
`-5 … 15`, scientific with a signed exponent otherwise. -/
def style : DecimalStyle := ⟨-5, 15, ['+']⟩

/-- The text of a number in JSON. -/
def text : Number → List Char
  | .whole n => intText n.val
  | .double d => d.write style

end Number
end Wireform
