/-
# Decimals as texts spell them

The digits of a decimal are collected in 64 bits. A digit that no longer fits is left out, and
before the point each of them counts as a power of ten. What was collected is rounded to a
double and multiplied with a power of ten, or divided by one, which are doubles themselves; so
what is read may lie beside the nearest double. Powers of ten end at the 308th: above it
nothing but zero is finite, and below it a number is divided by the 308th first.

Key definitions: `Decimal.collected`, `Floating.scale`, `Double.ofSpelled?`.
-/
import Wireform.Number.Floating

namespace Wireform

namespace Decimal

open Text (digitValue)

/-- Digits behind those of a number as long as it fits 64 bits, and the digits that are left. -/
def collect : Nat → List Char → Nat × List Char
  | n, [] => (n, [])
  | n, c :: cs =>
    if 10 * n + digitValue c < 0x10000000000000000 then collect (10 * n + digitValue c) cs
    else (n, c :: cs)

/-- The decimal that digits before and after a point spell, as far as they are collected. -/
def collected (whole places : List Char) : Decimal :=
  let front := collect 0 whole
  let back := collect front.1 places
  ⟨back.1, front.2.length + back.2.length - places.length⟩

end Decimal

namespace Floating

/-- A power of ten. -/
def powerOfTen (k : Nat) : Floating := ofRatio false (Nat.pow 10 k) 1

/-- A number divided by a power of ten: by the 308th at most so many times, as long as it is not
zero and there is more to divide by, then by what is left. -/
def shrink : Nat → Floating → Nat → Floating
  | 0, f, k => f.div (powerOfTen k)
  | times + 1, f, k =>
    if k ≤ 308 then f.div (powerOfTen k)
    else if f.isZero then f
    else shrink times (f.div (powerOfTen 308)) (k - 308)

/-- A number that is not negative, multiplied with a power of ten. -/
def scale (f : Floating) (exponent : Int) : Floating :=
  if exponent < 0 then shrink (-exponent).toNat f (-exponent).toNat
  else if exponent ≤ 308 then f.mul (powerOfTen exponent.toNat)
  else if f.isZero then f
  else .infinite false

end Floating

namespace Double

/-- The double that a decimal with a sign is read as, if it is finite. -/
def ofSpelled? (negative : Bool) (c : Decimal) : Option Double :=
  match Floating.scale (.ofRatio false c.digits 1) c.exponent with
  | .finite d => some { d with negative := negative }
  | _ => none

end Double
end Wireform
