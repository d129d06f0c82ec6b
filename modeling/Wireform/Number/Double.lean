/-
# Finite binary64 numbers

A finite binary64 number is `± mantissa · 2 ^ exponent` with a mantissa below
`2 ^ 53` and an exponent in `-1074 … 971`. The canonical form takes the least
exponent that holds the number, so two doubles are equal exactly when their
fields are, the two zeros apart.

A quotient or a decimal is rounded to the nearest double, a half going to the
even mantissa. The arithmetic is exact: a quotient of naturals is scaled by a
power of two and rounded once.

Key definitions: `Double`, `Double.ofRatio?`, `Double.ofDecimal?`, `Double.same`.
-/

namespace Wireform

/-- A finite binary64 number `± mantissa · 2 ^ exponent` in canonical form. -/
structure Double where
  negative : Bool
  mantissa : Nat
  exponent : Int
  mantissa_lt : mantissa < Nat.pow 2 53
  exponent_ge : -1074 ≤ exponent
  exponent_le : exponent ≤ 971
  canonical : Nat.pow 2 52 ≤ mantissa ∨ exponent = -1074
deriving DecidableEq

namespace Double

/-- The double with these fields, if they are a canonical form. -/
def ofFields? (negative : Bool) (mantissa : Nat) (exponent : Int) : Option Double :=
  if h : mantissa < Nat.pow 2 53 ∧ -1074 ≤ exponent ∧ exponent ≤ 971 ∧
      (Nat.pow 2 52 ≤ mantissa ∨ exponent = -1074) then
    some ⟨negative, mantissa, exponent, h.1, h.2.1, h.2.2.1, h.2.2.2⟩
  else none

/-- Zero with a sign. -/
def zero (negative : Bool) : Double :=
  ⟨negative, 0, -1074, by decide, by decide, by decide, by decide⟩

/-- Whether this is one of the two zeros. -/
def isZero (d : Double) : Bool := d.mantissa == 0

/-! ### Rounding -/

/-- The quotient `num / den` rounded to a whole number; a half goes to the even neighbour. -/
def roundHalfEven (num den : Nat) : Nat :=
  let q := num / den
  let r := num % den
  if 2 * r < den then q
  else if den < 2 * r then q + 1
  else q + q % 2

/-- The quotient `num / den` divided by `2 ^ e`, as a quotient of naturals. -/
def scaled (num den : Nat) (e : Int) : Nat × Nat :=
  if 0 ≤ e then (num, den * Nat.pow 2 e.toNat) else (num * Nat.pow 2 (-e).toNat, den)

/-- The exponent of the last mantissa bit of `num / den`: the least one, not
below `-1074`, for which the scaled quotient stays below `2 ^ 53`. -/
def lastBit (num den : Nat) : Int :=
  let guess : Int := (Nat.log2 num : Int) - (Nat.log2 den : Int) - 53
  let fits (e : Int) : Bool := (scaled num den e).1 / (scaled num den e).2 < Nat.pow 2 53
  max (-1074) (if fits guess then guess else if fits (guess + 1) then guess + 1 else guess + 2)

/-- The double nearest to `± num / den`; `none` if it is too large to be finite. -/
def ofRatio? (negative : Bool) (num den : Nat) : Option Double :=
  if num = 0 then some (zero negative)
  else
    let e := lastBit num den
    let s := scaled num den e
    let m := roundHalfEven s.1 s.2
    if m < Nat.pow 2 53 then ofFields? negative m e else ofFields? negative (Nat.pow 2 52) (e + 1)

/-- How many decimal digits a natural has. -/
def digitCount (n : Nat) : Nat := (Nat.toDigits 10 n).length

/-- The double nearest to `± digits · 10 ^ exponent`; `none` if it is too large
to be finite. A number far below the least double or far above the greatest is
settled by its order of magnitude alone. -/
def ofDecimal? (negative : Bool) (digits : Nat) (exponent : Int) : Option Double :=
  let magnitude : Int := digitCount digits + exponent
  if digits = 0 then some (zero negative)
  else if magnitude < -400 then some (zero negative)
  else if 400 < magnitude then none
  else if 0 ≤ exponent then ofRatio? negative (digits * Nat.pow 10 exponent.toNat) 1
  else ofRatio? negative digits (Nat.pow 10 (-exponent).toNat)

/-! ### Value -/

/-- The number as a signed quotient of naturals: `(± numerator, denominator)`. -/
def ratio (d : Double) : Int × Nat :=
  let num : Nat := if 0 ≤ d.exponent then d.mantissa * Nat.pow 2 d.exponent.toNat else d.mantissa
  let den : Nat := if 0 ≤ d.exponent then 1 else Nat.pow 2 (-d.exponent).toNat
  (if d.negative then -(num : Int) else num, den)

/-- Numeric equality: the two zeros are the same number. -/
def same (a b : Double) : Bool :=
  a.mantissa == b.mantissa && a.exponent == b.exponent &&
    (a.negative == b.negative || a.isZero)

end Double
end Wireform
