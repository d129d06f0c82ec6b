/-
# The fewest decimal digits that read back

A double is written with as few decimal digits as still round to it; of two
candidates with that many digits the nearer is taken, and of two equally near
ones the even. With `n` digits the candidates are the two neighbours of the
number on the grid of `n`-digit decimals. Should no candidate of up to 17 digits
read back, the exact decimal expansion is taken, which always does.

Key definitions: `Decimal`, `Double.shortest`, `DecimalStyle`, `Double.write`.
-/
import Wireform.Number.Double

namespace Wireform

/-- The number `digits · 10 ^ exponent`. -/
structure Decimal where
  digits : Nat
  exponent : Int
deriving DecidableEq

namespace Decimal

/-- The same number without trailing zeros in its digits, at most `fuel` of
which are dropped. -/
def trimZeros : Nat → Decimal → Decimal
  | 0, d => d
  | fuel + 1, d =>
    if d.digits ≠ 0 ∧ d.digits % 10 = 0 then trimZeros fuel ⟨d.digits / 10, d.exponent + 1⟩ else d

/-- The same number without trailing zeros in its digits. -/
def trim (d : Decimal) : Decimal := trimZeros (Double.digitCount d.digits) d

/-- The digits, most significant first. -/
def digitText (d : Decimal) : List Char := Nat.toDigits 10 d.digits

/-- The power of ten of the first digit. -/
def leading (d : Decimal) : Int := d.digitText.length + d.exponent - 1

/-- Positional form with at least one digit on each side of the point. -/
def positional (d : Decimal) : List Char :=
  let ds := d.digitText
  if 0 ≤ d.exponent then ds ++ List.replicate d.exponent.toNat '0' ++ ['.', '0']
  else
    let places := (-d.exponent).toNat
    if places < ds.length then
      ds.take (ds.length - places) ++ '.' :: ds.drop (ds.length - places)
    else '0' :: '.' :: (List.replicate (places - ds.length) '0' ++ ds)

/-- Scientific form: one digit, the others after a point, and the exponent, with
`plus` before it unless it is negative. -/
def scientific (plus : List Char) (d : Decimal) : List Char :=
  let k := d.leading
  let mark := if k < 0 then ['e', '-'] else 'e' :: plus
  let point := match d.digitText with
    | [] => []
    | [c] => [c]
    | c :: cs => c :: '.' :: cs
  point ++ mark ++ Nat.toDigits 10 k.natAbs

end Decimal

/-- Which numbers are written positionally, and how exponents are written. -/
structure DecimalStyle where
  /-- The least power of ten of the first digit in positional form. -/
  least : Int
  /-- The greatest power of ten of the first digit in positional form. -/
  greatest : Int
  /-- What stands before an exponent that is not negative. -/
  plus : List Char

namespace Double

/-- The magnitude as a quotient of naturals. -/
def magnitude (d : Double) : Nat × Nat :=
  if 0 ≤ d.exponent then (d.mantissa * Nat.pow 2 d.exponent.toNat, 1)
  else (d.mantissa, Nat.pow 2 (-d.exponent).toNat)

/-- The power of ten of the first decimal digit of `num / den`. -/
def leadingPower (num den : Nat) : Int :=
  let a := digitCount num
  let b := digitCount den
  let k : Int := (a : Int) - b
  let reaches := if b ≤ a then den * Nat.pow 10 (a - b) ≤ num else den ≤ num * Nat.pow 10 (b - a)
  if reaches then k else k - 1

/-- Whether a decimal rounds to this double. -/
def readsBack (d : Double) (c : Decimal) : Bool :=
  ofDecimal? d.negative c.digits c.exponent == some d

/-- The `n`-digit decimal that reads back, if one of the two neighbours does. -/
def withDigits? (d : Double) (n : Nat) : Option Decimal :=
  let num := d.magnitude.1
  let den := d.magnitude.2
  let unit : Int := leadingPower num den + 1 - n
  let top := if 0 ≤ unit then num else num * Nat.pow 10 (-unit).toNat
  let bottom := if 0 ≤ unit then den * Nat.pow 10 unit.toNat else den
  let below := top / bottom
  let twice := 2 * (top % bottom)
  let lower : Decimal := ⟨below, unit⟩
  let upper : Decimal := ⟨below + 1, unit⟩
  let lowerFirst := twice < bottom ∨ (twice = bottom ∧ below % 2 = 0)
  let first := if lowerFirst then lower else upper
  let second := if lowerFirst then upper else lower
  if d.readsBack first then some first
  else if d.readsBack second then some second
  else none

/-- The exact decimal expansion of the magnitude. -/
def exactDecimal (d : Double) : Decimal :=
  if 0 ≤ d.exponent then ⟨d.mantissa * Nat.pow 2 d.exponent.toNat, 0⟩
  else ⟨d.mantissa * Nat.pow 5 (-d.exponent).toNat, d.exponent⟩

/-- The fewest decimal digits that read back as the magnitude. -/
def shortest (d : Double) : Decimal :=
  (((List.range 17).findSome? fun n => d.withDigits? (n + 1)).getD d.exactDecimal).trim

/-- The sign as it is written. -/
def signText (d : Double) : List Char := if d.negative then ['-'] else []

/-- The text of a double in a style; zeros are `0.0` and `-0.0`. -/
def write (style : DecimalStyle) (d : Double) : List Char :=
  let c := d.shortest
  if d.isZero then d.signText ++ ['0', '.', '0']
  else if style.least ≤ c.leading ∧ c.leading ≤ style.greatest then d.signText ++ c.positional
  else d.signText ++ c.scientific style.plus

end Double
end Wireform
