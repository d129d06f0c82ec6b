/-
# Binary64 arithmetic

A binary64 number of any class: finite, infinite, or no number at all. Sums,
products, quotients and remainders of finite numbers are computed exactly as
quotients of naturals and rounded once; an infinity stands for what is too large.

In the order of these numbers the two zeros are equal, and what is no number comes
before everything, itself included.

Key definitions: `Floating`, `Floating.add`, `Floating.mul`, `Floating.div`,
`Floating.rem`, `Floating.compare`, `Floating.ofDecimalText`.
-/
import Wireform.Number.Shortest
import Wireform.Text.Basic

namespace Wireform

/-- A binary64 number of any class. -/
inductive Floating where
  | finite (d : Double)
  | infinite (negative : Bool)
  | nan
deriving DecidableEq

namespace Floating

/-- The number nearest to `± num / den`, or an infinity if that is too large. -/
def ofRatio (negative : Bool) (num den : Nat) : Floating :=
  match Double.ofRatio? negative num den with
  | some d => .finite d
  | none => .infinite negative

/-- The number nearest to an integer. -/
def ofInt (n : Int) : Floating := ofRatio (decide (n < 0)) n.natAbs 1

/-- Whether the sign is a minus. -/
def isNegative : Floating → Bool
  | .finite d => d.negative
  | .infinite negative => negative
  | .nan => false

/-- Whether this is one of the two zeros. -/
def isZero : Floating → Bool
  | .finite d => d.isZero
  | _ => false

/-- The number with the other sign. -/
def negate : Floating → Floating
  | .finite d => .finite { d with negative := !d.negative }
  | .infinite negative => .infinite (!negative)
  | .nan => .nan

/-- The number without its sign. -/
def abs : Floating → Floating
  | .finite d => .finite { d with negative := false }
  | .infinite _ => .infinite false
  | .nan => .nan

/-! ### Operations -/

/-- The sum; two infinities of different signs have none. -/
def add : Floating → Floating → Floating
  | .nan, _ => .nan
  | _, .nan => .nan
  | .infinite a, .infinite b => if a = b then .infinite a else .nan
  | .infinite a, .finite _ => .infinite a
  | .finite _, .infinite b => .infinite b
  | .finite a, .finite b =>
    let x := a.ratio
    let y := b.ratio
    let sum := x.1 * y.2 + y.1 * x.2
    ofRatio (if sum = 0 then a.negative && b.negative else decide (sum < 0)) sum.natAbs (x.2 * y.2)

/-- The difference. -/
def sub (a b : Floating) : Floating := add a b.negate

/-- The product; zero times an infinity has none. -/
def mul (a b : Floating) : Floating :=
  let negative := a.isNegative != b.isNegative
  match a, b with
  | .nan, _ => .nan
  | _, .nan => .nan
  | .finite a, .finite b =>
    let x := a.magnitude
    let y := b.magnitude
    ofRatio negative (x.1 * y.1) (x.2 * y.2)
  | a, b => if a.isZero || b.isZero then .nan else .infinite negative

/-- The quotient; zero by zero and an infinity by an infinity have none. -/
def div (a b : Floating) : Floating :=
  let negative := a.isNegative != b.isNegative
  match a, b with
  | .nan, _ => .nan
  | _, .nan => .nan
  | .infinite _, .infinite _ => .nan
  | .infinite _, .finite _ => .infinite negative
  | .finite _, .infinite _ => .finite (.zero negative)
  | .finite a, .finite b =>
    if b.isZero then (if a.isZero then .nan else .infinite negative)
    else
      let x := a.magnitude
      let y := b.magnitude
      ofRatio negative (x.1 * y.2) (x.2 * y.1)

/-- What a division toward zero leaves over, with the sign of the dividend. -/
def rem : Floating → Floating → Floating
  | .nan, _ => .nan
  | _, .nan => .nan
  | .infinite _, _ => .nan
  | .finite a, .infinite _ => .finite a
  | .finite a, .finite b =>
    if b.isZero then .nan
    else
      let x := a.magnitude
      let y := b.magnitude
      ofRatio a.negative ((x.1 * y.2) % (y.1 * x.2)) (x.2 * y.2)

/-! ### Order -/

/-- The place of a number that is not finite among the finite ones, which have 0. -/
def rank : Floating → Int
  | .finite _ => 0
  | .infinite true => -1
  | .infinite false => 1
  | .nan => -2

/-- The order of two numbers. -/
def compare (a b : Floating) : Ordering :=
  match a, b with
  | .nan, _ => .lt
  | .finite a, .finite b =>
    let x := a.ratio
    let y := b.ratio
    compareOfLessAndEq (x.1 * y.2) (y.1 * x.2)
  | a, b => compareOfLessAndEq a.rank b.rank

/-! ### Texts -/

/-- The text of a number in a style. -/
def text (style : DecimalStyle) : Floating → List Char
  | .finite d => d.write style
  | .infinite true => "-inf".toList
  | .infinite false => "inf".toList
  | .nan => "NaN".toList

/-- The number nearest to a decimal: a minus sign or none, digits, a fraction or
none, and an exponent or none. -/
def ofDecimalText (s : List Char) : Floating :=
  let (negative, s) := Text.splitSign s
  let whole := s.takeWhile Text.isDigit
  let s := s.dropWhile Text.isDigit
  let places := if s.head? = some '.' then (s.drop 1).takeWhile Text.isDigit else []
  let s := if s.head? = some '.' then (s.drop 1).dropWhile Text.isDigit else s
  let power := Text.splitSign (s.drop 1)
  let exponent : Int := if power.1 then -(Text.ofDigits power.2) else Text.ofDigits power.2
  match Double.ofDecimal? negative (Text.ofDigits (whole ++ places)) (exponent - places.length) with
  | some d => .finite d
  | none => .infinite negative

end Floating
end Wireform
