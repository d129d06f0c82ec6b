/-
# Parts of a date text

Readers that take one part off the front of a text: digits, single characters,
blanks, fractions of a second and numeric offsets. Each returns what it read and
what is ahead, or nothing.

Key definitions: `Scan.number`, `Scan.nanoseconds`, `Scan.clockOffset`.
-/
import Wireform.Text.Basic

namespace Wireform
namespace Scan

open Text (isDigit ofDigits trimStart)

/-- A number of at least `min` and at most `max` digits. -/
def number (min max : Nat) (s : List Char) : Option (Nat × List Char) :=
  let ds := (s.take max).takeWhile isDigit
  if ds.length < min then none else some (ofDigits ds, s.drop ds.length)

/-- One given character. -/
def char (c : Char) : List Char → Option (List Char)
  | d :: s => if c = d then some s else none
  | [] => none

/-- At least one blank. -/
def blanks : List Char → Option (List Char)
  | c :: s => if isSpace c then some (trimStart s) else none
  | [] => none

/-- Fraction digits as nanoseconds: at least one, filled up with zeros to nine, and those
after the ninth do not count. -/
def nanoseconds (s : List Char) : Option (Nat × List Char) :=
  let ds := s.takeWhile isDigit
  let counted := ds.take 9 ++ List.replicate (9 - ds.length) '0'
  if ds.isEmpty then none else some (ofDigits counted, s.drop ds.length)

/-- The nanoseconds after a point; without a point there are none. -/
def pointFraction : List Char → Option (Nat × List Char)
  | '.' :: s => nanoseconds s
  | s => some (0, s)

/-- Hours and minutes of an offset in minutes, with what stands between them. -/
def clockOffset (between : List Char → Option (List Char)) (s : List Char) :
    Option (Int × List Char) := do
  let (hours, s) ← number 2 2 s
  let s ← between s
  let (minutes, s) ← number 2 2 s
  if minutes < 60 then some ((60 * hours + minutes : Nat), s) else none

/-- An offset behind its sign; a minus sign turns it around. -/
def signedOffset (minus : List Char) (between : List Char → Option (List Char)) :
    List Char → Option (Int × List Char)
  | '+' :: s => clockOffset between s
  | c :: s =>
    if c ∈ minus then (clockOffset between s).map fun r => (-r.1, r.2) else none
  | [] => none

end Scan
end Wireform
