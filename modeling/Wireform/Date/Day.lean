/-
# Calendar days

Days of the Gregorian calendar, carried on before its introduction, from the year
-262143 to the year 262142. A day outside these years does not exist, so the day
after the last one and the day before the first one are none.

Key definitions: `Day`, `Day.of?`, `Day.next?`, `Day.prev?`, `Day.number`,
`Day.weekday`.
-/

namespace Wireform

namespace Calendar

/-- A year with 366 days. -/
def isLeap (year : Int) : Bool := year % 4 == 0 && (year % 100 != 0 || year % 400 == 0)

/-- How many days a month has. -/
def monthLength (year : Int) (month : Nat) : Nat :=
  if month = 2 then (if isLeap year then 29 else 28)
  else if month = 4 ∨ month = 6 ∨ month = 9 ∨ month = 11 then 30
  else 31

/-- Whether year, month and day name a day of the calendar. -/
def Valid (year : Int) (month day : Nat) : Prop :=
  -262143 ≤ year ∧ year ≤ 262142 ∧ 1 ≤ month ∧ month ≤ 12 ∧ 1 ≤ day ∧ day ≤ monthLength year month

instance (year : Int) (month day : Nat) : Decidable (Valid year month day) := by
  unfold Valid; infer_instance

end Calendar

open Calendar

/-- A day of the calendar. -/
structure Day where
  year : Int
  month : Nat
  day : Nat
  valid : Valid year month day
deriving DecidableEq

namespace Day

/-- The day with these numbers, if there is one. -/
def of? (year : Int) (month day : Nat) : Option Day :=
  if h : Valid year month day then some ⟨year, month, day, h⟩ else none

/-- The day after. -/
def next? (d : Day) : Option Day :=
  if d.day < monthLength d.year d.month then of? d.year d.month (d.day + 1)
  else if d.month < 12 then of? d.year (d.month + 1) 1
  else of? (d.year + 1) 1 1

/-- The day before. -/
def prev? (d : Day) : Option Day :=
  if 1 < d.day then of? d.year d.month (d.day - 1)
  else if 1 < d.month then of? d.year (d.month - 1) (monthLength d.year (d.month - 1))
  else of? (d.year - 1) 12 31

/-- How many days of a year lie before a month. -/
def daysBefore (year : Int) : Nat → Nat
  | 0 => 0
  | 1 => 0
  | month + 1 => daysBefore year month + monthLength year month

/-- Days since the first day of the year 0. -/
def number (d : Day) : Int :=
  let y := d.year - 1
  365 * d.year + y / 4 - y / 100 + y / 400 + daysBefore d.year d.month + d.day

/-- The day of the week, counted from Monday as 0. -/
def weekday (d : Day) : Int := (d.number + 5) % 7

end Day
end Wireform
