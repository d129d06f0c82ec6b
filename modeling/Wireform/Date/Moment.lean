/-
# Moments of a day

A clock reading has hour, minute, second and nanoseconds; second 60 is a leap
second and may stand in any minute. Offsets from UTC are whole minutes, so moving
a reading to UTC changes its day, hour and minute alone.

The canonical text of a moment in UTC is `YYYY-MM-DDTHH:MM:SS.mmmZ`: milliseconds
are cut off, not rounded, and a year outside `0 … 9999` is written with its sign.

Key definitions: `Clock`, `Moment`, `Moment.toUtc?`, `Moment.text`.
-/
import Wireform.Date.Day
import Wireform.Text.Basic

namespace Wireform

/-- A clock reading. -/
structure Clock where
  hour : Nat
  minute : Nat
  second : Nat
  nano : Nat
  hour_lt : hour < 24
  minute_lt : minute < 60
  second_le : second ≤ 60
  nano_lt : nano < 1000000000
deriving DecidableEq

/-- The clock reading with these numbers, if there is one. -/
def Clock.of? (hour minute second nano : Nat) : Option Clock :=
  if h : hour < 24 ∧ minute < 60 ∧ second ≤ 60 ∧ nano < 1000000000 then
    some ⟨hour, minute, second, nano, h.1, h.2.1, h.2.2.1, h.2.2.2⟩
  else none

/-- The beginning of a day. -/
def Clock.midnight : Clock := ⟨0, 0, 0, 0, by decide, by decide, by decide, by decide⟩

/-- A clock reading on a day. -/
structure Moment where
  day : Day
  clock : Clock
deriving DecidableEq

namespace Moment

/-- The clock reading at another minute of the day. -/
def atMinute (c : Clock) (minutes : Nat) : Option Clock :=
  Clock.of? (minutes / 60) (minutes % 60) c.second c.nano

/-- The moment in UTC of a local one, whose clock is `offset` minutes ahead of
UTC; offsets are less than a day. -/
def toUtc? (local_ : Moment) (offset : Int) : Option Moment :=
  let c := local_.clock
  let minutes : Int := (60 * c.hour + c.minute : Nat) - offset
  if minutes < 0 then do
    let day ← local_.day.prev?
    let clock ← atMinute c (minutes + 1440).toNat
    some ⟨day, clock⟩
  else if 1440 ≤ minutes then do
    let day ← local_.day.next?
    let clock ← atMinute c (minutes - 1440).toNat
    some ⟨day, clock⟩
  else do
    let clock ← atMinute c minutes.toNat
    some ⟨local_.day, clock⟩

/-- A year in at least four digits, with its sign unless it lies in `0 … 9999`. -/
def yearText (year : Int) : List Char :=
  if year < 0 then '-' :: Text.padded 4 year.natAbs
  else if 9999 < year then '+' :: Text.padded 4 year.natAbs
  else Text.padded 4 year.natAbs

/-- The canonical text of a moment in UTC. -/
def text (m : Moment) : List Char :=
  yearText m.day.year ++ '-' :: Text.padded 2 m.day.month ++ '-' :: Text.padded 2 m.day.day ++
    'T' :: Text.padded 2 m.clock.hour ++ ':' :: Text.padded 2 m.clock.minute ++
    ':' :: Text.padded 2 m.clock.second ++ '.' :: Text.padded 3 (m.clock.nano / 1000000) ++ ['Z']

end Moment
end Wireform
