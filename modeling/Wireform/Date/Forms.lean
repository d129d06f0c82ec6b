/-
# The forms of a date

A date is written as an internet timestamp (`2024-01-02T03:04:05.5+02:00`), as
the date of a mail header (`Tue, 2 Jan 2024 03:04:05 +0200`), as a local date and
time without an offset, or as a bare day. A text without an offset is in UTC and a
bare day is its midnight.

A date in a document is read in whichever form fits first, after blanks at its ends
are cut off, and is written back in canonical form.

Key definitions: `Moment.ofTimestamp?`, `Moment.ofMailDate?`, `Moment.ofPlain?`,
`Moment.ofText?`, `Date.normalize?`.
-/
import Wireform.Date.Moment
import Wireform.Date.Scan

namespace Wireform
namespace Moment

open Scan
open Text (isDigit trimStart)

/-- The moment in UTC of a reading on a day with an offset of less than a day. -/
def assemble? (day : Day) (clock : Clock) (offset : Int) : Option Moment :=
  if -1440 < offset ∧ offset < 1440 then toUtc? ⟨day, clock⟩ offset else none

/-! ### Timestamps -/

/-- `Z`, or a signed offset with a colon; the sign may be a minus sign proper. -/
def timestampOffset : List Char → Option (Int × List Char)
  | 'Z' :: s => some (0, s)
  | 'z' :: s => some (0, s)
  | s => signedOffset ['-', '−'] (char ':') s

/-- `YYYY-MM-DD`, a `T` or a blank, `HH:MM:SS`, a fraction and an offset; every
number but the fraction has all its digits. -/
def ofTimestamp? (s : List Char) : Option Moment := do
  let (year, s) ← number 4 4 s
  let s ← char '-' s
  let (month, s) ← number 2 2 s
  let s ← char '-' s
  let (dayOfMonth, s) ← number 2 2 s
  let s ← (char 'T' s).or ((char 't' s).or (char ' ' s))
  let (hour, s) ← number 2 2 s
  let s ← char ':' s
  let (minute, s) ← number 2 2 s
  let s ← char ':' s
  let (second, s) ← number 2 2 s
  let (nano, s) ← pointFraction s
  let (offset, s) ← timestampOffset s
  let day ← Day.of? year month dayOfMonth
  let clock ← Clock.of? hour minute second nano
  if s.isEmpty then assemble? day clock offset else none

/-! ### Mail dates -/

/-- The three-letter names of the days of the week, from Monday on. -/
def weekdayNames : List (List Char) :=
  ["mon", "tue", "wed", "thu", "fri", "sat", "sun"].map String.toList

/-- The three-letter names of the months. -/
def monthNames : List (List Char) :=
  ["jan", "feb", "mar", "apr", "may", "jun", "jul", "aug", "sep", "oct", "nov", "dec"].map
    String.toList

/-- The offsets in hours of the zones that have a name of more than one letter. -/
def zoneNames : List (List Char × Int) :=
  [("gmt", 0), ("ut", 0), ("edt", -4), ("est", -5), ("cdt", -5), ("cst", -6), ("mdt", -6),
    ("mst", -7), ("pdt", -7), ("pst", -8)].map fun z => (z.1.toList, z.2)

/-- The place of the next three letters among names, in any case. -/
def name (names : List (List Char)) (s : List Char) : Option (Nat × List Char) :=
  (names.findIdx? (· == (s.take 3).map Char.toLower)).map fun i => (i, s.drop 3)

/-- A year of two digits lies between 1950 and 2049, one of three counts from 1900. -/
def fullYear (digits : Nat) (year : Nat) : Nat :=
  if digits = 2 then (if year < 50 then year + 2000 else year + 1900)
  else if digits = 3 then year + 1900
  else year

/-- A zone: a name, a single letter except `J`, or a sign and four digits. -/
def mailZone (s : List Char) : Option (Int × List Char) :=
  let letters := s.takeWhile Char.isAlpha
  let lower := letters.map Char.toLower
  let ahead := s.drop letters.length
  if letters.isEmpty then signedOffset ['-'] some s
  else if letters.length = 1 ∧ lower ≠ ['j'] then some (0, ahead)
  else (zoneNames.lookup lower).map fun hours => (60 * hours, ahead)

/-- What is ahead of the end of a comment that is open `depth` times; a backslash
takes the meaning from the character after it. -/
def closeComment : Nat → List Char → Option (List Char)
  | _, [] => none
  | depth, '\\' :: s =>
    match s with
    | [] => none
    | _ :: s => closeComment depth s
  | depth, '(' :: s => closeComment (depth + 1) s
  | 0, ')' :: s => some s
  | depth + 1, ')' :: s => closeComment depth s
  | depth, _ :: s => closeComment depth s

/-- Whether nothing but comments in parentheses is left. -/
def onlyComments : Nat → List Char → Bool
  | 0, s => s.isEmpty
  | fuel + 1, s =>
    s.isEmpty ||
      match trimStart s with
      | '(' :: s =>
        match closeComment 0 s with
        | some s => onlyComments fuel s
        | none => false
      | _ => false

/-- The weekday before a comma, if the text starts with one. -/
def leadingWeekday (s : List Char) : Option (Option Nat × List Char) :=
  match name weekdayNames s with
  | some (weekday, s) => (char ',' s).map fun s => (some weekday, s)
  | none => some (none, s)

/-- The seconds after a second colon, if there is one. -/
def mailSecond (s : List Char) : Option (Nat × List Char) :=
  match char ':' (trimStart s) with
  | some s => number 2 2 s
  | none => some (0, s)

/-- A mail date: weekday, day, month by name, year, time and zone. -/
def ofMailDate? (s : List Char) : Option Moment := do
  let (weekday, s) ← leadingWeekday (trimStart s)
  let (dayOfMonth, s) ← number 1 2 (trimStart s)
  let s ← blanks s
  let (month, s) ← name monthNames s
  let s ← blanks s
  let (year, after) ← number 2 s.length s
  let digits := s.length - after.length
  let s ← blanks after
  let (hour, s) ← number 2 2 s
  let s ← char ':' (trimStart s)
  let (minute, s) ← number 2 2 (trimStart s)
  let (second, s) ← mailSecond s
  let s ← blanks s
  let (offset, s) ← mailZone s
  let day ← Day.of? (fullYear digits year) (month + 1) dayOfMonth
  let clock ← Clock.of? hour minute second 0
  if onlyComments s.length s ∧ weekday.all (fun w => (w : Int) = day.weekday) then
    assemble? day clock offset
  else none

/-! ### Plain dates -/

/-- A number of at most `max` digits behind blanks. -/
def field (max : Nat) (s : List Char) : Option (Nat × List Char) := number 1 max (trimStart s)

/-- A year behind blanks: up to four digits, or any number of them behind a sign. -/
def yearField (s : List Char) : Option (Int × List Char) :=
  match trimStart s with
  | '-' :: s => (number 1 s.length s).map fun r => (-(r.1 : Int), r.2)
  | '+' :: s => (number 1 s.length s).map fun r => ((r.1 : Int), r.2)
  | s => (number 1 4 s).map fun r => ((r.1 : Int), r.2)

/-- A year, a month and a day with hyphens between them. -/
def dayField (s : List Char) : Option (Day × List Char) := do
  let (year, s) ← yearField s
  let s ← char '-' s
  let (month, s) ← field 2 s
  let s ← char '-' s
  let (dayOfMonth, s) ← field 2 s
  let day ← Day.of? year month dayOfMonth
  some (day, s)

/-- What stands between day and time: a `T`, or any run of blanks, also none. -/
inductive Separator where
  | letter
  | blank

/-- What is ahead of a separator. -/
def Separator.skip : Separator → List Char → Option (List Char)
  | .letter, s => char 'T' s
  | .blank, s => some (trimStart s)

/-- A day and a time to the minute, without an offset. -/
def ofDayAndMinute? (sep : Separator) (s : List Char) : Option Moment := do
  let (day, s) ← dayField s
  let s ← sep.skip s
  let (hour, s) ← field 2 s
  let s ← char ':' s
  let (minute, s) ← field 2 s
  let clock ← Clock.of? hour minute 0 0
  if s.isEmpty then some ⟨day, clock⟩ else none

/-- A day and a time to the second, with a fraction or not, without an offset. -/
def ofDayAndSecond? (sep : Separator) (s : List Char) : Option Moment := do
  let (day, s) ← dayField s
  let s ← sep.skip s
  let (hour, s) ← field 2 s
  let s ← char ':' s
  let (minute, s) ← field 2 s
  let s ← char ':' s
  let (second, s) ← field 2 s
  let (nano, s) ← pointFraction s
  let clock ← Clock.of? hour minute second nano
  if s.isEmpty then some ⟨day, clock⟩ else none

/-- A bare day. -/
def ofDay? (s : List Char) : Option Moment := do
  let (day, s) ← dayField s
  if s.isEmpty then some ⟨day, .midnight⟩ else none

/-- A date without an offset: with seconds, to the minute, or a bare day. -/
def ofPlain? (s : List Char) : Option Moment :=
  (ofDayAndSecond? .letter s).or ((ofDayAndSecond? .blank s).or
    ((ofDayAndMinute? .letter s).or ((ofDayAndMinute? .blank s).or (ofDay? s))))

end Moment

/-! ### Dates in documents -/

/-- The moment in UTC that a text names. -/
def Moment.ofText? (s : List Char) : Option Moment :=
  let s := Text.trim s
  if s.isEmpty then none
  else (Moment.ofTimestamp? s).or ((Moment.ofMailDate? s).or (Moment.ofPlain? s))

/-- The canonical text of a date, or nothing if the text is no date. -/
def Date.normalize? (s : String) : Option String :=
  (Moment.ofText? s.toList).map fun m => String.ofList m.text

end Wireform
