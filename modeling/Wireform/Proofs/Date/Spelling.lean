/-
# Dates are compared as instants

A date is spelled with four digits for the year and with or without a time, a fraction of a
second and an offset (`Date.Spelling`); what it means is an instant, a rational number of
seconds. Every such date is accepted, whatever form is tried before its own, and its moment
counts the milliseconds of its instant, rounded down (`Date.Spelling.exists_denotes`). So two
of them have the same canonical text exactly if their instants agree when rounded down to
the millisecond (`Date.normalize_instants`).

Key definitions: `Date.Spelling`, `Date.Spelling.text`, `Date.Spelling.instant`,
`Date.Spelling.Denotes`.
Key theorems: `Date.Spelling.exists_denotes`, `Date.normalize_instants`.
-/
import Mathlib
import Wireform.Proofs.Date.Instants

namespace Wireform

open Text Scan

/-! ### Spelled dates -/

namespace Date

/-- Hours and minutes, of a day or of an offset. -/
structure HourMinute where
  hour : ℕ
  minute : ℕ
  hour_lt : hour < 24
  minute_lt : minute < 60

/-- Hours, minutes and seconds, with the digits of a fraction or none. -/
structure HourMinuteSecond extends HourMinute where
  second : ℕ
  second_lt : second < 60
  fraction : List Char
  digits : ∀ c ∈ fraction, isDigit c = true

/-- An offset: none, or hours and minutes ahead of UTC or behind it. -/
inductive Zone where
  | utc
  | ahead (by_ : HourMinute)
  | behind (by_ : HourMinute)

/-- What stands behind a day. -/
inductive Time where
  | midnight
  | minute (sep : Moment.Separator) (time : HourMinute)
  | second (sep : Moment.Separator) (time : HourMinuteSecond)
  | zoned (time : HourMinuteSecond) (zone : Zone)

/-- A date as it may be spelled, with four digits for the year. -/
structure Spelling where
  day : Day
  year_ge : 0 ≤ day.year
  year_le : day.year ≤ 9999
  time : Time

/-- Two digits each, and a colon. -/
def HourMinute.text (t : HourMinute) : List Char := padded 2 t.hour ++ ':' :: padded 2 t.minute

/-- A point and digits, or nothing. -/
def fractionText : List Char → List Char
  | [] => []
  | ds => '.' :: ds

/-- Two digits each with colons, and the fraction. -/
def HourMinuteSecond.text (t : HourMinuteSecond) : List Char :=
  t.toHourMinute.text ++ ':' :: (padded 2 t.second ++ fractionText t.fraction)

/-- `Z`, or hours and minutes behind a sign. -/
def Zone.text : Zone → List Char
  | .utc => ['Z']
  | .ahead t => '+' :: t.text
  | .behind t => '-' :: t.text

/-- The time as it stands behind a day. -/
def Time.text : Time → List Char
  | .midnight => []
  | .minute sep t => sep.mark :: t.text
  | .second sep t => sep.mark :: t.text
  | .zoned t zone => 'T' :: (t.text ++ zone.text)

/-- The spelled date. -/
def Spelling.text (s : Spelling) : String := String.ofList (s.day.text ++ s.time.text)

/-! ### Instants -/

/-- Seconds from midnight. -/
def HourMinute.seconds (t : HourMinute) : ℕ := 3600 * t.hour + 60 * t.minute

/-- Seconds from midnight, with the fraction. -/
def HourMinuteSecond.seconds (t : HourMinuteSecond) : ℚ :=
  t.toHourMinute.seconds + t.second + ofDigits t.fraction / 10 ^ t.fraction.length

/-- How many seconds a zone is ahead of UTC. -/
def Zone.seconds : Zone → ℤ
  | .utc => 0
  | .ahead t => t.seconds
  | .behind t => -t.seconds

/-- Seconds from the midnight in UTC of the day that is written. -/
def Time.seconds : Time → ℚ
  | .midnight => 0
  | .minute _ t => t.seconds
  | .second _ t => t.seconds
  | .zoned t zone => t.seconds - zone.seconds

/-- The instant of a date, in seconds since the beginning of the year 0. -/
def Spelling.instant (s : Spelling) : ℚ := 86400 * s.day.number + s.time.seconds

/-! ### Clock readings -/

/-- The clock reading of hours and minutes. -/
def HourMinute.clock (t : HourMinute) : Clock :=
  ⟨t.hour, t.minute, 0, 0, t.hour_lt, t.minute_lt, Clock.midnight.second_le,
    Clock.midnight.nano_lt⟩

/-- The clock reading of hours, minutes and seconds; nanoseconds are rounded down. -/
def HourMinuteSecond.clock (t : HourMinuteSecond) : Clock :=
  ⟨t.hour, t.minute, t.second, ofDigits (counted t.fraction), t.hour_lt, t.minute_lt,
    t.second_lt.le, counted_lt t.digits⟩

/-- How many minutes a zone is ahead of UTC. -/
def Zone.minutes : Zone → ℤ
  | .utc => 0
  | .ahead t => (60 * t.hour + t.minute : ℕ)
  | .behind t => -(60 * t.hour + t.minute : ℕ)

theorem HourMinuteSecond.text_eq (t : HourMinuteSecond) :
    t.text = t.clock.secondText ++ fractionText t.fraction := by
  simp only [text, HourMinute.text, clock, Clock.secondText, Clock.minuteText, List.append_assoc,
    List.cons_append]

theorem pointFraction_fractionText {ds rest : List Char} (hd : ∀ c ∈ ds, isDigit c = true)
    (hpoint : rest.head? ≠ some '.') (hdigit : rest.head?.any isDigit = false) :
    pointFraction (fractionText ds ++ rest) = some (ofDigits (counted ds), rest) := by
  cases ds with
  | nil =>
    show pointFraction rest = some (0, rest)
    unfold pointFraction
    split
    · exact absurd rfl hpoint
    · rfl
  | cons c ds =>
    show nanoseconds ((c :: ds) ++ rest) = _
    exact nanoseconds_append (List.cons_ne_nil c ds) hd hdigit

theorem timestampOffset_text (zone : Zone) :
    Moment.timestampOffset zone.text = some (zone.minutes, []) := by
  have hoffset (t : HourMinute) :
      clockOffset (char ':') t.text = some (((60 * t.hour + t.minute : ℕ) : ℤ), []) := by
    rw [HourMinute.text, ← List.append_nil (padded 2 t.minute)]
    exact clockOffset_padded [] (Nat.lt_trans t.hour_lt (by decide)) t.minute_lt
  cases zone with
  | utc => rfl
  | ahead t =>
    show clockOffset (char ':') t.text = _
    exact hoffset t
  | behind t =>
    show (clockOffset (char ':') t.text).map (fun r => (-r.1, r.2)) = _
    rw [hoffset t]
    rfl

theorem Zone.minutes_bounds (zone : Zone) : -1440 < zone.minutes ∧ zone.minutes < 1440 := by
  cases zone with
  | utc => decide
  | ahead t | behind t =>
    have hhour := t.hour_lt
    have hminute := t.minute_lt
    simp only [minutes]
    omega

/-! ### Rounding -/

/-- Cutting digits off is rounding down. -/
theorem floor_thousandfold (k : ℤ) {ds : List Char} (hd : ∀ c ∈ ds, isDigit c = true) :
    ⌊1000 * ((k : ℚ) + ofDigits ds / 10 ^ ds.length)⌋ =
      1000 * k + (ofDigits (counted ds) / 1000000 : ℕ) := by
  have hcounted : ofDigits (counted ds) / 1000000 = 1000 * ofDigits ds / 10 ^ ds.length := by
    rw [counted_eq hd, Nat.div_div_eq_div_mul, show ofDigits ds * 10 ^ 9 =
      1000 * ofDigits ds * 1000000 by omega, Nat.mul_div_mul_right _ _ (by decide)]
  have hsplit : 1000 * ((k : ℚ) + ofDigits ds / 10 ^ ds.length) =
      ((1000 * k : ℤ) : ℚ) + ((1000 * ofDigits ds : ℕ) : ℚ) / ((10 ^ ds.length : ℕ) : ℚ) := by
    push_cast
    ring
  rw [hsplit, Int.floor_intCast_add, Rat.floor_natCast_div_natCast, hcounted,
    Int.natCast_ediv]

theorem floor_thousandfold_int (k : ℤ) : ⌊1000 * (k : ℚ)⌋ = 1000 * k := by
  have hcast : 1000 * (k : ℚ) = ((1000 * k : ℤ) : ℚ) := by push_cast; ring
  rw [hcast, Int.floor_intCast]

/-! ### Moments of spelled dates -/

theorem HourMinute.getLast?_text (t : HourMinute) (s : List Char) :
    (s ++ t.text).getLast?.any isSpace = false := by
  rw [text, List.append_cons, ← List.append_assoc, ← List.append_assoc]
  exact any_isSpace_getLast?_digits (padded_ne_nil 2 t.minute) fun _ h => isDigit_of_mem_padded h

theorem HourMinuteSecond.getLast?_text (t : HourMinuteSecond) (s : List Char) :
    (s ++ t.text).getLast?.any isSpace = false := by
  cases hfraction : t.fraction with
  | nil =>
    rw [text, hfraction, fractionText, List.append_nil, List.append_cons, ← List.append_assoc]
    exact any_isSpace_getLast?_digits (padded_ne_nil 2 t.second) fun _ h => isDigit_of_mem_padded h
  | cons c ds =>
    have htext : s ++ t.text =
        (s ++ (t.toHourMinute.text ++ ':' :: (padded 2 t.second ++ ['.']))) ++ c :: ds := by
      simp only [text, hfraction, fractionText, List.append_assoc, List.cons_append,
        List.nil_append]
    rw [htext]
    exact any_isSpace_getLast?_digits (List.cons_ne_nil c ds) (hfraction ▸ t.digits)

theorem Zone.getLast?_text (zone : Zone) (s : List Char) :
    (s ++ zone.text).getLast?.any isSpace = false := by
  cases zone with
  | utc =>
    rw [text, List.getLast?_append_of_ne_nil _ (List.cons_ne_nil _ _)]
    rfl
  | ahead t | behind t =>
    rw [text, List.append_cons]
    exact t.getLast?_text _

theorem Zone.seconds_eq (zone : Zone) : zone.seconds = 60 * zone.minutes := by
  cases zone with
  | utc => rfl
  | ahead t | behind t =>
    simp only [seconds, minutes, HourMinute.seconds]
    omega

namespace Spelling

/-- The moment that is read from a date and counts the milliseconds of its instant. -/
structure Denotes (s : Spelling) (m : Moment) : Prop where
  reads : Moment.ofText? (s.day.text ++ s.time.text) = some m
  second_lt : m.clock.second < 60
  millis_eq : m.millis = ⌊1000 * s.instant⌋

section Denotes

variable {d : Day} (hge : 0 ≤ d.year) (hle : d.year ≤ 9999)

theorem denotes_midnight : Denotes ⟨d, hge, hle, .midnight⟩ ⟨d, .midnight⟩ := by
  refine ⟨?_, Nat.zero_lt_succ 59, ?_⟩
  · rw [Moment.ofText?_text_append d rfl, Time.text, List.append_nil,
      Moment.ofTimestamp?_day hge hle, Moment.ofPlain?_day]
    rfl
  · have hinstant : instant ⟨d, hge, hle, .midnight⟩ = ((86400 * d.number : ℤ) : ℚ) := by
      simp only [instant, Time.seconds]
      push_cast
      ring
    rw [hinstant, floor_thousandfold_int]
    simp only [Moment.millis, Moment.minutes, Clock.midnight]
    omega

theorem denotes_minute (sep : Moment.Separator) (t : HourMinute) :
    Denotes ⟨d, hge, hle, .minute sep t⟩ ⟨d, t.clock⟩ := by
  have hlast : (Time.minute sep t).text.getLast?.any isSpace = false :=
    t.getLast?_text [sep.mark]
  refine ⟨?_, Nat.zero_lt_succ 59, ?_⟩
  · rw [Moment.ofText?_text_append d hlast]
    show (Moment.ofTimestamp? (d.text ++ sep.mark :: t.clock.minuteText)).or
      (Moment.ofPlain? (d.text ++ sep.mark :: t.clock.minuteText)) = _
    rw [Moment.ofTimestamp?_minute hge hle, Moment.ofPlain?_minute]
    rfl
  · have hinstant : instant ⟨d, hge, hle, .minute sep t⟩ =
        ((86400 * d.number + t.seconds : ℤ) : ℚ) := by
      simp only [instant, Time.seconds]
      push_cast
      ring
    rw [hinstant, floor_thousandfold_int]
    simp only [Moment.millis, Moment.minutes, HourMinute.clock, HourMinute.seconds]
    omega

theorem denotes_second (sep : Moment.Separator) (t : HourMinuteSecond) :
    Denotes ⟨d, hge, hle, .second sep t⟩ ⟨d, t.clock⟩ := by
  have hlast : (Time.second sep t).text.getLast?.any isSpace = false :=
    t.getLast?_text [sep.mark]
  have hfraction : pointFraction (fractionText t.fraction) = some (t.clock.nano, []) := by
    rw [← List.append_nil (fractionText t.fraction),
      pointFraction_fractionText t.digits (by simp) rfl]
    rfl
  refine ⟨?_, t.second_lt, ?_⟩
  · rw [Moment.ofText?_text_append d hlast, Time.text, t.text_eq,
      Moment.ofTimestamp?_second hge hle sep t.clock hfraction,
      Moment.ofPlain?_second d sep hfraction]
    rfl
  · have hinstant : instant ⟨d, hge, hle, .second sep t⟩ =
        ((86400 * d.number + t.toHourMinute.seconds + t.second : ℤ) : ℚ) +
          ofDigits t.fraction / 10 ^ t.fraction.length := by
      simp only [instant, Time.seconds, HourMinuteSecond.seconds]
      push_cast
      ring
    rw [hinstant, floor_thousandfold _ t.digits]
    simp only [Moment.millis, Moment.minutes, HourMinuteSecond.clock, HourMinute.seconds]
    omega

/-- The offset moves the reading to UTC, as it moves the instant. -/
theorem exists_denotes_zoned (t : HourMinuteSecond) (zone : Zone) :
    ∃ m, Denotes ⟨d, hge, hle, .zoned t zone⟩ m := by
  have hlast : (Time.zoned t zone).text.getLast?.any isSpace = false := by
    have h := zone.getLast?_text ('T' :: t.text)
    rwa [List.cons_append] at h
  have hfraction : pointFraction (fractionText t.fraction ++ zone.text) =
      some (t.clock.nano, zone.text) :=
    pointFraction_fractionText t.digits (by cases zone <;> simp [Zone.text])
      (by cases zone <;> rfl)
  obtain ⟨hge', hlt'⟩ := zone.minutes_bounds
  obtain ⟨u, hu, hminutes, hsecond, hnano⟩ :=
    Moment.exists_toUtc? ⟨d, t.clock⟩ zone.minutes (by dsimp only; omega)
      (by dsimp only; omega) hge' hlt'
  refine ⟨u, ?_, hsecond ▸ t.second_lt, ?_⟩
  · rw [Moment.ofText?_text_append d hlast, Time.text, t.text_eq, List.append_assoc,
      Moment.ofTimestamp?_text hge hle hfraction (timestampOffset_text zone), Moment.assemble?,
      if_pos ⟨hge', hlt'⟩, hu]
    rfl
  · have hinstant : instant ⟨d, hge, hle, .zoned t zone⟩ =
        ((86400 * d.number + t.toHourMinute.seconds + t.second - zone.seconds : ℤ) : ℚ) +
          ofDigits t.fraction / 10 ^ t.fraction.length := by
      simp only [instant, Time.seconds, HourMinuteSecond.seconds]
      push_cast
      ring
    rw [hinstant, floor_thousandfold _ t.digits, Moment.millis, hminutes, hsecond, hnano,
      zone.seconds_eq]
    simp only [Moment.minutes, HourMinuteSecond.clock, HourMinute.seconds]
    omega

end Denotes

/-- **Every spelled date denotes a moment**, whatever form is tried before its own. -/
theorem exists_denotes (s : Spelling) : ∃ m, s.Denotes m := by
  obtain ⟨d, hge, hle, time⟩ := s
  cases time with
  | midnight => exact ⟨_, denotes_midnight hge hle⟩
  | minute sep t => exact ⟨_, denotes_minute hge hle sep t⟩
  | second sep t => exact ⟨_, denotes_second hge hle sep t⟩
  | zoned t zone => exact exists_denotes_zoned hge hle t zone

theorem Denotes.normalize?_eq {s : Spelling} {m : Moment} (h : s.Denotes m) :
    normalize? s.text = some (String.ofList m.text) := by
  rw [normalize?, text, String.toList_ofList, h.reads]
  rfl

end Spelling

/-- **Dates are compared as instants.** Every spelled date is accepted, and two of them have
the same canonical text exactly if their instants agree when rounded down to the
millisecond. -/
theorem normalize_instants (a b : Spelling) : ∃ s t, normalize? a.text = some s ∧
    normalize? b.text = some t ∧ (s = t ↔ ⌊1000 * a.instant⌋ = ⌊1000 * b.instant⌋) := by
  obtain ⟨m, hm⟩ := a.exists_denotes
  obtain ⟨n, hn⟩ := b.exists_denotes
  refine ⟨_, _, hm.normalize?_eq, hn.normalize?_eq, ?_⟩
  rw [String.ofList_inj, Moment.text_eq_text_iff hm.second_lt hn.second_lt, hm.millis_eq,
    hn.millis_eq]

end Date
end Wireform
