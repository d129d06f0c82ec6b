/-
# Canonical dates are fixed

The canonical text of a moment whose year has four digits is a timestamp. It names the
moment again, but for what milliseconds do not show, so its canonical text is itself, and a
date of a descriptor accepts it unchanged in either direction (`Date.normalize_canonical`).

A year before 0 or after 9999 is written with its sign. No form of date takes such a text:
a timestamp has four digits, and the forms that take a sign have no place for the `Z` at the
end. So what is written then is not accepted again (`Date.not_normalize_canonical`).

Key definitions: `Moment.cut`.
Key theorems: `Moment.ofText?_text`, `Date.normalize_canonical`.
-/
import Mathlib
import Wireform.Engine.Basic
import Wireform.Proofs.Date.Reading

namespace Wireform

open Text Scan

namespace Moment

/-- The moment without what milliseconds do not show. -/
def cut (m : Moment) : Moment :=
  ⟨m.day, { m.clock with
    nano := m.clock.nano / 1000000 * 1000000
    nano_lt := Nat.lt_of_le_of_lt (Nat.div_mul_le_self _ _) m.clock.nano_lt }⟩

theorem text_cut (m : Moment) : m.cut.text = m.text := by
  have hms : m.clock.nano / 1000000 * 1000000 / 1000000 = m.clock.nano / 1000000 :=
    Nat.mul_div_cancel _ (by decide)
  simp only [text, cut, hms]

/-- An offset of nothing leaves a moment where it is. -/
theorem assemble?_zero (d : Day) (c : Clock) : assemble? d c 0 = some ⟨d, c⟩ := by
  have hhour := c.hour_lt
  have hminute := c.minute_lt
  have hclock : atMinute c (60 * c.hour + c.minute) = some c := by
    rw [atMinute, show (60 * c.hour + c.minute) / 60 = c.hour by omega,
      show (60 * c.hour + c.minute) % 60 = c.minute by omega, c.of?_self]
  rw [assemble?, if_pos (by decide), toUtc?]
  dsimp only
  rw [if_neg (by omega), if_neg (by omega), Int.sub_zero, Int.toNat_natCast, hclock]
  rfl

/-- Three digits behind a point are milliseconds. -/
theorem pointFraction_millis {ms : ℕ} (h : ms < 1000) :
    pointFraction ('.' :: (padded 3 ms ++ ['Z'])) = some (ms * 1000000, ['Z']) := by
  have hlen : (padded 3 ms).length = 3 := length_padded (by decide) h
  have hdigits (c : Char) (hc : c ∈ padded 3 ms) : isDigit c = true := isDigit_of_mem_padded hc
  rw [pointFraction, nanoseconds_append (padded_ne_nil 3 ms) hdigits rfl, counted_eq hdigits,
    ofDigits_padded, hlen, show ms * 10 ^ 9 = ms * 1000000 * 10 ^ 3 by omega,
    Nat.mul_div_cancel _ (by decide)]

/-- No form of plain date takes a canonical text. -/
theorem ofPlain?_text (m : Moment) : ofPlain? m.text = none := by
  have hday : dayField m.text = some (m.day, 'T' :: (m.clock.secondText ++
      ('.' :: (padded 3 (m.clock.nano / 1000000) ++ ['Z'])))) := by
    rw [text_eq, dayField_text]
  have hms : m.clock.nano / 1000000 < 1000 := by
    have := m.clock.nano_lt
    omega
  have htime : Separator.letter.skip ('T' :: (m.clock.secondText ++
      ('.' :: (padded 3 (m.clock.nano / 1000000) ++ ['Z'])))) =
      some (m.cut.clock.secondText ++ ('.' :: padded 3 (m.clock.nano / 1000000) ++ ['Z'])) :=
    char_cons 'T' _
  have hsecond : ofDayAndSecond? .letter m.text = none :=
    ofDayAndSecond?_eq hday htime (pointFraction_millis hms)
  have hskip : Separator.letter.skip ('T' :: (m.clock.secondText ++
      ('.' :: (padded 3 (m.clock.nano / 1000000) ++ ['Z'])))) =
      some (m.clock.minuteText ++ ':' :: (padded 2 m.clock.second ++
        ('.' :: (padded 3 (m.clock.nano / 1000000) ++ ['Z'])))) := by
    simp only [Separator.skip, char_cons, Clock.secondText, List.append_assoc, List.cons_append]
  have hminute : ofDayAndMinute? .letter m.text = none := ofDayAndMinute?_eq hday hskip
  obtain ⟨hsecond', hminute'⟩ := ofDayAndTime?_eq_none hday .blank rfl
  rw [ofPlain?, hsecond, hsecond', hminute, hminute', ofDay?_eq hday]
  rfl

/-- **A canonical text names the moment again, unless the year has a sign.** -/
theorem ofText?_text (m : Moment) :
    ofText? m.text = if 0 ≤ m.day.year ∧ m.day.year ≤ 9999 then some m.cut else none := by
  have hform : ofText? m.text = ofTimestamp? m.text := by
    have hplain := ofPlain?_text m
    rw [text_eq] at hplain ⊢
    rw [ofText?_text_append, hplain, Option.or_none]
    simp only [List.getLast?_append, List.getLast?_cons, List.getLast?_nil, Option.getD_none,
      Option.some_or, Option.getD_some]
    rfl
  rw [hform]
  split_ifs with hyear
  · have hms : m.clock.nano / 1000000 < 1000 := by
      have := m.clock.nano_lt
      omega
    have hfraction : pointFraction ('.' :: padded 3 (m.clock.nano / 1000000) ++ ['Z']) =
        some (m.cut.clock.nano, ['Z']) := pointFraction_millis hms
    have hzone : timestampOffset ['Z'] = some (0, []) := rfl
    have hread := ofTimestamp?_text hyear.1 hyear.2 (c := m.cut.clock) hfraction hzone
    have hread : ofTimestamp? m.text = assemble? m.day m.cut.clock 0 := by
      rw [text_eq]
      exact hread
    rw [hread, assemble?_zero]
    rfl
  · rw [text_eq, ofTimestamp?_signed hyear]

end Moment

namespace Date

theorem normalize?_text (m : Moment) : normalize? (String.ofList m.text) =
    if 0 ≤ m.day.year ∧ m.day.year ≤ 9999 then some (String.ofList m.text) else none := by
  rw [normalize?, String.toList_ofList, Moment.ofText?_text]
  split_ifs
  · rw [Option.map_some, Moment.text_cut]
  · rfl

/-- **A canonical date whose year has four digits is accepted unchanged**, by itself and by the
date of a descriptor in either direction; with another year it is no date any more. -/
theorem normalize_canonical {s c : String} (h : normalize? s = some c) :
    ∃ m : Moment, Moment.ofText? s.toList = some m ∧ c = String.ofList m.text ∧
      (0 ≤ m.day.year ∧ m.day.year ≤ 9999 → normalize? c = some c ∧
        ∀ (w : Walk) n owner site,
          w.value (n + 1) owner .date site (some (.string c)) = .ok (some (.string c))) ∧
      (¬(0 ≤ m.day.year ∧ m.day.year ≤ 9999) → normalize? c = none ∧
        ∀ (w : Walk) n owner site, w.value (n + 1) owner .date site (some (.string c)) =
          site.refuse "Date" (some (.string c))) := by
  obtain ⟨m, hm, rfl⟩ := Option.map_eq_some_iff.mp h
  have hagain := normalize?_text m
  refine ⟨m, hm, rfl, fun hyear => ?_, fun hyear => ?_⟩
  · rw [if_pos hyear] at hagain
    refine ⟨hagain, fun w n owner site => ?_⟩
    simp only [Walk.value, Walk.date, hagain]
  · rw [if_neg hyear] at hagain
    refine ⟨hagain, fun w n owner site => ?_⟩
    simp only [Walk.value, Walk.date, hagain]
    rfl

/-- A leap second that its offset carries into the year before is written as such, and stays. -/
theorem normalize_canonical_leap :
    let s := " Sun, 1 Jan 2017 00:59:60 +0100 (midnight)"
    let c := "2016-12-31T23:59:60.000Z"
    normalize? s = some c ∧ normalize? c = some c := by
  intro s c
  have hnormalize : normalize? s = some c := by cbv
  have hmoment : (Moment.ofText? s.toList).map (·.day.year) = some 2016 := by cbv
  obtain ⟨m, hm, -, hfixed, -⟩ := normalize_canonical hnormalize
  rw [hm, Option.map_some, Option.some.injEq] at hmoment
  exact ⟨hnormalize, (hfixed (by omega)).1⟩

/-- An hour behind, the last evening of 9999 lies in the year 10000, which is written with a
sign and not read. -/
theorem not_normalize_canonical :
    normalize? "9999-12-31T23:30:00-01:00" = some "+10000-01-01T00:30:00.000Z" ∧
      normalize? "+10000-01-01T00:30:00.000Z" = none := by
  constructor <;> cbv

end Date
end Wireform
