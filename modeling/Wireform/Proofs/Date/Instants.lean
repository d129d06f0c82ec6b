/-
# Moments as counts of milliseconds

Moving a reading to UTC moves its count of minutes by the offset, over the ends of days,
months and years, since neighbouring days have neighbouring numbers (`Moment.exists_toUtc?`).
The canonical text shows the day and the reading to the millisecond, so two moments have the
same text exactly if they have the same count of milliseconds (`Moment.text_eq_text_iff`).

Key definitions: `Moment.minutes`, `Moment.millis`.
Key theorems: `Moment.exists_toUtc?`, `Moment.text_eq_text_iff`.
-/
import Wireform.Proofs.Date.Reading

namespace Wireform

open Text Scan

namespace Moment

/-! ### Minutes -/

/-- Minutes since the beginning of the year 0. -/
def minutes (m : Moment) : ℤ := 1440 * m.day.number + (60 * m.clock.hour + m.clock.minute : ℕ)

theorem exists_atMinute (c : Clock) {n : ℕ} (h : n < 1440) :
    ∃ c', atMinute c n = some c' ∧ 60 * c'.hour + c'.minute = n ∧ c'.second = c.second ∧
      c'.nano = c.nano := by
  have hvalid : n / 60 < 24 ∧ n % 60 < 60 ∧ c.second ≤ 60 ∧ c.nano < 1000000000 :=
    ⟨by omega, by omega, c.second_le, c.nano_lt⟩
  refine ⟨_, dif_pos hvalid, ?_, rfl, rfl⟩
  dsimp only
  omega

/-- **Moving a reading to UTC takes the offset off its minutes.** -/
theorem exists_toUtc? (m : Moment) (offset : ℤ) (hyear : -262143 < m.day.year)
    (hyear' : m.day.year < 262142) (h : -1440 < offset) (h' : offset < 1440) :
    ∃ u, toUtc? m offset = some u ∧ u.minutes = m.minutes - offset ∧
      u.clock.second = m.clock.second ∧ u.clock.nano = m.clock.nano := by
  have hhour := m.clock.hour_lt
  have hminute := m.clock.minute_lt
  unfold toUtc?
  dsimp only
  split_ifs with hbefore hafter
  · obtain ⟨d, hd, hnumber⟩ := m.day.exists_prev? hyear
    obtain ⟨c, hc, htime, hsecond, hnano⟩ := exists_atMinute m.clock
      (n := ((60 * m.clock.hour + m.clock.minute : ℕ) - offset + 1440).toNat) (by omega)
    refine ⟨⟨d, c⟩, by rw [hd, hc]; rfl, ?_, hsecond, hnano⟩
    simp only [minutes, hnumber, htime]
    omega
  · obtain ⟨d, hd, hnumber⟩ := m.day.exists_next? hyear'
    obtain ⟨c, hc, htime, hsecond, hnano⟩ := exists_atMinute m.clock
      (n := ((60 * m.clock.hour + m.clock.minute : ℕ) - offset - 1440).toNat) (by omega)
    refine ⟨⟨d, c⟩, by rw [hd, hc]; rfl, ?_, hsecond, hnano⟩
    simp only [minutes, hnumber, htime]
    omega
  · obtain ⟨c, hc, htime, hsecond, hnano⟩ := exists_atMinute m.clock
      (n := ((60 * m.clock.hour + m.clock.minute : ℕ) - offset).toNat) (by omega)
    refine ⟨⟨m.day, c⟩, by rw [hc]; rfl, ?_, hsecond, hnano⟩
    simp only [minutes, htime]
    omega

/-! ### Milliseconds -/

/-- Milliseconds since the beginning of the year 0, as the canonical text shows them. -/
def millis (m : Moment) : ℤ :=
  60000 * m.minutes + 1000 * m.clock.second + (m.clock.nano / 1000000 : ℕ)

theorem padded_append_inj {width m n : ℕ} {s t : List Char} (hwidth : 0 < width)
    (hm : m < 10 ^ width) (hn : n < 10 ^ width) (h : padded width m ++ s = padded width n ++ t) :
    m = n ∧ s = t := by
  have hlen : (padded width m).length = (padded width n).length := by
    rw [length_padded hwidth hm, length_padded hwidth hn]
  obtain ⟨hpadded, hrest⟩ := List.append_inj h hlen
  exact ⟨padded_injective width hpadded, hrest⟩

/-- The parts of a moment can be read off its text. -/
theorem parts_eq_of_text_eq {m n : Moment} (h : m.text = n.text) : m.day = n.day ∧
    m.clock.hour = n.clock.hour ∧ m.clock.minute = n.clock.minute ∧
    m.clock.second = n.clock.second ∧ m.clock.nano / 1000000 = n.clock.nano / 1000000 := by
  have hbounds (c : Clock) : c.hour < 10 ^ 2 ∧ c.minute < 10 ^ 2 ∧ c.second < 10 ^ 2 ∧
      c.nano / 1000000 < 10 ^ 3 := by
    obtain ⟨hour, minute, second, nano, hhour, hminute, hsecond, hnano⟩ := c
    dsimp only
    omega
  obtain ⟨hmhour, hmminute, hmsecond, hmmillis⟩ := hbounds m.clock
  obtain ⟨hnhour, hnminute, hnsecond, hnmillis⟩ := hbounds n.clock
  have hfield := congrArg dayField h
  rw [text_eq, text_eq, dayField_text, dayField_text, Option.some.injEq, Prod.mk.injEq,
    List.cons.injEq] at hfield
  obtain ⟨hday, -, hrest⟩ := hfield
  simp only [Clock.secondText, Clock.minuteText, List.append_assoc, List.cons_append] at hrest
  obtain ⟨hhour, hrest⟩ := padded_append_inj (by decide) hmhour hnhour hrest
  obtain ⟨hminute, hrest⟩ := padded_append_inj (by decide) hmminute hnminute (List.cons.inj hrest).2
  obtain ⟨hsecond, hrest⟩ := padded_append_inj (by decide) hmsecond hnsecond (List.cons.inj hrest).2
  obtain ⟨hmillis, -⟩ := padded_append_inj (by decide) hmmillis hnmillis (List.cons.inj hrest).2
  exact ⟨hday, hhour, hminute, hsecond, hmillis⟩

/-- **Two moments have the same text exactly if their milliseconds agree**, leap seconds
apart. -/
theorem text_eq_text_iff {m n : Moment} (hm : m.clock.second < 60) (hn : n.clock.second < 60) :
    m.text = n.text ↔ m.millis = n.millis := by
  constructor
  · intro h
    obtain ⟨hday, hhour, hminute, hsecond, hmillis⟩ := parts_eq_of_text_eq h
    simp only [millis, minutes, hday, hhour, hminute, hsecond, hmillis]
  · intro h
    have hmhour := m.clock.hour_lt
    have hnhour := n.clock.hour_lt
    have hmminute := m.clock.minute_lt
    have hnminute := n.clock.minute_lt
    have hmnano : m.clock.nano / 1000000 < 1000 := Nat.div_lt_of_lt_mul m.clock.nano_lt
    have hnnano : n.clock.nano / 1000000 < 1000 := Nat.div_lt_of_lt_mul n.clock.nano_lt
    simp only [millis, minutes] at h
    have hday : m.day = n.day := Day.number_injective (by omega)
    have hhour : m.clock.hour = n.clock.hour := by omega
    have hminute : m.clock.minute = n.clock.minute := by omega
    have hsecond : m.clock.second = n.clock.second := by omega
    have hmillis : m.clock.nano / 1000000 = n.clock.nano / 1000000 := by omega
    simp only [text, hday, hhour, hminute, hsecond, hmillis]

end Moment

end Wireform
