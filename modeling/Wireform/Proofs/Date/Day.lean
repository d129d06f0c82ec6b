/-
# Counting days

The number of a day counts the days of the calendar without a gap: the day after has
the next number and the day before the one before it, over the ends of months and
years, and no two days have the same number.

Key definitions: `Calendar.yearLength`, `Day.yearStart`.
Key theorems: `Day.exists_next?`, `Day.exists_prev?`, `Day.number_injective`.
-/
import Mathlib.Data.Int.Order.Basic
import Mathlib.Order.Monotone.Basic
import Wireform.Date.Day

namespace Wireform

/-! ### Months and years -/

namespace Calendar

/-- How many days a year has. -/
def yearLength (year : ℤ) : ℕ := if isLeap year then 366 else 365

theorem yearLength_pos (year : ℤ) : 0 < yearLength year := by
  unfold yearLength
  split_ifs <;> omega

theorem monthLength_pos (year : ℤ) (month : ℕ) : 0 < monthLength year month := by
  unfold monthLength
  split_ifs <;> omega

end Calendar

open Calendar

namespace Day

theorem daysBefore_succ (year : ℤ) {month : ℕ} (h : 1 ≤ month) :
    daysBefore year (month + 1) = daysBefore year month + monthLength year month := by
  obtain ⟨k, rfl⟩ := Nat.exists_eq_add_of_le' h
  rfl

/-- The months of a year are the year. -/
theorem daysBefore_thirteen (year : ℤ) : daysBefore year 13 = yearLength year := by
  cases h : isLeap year <;> simp [daysBefore, monthLength, yearLength, h]

theorem daysBefore_mono (year : ℤ) {month later : ℕ} (h : 1 ≤ month) (hle : month ≤ later) :
    daysBefore year month ≤ daysBefore year later := by
  induction later, hle using Nat.le_induction with
  | base => exact le_refl _
  | succ later hle ih =>
    rw [daysBefore_succ year (by omega)]
    omega

/-- The number before that of the first day of a year. -/
def yearStart (year : ℤ) : ℤ :=
  365 * year + (year - 1) / 4 - (year - 1) / 100 + (year - 1) / 400

theorem yearStart_succ (year : ℤ) : yearStart (year + 1) = yearStart year + yearLength year := by
  simp only [yearStart, yearLength, isLeap, Bool.and_eq_true, Bool.or_eq_true, beq_iff_eq,
    bne_iff_ne]
  split_ifs <;> omega

theorem yearStart_mono {year later : ℤ} (h : year ≤ later) : yearStart year ≤ yearStart later := by
  have hmono : Monotone yearStart := monotone_int_of_le_succ fun year => by
    have hpos := yearLength_pos year
    rw [yearStart_succ]
    omega
  exact hmono h

/-! ### Numbers -/

theorem one_le_month (d : Day) : 1 ≤ d.month := d.valid.2.2.1

theorem month_le (d : Day) : d.month ≤ 12 := d.valid.2.2.2.1

theorem one_le_day (d : Day) : 1 ≤ d.day := d.valid.2.2.2.2.1

theorem day_le (d : Day) : d.day ≤ monthLength d.year d.month := d.valid.2.2.2.2.2

theorem number_eq (d : Day) :
    d.number = yearStart d.year + daysBefore d.year d.month + d.day := rfl

theorem yearStart_lt_number (d : Day) : yearStart d.year < d.number := by
  have hday := d.one_le_day
  rw [number_eq]
  omega

/-- A day lies before the next month. -/
theorem number_le_of_month_lt (d : Day) {month : ℕ} (h : d.month < month) :
    d.number ≤ yearStart d.year + daysBefore d.year month := by
  have hday := d.day_le
  have hle : daysBefore d.year (d.month + 1) ≤ daysBefore d.year month :=
    daysBefore_mono d.year (by omega) h
  rw [daysBefore_succ d.year d.one_le_month] at hle
  rw [number_eq]
  omega

/-- A day lies before the next year. -/
theorem number_le_yearStart_succ (d : Day) : d.number ≤ yearStart (d.year + 1) := by
  have h : d.number ≤ yearStart d.year + daysBefore d.year 13 :=
    d.number_le_of_month_lt (Nat.lt_succ_of_le d.month_le)
  rwa [daysBefore_thirteen, ← yearStart_succ] at h

theorem number_lt_of_year_lt {d e : Day} (h : d.year < e.year) : d.number < e.number := by
  calc d.number ≤ yearStart (d.year + 1) := d.number_le_yearStart_succ
    _ ≤ yearStart e.year := yearStart_mono h
    _ < e.number := e.yearStart_lt_number

theorem number_lt_of_month_lt {d e : Day} (hyear : d.year = e.year) (h : d.month < e.month) :
    d.number < e.number := by
  have hday := e.one_le_day
  have hle := d.number_le_of_month_lt h
  rw [hyear] at hle
  rw [number_eq e]
  omega

/-- **No two days have the same number.** -/
theorem number_injective : Function.Injective number := by
  intro d e h
  have hyear : d.year = e.year := by
    rcases lt_trichotomy d.year e.year with hlt | heq | hlt
    · exact absurd h (number_lt_of_year_lt hlt).ne
    · exact heq
    · exact absurd h (number_lt_of_year_lt hlt).ne'
  have hmonth : d.month = e.month := by
    rcases lt_trichotomy d.month e.month with hlt | heq | hlt
    · exact absurd h (number_lt_of_month_lt hyear hlt).ne
    · exact heq
    · exact absurd h (number_lt_of_month_lt hyear.symm hlt).ne'
  have hday : d.day = e.day := by
    rw [number_eq, number_eq, hyear, hmonth] at h
    omega
  cases d
  cases e
  simp_all

/-! ### Neighbours -/

theorem of?_of_valid {year : ℤ} {month day : ℕ} (h : Valid year month day) :
    of? year month day = some ⟨year, month, day, h⟩ := dif_pos h

theorem of?_self (d : Day) : of? d.year d.month d.day = some d := of?_of_valid d.valid

/-- **The day after has the next number.** -/
theorem exists_next? (d : Day) (h : d.year < 262142) :
    ∃ e, d.next? = some e ∧ e.number = d.number + 1 := by
  obtain ⟨hge, hle, hmonth, hmonth', hday, hday'⟩ := d.valid
  have hnext := daysBefore_succ d.year hmonth
  unfold next?
  split_ifs with hlast hdecember
  · refine ⟨_, of?_of_valid ⟨hge, hle, hmonth, hmonth', by omega, by omega⟩, ?_⟩
    simp only [number_eq]
    omega
  · have hpos := monthLength_pos d.year (d.month + 1)
    refine ⟨_, of?_of_valid ⟨hge, hle, by omega, by omega, le_refl 1, hpos⟩, ?_⟩
    simp only [number_eq, hnext]
    omega
  · have hpos := monthLength_pos (d.year + 1) 1
    refine ⟨_, of?_of_valid ⟨by omega, by omega, le_refl 1, by decide, le_refl 1, hpos⟩, ?_⟩
    have hthirteen : d.month + 1 = 13 := by omega
    rw [hthirteen, daysBefore_thirteen] at hnext
    simp only [number_eq, yearStart_succ, daysBefore]
    omega

/-- **The day before has the number before.** -/
theorem exists_prev? (d : Day) (h : -262143 < d.year) :
    ∃ e, d.prev? = some e ∧ e.number = d.number - 1 := by
  obtain ⟨hge, hle, hmonth, hmonth', hday, hday'⟩ := d.valid
  unfold prev?
  split_ifs with hfirst hjanuary
  · refine ⟨_, of?_of_valid ⟨hge, hle, hmonth, hmonth', by omega, by omega⟩, ?_⟩
    simp only [number_eq]
    omega
  · have hpos := monthLength_pos d.year (d.month - 1)
    refine ⟨_, of?_of_valid ⟨hge, hle, by omega, by omega, hpos, le_refl _⟩, ?_⟩
    have hbefore : 1 ≤ d.month - 1 := by omega
    have hnext := daysBefore_succ d.year hbefore
    rw [Nat.sub_add_cancel hmonth] at hnext
    simp only [number_eq, hnext]
    omega
  · refine ⟨_, of?_of_valid ⟨by omega, by omega, by decide, by decide, by decide, ?_⟩, ?_⟩
    · rfl
    · have hyear := yearStart_succ (d.year - 1)
      have hnext := daysBefore_succ (d.year - 1) (show 1 ≤ 12 by decide)
      have hdecember : monthLength (d.year - 1) 12 = 31 := rfl
      have hfirst : daysBefore d.year d.month = 0 := by
        rw [show d.month = 1 by omega]
        rfl
      rw [daysBefore_thirteen, hdecember] at hnext
      rw [Int.sub_add_cancel] at hyear
      simp only [number_eq, hfirst]
      omega

end Day
end Wireform
