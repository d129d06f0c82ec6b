/-
# Digits that read back

The decimal that a double is written with is rounded to that double again
(`Double.readsBack_shortest`): a candidate is only taken if it reads back, the exact
expansion always does, and the zeros that are dropped do not count. A decimal that reads
back has a moderate magnitude (`Double.readsBack_bounds`), so its exponent is short.

Key theorems: `Double.readsBack_exactDecimal`, `Double.readsBack_shortest`,
`Double.readsBack_bounds`.
-/
import Wireform.Proofs.Number.Rounding

namespace Wireform

namespace Decimal

/-- A zero behind the digits is a power of ten. -/
theorem amount_trimZeros : ∀ (fuel : ℕ) (c : Decimal), (trimZeros fuel c).amount = c.amount
  | 0, _ => rfl
  | fuel + 1, c => by
    rw [trimZeros]
    split
    · rename_i h
      have hdigits : c.digits = 10 * (c.digits / 10) := by omega
      have hcast : (c.digits : ℚ) = 10 * (c.digits / 10 : ℕ) := by exact_mod_cast hdigits
      rw [amount_trimZeros fuel, amount, amount, hcast, zpow_add_one₀ (by norm_num)]
      ring
    · rfl

theorem amount_trim (c : Decimal) : c.trim.amount = c.amount := amount_trimZeros _ c

end Decimal

namespace Double

open Decimal (digitCount_le_iff lt_pow_digitCount digitCount_pos)

variable {d : Double}

theorem readsBack_congr {c c' : Decimal} (h : c.amount = c'.amount) :
    d.readsBack c = d.readsBack c' := by
  rw [readsBack, readsBack, ofDecimal?_congr d.negative h]

/-! ### The exact expansion -/

theorem amount_exactDecimal (d : Double) : d.exactDecimal.amount = d.amount := by
  unfold exactDecimal
  split
  · rename_i he
    obtain ⟨k, hk⟩ := Int.eq_ofNat_of_zero_le he
    rw [Decimal.amount, amount, hk, Int.toNat_natCast, Nat.pow_eq, zpow_zero, mul_one,
      zpow_natCast]
    push_cast
    rfl
  · rename_i he
    obtain ⟨k, hk⟩ := Int.eq_ofNat_of_zero_le (show 0 ≤ -d.exponent by omega)
    rw [Decimal.amount, amount, hk, Int.toNat_natCast, Nat.pow_eq,
      show d.exponent = -(k : ℤ) by omega, zpow_neg, zpow_neg, zpow_natCast, zpow_natCast]
    push_cast
    rw [show (10 : ℚ) ^ k = 2 ^ k * 5 ^ k by rw [← mul_pow]; norm_num, mul_inv, mul_assoc,
      mul_comm (5 ^ k : ℚ), mul_assoc, inv_mul_cancel₀ (by positivity), mul_one]

theorem mul_two_pow_lt {m k n : ℕ} (hm : m < 2 ^ 53) (hk : 53 + k ≤ 3 * n) :
    m * 2 ^ k < 10 ^ n :=
  calc m * 2 ^ k < 2 ^ 53 * 2 ^ k := Nat.mul_lt_mul_of_pos_right hm (by positivity)
    _ = 2 ^ (53 + k) := (Nat.pow_add 2 53 k).symm
    _ ≤ 2 ^ (3 * n) := Nat.pow_le_pow_right (by decide) hk
    _ = (2 ^ 3) ^ n := Nat.pow_mul 2 3 n
    _ ≤ 10 ^ n := Nat.pow_le_pow_left (by decide) n

theorem mul_five_pow_lt {m k : ℕ} (hm : m < 2 ^ 53) : m * 5 ^ k < 10 ^ (53 + k) :=
  calc m * 5 ^ k < 2 ^ 53 * 5 ^ k := Nat.mul_lt_mul_of_pos_right hm (by positivity)
    _ ≤ 10 ^ 53 * 10 ^ k := Nat.mul_le_mul (Nat.pow_le_pow_left (by decide) 53)
        (Nat.pow_le_pow_left (by decide) k)
    _ = 10 ^ (53 + k) := (Nat.pow_add 10 53 k).symm

/-- A power of five has two thirds of the digits of that power of ten. -/
theorem ten_pow_le_five_pow {k n : ℕ} (hk : k ≤ 3 * n) : 10 ^ (k - n) ≤ 5 ^ k := by
  rcases Nat.le_total k n with h | h
  · rw [Nat.sub_eq_zero_of_le h]
    exact Nat.one_le_pow _ _ (by decide)
  · have htwo : 2 ^ (k - n) ≤ 5 ^ n :=
      calc 2 ^ (k - n) ≤ 2 ^ (2 * n) := Nat.pow_le_pow_right (by decide) (by omega)
        _ = (2 ^ 2) ^ n := Nat.pow_mul 2 2 n
        _ ≤ 5 ^ n := Nat.pow_le_pow_left (by decide) n
    calc 10 ^ (k - n) = 2 ^ (k - n) * 5 ^ (k - n) := by rw [← Nat.mul_pow]
      _ ≤ 5 ^ n * 5 ^ (k - n) := Nat.mul_le_mul_right _ htwo
      _ = 5 ^ k := by rw [← Nat.pow_add, Nat.add_sub_cancel' h]

/-- The exact expansion of a double has a moderate magnitude. -/
theorem exactDecimal_bounds (hd : d.isZero = false) : d.exactDecimal.digits ≠ 0 ∧
    -400 ≤ (digitCount d.exactDecimal.digits : ℤ) + d.exactDecimal.exponent ∧
    (digitCount d.exactDecimal.digits : ℤ) + d.exactDecimal.exponent ≤ 400 := by
  have hm : 0 < d.mantissa := Nat.pos_of_ne_zero (by simpa [isZero] using hd)
  have hlt : d.mantissa < 2 ^ 53 := d.mantissa_lt
  unfold exactDecimal
  split
  · rename_i he
    obtain ⟨k, hk⟩ := Int.eq_ofNat_of_zero_le he
    have hle := d.exponent_le
    rw [hk, Int.toNat_natCast, Nat.pow_eq]
    have hcount := (digitCount_le_iff (by decide)).mpr
      (mul_two_pow_lt (n := 400) hlt (show 53 + k ≤ 3 * 400 by omega))
    exact ⟨(Nat.mul_pos hm (by positivity)).ne', by dsimp only; omega, by dsimp only; omega⟩
  · rename_i he
    obtain ⟨k, hk⟩ := Int.eq_ofNat_of_zero_le (show 0 ≤ -d.exponent by omega)
    have hge := d.exponent_ge
    have he : d.exponent = -(k : ℤ) := by omega
    rw [hk, Int.toNat_natCast, Nat.pow_eq, he]
    have hcount := (digitCount_le_iff (by omega)).mpr (mul_five_pow_lt (k := k) hlt)
    have hmany : 10 ^ (k - 400) ≤ d.mantissa * 5 ^ k :=
      le_trans (ten_pow_le_five_pow (by omega)) (Nat.le_mul_of_pos_left _ hm)
    have hcount' : k - 400 < digitCount (d.mantissa * 5 ^ k) :=
      (Nat.pow_lt_pow_iff_right (by decide)).mp (lt_of_le_of_lt hmany (lt_pow_digitCount _))
    exact ⟨(Nat.mul_pos hm (by positivity)).ne', by dsimp only; omega, by dsimp only; omega⟩

/-- **The exact expansion reads back.** -/
theorem readsBack_exactDecimal (hd : d.isZero = false) : d.readsBack d.exactDecimal = true := by
  obtain ⟨hdigits, hge, hle⟩ := exactDecimal_bounds hd
  obtain ⟨num, den, hden, hratio⟩ := exists_ratio d.exactDecimal
  rw [readsBack, ofDecimal?_eq_ofRatio? d.negative hdigits hge hle hden hratio,
    ofRatio?_of_amount hd hden (hratio.trans (amount_exactDecimal d))]
  exact beq_self_eq_true _

/-! ### The fewest digits -/

theorem readsBack_withDigits? {n : ℕ} {c : Decimal} (h : d.withDigits? n = some c) :
    d.readsBack c = true := by
  unfold withDigits? at h
  extract_lets at h
  split at h
  · rename_i hfirst
    rwa [← Option.some.inj h]
  · split at h
    · rename_i hsecond
      rwa [← Option.some.inj h]
    · cases h

/-- **The decimal that a double is written with reads back.** -/
theorem readsBack_shortest (hd : d.isZero = false) : d.readsBack d.shortest = true := by
  rw [shortest, readsBack_congr (Decimal.amount_trim _)]
  cases hfound : (List.range 17).findSome? fun n => d.withDigits? (n + 1) with
  | none => exact readsBack_exactDecimal hd
  | some c =>
    obtain ⟨n, -, hn⟩ := List.exists_of_findSome?_eq_some hfound
    exact readsBack_withDigits? hn

/-- What reads back as a double other than zero has a moderate magnitude. -/
theorem readsBack_bounds (hd : d.isZero = false) {c : Decimal} (h : d.readsBack c = true) :
    c.digits ≠ 0 ∧ -400 ≤ (digitCount c.digits : ℤ) + c.exponent ∧
      (digitCount c.digits : ℤ) + c.exponent ≤ 400 := by
  have hne : zero d.negative ≠ d := by
    rintro heq
    rw [← heq] at hd
    cases hd
  have h : ofDecimal? d.negative c.digits c.exponent = some d := eq_of_beq h
  unfold ofDecimal? at h
  dsimp only at h
  split_ifs at h with hdigits hlow hhigh
  · exact absurd (Option.some.inj h) hne
  · exact absurd (Option.some.inj h) hne
  all_goals exact ⟨hdigits, not_lt.mp hlow, not_lt.mp hhigh⟩

/-- What reads back is a quotient that is rounded to the double. -/
theorem exists_ratio_of_readsBack (hd : d.isZero = false) {c : Decimal}
    (h : d.readsBack c = true) : ∃ num den : ℕ, 0 < den ∧ (num : ℚ) / den = c.amount ∧
      ofRatio? d.negative num den = some d := by
  obtain ⟨hdigits, hge, hle⟩ := readsBack_bounds hd h
  obtain ⟨num, den, hden, hratio⟩ := exists_ratio c
  refine ⟨num, den, hden, hratio, ?_⟩
  rw [← ofDecimal?_eq_ofRatio? d.negative hdigits hge hle hden hratio]
  exact eq_of_beq h

end Double
end Wireform
