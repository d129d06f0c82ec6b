/-
# Rounding to the nearest double

A quotient is rounded at one bit: the exponent of that bit is not below `-1074`, the
quotient stays below `2 ^ 53` of it, and unless it is `-1074` the quotient reaches `2 ^ 52`
of it. There is only one such exponent (`Double.LastBit.unique`), so the double nearest to
a quotient does not depend on how the quotient is written (`Double.ofRatio?_congr`), and a
quotient that is a double is rounded to it (`Double.ofRatio?_of_amount`).

In the same way a decimal has one order of magnitude (`Decimal.Magnitude.unique`), so
decimals of one value are rounded alike (`Double.ofDecimal?_congr`).

Key definitions: `Double.LastBit`, `Double.amount`, `Decimal.amount`.
Key theorems: `Double.ofRatio?_congr`, `Double.ofRatio?_of_amount`,
`Double.ofDecimal?_eq_ofRatio?`, `Double.ofDecimal?_congr`.
-/
import Mathlib
import Wireform.Number.Shortest

namespace Wireform

namespace Double

/-! ### Quotients at a bit -/

section Scaled

variable {num den : ℕ} {e : ℤ}

theorem scaled_snd_pos (hden : 0 < den) : 0 < (scaled num den e).2 := by
  unfold scaled
  split
  · exact Nat.mul_pos hden (Nat.pow_pos (by decide))
  · exact hden

/-- Scaling divides by the power of two. -/
theorem scaled_div (num den : ℕ) (e : ℤ) :
    ((scaled num den e).1 : ℚ) / (scaled num den e).2 = num / den / 2 ^ e := by
  unfold scaled
  split
  · rename_i he
    obtain ⟨k, rfl⟩ := Int.eq_ofNat_of_zero_le he
    rw [Int.toNat_natCast, Nat.pow_eq, zpow_natCast, div_div]
    push_cast
    rfl
  · rename_i he
    obtain ⟨k, hk⟩ := Int.eq_ofNat_of_zero_le (show 0 ≤ -e by omega)
    have hpow : Nat.pow 2 (-e).toNat = 2 ^ k := by rw [hk]; rfl
    have he : e = -k := by omega
    push_cast [hpow]
    rw [he, zpow_neg, zpow_natCast, div_inv_eq_mul, mul_div_right_comm]

theorem scaled_mul (k : ℕ) : scaled (k * num) (k * den) e =
    (k * (scaled num den e).1, k * (scaled num den e).2) := by
  unfold scaled
  split <;> simp only [Nat.mul_assoc]

/-- A quotient fits at a bit if it stays below `2 ^ 53` of it. -/
theorem scaled_div_lt_iff (hden : 0 < den) :
    (scaled num den e).1 / (scaled num den e).2 < Nat.pow 2 53 ↔
      (num : ℚ) / den < 2 ^ (53 + e) := by
  have hpos : (0 : ℚ) < (scaled num den e).2 := by exact_mod_cast scaled_snd_pos hden
  have htwo : (0 : ℚ) < 2 ^ e := by positivity
  rw [Nat.div_lt_iff_lt_mul (scaled_snd_pos hden), zpow_add₀ two_ne_zero, ← div_lt_iff₀ htwo,
    ← scaled_div, div_lt_iff₀ hpos, ← Nat.cast_lt (α := ℚ), Nat.cast_mul]
  norm_num

end Scaled

/-! ### The last bit -/

/-- The bit at which a quotient is rounded. -/
structure LastBit (q : ℚ) (e : ℤ) : Prop where
  ge : -1074 ≤ e
  lt : q < 2 ^ (53 + e)
  le : e = -1074 ∨ 2 ^ (52 + e) ≤ q

theorem LastBit.le_of_lastBit {q : ℚ} {e e' : ℤ} (h : LastBit q e) (h' : LastBit q e') :
    e ≤ e' := by
  rcases h.le with he | hle
  · rw [he]
    exact h'.ge
  · have hlt : 52 + e < 53 + e' :=
      (zpow_lt_zpow_iff_right₀ (by norm_num : (1 : ℚ) < 2)).mp (lt_of_le_of_lt hle h'.lt)
    omega

theorem LastBit.unique {q : ℚ} {e e' : ℤ} (h : LastBit q e) (h' : LastBit q e') : e = e' :=
  le_antisymm (h.le_of_lastBit h') (h'.le_of_lastBit h)

/-- The logarithms of numerator and denominator give the last bit up to one. -/
theorem log2_bounds {num den : ℕ} (hnum : 0 < num) (hden : 0 < den) :
    (2 : ℚ) ^ ((Nat.log2 num : ℤ) - Nat.log2 den - 1) ≤ num / den ∧
      (num : ℚ) / den < 2 ^ ((Nat.log2 num : ℤ) - Nat.log2 den + 1) := by
  have htwo : (2 : ℚ) ≠ 0 := two_ne_zero
  have hd : (0 : ℚ) < den := by exact_mod_cast hden
  have hnum₁ : (2 : ℚ) ^ (Nat.log2 num : ℤ) ≤ num := by
    exact_mod_cast Nat.log2_self_le hnum.ne'
  have hnum₂ : (num : ℚ) < 2 ^ ((Nat.log2 num : ℤ) + 1) := by
    exact_mod_cast Nat.lt_log2_self
  have hden₁ : (2 : ℚ) ^ (Nat.log2 den : ℤ) ≤ den := by
    exact_mod_cast Nat.log2_self_le hden.ne'
  have hden₂ : (den : ℚ) < 2 ^ ((Nat.log2 den : ℤ) + 1) := by
    exact_mod_cast Nat.lt_log2_self
  constructor
  · rw [le_div_iff₀ hd]
    calc (2 : ℚ) ^ ((Nat.log2 num : ℤ) - Nat.log2 den - 1) * den
        ≤ 2 ^ ((Nat.log2 num : ℤ) - Nat.log2 den - 1) * 2 ^ ((Nat.log2 den : ℤ) + 1) :=
          mul_le_mul_of_nonneg_left hden₂.le (by positivity)
      _ = 2 ^ (Nat.log2 num : ℤ) := by
          rw [← zpow_add₀ htwo]
          congr 1
          omega
      _ ≤ num := hnum₁
  · rw [div_lt_iff₀ hd]
    calc (num : ℚ) < 2 ^ ((Nat.log2 num : ℤ) + 1) := hnum₂
      _ = 2 ^ ((Nat.log2 num : ℤ) - Nat.log2 den + 1) * 2 ^ (Nat.log2 den : ℤ) := by
          rw [← zpow_add₀ htwo]
          congr 1
          omega
      _ ≤ 2 ^ ((Nat.log2 num : ℤ) - Nat.log2 den + 1) * den :=
          mul_le_mul_of_nonneg_left hden₁ (by positivity)

theorem LastBit.max_of_bounds {q : ℚ} {e : ℤ} (hlt : q < 2 ^ (53 + e)) (hle : 2 ^ (52 + e) ≤ q) :
    LastBit q (max (-1074) e) := by
  rcases le_total (-1074) e with he | he
  · rw [max_eq_right he]
    exact ⟨he, hlt, .inr hle⟩
  · rw [max_eq_left he]
    refine ⟨le_refl _, lt_of_lt_of_le hlt ?_, .inl rfl⟩
    exact zpow_le_zpow_right₀ (by norm_num) (by omega)

/-- **The bit that is looked up is the last bit.** -/
theorem lastBit_spec {num den : ℕ} (hnum : 0 < num) (hden : 0 < den) :
    LastBit (num / den) (lastBit num den) := by
  obtain ⟨hge, hlt⟩ := log2_bounds hnum hden
  unfold lastBit
  simp only [decide_eq_true_eq, scaled_div_lt_iff hden]
  generalize hg : (Nat.log2 num : ℤ) - (Nat.log2 den : ℤ) - 53 = g
  rw [show (Nat.log2 num : ℤ) - Nat.log2 den - 1 = 52 + g by omega] at hge
  rw [show (Nat.log2 num : ℤ) - Nat.log2 den + 1 = 53 + (g + 1) by omega] at hlt
  by_cases hfits : (num : ℚ) / den < 2 ^ (53 + g)
  · rw [if_pos hfits]
    exact .max_of_bounds hfits hge
  · rw [if_neg hfits, if_pos hlt]
    refine .max_of_bounds hlt ?_
    rw [show 52 + (g + 1) = 53 + g by omega]
    exact not_lt.mp hfits

/-! ### Quotients -/

theorem roundHalfEven_mul {num den k : ℕ} (hk : 0 < k) :
    roundHalfEven (k * num) (k * den) = roundHalfEven num den := by
  unfold roundHalfEven
  simp only [Nat.mul_div_mul_left _ _ hk, Nat.mul_mod_mul_left, Nat.mul_left_comm 2 k,
    Nat.mul_lt_mul_left hk]

/-- A whole number is rounded to itself. -/
theorem roundHalfEven_self {n den : ℕ} (hden : 0 < den) : roundHalfEven (n * den) den = n := by
  unfold roundHalfEven
  simp only [Nat.mul_mod_left, Nat.mul_div_cancel n hden]
  rw [if_pos (by omega)]

theorem ofRatio?_mul (negative : Bool) {num den k : ℕ} (hden : 0 < den) (hk : 0 < k) :
    ofRatio? negative (k * num) (k * den) = ofRatio? negative num den := by
  rcases Nat.eq_zero_or_pos num with rfl | hnum
  · rfl
  have hbit : lastBit (k * num) (k * den) = lastBit num den := by
    have hspec := lastBit_spec (Nat.mul_pos hk hnum) (Nat.mul_pos hk hden)
    have hquotient : ((k * num : ℕ) : ℚ) / (k * den : ℕ) = num / den := by
      push_cast
      exact mul_div_mul_left _ _ (by exact_mod_cast hk.ne')
    rw [hquotient] at hspec
    exact hspec.unique (lastBit_spec hnum hden)
  unfold ofRatio?
  rw [if_neg (Nat.mul_pos hk hnum).ne', if_neg hnum.ne']
  simp only [hbit, scaled_mul, roundHalfEven_mul hk]

/-- **The nearest double depends on the quotient alone**, not on how it is written. -/
theorem ofRatio?_congr (negative : Bool) {num den num' den' : ℕ} (hden : 0 < den)
    (hden' : 0 < den') (h : (num : ℚ) / den = num' / den') :
    ofRatio? negative num den = ofRatio? negative num' den' := by
  have hcross : den' * num = den * num' := by
    rw [div_eq_div_iff (by exact_mod_cast hden.ne') (by exact_mod_cast hden'.ne')] at h
    rw [Nat.mul_comm den', Nat.mul_comm den]
    exact_mod_cast h
  rw [← ofRatio?_mul negative hden hden', hcross, Nat.mul_comm den',
    ofRatio?_mul negative hden' hden]

theorem eq_zero_of_isZero {d : Double} (hd : d.isZero = true) : d = zero d.negative := by
  obtain ⟨negative, m, e, hm, hge, hle, hcanonical⟩ := d
  obtain rfl : m = 0 := by simpa [isZero] using hd
  obtain rfl : e = -1074 := hcanonical.resolve_left (by decide)
  rfl

/-- The magnitude as a rational. -/
def amount (d : Double) : ℚ := d.mantissa * 2 ^ d.exponent

theorem amount_pos {d : Double} (hd : d.isZero = false) : 0 < d.amount := by
  have hm : d.mantissa ≠ 0 := by simpa [isZero] using hd
  have hm : (0 : ℚ) < d.mantissa := by exact_mod_cast Nat.pos_of_ne_zero hm
  unfold amount
  positivity

theorem lastBit_amount {d : Double} : LastBit d.amount d.exponent := by
  have htwo : (0 : ℚ) < 2 ^ d.exponent := by positivity
  refine ⟨d.exponent_ge, ?_, d.canonical.symm.imp_right fun h => ?_⟩
  · have hm : (d.mantissa : ℚ) < 2 ^ 53 := by exact_mod_cast d.mantissa_lt
    rw [zpow_add₀ two_ne_zero]
    exact mul_lt_mul_of_pos_right hm htwo
  · have hm : (2 : ℚ) ^ 52 ≤ d.mantissa := by exact_mod_cast h
    rw [zpow_add₀ two_ne_zero]
    exact mul_le_mul_of_nonneg_right hm htwo.le

/-- **A quotient that is a double is rounded to it.** -/
theorem ofRatio?_of_amount {d : Double} (hd : d.isZero = false) {num den : ℕ} (hden : 0 < den)
    (h : (num : ℚ) / den = d.amount) : ofRatio? d.negative num den = some d := by
  have hnum : 0 < num := by
    rcases Nat.eq_zero_or_pos num with rfl | hnum
    · have hpos := amount_pos hd
      rw [← h] at hpos
      norm_num at hpos
    · exact hnum
  have hbit : lastBit num den = d.exponent :=
    (h ▸ lastBit_spec hnum hden).unique lastBit_amount
  have hscaled : (scaled num den d.exponent).1 = d.mantissa * (scaled num den d.exponent).2 := by
    have hpos : (0 : ℚ) < (scaled num den d.exponent).2 := by exact_mod_cast scaled_snd_pos hden
    have hdiv := scaled_div num den d.exponent
    rw [h, amount, mul_div_cancel_right₀ _ (by positivity), div_eq_iff hpos.ne'] at hdiv
    exact_mod_cast hdiv
  have hround : roundHalfEven (scaled num den d.exponent).1 (scaled num den d.exponent).2 =
      d.mantissa := by
    rw [hscaled]
    exact roundHalfEven_self (scaled_snd_pos hden)
  unfold ofRatio?
  rw [if_neg hnum.ne']
  simp only [hbit, hround]
  rw [if_pos d.mantissa_lt, ofFields?,
    dif_pos ⟨d.mantissa_lt, d.exponent_ge, d.exponent_le, d.canonical⟩]

end Double

/-! ### Decimals -/

namespace Decimal

/-- The value as a rational. -/
def amount (c : Decimal) : ℚ := c.digits * 10 ^ c.exponent

/-- How many places above the point a value reaches. -/
structure Magnitude (q : ℚ) (k : ℤ) : Prop where
  le : 10 ^ (k - 1) ≤ q
  lt : q < 10 ^ k

theorem Magnitude.unique {q : ℚ} {k k' : ℤ} (h : Magnitude q k) (h' : Magnitude q k') :
    k = k' := by
  have hten : (1 : ℚ) < 10 := by norm_num
  have hlt : k - 1 < k' := (zpow_lt_zpow_iff_right₀ hten).mp (lt_of_le_of_lt h.le h'.lt)
  have hgt : k' - 1 < k := (zpow_lt_zpow_iff_right₀ hten).mp (lt_of_le_of_lt h'.le h.lt)
  omega

theorem lt_pow_digitCount (n : ℕ) : n < 10 ^ Double.digitCount n :=
  (Nat.length_toDigits_le_iff (by decide) (List.length_pos_iff.mpr Nat.toDigits_ne_nil)).mp
    (le_refl _)

theorem digitCount_le_iff {n k : ℕ} (hk : 0 < k) : Double.digitCount n ≤ k ↔ n < 10 ^ k :=
  Nat.length_toDigits_le_iff (by decide) hk

theorem digitCount_pos (n : ℕ) : 0 < Double.digitCount n :=
  List.length_pos_iff.mpr Nat.toDigits_ne_nil

theorem pow_digitCount_le {n : ℕ} (hn : 0 < n) : 10 ^ (Double.digitCount n - 1) ≤ n := by
  rcases Nat.eq_zero_or_pos (Double.digitCount n - 1) with h | h
  · rw [h]
    exact hn
  · refine not_lt.mp fun hlt => ?_
    have hle := (digitCount_le_iff h).mpr hlt
    omega

/-- The digits and the exponent give the magnitude. -/
theorem magnitude_amount {c : Decimal} (hc : c.digits ≠ 0) :
    Magnitude c.amount (Double.digitCount c.digits + c.exponent) := by
  have hten : (0 : ℚ) < 10 ^ c.exponent := by positivity
  have hcount := digitCount_pos c.digits
  constructor
  · have hle : (10 : ℚ) ^ (Double.digitCount c.digits - 1) ≤ c.digits := by
      exact_mod_cast pow_digitCount_le (Nat.pos_of_ne_zero hc)
    rw [← zpow_natCast, Nat.cast_sub hcount] at hle
    rw [show (Double.digitCount c.digits : ℤ) + c.exponent - 1 =
      (Double.digitCount c.digits : ℤ) - (1 : ℕ) + c.exponent by push_cast; ring,
      zpow_add₀ (by norm_num)]
    exact mul_le_mul_of_nonneg_right hle hten.le
  · have hlt : (c.digits : ℚ) < 10 ^ Double.digitCount c.digits := by
      exact_mod_cast lt_pow_digitCount c.digits
    rw [zpow_add₀ (by norm_num), zpow_natCast]
    exact mul_lt_mul_of_pos_right hlt hten

end Decimal

namespace Double

open Decimal (magnitude_amount)

/-- A decimal of a moderate magnitude is rounded as the quotient that it is. -/
theorem ofDecimal?_eq_ofRatio? (negative : Bool) {c : Decimal} (hc : c.digits ≠ 0)
    (hge : -400 ≤ (digitCount c.digits : ℤ) + c.exponent)
    (hle : (digitCount c.digits : ℤ) + c.exponent ≤ 400) {num den : ℕ} (hden : 0 < den)
    (h : (num : ℚ) / den = c.amount) :
    ofDecimal? negative c.digits c.exponent = ofRatio? negative num den := by
  unfold ofDecimal?
  rw [if_neg hc, if_neg (not_lt.mpr hge), if_neg (not_lt.mpr hle)]
  split
  · rename_i he
    obtain ⟨k, hk⟩ := Int.eq_ofNat_of_zero_le he
    refine ofRatio?_congr negative one_pos hden ?_
    have hpow : Nat.pow 10 c.exponent.toNat = 10 ^ k := by rw [hk]; rfl
    rw [h, Decimal.amount, hpow, hk]
    push_cast
    rw [div_one]
    rfl
  · rename_i he
    obtain ⟨k, hk⟩ := Int.eq_ofNat_of_zero_le (show 0 ≤ -c.exponent by omega)
    have hpow : Nat.pow 10 (-c.exponent).toNat = 10 ^ k := by rw [hk]; rfl
    refine ofRatio?_congr negative (hpow ▸ Nat.pow_pos (by decide)) hden ?_
    rw [h, Decimal.amount, hpow, show c.exponent = -k by omega, zpow_neg, zpow_natCast,
      ← div_eq_mul_inv]
    push_cast
    rfl

theorem exists_ratio (c : Decimal) : ∃ num den : ℕ, 0 < den ∧ (num : ℚ) / den = c.amount := by
  obtain ⟨k, hk | hk⟩ := Int.eq_nat_or_neg c.exponent
  · refine ⟨c.digits * 10 ^ k, 1, one_pos, ?_⟩
    rw [Decimal.amount, hk]
    push_cast
    rw [div_one, zpow_natCast]
  · refine ⟨c.digits, 10 ^ k, Nat.pow_pos (by decide), ?_⟩
    rw [Decimal.amount, hk, zpow_neg, zpow_natCast, ← div_eq_mul_inv]
    push_cast
    rfl

/-- **Decimals of one value are rounded alike**, whatever zeros they are written with. -/
theorem ofDecimal?_congr (negative : Bool) {c c' : Decimal} (h : c.amount = c'.amount) :
    ofDecimal? negative c.digits c.exponent = ofDecimal? negative c'.digits c'.exponent := by
  have hpow (c : Decimal) : (10 : ℚ) ^ c.exponent ≠ 0 := by positivity
  have hzero : c.digits = 0 ↔ c'.digits = 0 := by
    have hiff (c : Decimal) : c.digits = 0 ↔ c.amount = 0 := by
      rw [Decimal.amount, mul_eq_zero, or_iff_left (hpow c), Nat.cast_eq_zero]
    rw [hiff, hiff, h]
  by_cases hc : c.digits = 0
  · rw [ofDecimal?, ofDecimal?, if_pos hc, if_pos (hzero.mp hc)]
  have hc' : c'.digits ≠ 0 := fun h => hc (hzero.mpr h)
  have hmagnitude : (digitCount c.digits : ℤ) + c.exponent = digitCount c'.digits + c'.exponent :=
    (magnitude_amount hc).unique (h ▸ magnitude_amount hc')
  by_cases hlow : (digitCount c.digits : ℤ) + c.exponent < -400
  · rw [ofDecimal?, ofDecimal?, if_neg hc, if_neg hc', if_pos hlow, if_pos (hmagnitude ▸ hlow)]
  by_cases hhigh : 400 < (digitCount c.digits : ℤ) + c.exponent
  · rw [ofDecimal?, ofDecimal?, if_neg hc, if_neg hc', if_neg hlow, if_pos hhigh,
      if_neg (hmagnitude ▸ hlow), if_pos (hmagnitude ▸ hhigh)]
  obtain ⟨num, den, hden, hratio⟩ := exists_ratio c
  rw [ofDecimal?_eq_ofRatio? negative hc (not_lt.mp hlow) (not_lt.mp hhigh) hden hratio,
    ofDecimal?_eq_ofRatio? negative hc' (not_lt.mp (hmagnitude ▸ hlow))
      (not_lt.mp (hmagnitude ▸ hhigh)) hden (hratio.trans h)]

end Double
end Wireform
