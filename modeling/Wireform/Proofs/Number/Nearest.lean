/-
# The nearest double

Rounding gives the double that is nearest to a rational (`Double.Nearest`): no double lies
closer, and of two that lie as close it is the one with the even mantissa. On the grid of the
last bit that is so since a whole number is rounded to (`Double.roundHalfEven_nearest`); a
double that is not on this grid is smaller than all of its binade, and the grid has a point
between (`Double.exists_grid`).

There is one such double, the two zeros apart (`Double.Nearest.value_eq`): of two neighbours
that lie as close, one has an odd mantissa, and between two that are no neighbours a third
lies closer.

Key definitions: `Double.value`, `Double.neg`, `Double.Nearest`, `Double.limit`.
Key theorems: `Double.nearest_of_ofRatio?`, `Double.Nearest.value_eq`,
`Double.exists_ofRatio?`.
-/
import Wireform.Proofs.Json.Same
import Wireform.Proofs.Number.Rounding

namespace Wireform
namespace Double

/-- The rational that a double stands for. -/
def value (d : Double) : ℚ := if d.negative then -d.amount else d.amount

/-- The double with the other sign. -/
def neg (d : Double) : Double := { d with negative := !d.negative }

theorem value_neg (d : Double) : d.neg.value = -d.value := by
  have hamount : d.neg.amount = d.amount := rfl
  have hsign : d.neg.negative = !d.negative := rfl
  cases hd : d.negative <;> simp [value, hd, hsign, hamount]

theorem amount_nonneg (d : Double) : 0 ≤ d.amount := by
  unfold amount
  positivity

theorem abs_value (d : Double) : |d.value| = d.amount := by
  unfold value
  split
  · rw [abs_neg, abs_of_nonneg d.amount_nonneg]
  · exact abs_of_nonneg d.amount_nonneg

theorem value_zero (negative : Bool) : (zero negative).value = 0 := by
  simp [value, amount, zero]

/-- The amount tells mantissa and exponent. -/
theorem eq_of_amount_eq {a b : Double} (h : a.amount = b.amount) :
    a.mantissa = b.mantissa ∧ a.exponent = b.exponent := by
  have hexponent : a.exponent = b.exponent := lastBit_amount.unique (h ▸ lastBit_amount)
  have hpow : (2 : ℚ) ^ b.exponent ≠ 0 := by positivity
  rw [amount, amount, hexponent, mul_left_inj' hpow] at h
  exact ⟨by exact_mod_cast h, hexponent⟩

/-- **Two doubles are the same number if they stand for the same rational.** -/
theorem same_iff_value_eq {a b : Double} : a.same b = true ↔ a.value = b.value := by
  rw [same_iff]
  constructor
  · rintro ⟨hm, he, hsign⟩
    have hamount : a.amount = b.amount := by rw [amount, amount, hm, he]
    rcases hsign with hsign | hzero
    · rw [value, value, hsign, hamount]
    · have hzero' : b.isZero = true := isZero_congr hm ▸ hzero
      rw [eq_zero_of_isZero hzero, eq_zero_of_isZero hzero', value_zero, value_zero]
  · intro h
    have hamount : a.amount = b.amount := by rw [← abs_value, ← abs_value, h]
    obtain ⟨hm, he⟩ := eq_of_amount_eq hamount
    refine ⟨hm, he, ?_⟩
    by_cases hzero : a.isZero = true
    · exact .inr hzero
    · have hpos : 0 < b.amount := hamount ▸ amount_pos (Bool.not_eq_true _ ▸ hzero)
      refine .inl ?_
      unfold value at h
      rw [hamount] at h
      split_ifs at h with ha hb hb
      · rw [ha, hb]
      · linarith
      · linarith
      · simp_all

/-- A double that is not zero is told by the rational that it stands for. -/
theorem eq_of_value_eq {a b : Double} (hb : b.isZero = false) (h : a.value = b.value) : a = b := by
  obtain ⟨hm, he, hsign⟩ := same_iff.mp (same_iff_value_eq.mpr h)
  have ha : a.isZero = false := (isZero_congr hm).trans hb
  have hsign : a.negative = b.negative := hsign.resolve_right (by simp [ha])
  obtain ⟨negative, m, e, _, _, _, _⟩ := a
  cases hm
  cases he
  cases hsign
  rfl

/-! ### The nearest point of a grid -/

section Grid

variable {s : ℚ} {m : ℤ}

/-- No whole number lies closer than one that lies within a half. -/
theorem abs_sub_le_of_half (h : 2 * |s - m| ≤ 1) (k : ℤ) : |s - m| ≤ |s - k| := by
  by_cases hk : k = m
  · rw [hk]
  · have hone : (1 : ℚ) ≤ |(k : ℚ) - m| := by
      have := Int.one_le_abs (sub_ne_zero.mpr hk)
      exact_mod_cast this
    have htriangle : |(k : ℚ) - m| ≤ |s - k| + |s - m| := by
      rw [abs_sub_comm s k]
      exact abs_sub_le _ _ _
    linarith

theorem eq_of_abs_sub_eq (h : 2 * |s - m| < 1) {k : ℤ} (hk : |s - k| = |s - m|) : k = m := by
  by_contra hne
  have hone : (1 : ℚ) ≤ |(k : ℚ) - m| := by
    have := Int.one_le_abs (sub_ne_zero.mpr hne)
    exact_mod_cast this
  have htriangle : |(k : ℚ) - m| ≤ |s - k| + |s - m| := by
    rw [abs_sub_comm s k]
    exact abs_sub_le _ _ _
  linarith

end Grid

/-- A quotient is rounded to the nearest whole number, of two to the even one. -/
theorem roundHalfEven_nearest {num den : ℕ} (hden : 0 < den) :
    2 * |(num : ℚ) / den - roundHalfEven num den| ≤ 1 ∧
      (2 * |(num : ℚ) / den - roundHalfEven num den| = 1 → Even (roundHalfEven num den)) := by
  have hd : (0 : ℚ) < den := by exact_mod_cast hden
  have hsplit : (num : ℚ) / den = (num / den : ℕ) + (num % den : ℕ) / den := by
    have hnum : (den : ℚ) * (num / den : ℕ) + (num % den : ℕ) = num := by
      exact_mod_cast Nat.div_add_mod num den
    rw [← hnum, add_div, mul_div_cancel_left₀ _ hd.ne']
  have hrest : ((num % den : ℕ) : ℚ) / den < 1 := by
    rw [div_lt_one hd]
    exact_mod_cast Nat.mod_lt num hden
  have hnonneg : (0 : ℚ) ≤ ((num % den : ℕ) : ℚ) / den := by positivity
  unfold roundHalfEven
  generalize num / den = q at *
  generalize num % den = r at *
  rw [hsplit]
  dsimp only
  by_cases hlow : 2 * r < den
  · have hhalf : 2 * ((r : ℚ) / den) < 1 := by
      rw [← mul_div_assoc, div_lt_one hd]
      exact_mod_cast hlow
    rw [if_pos hlow, add_sub_cancel_left, abs_of_nonneg hnonneg]
    exact ⟨hhalf.le, fun h => absurd h hhalf.ne⟩
  rw [if_neg hlow]
  by_cases hhigh : den < 2 * r
  · have hhalf : 1 < 2 * ((r : ℚ) / den) := by
      rw [← mul_div_assoc, one_lt_div hd]
      exact_mod_cast hhigh
    have habs : |(q : ℚ) + r / den - (q + 1 : ℕ)| = 1 - r / den := by
      push_cast
      rw [abs_of_nonpos (by linarith)]
      ring
    rw [if_pos hhigh, habs]
    exact ⟨by linarith, fun h => by linarith⟩
  · have hhalf : (r : ℚ) / den = 1 / 2 := by
      rw [div_eq_div_iff hd.ne' two_ne_zero]
      have : r * 2 = 1 * den := by omega
      exact_mod_cast this
    have heven : Even (q + q % 2) := by
      rw [Nat.even_iff]
      omega
    rw [if_neg hhigh, hhalf]
    refine ⟨?_, fun _ => heven⟩
    rcases Nat.mod_two_eq_zero_or_one q with hq | hq
    · rw [hq]
      norm_num
    · rw [hq]
      push_cast
      norm_num

/-- A double lies on the grid of a bit, or its last bit is lower and it lies below the
binade of that bit. -/
theorem exists_grid (d : Double) (e : ℤ) :
    (∃ k : ℤ, d.value = k * 2 ^ e) ∨ d.exponent < e ∧ |d.value| < 2 ^ (52 + e) := by
  by_cases he : e ≤ d.exponent
  · obtain ⟨j, hj⟩ := Int.eq_ofNat_of_zero_le (sub_nonneg.mpr he)
    have hamount : d.amount = (d.mantissa * 2 ^ j : ℤ) * 2 ^ e := by
      rw [amount, show d.exponent = j + e by omega, zpow_add₀ two_ne_zero, zpow_natCast]
      push_cast
      ring
    refine .inl ?_
    unfold value
    split
    · exact ⟨-(d.mantissa * 2 ^ j), by rw [hamount]; push_cast; ring⟩
    · exact ⟨d.mantissa * 2 ^ j, hamount⟩
  · refine .inr ⟨not_le.mp he, ?_⟩
    rw [abs_value]
    calc d.amount < 2 ^ (53 + d.exponent) := lastBit_amount.lt
      _ ≤ 2 ^ (52 + e) := zpow_le_zpow_right₀ (by norm_num) (by omega)

/-! ### Rounding is to nearest -/

/-- A double is nearest to a rational if none lies closer; of two that lie as close it is the
one with the even mantissa. -/
structure Nearest (q : ℚ) (d : Double) : Prop where
  le : ∀ d' : Double, |q - d.value| ≤ |q - d'.value|
  even : ∀ d' : Double, |q - d'.value| = |q - d.value| → d'.value = d.value ∨ Even d.mantissa

theorem Nearest.neg {q : ℚ} {d : Double} (h : Nearest q d) : Nearest (-q) d.neg := by
  have hflip (d' : Double) : |-q - d'.value| = |q - d'.neg.value| := by
    rw [value_neg, ← abs_neg]
    ring_nf
  have hback : d.neg.neg.value = d.value := by rw [value_neg, value_neg, neg_neg]
  refine ⟨fun d' => ?_, fun d' hd' => ?_⟩
  · rw [hflip, hflip, hback]
    exact h.le d'.neg
  · rw [hflip, hflip, hback] at hd'
    refine (h.even _ hd').imp_left fun heq => ?_
    rw [value_neg, ← heq, value_neg, neg_neg]

/-- What rounding to a whole number of last bits comes to. -/
theorem exists_rounded {negative : Bool} {num den : ℕ} {d : Double} (hnum : 0 < num)
    (hden : 0 < den) (h : ofRatio? negative num den = some d) : ∃ m : ℕ,
      d.negative = negative ∧ d.amount = m * 2 ^ lastBit num den ∧ (Even m → Even d.mantissa) ∧
        2 * |(num : ℚ) / den / 2 ^ lastBit num den - m| ≤ 1 ∧
          (2 * |(num : ℚ) / den / 2 ^ lastBit num den - m| = 1 → Even m) := by
  have hspec := lastBit_spec hnum hden
  unfold ofRatio? at h
  rw [if_neg hnum.ne'] at h
  dsimp only at h
  generalize lastBit num den = e at *
  have hpos : 0 < (scaled num den e).2 := scaled_snd_pos hden
  have hround := @roundHalfEven_nearest (scaled num den e).1 _ hpos
  rw [scaled_div] at hround
  generalize roundHalfEven (scaled num den e).1 (scaled num den e).2 = m at *
  refine ⟨m, ?_⟩
  unfold ofFields? at h
  by_cases hm : m < Nat.pow 2 53
  · rw [if_pos hm] at h
    split_ifs at h
    cases h
    exact ⟨rfl, rfl, id, hround⟩
  · -- the quotient is rounded up to the next binade
    rw [if_neg hm] at h
    split_ifs at h
    cases h
    have hlt : (num : ℚ) / den / 2 ^ e < 2 ^ 53 := by
      rw [div_lt_iff₀ (by positivity)]
      calc (num : ℚ) / den < 2 ^ (53 + e) := hspec.lt
        _ = 2 ^ 53 * 2 ^ e := by rw [zpow_add₀ two_ne_zero]; norm_num
    have hle : (m : ℚ) < 2 ^ 53 + 1 := by
      have := neg_abs_le ((num : ℚ) / den / 2 ^ e - m)
      linarith [hround.1]
    have hle : m < 2 ^ 53 + 1 := by exact_mod_cast hle
    have hge : 2 ^ 53 ≤ m := not_lt.mp hm
    obtain rfl : m = 2 ^ 53 := by omega
    refine ⟨rfl, ?_, fun _ => ?_, hround⟩
    · rw [amount, zpow_add_one₀ two_ne_zero]
      push_cast
      ring
    · exact (Nat.even_pow.mpr ⟨even_two, by decide⟩ : Even (2 ^ 52))

theorem nearest_zero (negative : Bool) : Nearest 0 (zero negative) := by
  refine ⟨fun d' => ?_, fun _ _ => .inr (Nat.even_iff.mpr rfl)⟩
  rw [value_zero, sub_zero, abs_zero]
  exact abs_nonneg _

/-- A rational that is rounded at its last bit is rounded to the nearest double. -/
theorem nearest_of_rounded {q : ℚ} {d : Double} {e : ℤ} {m : ℕ} (hbit : LastBit q e)
    (hvalue : d.value = m * 2 ^ e) (heven : Even m → Even d.mantissa)
    (hhalf : 2 * |q / 2 ^ e - m| ≤ 1) (htie : 2 * |q / 2 ^ e - m| = 1 → Even m) :
    Nearest q d := by
  have hpow : (0 : ℚ) < 2 ^ e := by positivity
  have hgrid (k : ℤ) : |q - k * 2 ^ e| = |q / 2 ^ e - k| * 2 ^ e := by
    have hsub : q - k * 2 ^ e = (q / 2 ^ e - k) * 2 ^ e := by
      rw [sub_mul, div_mul_cancel₀ _ hpow.ne']
    rw [hsub, abs_mul, abs_of_pos hpow]
  have hd : |q - d.value| = |q / 2 ^ e - (m : ℤ)| * 2 ^ e := by
    rw [hvalue, ← hgrid]
    push_cast
    rfl
  have hhalf : 2 * |q / 2 ^ e - (m : ℤ)| ≤ 1 := by exact_mod_cast hhalf
  have hon (k : ℤ) : |q - d.value| ≤ |q - k * 2 ^ e| := by
    rw [hd, hgrid]
    exact mul_le_mul_of_nonneg_right (abs_sub_le_of_half hhalf k) hpow.le
  -- what lies below the binade lies farther than the first point of the binade
  have hbelow (d' : Double) (he : d'.exponent < e) (hlt : |d'.value| < 2 ^ (52 + e)) :
      |q - d.value| < |q - d'.value| := by
    have hle : 2 ^ (52 + e) ≤ q := hbit.le.resolve_left fun h => by
      have := d'.exponent_ge
      omega
    have hfirst := hon (2 ^ 52)
    rw [show ((2 ^ 52 : ℤ) : ℚ) * 2 ^ e = 2 ^ (52 + e) by
      rw [zpow_add₀ two_ne_zero]; norm_num, abs_of_nonneg (sub_nonneg.mpr hle)] at hfirst
    have hvalue' := le_abs_self d'.value
    rw [abs_of_pos (show 0 < q - d'.value by linarith)]
    linarith
  refine ⟨fun d' => ?_, fun d' hd' => ?_⟩
  · rcases exists_grid d' e with ⟨k, hk⟩ | ⟨he, hlt⟩
    · rw [hk]
      exact hon k
    · exact (hbelow d' he hlt).le
  · rcases exists_grid d' e with ⟨k, hk⟩ | ⟨he, hlt⟩
    · rw [hk, hd, hgrid, mul_left_inj' hpow.ne'] at hd'
      rcases hhalf.lt_or_eq with hhalf | hhalf
      · left
        rw [hk, hvalue, eq_of_abs_sub_eq hhalf hd']
        push_cast
        rfl
      · exact .inr (heven (htie (by exact_mod_cast hhalf)))
    · exact absurd hd' (hbelow d' he hlt).ne'

/-- **A quotient is rounded to the nearest double.** -/
theorem nearest_of_ofRatio? {negative : Bool} {num den : ℕ} {d : Double} (hden : 0 < den)
    (h : ofRatio? negative num den = some d) :
    Nearest (if negative then -(num / den) else num / den) d := by
  rcases Nat.eq_zero_or_pos num with rfl | hnum
  · obtain rfl : zero negative = d := Option.some.inj h
    simpa using nearest_zero negative
  obtain ⟨m, hsign, hamount, heven, hhalf, htie⟩ := exists_rounded hnum hden h
  have hbit := lastBit_spec hnum hden
  cases negative with
  | false =>
    have hvalue : d.value = d.amount := by simp [value, hsign]
    exact nearest_of_rounded hbit (hvalue.trans hamount) heven hhalf htie
  | true =>
    have hvalue : d.neg.value = d.amount := by rw [value_neg, value, if_pos hsign, neg_neg]
    have hback : d.neg.neg = d := by simp [neg]
    have hneg : Nearest (num / den) d.neg :=
      nearest_of_rounded hbit (hvalue.trans hamount) heven hhalf htie
    exact hback ▸ hneg.neg

/-! ### There is one nearest double -/

theorem value_eq_amount {d : Double} (hd : 0 ≤ d.value) : d.value = d.amount := by
  rw [← abs_value, abs_of_nonneg hd]

/-- Of two even mantissas one does not follow the other. -/
theorem exists_above {d d' : Double} (hd : 0 ≤ d.value) (hlt : d.value < d'.value)
    (heven : Even d.mantissa) (heven' : Even d'.mantissa) :
    ∃ x : Double, d.value < x.value ∧ x.value < d'.value := by
  have hpow : (0 : ℚ) < 2 ^ d.exponent := by positivity
  have hm : d.mantissa + 1 < 2 ^ 53 := by
    obtain ⟨k, hk⟩ := heven
    have : d.mantissa < 2 ^ 53 := d.mantissa_lt
    omega
  have hcanonical : 2 ^ 52 ≤ d.mantissa + 1 ∨ d.exponent = -1074 :=
    d.canonical.imp_left Nat.le_succ_of_le
  let x : Double := ⟨false, d.mantissa + 1, d.exponent, hm, d.exponent_ge, d.exponent_le, hcanonical⟩
  have hx : x.value = (d.mantissa + 1 : ℤ) * 2 ^ d.exponent := by
    simp [x, value, amount]
  have hdvalue : d.value = (d.mantissa : ℤ) * 2 ^ d.exponent := by
    rw [value_eq_amount hd, amount]
    push_cast
    rfl
  refine ⟨x, ?_, ?_⟩
  · rw [hx, hdvalue, mul_lt_mul_iff_left₀ hpow]
    push_cast
    linarith
  rcases exists_grid d' d.exponent with ⟨k, hk⟩ | ⟨he, hbelow⟩
  · have hmk : (d.mantissa : ℤ) < k := by
      rw [hk, hdvalue, mul_lt_mul_iff_left₀ hpow] at hlt
      exact_mod_cast hlt
    have hne : k ≠ d.mantissa + 1 := by
      rintro rfl
      have hamount : d'.amount = x.amount := by
        rw [← value_eq_amount (hd.trans hlt.le), hk, ← hx]
        exact value_eq_amount (by rw [hx]; positivity)
      have hodd : d'.mantissa = d.mantissa + 1 := (eq_of_amount_eq hamount).1
      rw [hodd] at heven'
      exact absurd heven (Nat.even_add_one.mp heven')
    rw [hx, hk, mul_lt_mul_iff_left₀ hpow]
    exact_mod_cast (show (d.mantissa : ℤ) + 1 < k by omega)
  · -- the greater double lies in a lower binade
    have hlow : (2 : ℚ) ^ (52 + d.exponent) ≤ d.value := by
      rw [value_eq_amount hd]
      refine lastBit_amount.le.resolve_left fun h => ?_
      have := d'.exponent_ge
      omega
    have := le_abs_self d'.value
    linarith

/-- Between two doubles with even mantissas lies a third. -/
theorem exists_between {d d' : Double} (hlt : d.value < d'.value) (heven : Even d.mantissa)
    (heven' : Even d'.mantissa) : ∃ x : Double, d.value < x.value ∧ x.value < d'.value := by
  by_cases hd : 0 ≤ d.value
  · exact exists_above hd hlt heven heven'
  by_cases hd' : 0 < d'.value
  · refine ⟨zero false, ?_, ?_⟩
    · rw [value_zero]
      exact not_le.mp hd
    · rw [value_zero]
      exact hd'
  · have hnonneg : 0 ≤ d'.neg.value := by
      rw [value_neg]
      linarith
    have hlt' : d'.neg.value < d.neg.value := by
      rw [value_neg, value_neg]
      linarith
    obtain ⟨x, hx, hx'⟩ := exists_above hnonneg hlt' heven' heven
    rw [value_neg] at hx hx'
    refine ⟨x.neg, ?_, ?_⟩
    · rw [value_neg]
      linarith
    · rw [value_neg]
      linarith

theorem Nearest.value_not_lt {q : ℚ} {d d' : Double} (h : Nearest q d) (h' : Nearest q d') :
    ¬ d.value < d'.value := by
  intro hlt
  have hdist : |q - d.value| = |q - d'.value| := le_antisymm (h.le d') (h'.le d)
  have heven := (h.even d' hdist.symm).resolve_left hlt.ne'
  have heven' := (h'.even d hdist).resolve_left hlt.ne
  obtain ⟨x, hx, hx'⟩ := exists_between hlt heven heven'
  -- the rational lies in the middle of the two, closer to what is between them
  have hmiddle : q - d.value = -(q - d'.value) :=
    (abs_eq_abs.mp hdist).resolve_left fun heq => hlt.ne (by linarith)
  have hcloser : |q - x.value| < q - d.value := abs_lt.mpr ⟨by linarith, by linarith⟩
  have hle := h.le x
  rw [abs_of_pos (show 0 < q - d.value by linarith)] at hle
  linarith

/-- **The nearest doubles of a rational stand for one number.** -/
theorem Nearest.value_eq {q : ℚ} {d d' : Double} (h : Nearest q d) (h' : Nearest q d') :
    d.value = d'.value :=
  le_antisymm (not_lt.mp (h'.value_not_lt h)) (not_lt.mp (h.value_not_lt h'))

/-- The sign of a zero does not matter to what is nearest. -/
theorem Nearest.congr {q : ℚ} {d d' : Double} (h : Nearest q d) (hd : d.same d' = true) :
    Nearest q d' := by
  have hvalue : d.value = d'.value := same_iff_value_eq.mp hd
  obtain ⟨hm, -, -⟩ := same_iff.mp hd
  refine ⟨fun x => ?_, fun x hx => ?_⟩
  · rw [← hvalue]
    exact h.le x
  · rw [← hvalue, ← hm] at *
    exact h.even x hx

/-- What a double stands for is nearest to itself. -/
theorem nearest_value (d : Double) : Nearest d.value d := by
  refine ⟨fun x => ?_, fun x hx => .inl ?_⟩
  · rw [sub_self, abs_zero]
    exact abs_nonneg _
  · rw [sub_self, abs_zero, abs_eq_zero] at hx
    linarith

/-! ### Rounding succeeds -/

/-- Half a last bit above the greatest double. -/
def limit : ℚ := (2 ^ 54 - 1) * 2 ^ 970

theorem two_pow_lt_limit {k : ℕ} (hk : k ≤ 1023) : (2 : ℚ) ^ k < limit := by
  have hsplit : (2 : ℚ) ^ 1023 = 2 ^ 53 * 2 ^ 970 := pow_add 2 53 970
  refine (pow_le_pow_right₀ (by norm_num) hk).trans_lt ?_
  rw [hsplit, limit]
  exact mul_lt_mul_of_pos_right (by norm_num) (by positivity)

/-- What lies below the limit is rounded to a double. -/
theorem exists_ofRatio? (negative : Bool) {num den : ℕ} (hden : 0 < den)
    (hlt : (num : ℚ) / den < limit) : ∃ d, ofRatio? negative num den = some d := by
  rcases Nat.eq_zero_or_pos num with rfl | hnum
  · exact ⟨_, rfl⟩
  have hspec := lastBit_spec hnum hden
  unfold ofRatio?
  rw [if_neg hnum.ne']
  dsimp only
  generalize lastBit num den = e at *
  have hpos : 0 < (scaled num den e).2 := scaled_snd_pos hden
  have hround := (@roundHalfEven_nearest (scaled num den e).1 _ hpos).1
  rw [scaled_div] at hround
  generalize roundHalfEven (scaled num den e).1 (scaled num den e).2 = m at *
  have hexponent : e ≤ 971 := by
    rcases hspec.le with he | hge
    · omega
    · have hpow : (2 : ℚ) ^ (52 + e) < 2 ^ (1024 : ℤ) :=
        calc (2 : ℚ) ^ (52 + e) < limit := hge.trans_lt hlt
          _ ≤ 2 ^ 54 * 2 ^ 970 := mul_le_mul_of_nonneg_right (by norm_num) (by positivity)
          _ = 2 ^ (1024 : ℤ) := by rw [← pow_add]; rfl
      have := (zpow_lt_zpow_iff_right₀ (by norm_num : (1 : ℚ) < 2)).mp hpow
      omega
  have hge := hspec.ge
  have hnear := abs_le.mp (show |(num : ℚ) / den / 2 ^ e - m| ≤ 1 / 2 by linarith)
  unfold ofFields?
  by_cases hm : m < Nat.pow 2 53
  · have hcanonical : Nat.pow 2 52 ≤ m ∨ e = -1074 := by
      refine hspec.le.symm.imp_left fun hlow => ?_
      have hscaled : (2 : ℚ) ^ 52 ≤ num / den / 2 ^ e := by
        rw [le_div_iff₀ (by positivity)]
        rw [zpow_add₀ two_ne_zero] at hlow
        exact_mod_cast hlow
      have hlt : (2 : ℚ) ^ 52 < m + 1 := by linarith
      exact Nat.lt_succ_iff.mp (by exact_mod_cast hlt)
    rw [if_pos hm, dif_pos ⟨hm, hge, hexponent, hcanonical⟩]
    exact ⟨_, rfl⟩
  · -- at the greatest last bit nothing is rounded up to the next binade
    have hbelow : e ≠ 971 := by
      rintro rfl
      have hscaled : (num : ℚ) / den / 2 ^ (971 : ℤ) < 2 ^ 53 - 1 / 2 := by
        rw [div_lt_iff₀ (by positivity)]
        refine hlt.trans_eq ?_
        rw [limit, zpow_ofNat, pow_succ' (2 : ℚ) 970]
        generalize (2 : ℚ) ^ 970 = x
        ring
      have hle : (2 : ℚ) ^ 53 ≤ m := by exact_mod_cast not_lt.mp hm
      linarith
    rw [if_neg hm, dif_pos ⟨by decide, by omega, by omega, .inl le_rfl⟩]
    exact ⟨_, rfl⟩

end Double
end Wireform
