/-
# Texts of doubles are read as doubles

To read a decimal takes three roundings, of the digits, of the power of ten and of their
product or quotient. Each is off by one in `2 ^ 53` at most (`Double.abs_sub_amount_le`), so
nothing becomes too large but what lies next to the greatest double. The decimal that a double
is written with is as small as that double allows, and for the three greatest doubles the digits
themselves are read; so what a double is written with is always read as a double
(`Double.exists_ofSpelled?_shortest`), though not always as that one.

Of a decimal that does not fit 64 bits the first digits are read (`Decimal.Collects`).

Key definitions: `Decimal.Collects`, `Double.spelled`.
Key theorems: `Decimal.collects_collected`, `Double.abs_sub_amount_le`,
`Double.exists_ofSpelled?`, `Double.nearest_spelled`, `Double.exists_ofSpelled?_shortest`.
-/
import Wireform.Number.Reading
import Wireform.Proofs.Number.Nearest
import Wireform.Proofs.Number.Shortest
import Wireform.Proofs.Text.Digits

namespace Wireform

/-! ### Digits in 64 bits -/

namespace Decimal

open Text (digitValue ofDigits)

/-- Digits are taken from the front as long as they fit, and all of them if they all do. -/
theorem exists_collect : ∀ (cs : List Char) {n : ℕ}, n < 2 ^ 64 → ∃ front back,
    cs = front ++ back ∧ collect n cs = (10 ^ front.length * n + ofDigits front, back) ∧
      10 ^ front.length * n + ofDigits front < 2 ^ 64 ∧
      (10 ^ cs.length * n + ofDigits cs < 2 ^ 64 → back = [])
  | [], n, hn => ⟨[], [], rfl, by simp [collect, ofDigits], by simpa [ofDigits] using hn,
      fun _ => rfl⟩
  | c :: cs, n, hn => by
    have hcons (ds : List Char) : 10 ^ (c :: ds).length * n + ofDigits (c :: ds) =
        10 ^ ds.length * (10 * n + digitValue c) + ofDigits ds := by
      rw [Text.ofDigits_cons, List.length_cons]
      ring
    rw [collect]
    split
    · rename_i hfits
      obtain ⟨front, back, rfl, hcollect, hlt, hall⟩ := exists_collect cs hfits
      refine ⟨c :: front, back, rfl, ?_, ?_, ?_⟩
      · rw [hcollect, hcons]
      · rwa [hcons]
      · rwa [hcons]
    · rename_i hfull
      refine ⟨[], c :: cs, rfl, by simp [ofDigits], by simpa [ofDigits] using hn, fun hall => ?_⟩
      have hpow : 10 * n + digitValue c ≤ 10 ^ cs.length * (10 * n + digitValue c) :=
        Nat.le_mul_of_pos_left _ (by positivity)
      rw [hcons] at hall
      omega

/-- Where the digits before a point fit, those behind it are taken as long as they fit. -/
theorem exists_collected {whole : List Char} (places : List Char) (hwhole : ofDigits whole < 2 ^ 64) :
    ∃ front back, places = front ++ back ∧
      collected whole places = ⟨ofDigits (whole ++ front), -front.length⟩ ∧
        ofDigits (whole ++ front) < 2 ^ 64 ∧ (ofDigits (whole ++ places) < 2 ^ 64 → back = []) := by
  obtain ⟨digits, rest, rfl, hcollect, -, hnone⟩ := exists_collect whole (n := 0) (by decide)
  obtain rfl := hnone (by simpa using hwhole)
  rw [List.append_nil] at hwhole hcollect ⊢
  rw [Nat.mul_zero, Nat.zero_add] at hcollect
  obtain ⟨front, back, rfl, hback, hlt, hall⟩ := exists_collect places hwhole
  rw [← Text.ofDigits_append] at hback hlt hall
  refine ⟨front, back, rfl, ?_, hlt, hall⟩
  rw [collected, hcollect]
  dsimp only
  rw [hback, List.length_append, List.length_nil]
  congr 1
  push_cast
  ring

/-- What is collected of a decimal: all of it if it fits 64 bits, and never more than it is. -/
structure Collects (c p : Decimal) : Prop where
  digits_lt : p.digits < 2 ^ 64
  amount_le : p.amount ≤ c.amount
  eq : c.digits < 2 ^ 64 → p = c

/-- **The digits of a decimal are collected**, where those before the point fit. -/
theorem collects_collected {whole : List Char} (places : List Char) (e : ℤ)
    (hwhole : ofDigits whole < 2 ^ 64) :
    Collects ⟨ofDigits (whole ++ places), e - places.length⟩
      { collected whole places with exponent := (collected whole places).exponent + e } := by
  obtain ⟨front, back, rfl, hcollected, hlt, hall⟩ := exists_collected places hwhole
  rw [hcollected]
  refine ⟨hlt, ?_, fun hfits => ?_⟩
  · have hexponent : -(front.length : ℤ) + e = e - (front ++ back).length + back.length := by
      rw [List.length_append]
      push_cast
      ring
    have hdigits : (10 : ℚ) ^ back.length * ofDigits (whole ++ front) ≤
        ofDigits (whole ++ (front ++ back)) := by
      rw [← List.append_assoc, Text.ofDigits_append _ back]
      exact_mod_cast Nat.le_add_right _ _
    rw [amount, amount]
    dsimp only
    rw [hexponent, zpow_add₀ (by norm_num), zpow_natCast, mul_comm ((10 : ℚ) ^ _) (10 ^ back.length),
      mul_left_comm, ← mul_assoc]
    exact mul_le_mul_of_nonneg_right hdigits (by positivity)
  · obtain rfl := hall hfits
    rw [List.append_nil, neg_add_eq_sub]

end Decimal

namespace Double

/-! ### What a rounding is off by -/

theorem amount_eq_zero {d : Double} (h : d.isZero = true) : d.amount = 0 := by
  rw [eq_zero_of_isZero h]
  simp [amount, zero]

section Rounding

variable {negative : Bool} {num den : ℕ} {d : Double}

/-- No double is closer to the amount that is rounded. -/
theorem abs_sub_amount_le_of (hden : 0 < den) (h : ofRatio? negative num den = some d) (x : Double) :
    |(num : ℚ) / den - d.amount| ≤ |(num : ℚ) / den - x.amount| := by
  have hnearest := nearest_of_ofRatio? hden h
  have hsign : d.negative = negative := by
    rcases Nat.eq_zero_or_pos num with rfl | hnum
    · cases Option.some.inj h
      rfl
    · obtain ⟨_, hsign, -⟩ := exists_rounded hnum hden h
      exact hsign
  have hle := hnearest.le { x with negative := negative }
  cases negative with
  | false => simpa [value, hsign, amount] using hle
  | true =>
    simp only [value, hsign, amount, if_true, sub_neg_eq_add, neg_add_eq_sub] at hle
    rwa [abs_sub_comm, abs_sub_comm (x.mantissa * 2 ^ x.exponent : ℚ)] at hle

theorem amount_le_two_mul (hden : 0 < den) (h : ofRatio? negative num den = some d) :
    d.amount ≤ 2 * (num / den) := by
  have hzero : (zero false).amount = 0 := amount_eq_zero rfl
  have hle := abs_sub_amount_le_of hden h (zero false)
  rw [hzero, sub_zero, abs_of_nonneg (show (0 : ℚ) ≤ num / den by positivity)] at hle
  linarith [neg_abs_le ((num : ℚ) / den - d.amount)]

/-- A rounding is off by one in `2 ^ 53` at most, unless what is rounded is small. -/
theorem abs_sub_amount_le (hden : 0 < den) (h : ofRatio? negative num den = some d)
    (hone : 1 ≤ (num : ℚ) / den) : |(num : ℚ) / den - d.amount| ≤ num / den / 2 ^ 53 := by
  have hnum : 0 < num := by
    rcases Nat.eq_zero_or_pos num with rfl | hnum
    · norm_num at hone
    · exact hnum
  obtain ⟨m, -, hamount, -, hhalf, -⟩ := exists_rounded hnum hden h
  have hspec := lastBit_spec hnum hden
  generalize lastBit num den = e at *
  have hpow : (0 : ℚ) < 2 ^ e := by positivity
  have hlow : (2 : ℚ) ^ (52 + e) ≤ num / den := by
    refine hspec.le.resolve_left ?_
    rintro rfl
    have hlt : (2 : ℚ) ^ (53 + -1074 : ℤ) < 2 ^ (0 : ℤ) := zpow_lt_zpow_right₀ (by norm_num) (by norm_num)
    rw [zpow_zero] at hlt
    exact absurd (hspec.lt.trans hlt) (not_lt.mpr hone)
  have hsplit : (num : ℚ) / den - d.amount = (num / den / 2 ^ e - m) * 2 ^ e := by
    rw [hamount, sub_mul, div_mul_cancel₀ _ hpow.ne']
  rw [zpow_add₀ two_ne_zero] at hlow
  rw [hsplit, abs_mul, abs_of_pos hpow, le_div_iff₀ (by positivity)]
  have hhalf := mul_le_mul_of_nonneg_right hhalf hpow.le
  norm_num at hlow ⊢
  linarith

end Rounding

theorem isZero_of_amount_le {d : Double} (h : d.amount ≤ 0) : d.isZero = true := by
  by_contra hzero
  exact absurd (amount_pos (Bool.not_eq_true _ ▸ hzero)) (not_lt.mpr h)

theorem magnitude_snd_pos (d : Double) : 0 < d.magnitude.2 := by
  unfold magnitude
  split
  · exact one_pos
  · exact Nat.pow_pos (by decide)

theorem magnitude_div (d : Double) : (d.magnitude.1 : ℚ) / d.magnitude.2 = d.amount := by
  unfold magnitude
  split
  · rename_i he
    obtain ⟨k, hk⟩ := Int.eq_ofNat_of_zero_le he
    rw [amount, hk, Int.toNat_natCast, Nat.pow_eq, zpow_natCast]
    push_cast
    rw [div_one]
  · rename_i he
    obtain ⟨k, hk⟩ := Int.eq_ofNat_of_zero_le (show 0 ≤ -d.exponent by omega)
    rw [amount, hk, Int.toNat_natCast, Nat.pow_eq, show d.exponent = -(k : ℤ) by omega, zpow_neg,
      zpow_natCast, div_eq_mul_inv]
    push_cast
    rfl

end Double

namespace Floating

open Double (limit two_pow_lt_limit abs_sub_amount_le amount_le_two_mul)

/-! ### Scaling -/

theorem exists_ofRatio (negative : Bool) {num den : ℕ} (hden : 0 < den)
    (hlt : (num : ℚ) / den < limit) :
    ∃ d, ofRatio negative num den = .finite d ∧ Double.ofRatio? negative num den = some d := by
  obtain ⟨d, hd⟩ := Double.exists_ofRatio? negative hden hlt
  exact ⟨d, by rw [ofRatio, hd], hd⟩

theorem exists_mul {a b : Double} (hlt : a.amount * b.amount < limit) :
    ∃ d, (finite a).mul (.finite b) = .finite d := by
  have hpos := Nat.mul_pos a.magnitude_snd_pos b.magnitude_snd_pos
  rw [← a.magnitude_div, ← b.magnitude_div, div_mul_div_comm] at hlt
  obtain ⟨d, hd, -⟩ := exists_ofRatio (a.negative != b.negative) hpos
    (show ((a.magnitude.1 * b.magnitude.1 : ℕ) : ℚ) / (a.magnitude.2 * b.magnitude.2 : ℕ) < limit by
      exact_mod_cast hlt)
  exact ⟨d, hd⟩

theorem exists_div {a b : Double} (hb : 0 < b.amount) (hlt : a.amount / b.amount < limit) :
    ∃ d, (finite a).div (.finite b) = .finite d ∧ d.amount ≤ 2 * (a.amount / b.amount) := by
  have hnum : 0 < b.magnitude.1 := by
    rw [← b.magnitude_div] at hb
    exact Nat.pos_of_ne_zero fun h => by simp [h] at hb
  have hzero : b.isZero = false := by
    by_contra h
    rw [Double.amount_eq_zero (d := b) (by simpa using h)] at hb
    exact lt_irrefl 0 hb
  have hpos := Nat.mul_pos a.magnitude_snd_pos hnum
  have hdiv : ((a.magnitude.1 * b.magnitude.2 : ℕ) : ℚ) / (a.magnitude.2 * b.magnitude.1 : ℕ) =
      a.amount / b.amount := by
    rw [← a.magnitude_div, ← b.magnitude_div, div_div_div_eq]
    push_cast
    rfl
  obtain ⟨d, hd, hround⟩ := exists_ofRatio (a.negative != b.negative) hpos (hdiv ▸ hlt)
  refine ⟨d, ?_, hdiv ▸ amount_le_two_mul hpos hround⟩
  rw [div]
  dsimp only
  rw [hzero, if_neg (by decide)]
  exact hd

theorem limit_eq_natCast : limit = (18014398509481983 * 2 ^ 970 : ℕ) := by
  have hcast : ((18014398509481983 * 2 ^ 970 : ℕ) : ℚ) = 18014398509481983 * 2 ^ 970 := by
    simp only [Nat.cast_mul, Nat.cast_pow, Nat.cast_ofNat]
  rw [hcast]
  exact congrArg (· * 2 ^ 970) (by norm_num)

theorem ten_pow_lt_limit {k : ℕ} (hk : k ≤ 308) : (10 : ℚ) ^ k < limit := by
  refine (pow_le_pow_right₀ (by norm_num) hk).trans_lt ?_
  rw [limit_eq_natCast, ← Nat.cast_ofNat (n := 10), ← Nat.cast_pow, Nat.cast_lt]
  decide +kernel

theorem limit_le_ten_pow : limit ≤ 10 ^ 309 := by
  rw [limit_eq_natCast, ← Nat.cast_ofNat (n := 10), ← Nat.cast_pow, Nat.cast_le]
  decide +kernel

/-- A power of ten up to the 308th is a double that is as good as it. -/
theorem exists_powerOfTen {k : ℕ} (hk : k ≤ 308) : ∃ p : Double, powerOfTen k = .finite p ∧
    10 ^ k / 2 ≤ p.amount ∧ p.amount ≤ 10 ^ k * (1 + 1 / 2 ^ 53) := by
  have hcast : ((Nat.pow 10 k : ℕ) : ℚ) / (1 : ℕ) = 10 ^ k := by
    rw [Nat.pow_eq]
    push_cast
    rw [div_one]
  have hone : (1 : ℚ) ≤ 10 ^ k := one_le_pow₀ (by norm_num)
  obtain ⟨p, hp, hround⟩ := exists_ofRatio false one_pos (hcast ▸ ten_pow_lt_limit hk)
  have hoff := abs_le.mp (abs_sub_amount_le one_pos hround (hcast ▸ hone))
  rw [hcast] at hoff
  refine ⟨p, hp, ?_, ?_⟩
  · norm_num at hoff ⊢
    linarith
  · norm_num at hoff ⊢
    linarith

/-- To divide by a power of ten never makes a number too large. -/
theorem exists_shrink : ∀ (times : ℕ) {f : Double} {k : ℕ}, k ≤ times + 308 → f.amount < 2 ^ 65 →
    ∃ d, shrink times (.finite f) k = .finite d := by
  have hlast {f : Double} {k : ℕ} (hk : k ≤ 308) (hf : f.amount < 2 ^ 65) :
      ∃ d, (finite f).div (powerOfTen k) = .finite d := by
    obtain ⟨p, hp, hge, -⟩ := exists_powerOfTen hk
    have hone : (1 : ℚ) ≤ 10 ^ k := one_le_pow₀ (by norm_num)
    have hpos : 0 < p.amount := by linarith
    have hquotient : f.amount / p.amount < 2 ^ 66 := by
      rw [div_lt_iff₀ hpos]
      linarith
    obtain ⟨d, hd, -⟩ := exists_div hpos (hquotient.trans (two_pow_lt_limit (by decide)))
    exact ⟨d, by rw [hp, hd]⟩
  intro times
  induction times with
  | zero =>
    intro f k hk hf
    exact hlast (by omega) hf
  | succ times ih =>
    intro f k hk hf
    rw [shrink]
    split_ifs with hfew hzero
    · exact hlast hfew hf
    · exact ⟨f, rfl⟩
    · obtain ⟨p, hp, hge, -⟩ := exists_powerOfTen (le_refl 308)
      have hten : (10 : ℚ) ≤ 10 ^ 308 := le_self_pow₀ (by norm_num) (by decide)
      generalize (10 : ℚ) ^ 308 = ten at hge hten
      have htwo : 2 ≤ p.amount := by linarith
      have hpos : 0 < p.amount := by linarith
      have hquotient : 2 * (f.amount / p.amount) ≤ f.amount := by
        rw [← mul_div_assoc, div_le_iff₀ hpos, mul_comm]
        exact mul_le_mul_of_nonneg_left htwo f.amount_nonneg
      have hlt : f.amount / p.amount < 2 ^ 65 := by
        have hnonneg : 0 ≤ f.amount / p.amount := div_nonneg f.amount_nonneg hpos.le
        linarith
      obtain ⟨d, hd, hle⟩ := exists_div hpos (hlt.trans (two_pow_lt_limit (by decide)))
      rw [hp, hd]
      exact ih (by omega) (by linarith)

/-- What is scaled does not become too large if it stays so by the errors of two roundings. -/
theorem exists_scale {c : Decimal} (hdigits : c.digits < 2 ^ 64)
    (hlt : c.amount * (1 + 1 / 2 ^ 53) ^ 2 < limit) :
    ∃ d, scale (ofRatio false c.digits 1) c.exponent = .finite d := by
  have hcast : ((c.digits : ℕ) : ℚ) / (1 : ℕ) = c.digits := by rw [Nat.cast_one, div_one]
  have hdigits : (c.digits : ℚ) < 2 ^ 64 := by exact_mod_cast hdigits
  obtain ⟨f, hf, hround⟩ := exists_ofRatio false one_pos
    (hcast ▸ hdigits.trans (two_pow_lt_limit (by decide)))
  have hle := amount_le_two_mul one_pos hround
  rw [hcast] at hle
  rw [hf, scale]
  split_ifs with hneg hfew hzero
  · exact exists_shrink _ (by omega) (by linarith)
  · obtain ⟨k, hk⟩ := Int.eq_ofNat_of_zero_le (not_lt.mp hneg)
    obtain ⟨p, hp, -, hple⟩ := exists_powerOfTen (show k ≤ 308 by omega)
    have hfle : f.amount ≤ c.digits * (1 + 1 / 2 ^ 53) := by
      rcases Nat.eq_zero_or_pos c.digits with h | h
      · rw [h, Nat.cast_zero] at hle ⊢
        linarith
      · have hone : (1 : ℚ) ≤ c.digits := by exact_mod_cast h
        have hoff := abs_le.mp (abs_sub_amount_le one_pos hround (hcast.symm ▸ hone))
        rw [hcast] at hoff
        linarith
    have hprod : f.amount * p.amount ≤ c.amount * (1 + 1 / 2 ^ 53) ^ 2 :=
      calc f.amount * p.amount
          ≤ c.digits * (1 + 1 / 2 ^ 53) * (10 ^ k * (1 + 1 / 2 ^ 53)) :=
            mul_le_mul hfle hple p.amount_nonneg (by positivity)
        _ = c.amount * (1 + 1 / 2 ^ 53) ^ 2 := by
            rw [Decimal.amount, hk, zpow_natCast]
            ring
    rw [hk, Int.toNat_natCast, hp]
    exact exists_mul (hprod.trans_lt hlt)
  · exact ⟨f, rfl⟩
  · -- digits other than zero are beyond the limit
    have hpos : 0 < c.digits := by
      refine Nat.pos_of_ne_zero fun h => hzero ?_
      rw [h, Nat.cast_zero, mul_zero] at hle
      exact Double.isZero_of_amount_le hle
    have hone : (1 : ℚ) ≤ c.digits := by exact_mod_cast hpos
    have hge : limit ≤ c.amount :=
      calc limit ≤ 10 ^ 309 := limit_le_ten_pow
        _ = 10 ^ (309 : ℤ) := (zpow_natCast 10 309).symm
        _ ≤ 10 ^ c.exponent := zpow_le_zpow_right₀ (by norm_num) (by omega)
        _ ≤ c.amount := le_mul_of_one_le_left (by positivity) hone
    have hmore : c.amount ≤ c.amount * (1 + 1 / 2 ^ 53) ^ 2 :=
      le_mul_of_one_le_right (by unfold Decimal.amount; positivity) (one_le_pow₀ (by norm_num))
    linarith

end Floating

namespace Double

/-- A decimal that is not near the limit is read as a double. -/
theorem exists_ofSpelled? (negative : Bool) {c : Decimal} (hdigits : c.digits < 2 ^ 64)
    (hlt : c.amount * (1 + 1 / 2 ^ 53) ^ 2 < limit) : ∃ d, ofSpelled? negative c = some d := by
  obtain ⟨d, hd⟩ := Floating.exists_scale hdigits hlt
  exact ⟨_, by rw [ofSpelled?, hd]⟩

/-! ### What doubles are written with -/

/-- A decimal that reads back as a double lies below all greater ones. -/
theorem amount_lt_of_readsBack {d x : Double} (hd : d.isZero = false) {c : Decimal}
    (h : d.readsBack c = true) (hlt : d.amount < x.amount) : c.amount < x.amount := by
  obtain ⟨num, den, hden, hratio, hround⟩ := exists_ratio_of_readsBack hd h
  have hcloser := abs_sub_amount_le_of hden hround x
  rw [hratio] at hcloser
  by_contra hfar
  rw [abs_of_nonneg (by linarith), abs_of_nonneg (by linarith)] at hcloser
  linarith

/-- The rational that the text of a double spells. -/
def spelled (d : Double) : ℚ := if d.negative then -d.shortest.amount else d.shortest.amount

/-- **A double is the nearest to what its text spells.** -/
theorem nearest_spelled {d : Double} (hd : d.isZero = false) : Nearest d.spelled d := by
  obtain ⟨num, den, hden, hratio, hround⟩ :=
    exists_ratio_of_readsBack hd (readsBack_shortest hd)
  rw [spelled, ← hratio]
  exact nearest_of_ofRatio? hden hround

/-- One of the three greatest doubles of a sign. -/
def great (negative : Bool) (i : Fin 3) : Double where
  negative
  mantissa := Nat.pow 2 53 - 3 + i.val
  exponent := 971
  mantissa_lt := Nat.add_lt_of_lt_sub' i.isLt
  exponent_ge := (zero negative).exponent_le
  exponent_le := by decide
  canonical := .inl (Nat.le_add_right_of_le (by decide))

/-- The three greatest doubles are read from their digits. -/
theorem ofSpelled?_great (negative : Bool) (i : Fin 3) :
    (great negative i).shortest.digits < 2 ^ 64 ∧
      (ofSpelled? negative (great negative i).shortest).isSome = true := by
  revert negative i
  decide +kernel

theorem amount_great : (great false 0).amount = (2 ^ 53 - 3) * 2 * 2 ^ 970 := by
  have hmantissa : ((Nat.pow 2 53 - 3 : ℕ) : ℚ) = 2 ^ 53 - 3 := by norm_num
  have hpow : (2 : ℚ) ^ (971 : ℤ) = 2 * 2 ^ 970 := (zpow_natCast 2 971).trans (pow_succ' 2 970)
  show ((Nat.pow 2 53 - 3 : ℕ) : ℚ) * 2 ^ (971 : ℤ) = _
  rw [hmantissa, hpow, mul_assoc]

/-- All other doubles lie below these. -/
theorem lt_great_or_eq (d : Double) :
    d.amount < (great false 0).amount ∨ ∃ i, d = great d.negative i := by
  have hle := d.exponent_le
  have hlt : d.mantissa < 2 ^ 53 := d.mantissa_lt
  by_cases he : d.exponent = 971
  · by_cases hm : d.mantissa < 2 ^ 53 - 3
    · refine .inl ?_
      show (d.mantissa : ℚ) * 2 ^ d.exponent < (Nat.pow 2 53 - 3 : ℕ) * 2 ^ (971 : ℤ)
      rw [he]
      exact mul_lt_mul_of_pos_right (by exact_mod_cast hm) (by positivity)
    · obtain ⟨i, hi⟩ := Nat.exists_eq_add_of_le (not_lt.mp hm)
      refine .inr ⟨⟨i, by omega⟩, ?_⟩
      obtain ⟨negative, m, e, _, _, _, _⟩ := d
      cases he
      cases hi
      rfl
  · refine .inl ?_
    calc d.amount < 2 ^ (53 + d.exponent) := lastBit_amount.lt
      _ ≤ 2 ^ (1023 : ℤ) := zpow_le_zpow_right₀ (by norm_num) (by omega)
      _ = 2 ^ 53 * 2 ^ 970 := (zpow_natCast 2 1023).trans (pow_add 2 53 970)
      _ < (2 ^ 53 - 3) * 2 * 2 ^ 970 := mul_lt_mul_of_pos_right (by norm_num) (by positivity)
      _ = (great false 0).amount := amount_great.symm

/-- **What a double is written with is read as a double.** -/
theorem exists_ofSpelled?_shortest {d : Double} (hd : d.isZero = false) {p : Decimal}
    (h : Decimal.Collects d.shortest p) : ∃ d', ofSpelled? d.negative p = some d' := by
  rcases lt_great_or_eq d with hlt | ⟨i, hi⟩
  · refine exists_ofSpelled? d.negative h.digits_lt ?_
    have hp : p.amount < (great false 0).amount :=
      h.amount_le.trans_lt (amount_lt_of_readsBack hd (readsBack_shortest hd) hlt)
    calc p.amount * (1 + 1 / 2 ^ 53) ^ 2
        < (2 ^ 53 - 3) * 2 * 2 ^ 970 * (1 + 1 / 2 ^ 53) ^ 2 :=
          mul_lt_mul_of_pos_right (amount_great ▸ hp) (by positivity)
      _ = (2 ^ 53 - 3) * 2 * (1 + 1 / 2 ^ 53) ^ 2 * 2 ^ 970 := mul_right_comm _ _ _
      _ ≤ limit := mul_le_mul_of_nonneg_right (by norm_num) (by positivity)
  · have hgreat := ofSpelled?_great d.negative i
    rw [← hi] at hgreat
    rw [h.eq hgreat.1]
    exact Option.isSome_iff_exists.mp hgreat.2

end Double
end Wireform
