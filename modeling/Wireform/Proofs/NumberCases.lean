/-
# Numbers as cases

A number is the case of an enum by its value, whatever its spelling. Two integers are the same
case exactly if they are equal, and so are two doubles. An integer meets a double as the double
nearest to it (`Number.same_whole_double_iff`). Where some double stands for the integer, this
is the one, and the two are the same exactly if they are equal. That is so for all integers up
to `2 ^ 53` (`Number.held_of_abs_le`).

No double stands for `2 ^ 53 + 1`, though, and the nearest one stands for `2 ^ 53`: an enum
whose only case is the integer accepts the double, and the same double is the case of both
integers, which are not each other's (`Number.not_same_by_value`). Such a pair blurs
(`Number.Blurs`). Nothing else is the same without being equal, and among numbers of which no
two blur being the same case is an equivalence (`Number.same_by_value`).

Key definitions: `Number.value`, `Number.Blurs`.
Key theorems: `Number.same_iff`, `Number.held_of_abs_le`, `Number.same_by_value`,
`Number.not_same_by_value`.
-/
import Wireform.Proofs.Number.Nearest
import Wireform.Proofs.Walk.Accept

namespace Wireform
namespace Number

/-- The rational that a number stands for. -/
def value : Number → ℚ
  | .whole n => n.val
  | .double d => d.value

/-- An integer that no double stands for, and the double nearest to it. -/
inductive Blurs : Number → Number → Prop
  | intro {n : Whole} {d : Double} (h : ∀ x : Double, x.value ≠ n.val)
    (hd : Double.Nearest n.val d) : Blurs (.whole n) (.double d)

/-! ### Integers as doubles -/

theorem ratio_eq_val (n : Whole) :
    (if decide (n.val < 0) = true then -((n.val.natAbs : ℚ) / (1 : ℕ))
      else (n.val.natAbs : ℚ) / (1 : ℕ)) = n.val := by
  have habs : ((n.val.natAbs : ℤ) : ℚ) = |(n.val : ℚ)| := by
    rw [Int.natCast_natAbs, Int.cast_abs]
  rw [Int.cast_natCast] at habs
  rw [habs, Nat.cast_one, div_one]
  by_cases hn : n.val < 0
  · have hq : (n.val : ℚ) < 0 := by exact_mod_cast hn
    rw [if_pos (decide_eq_true hn), abs_of_neg hq, neg_neg]
  · have hq : (0 : ℚ) ≤ n.val := by exact_mod_cast not_lt.mp hn
    rw [if_neg (by simpa using hn), abs_of_nonneg hq]

/-- Every integer of 64 bits is rounded, to the nearest double. -/
theorem exists_nearest? (n : Whole) : ∃ d, nearest? n = some d ∧ Double.Nearest n.val d := by
  have hsize : n.val.natAbs ≤ 2 ^ 64 := by
    have hge := n.val_ge
    have hlt := n.val_lt
    omega
  have hlt : (n.val.natAbs : ℚ) / (1 : ℕ) < Double.limit := by
    rw [Nat.cast_one, div_one]
    calc (n.val.natAbs : ℚ) ≤ 2 ^ 64 := by exact_mod_cast hsize
      _ < Double.limit := Double.two_pow_lt_limit (by decide)
  obtain ⟨d, hd⟩ := Double.exists_ofRatio? (decide (n.val < 0)) one_pos hlt
  have hnearest := Double.nearest_of_ofRatio? one_pos hd
  rw [ratio_eq_val] at hnearest
  exact ⟨d, hd, hnearest⟩

/-- **An integer is the same case as a double exactly if that is the nearest one.** -/
theorem same_whole_double_iff {n : Whole} {d : Double} :
    same (.whole n) (.double d) = true ↔ Double.Nearest n.val d := by
  obtain ⟨x, hx, hnearest⟩ := exists_nearest? n
  rw [same, hx, Option.any_some]
  constructor
  · intro h
    exact hnearest.congr h
  · intro h
    exact Double.same_iff_value_eq.mpr (hnearest.value_eq h)

theorem same_comm (a b : Number) : a.same b = b.same a := by
  cases a with
  | whole n =>
    cases b with
    | whole m => exact Bool.beq_comm
    | double d => rfl
  | double d =>
    cases b with
    | whole m => rfl
    | double x =>
      rw [Bool.eq_iff_iff]
      exact ⟨Double.same_symm, Double.same_symm⟩

/-- The nearest double is the integer itself, or it blurs with the integer. -/
theorem nearest_iff {n : Whole} {d : Double} : Double.Nearest n.val d ↔
    (n.val : ℚ) = d.value ∨ Blurs (.whole n) (.double d) := by
  constructor
  · intro h
    by_cases hheld : ∃ x : Double, x.value = n.val
    · obtain ⟨x, hx⟩ := hheld
      refine .inl ?_
      rw [← hx]
      rw [← hx] at h
      exact (Double.nearest_value x).value_eq h
    · exact .inr (.intro (not_exists.mp hheld) h)
  · rintro (h | ⟨-, h⟩)
    · rw [h]
      exact Double.nearest_value d
    · exact h

/-- **Two numbers are the same case exactly if they are equal or blur.** -/
theorem same_iff {a b : Number} :
    a.same b = true ↔ a.value = b.value ∨ a.Blurs b ∨ b.Blurs a := by
  have hmixed (n : Whole) (d : Double) : same (.whole n) (.double d) = true ↔
      (n.val : ℚ) = d.value ∨ Blurs (.whole n) (.double d) :=
    same_whole_double_iff.trans nearest_iff
  cases a with
  | whole n =>
    cases b with
    | whole m =>
      rw [same, beq_iff_eq, value, value, Int.cast_inj]
      constructor
      · rintro rfl
        exact .inl rfl
      · rintro (h | ⟨⟨⟩⟩ | ⟨⟨⟩⟩)
        cases n
        cases m
        cases h
        rfl
    | double d =>
      rw [hmixed]
      refine or_congr_right (or_iff_left ?_).symm
      rintro ⟨⟩
  | double d =>
    cases b with
    | whole m =>
      rw [same_comm, hmixed]
      refine or_congr eq_comm (or_iff_right ?_).symm
      rintro ⟨⟩
    | double x =>
      rw [same, Double.same_iff_value_eq]
      refine (or_iff_left ?_).symm
      rintro (⟨⟨⟩⟩ | ⟨⟨⟩⟩)

/-! ### Integers that doubles stand for -/

/-- A natural that is a whole number of its last bits is a double. -/
theorem exists_amount {n k : ℕ} {e : ℤ} (h : Double.LastBit n e) (hk : (n : ℚ) = k * 2 ^ e)
    (he : e ≤ 971) (negative : Bool) : ∃ d : Double, d.negative = negative ∧ d.amount = n := by
  have hpow : (0 : ℚ) < 2 ^ e := by positivity
  have hlt : k < 2 ^ 53 := by
    have hlt := h.lt
    rw [hk, zpow_add₀ two_ne_zero, mul_lt_mul_iff_left₀ hpow] at hlt
    exact_mod_cast hlt
  have hcanonical : 2 ^ 52 ≤ k ∨ e = -1074 := by
    refine h.le.symm.imp_left fun hle => ?_
    rw [hk, zpow_add₀ two_ne_zero, mul_le_mul_iff_left₀ hpow] at hle
    exact_mod_cast hle
  exact ⟨⟨negative, k, e, hlt, h.ge, he, hcanonical⟩, rfl, hk.symm⟩

/-- **All integers up to `2 ^ 53` are doubles.** -/
theorem held_of_abs_le {n : Whole} (hn : |n.val| ≤ 2 ^ 53) : ∃ d : Double, d.value = n.val := by
  have hsign : ∃ d : Double, d.negative = decide (n.val < 0) ∧ d.amount = n.val.natAbs := by
    rcases Nat.eq_zero_or_pos n.val.natAbs with hzero | hpos
    · refine ⟨.zero (decide (n.val < 0)), rfl, ?_⟩
      simp [Double.amount, Double.zero, hzero]
    have hbit := Double.lastBit_spec hpos one_pos
    rw [Nat.cast_one, div_one] at hbit
    generalize Double.lastBit n.val.natAbs 1 = e at hbit
    have hle : n.val.natAbs ≤ 2 ^ 53 := by
      rw [Int.abs_eq_natAbs] at hn
      exact_mod_cast hn
    by_cases he : e ≤ 0
    · obtain ⟨j, hj⟩ := Int.eq_ofNat_of_zero_le (neg_nonneg.mpr he)
      refine exists_amount (k := n.val.natAbs * 2 ^ j) hbit ?_ (by omega) _
      rw [show e = -(j : ℤ) by omega, zpow_neg, zpow_natCast]
      push_cast
      rw [mul_assoc, mul_inv_cancel₀ (by positivity), mul_one]
    · -- only the greatest of them has a last bit above the point
      have hge : (2 : ℚ) ^ (52 + e) ≤ n.val.natAbs := hbit.le.resolve_left (by omega)
      have hpow : (2 : ℚ) ^ (52 + e) ≤ 2 ^ (53 : ℤ) := hge.trans (by exact_mod_cast hle)
      have hexponent := (zpow_le_zpow_iff_right₀ (by norm_num : (1 : ℚ) < 2)).mp hpow
      obtain rfl : e = 1 := by omega
      have hge : 2 ^ 53 ≤ n.val.natAbs := by exact_mod_cast hge
      refine exists_amount (k := 2 ^ 52) hbit ?_ (by decide) _
      rw [show n.val.natAbs = 2 ^ 53 by omega]
      norm_num
  obtain ⟨d, hd, hamount⟩ := hsign
  refine ⟨d, ?_⟩
  have hvalue := ratio_eq_val n
  rw [← hamount, ← hd, Nat.cast_one, div_one] at hvalue
  exact hvalue

theorem Blurs.value_ne {a b : Number} (h : Blurs a b) : a.value ≠ b.value := by
  obtain ⟨hnone, -⟩ := h
  exact (hnone _).symm

/-- The value decides about two numbers exactly if they do not blur. -/
theorem same_iff_value_iff {a b : Number} :
    (a.same b = true ↔ a.value = b.value) ↔ ¬ a.Blurs b ∧ ¬ b.Blurs a := by
  rw [same_iff, ← not_or]
  constructor
  · intro h hblurs
    have hvalue := h.mp (.inr hblurs)
    rcases hblurs with hblurs | hblurs
    · exact hblurs.value_ne hvalue
    · exact hblurs.value_ne hvalue.symm
  · intro h
    exact or_iff_left h

theorem Blurs.lt {n : Whole} {b : Number} (h : Blurs (.whole n) b) : 2 ^ 53 < |n.val| := by
  obtain ⟨hnone, -⟩ := h
  by_contra hle
  obtain ⟨d, hd⟩ := held_of_abs_le (not_lt.mp hle)
  exact hnone d hd

/-! ### Cases of an enum -/

/-- A number is the case of an enum that holds a number of which it is the same. -/
theorem any_isCase_iff {cases : List Json} {v : Number} :
    cases.any (Descriptor.isCase · (.number v)) = true ↔
      ∃ c, .number c ∈ cases ∧ c.same v = true := by
  rw [List.any_eq_true]
  constructor
  · rintro ⟨c, hc, hv⟩
    cases c with
    | number c => exact ⟨c, hc, hv⟩
    | null | bool _ | string _ | array _ | object _ => simp [Descriptor.isCase, Json.same] at hv
  · rintro ⟨c, hc, hv⟩
    exact ⟨_, hc, hv⟩

theorem value_enum_iff {w : Walk} {steps : ℕ} {owner : Option String} {cases : List Json}
    {site : Site} {v : Number} {out : Slot} :
    w.value (steps + 1) owner (.enum cases) site (some (.number v)) = .ok out ↔
      out = some (.number v) ∧ ∃ c, .number c ∈ cases ∧ c.same v = true := by
  rw [Walk.value_leaf_eq_ok_iff (by exact trivial), ← any_isCase_iff]
  constructor
  · rintro ⟨⟩
    exact ⟨rfl, ‹_›⟩
  · rintro ⟨rfl, h⟩
    exact .enum h

/-- Numbers of which no two blur are the same case exactly if they are equal. -/
theorem equivalence_same {p : Number → Prop} (hp : ∀ a b, p a → p b → ¬ Blurs a b) :
    Equivalence fun a b : {a // p a} => a.1.same b.1 = true := by
  have hiff (a b : {a // p a}) : a.1.same b.1 = true ↔ a.1.value = b.1.value := by
    rw [same_iff]
    refine or_iff_left ?_
    rintro (h | h)
    · exact hp _ _ a.2 b.2 h
    · exact hp _ _ b.2 a.2 h
  refine ⟨fun a => ?_, fun {a b} h => ?_, fun {a b c} h h' => ?_⟩
  · exact (hiff a a).mpr rfl
  · exact (hiff b a).mpr ((hiff a b).mp h).symm
  · exact (hiff a c).mpr (((hiff a b).mp h).trans ((hiff b c).mp h'))

/-- **Numbers are cases by their value, unless they blur.** Two numbers are the same case
exactly if they are equal, or one is an integer beyond `2 ^ 53` that no double stands for and
the other the double nearest to it. So the value decides about a pair exactly if the two do not
blur. Where no two numbers blur that is an equivalence, and an enum accepts a number exactly if
it is equal to a case or blurs with one. -/
theorem same_by_value (a b : Number) (p : Number → Prop) (w : Walk) (steps : ℕ)
    (owner : Option String) (cases : List Json) (site : Site) (out : Slot) :
    (a.same b = true ↔ a.value = b.value ∨ a.Blurs b ∨ b.Blurs a) ∧
    ((a.same b = true ↔ a.value = b.value) ↔ ¬ a.Blurs b ∧ ¬ b.Blurs a) ∧
    (∀ n : Whole, a = .whole n → a.Blurs b → 2 ^ 53 < |n.val|) ∧
    ((∀ c d, p c → p d → ¬ Blurs c d) →
      Equivalence fun c d : {c // p c} => c.1.same d.1 = true) ∧
    (w.value (steps + 1) owner (.enum cases) site (some (.number a)) = .ok out ↔
      out = some (.number a) ∧
        ∃ c, .number c ∈ cases ∧ (c.value = a.value ∨ c.Blurs a ∨ a.Blurs c)) := by
  refine ⟨same_iff, same_iff_value_iff, ?_, equivalence_same, ?_⟩
  · rintro n rfl h
    exact h.lt
  · rw [value_enum_iff]
    refine and_congr_right fun _ => exists_congr fun c => and_congr_right fun _ => same_iff

/-! ### An integer between two doubles -/

/-- The double `2 ^ 53`. -/
def greatDouble : Double :=
  ⟨false, 0x10000000000000, 1, by decide, by decide, by decide, by decide⟩

/-- The integer `2 ^ 53`. -/
def greatWhole : Whole := ⟨0x20000000000000, by decide, by decide⟩

/-- The integer `2 ^ 53 + 1`, for which no double stands. -/
def oddWhole : Whole := ⟨0x20000000000001, by decide, by decide⟩

theorem value_greatDouble : greatDouble.value = 2 ^ 53 := by
  simp [greatDouble, Double.value, Double.amount]
  norm_num

/-- The double `2 ^ 53` and the integer are equal and do not blur, so an enum of the one
accepts the other. -/
theorem same_by_value_great :
    same (.whole greatWhole) (.double greatDouble) = true ∧
    ¬ Blurs (.whole greatWhole) (.double greatDouble) ∧
    (Equivalence fun a b : {a : Number // a = .whole greatWhole ∨ a = .double greatDouble} =>
      a.1.same b.1 = true) ∧
    ∀ w : Walk, w.value 1 none (.enum [.number (.whole greatWhole)]) .root
      (some (.number (.double greatDouble))) = .ok (some (.number (.double greatDouble))) := by
  have hvalue : (Number.whole greatWhole).value = (Number.double greatDouble).value := by
    rw [value, value, value_greatDouble]
    norm_num [greatWhole]
  have hnot (b : Number) : ¬ Blurs (.whole greatWhole) b := fun h =>
    absurd h.lt (by decide)
  have hnot' (b : Number) : ¬ Blurs (.double greatDouble) b := by
    rintro ⟨⟩
  have hboth (w : Walk) := same_by_value (.double greatDouble) (.whole greatWhole)
    (fun a => a = .whole greatWhole ∨ a = .double greatDouble) w 0 none
    [.number (.whole greatWhole)] .root (some (.number (.double greatDouble)))
  obtain ⟨-, hiff, -, hequivalence, -⟩ := hboth ⟨⟨[]⟩, .decode, 256⟩
  refine ⟨?_, hnot _, hequivalence ?_, fun w => ?_⟩
  · rw [same_comm]
    exact (hiff.mpr ⟨hnot' _, hnot _⟩).mpr hvalue.symm
  · rintro a b (rfl | rfl) -
    · exact hnot b
    · exact hnot' b
  · exact (hboth w).2.2.2.2.mpr ⟨rfl, _, List.mem_singleton_self _, .inl hvalue⟩

/-- The double `2 ^ 53` is the same case as the integers `2 ^ 53` and `2 ^ 53 + 1`, which are
two cases; and an enum of the greater one accepts the double, though it is not equal to it. -/
theorem not_same_by_value :
    same (.whole oddWhole) (.double greatDouble) = true ∧
    (Number.whole oddWhole).value ≠ (Number.double greatDouble).value ∧
    same (.double greatDouble) (.whole greatWhole) = true ∧
    same (.whole oddWhole) (.whole greatWhole) = false ∧
    (⟨⟨[]⟩, .decode, 256⟩ : Walk).value 1 none (.enum [.number (.whole oddWhole)]) .root
      (some (.number (.double greatDouble))) = .ok (some (.number (.double greatDouble))) := by
  have hsame : same (.whole oddWhole) (.double greatDouble) = true := by decide +kernel
  refine ⟨hsame, ?_, by decide +kernel, by decide, ?_⟩
  · rw [value, value, value_greatDouble]
    norm_num [oddWhole]
  · exact value_enum_iff.mpr ⟨rfl, _, List.mem_singleton_self _, hsame⟩

end Number
end Wireform
