/-
# Equality of documents

Two equal documents equal the same documents: `Json.same` is transitive, whether or not an
object holds a key twice. (It is not symmetric where one does.) So equal cases of an enum
stand for the same values (`Descriptor.isCase_of_same`), numbers included, which are then
compared by their value and not as they are spelled.

Key theorems: `Json.same_trans`, `Descriptor.isCase_of_same`.
-/
import Wireform.Descriptor.Basic
import Wireform.Proofs.Keyed

namespace Wireform

/-! ### Numbers -/

/-- Equal doubles have the same parts, and the same sign unless they are zero. -/
theorem Double.same_iff {a b : Double} : a.same b = true ↔
    a.mantissa = b.mantissa ∧ a.exponent = b.exponent ∧
      (a.negative = b.negative ∨ a.isZero = true) := by
  simp only [same, Bool.and_eq_true, Bool.or_eq_true, beq_iff_eq, and_assoc]

theorem Double.isZero_congr {a b : Double} (h : a.mantissa = b.mantissa) : a.isZero = b.isZero := by
  rw [isZero, isZero, h]

theorem Double.same_symm {a b : Double} (h : a.same b = true) : b.same a = true := by
  obtain ⟨hm, he, hn⟩ := same_iff.mp h
  refine same_iff.mpr ⟨hm.symm, he.symm, hn.imp Eq.symm fun hz => ?_⟩
  rw [← isZero_congr hm, hz]

theorem Double.same_trans {a b c : Double} (h : a.same b = true) (h' : b.same c = true) :
    a.same c = true := by
  obtain ⟨hm, he, hn⟩ := same_iff.mp h
  obtain ⟨hm', he', hn'⟩ := same_iff.mp h'
  refine same_iff.mpr ⟨hm.trans hm', he.trans he', ?_⟩
  rcases hn with hn | hz
  · rcases hn' with hn' | hz
    · exact .inl (hn.trans hn')
    · exact .inr ((isZero_congr hm).trans hz)
  · exact .inr hz

namespace Number

theorem equal_trans {a b c : Number} (h : a.equal b = true) (h' : b.equal c = true) :
    a.equal c = true := by
  cases a with
  | whole n =>
    cases b with
    | whole m =>
      have hnm : n = m := beq_iff_eq.mp h
      rw [hnm]
      exact h'
    | double e => cases h
  | double d =>
    cases b with
    | whole m => cases h
    | double e =>
      cases c with
      | whole k => cases h'
      | double f => exact Double.same_trans h h'

/-- Numbers that are spelled alike are worth the same. -/
theorem same_of_equal {a b c : Number} (h : a.equal b = true) (h' : b.same c = true) :
    a.same c = true := by
  cases a with
  | whole n =>
    cases b with
    | whole m =>
      have hnm : n = m := beq_iff_eq.mp h
      rw [hnm]
      exact h'
    | double e => cases h
  | double d =>
    cases b with
    | whole m => cases h
    | double e =>
      cases c with
      | whole k =>
        have hed : e.same d = true := Double.same_symm h
        rw [same, Option.any_eq_true] at h' ⊢
        obtain ⟨x, hx, hxe⟩ := h'
        exact ⟨x, hx, Double.same_trans hxe hed⟩
      | double f => exact Double.same_trans h h'

end Number

/-! ### Documents -/

namespace Json

/-- Equal documents are of one kind, with equal parts. -/
theorem same_iff {u v : Json} : u.same v = true ↔ match u with
    | .array us => ∃ vs, v = .array vs ∧ sameItems us vs = true
    | .object us => ∃ vs, v = .object vs ∧ us.length = vs.length ∧ sameMembers us vs = true
    | .number a => ∃ b, v = .number b ∧ a.equal b = true
    | u => u = v := by
  cases u with
  | array us | object us | number a | null | bool b | string s => cases v <;> simp [same]

/-- Each of the members stands with an equal value in the other object. -/
theorem sameMembers_iff {ns : List (String × Json)} : ∀ {ms : List (String × Json)},
    sameMembers ms ns = true ↔ ∀ m ∈ ms, ∃ w, ns.lookup m.1 = some w ∧ m.2.same w = true
  | [] => by simp [sameMembers]
  | (key, v) :: ms => by
    rw [sameMembers, Bool.and_eq_true, sameMembers_iff, List.forall_mem_cons]
    refine and_congr_left fun _ => ?_
    cases ns.lookup key with
    | none => simp
    | some w => simp

mutual

/-- **What equals a document equals what the document equals.** -/
theorem same_trans : ∀ (u : Json) {v w : Json}, u.same v = true → v.same w = true →
    u.same w = true
  | .array us, _, _, h, h' => by
    obtain ⟨vs, rfl, h⟩ := same_iff.mp h
    obtain ⟨ws, rfl, h'⟩ := same_iff.mp h'
    exact same_iff.mpr ⟨ws, rfl, sameItems_trans us h h'⟩
  | .object us, _, _, h, h' => by
    obtain ⟨vs, rfl, hlength, h⟩ := same_iff.mp h
    obtain ⟨ws, rfl, hlength', h'⟩ := same_iff.mp h'
    exact same_iff.mpr ⟨ws, rfl, hlength.trans hlength', sameMembers_trans us h h'⟩
  | .number a, _, _, h, h' => by
    obtain ⟨b, rfl, h⟩ := same_iff.mp h
    obtain ⟨c, rfl, h'⟩ := same_iff.mp h'
    exact same_iff.mpr ⟨c, rfl, Number.equal_trans h h'⟩
  | .null, _, _, h, h' => same_iff.mp h ▸ h'
  | .bool _, _, _, h, h' => same_iff.mp h ▸ h'
  | .string _, _, _, h, h' => same_iff.mp h ▸ h'

theorem sameItems_trans : ∀ (us : List Json) {vs ws : List Json}, sameItems us vs = true →
    sameItems vs ws = true → sameItems us ws = true
  | [], vs, _, h, h' => by
    cases vs with
    | nil => exact h'
    | cons v vs => simp [sameItems] at h
  | u :: us, vs, ws, h, h' => by
    cases vs with
    | nil => simp [sameItems] at h
    | cons v vs =>
      cases ws with
      | nil => simp [sameItems] at h'
      | cons w ws =>
        rw [sameItems, Bool.and_eq_true] at h h' ⊢
        exact ⟨same_trans u h.1 h'.1, sameItems_trans us h.2 h'.2⟩

theorem sameMembers_trans : ∀ (us : List (String × Json)) {vs ws : List (String × Json)},
    sameMembers us vs = true → sameMembers vs ws = true → sameMembers us ws = true
  | [], _, _, _, _ => by rw [sameMembers]
  | (key, u) :: us, vs, ws, h, h' => by
    obtain ⟨⟨v, hv, huv⟩, hrest⟩ := List.forall_mem_cons.mp (sameMembers_iff.mp h)
    obtain ⟨w, hw, hvw⟩ := sameMembers_iff.mp h' _ (Keyed.mem_of_lookup hv)
    have huw : u.same w = true := same_trans u huv hvw
    have hus : sameMembers us ws = true := sameMembers_trans us (sameMembers_iff.mpr hrest) h'
    exact sameMembers_iff.mpr (List.forall_mem_cons.mpr ⟨⟨w, hw, huw⟩, sameMembers_iff.mp hus⟩)

end

end Json

namespace Descriptor

/-- **Equal cases stand for the same values.** -/
theorem isCase_of_same {c c' v : Json} (h : c'.same c = true) (hc : isCase c v = true) :
    isCase c' v = true := by
  by_cases hnumber : ∃ a b, c = .number a ∧ v = .number b
  · obtain ⟨a, b, rfl, rfl⟩ := hnumber
    cases c' with
    | number a' =>
      rw [Json.same] at h
      exact Number.same_of_equal h hc
    | null | bool _ | string _ | array _ | object _ => simp [Json.same] at h
  · have hcv : c.same v = true := by
      rw [isCase] at hc
      · exact hc
      · rintro a b rfl rfl
        exact hnumber ⟨a, b, rfl, rfl⟩
    have hcv' : c'.same v = true := Json.same_trans c' h hcv
    rw [isCase]
    · exact hcv'
    · rintro a b rfl rfl
      obtain ⟨b', rfl, -⟩ := Json.same_iff.mp h
      exact hnumber ⟨b', b, rfl, rfl⟩

end Descriptor
end Wireform
