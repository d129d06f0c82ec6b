/-
# Where a refusal comes from

A walk that ends in a mismatch has met it in a part of what it was given: a name is
refused by what it stands for, a union by every one of its members, an array by one
of its items, and an object by a declared property or by an undeclared member. Only
a container that lies too deep, or a value of another kind, is refused at once. So a
walk none of whose parts is refused ends with a result, or it does not end.

Key theorems: `Mismatches.union`, `Mismatches.array`, `Mismatches.object`,
`Ends.acceptsIn`, `Engine.exists_convert_of_not_mismatches`.
-/
import Wireform.Proofs.Walk.Ends

namespace Wireform
namespace Walk

/-! ### The loops, where they fail -/

section Loops

variable {e : Refusal}

theorem firstAccepted_ne_mismatch {f : Descriptor → Except Refusal Slot} {m : Mismatch} :
    ∀ ds : List Descriptor, firstAccepted f ds ≠ .error (.mismatch m) := by
  intro ds h
  induction ds with
  | nil => cases h
  | cons d ds ih =>
    rw [firstAccepted] at h
    split at h
    · cases h
    · cases h
    · exact ih h

/-- Where no member accepts, each of them refuses. -/
theorem mismatch_of_firstAccepted_none {f : Descriptor → Except Refusal Slot} :
    ∀ {ds : List Descriptor}, firstAccepted f ds = .ok none →
      ∀ d ∈ ds, ∃ m, f d = .error (.mismatch m)
  | [], _ => by simp
  | d :: ds, h => by
    rw [firstAccepted] at h
    split at h
    · cases h
    · cases h
    · rename_i m hd
      exact List.forall_mem_cons.mpr ⟨⟨m, hd⟩, mismatch_of_firstAccepted_none h⟩

theorem items_eq_error {f : Nat → Json → Except Refusal Slot} : ∀ {vs : List Json}
    {position : Nat}, items f position vs = .error e →
      ∃ i v, vs[i]? = some v ∧ f (position + i) v = .error e
  | v :: vs, position, h => by
    rw [items] at h
    rcases bind_eq_error_iff.mp h with h | ⟨_, -, h⟩
    · exact ⟨0, v, rfl, h⟩
    · rcases bind_eq_error_iff.mp h with h | ⟨_, -, h⟩
      · obtain ⟨i, x, hx, hf⟩ := items_eq_error h
        refine ⟨i + 1, x, hx, ?_⟩
        rw [show position + (i + 1) = position + 1 + i by omega]
        exact hf
      · cases h

/-- Declared properties are refused for the first of them that is. -/
theorem declared_eq_error {f : String → Descriptor → Slot → Except Refusal Slot}
    {properties : List (Property Descriptor)} {input : List (String × Json)} :
    ∀ {entries : List (String × IndexEntry)} {out : List (String × Json)},
      declared f properties input entries out = .error e →
        ∃ before m after, entries = before ++ m :: after ∧
          (∀ b ∈ before, ∀ p, properties[b.2.position]? = some p →
            ∃ s, f b.1 p.descriptor (input.lookup b.1) = .ok s) ∧
          ∃ p, properties[m.2.position]? = some p ∧
            f m.1 p.descriptor (input.lookup m.1) = .error e
  | (key, entry) :: rest, out, h => by
    rw [declared] at h
    refine exists_first_cons_iff.mpr ?_
    split at h
    · rename_i p hp
      rcases bind_eq_error_iff.mp h with h | ⟨s, hs, h⟩
      · exact .inl ⟨p, hp, h⟩
      · refine .inr ⟨fun q hq => ?_, declared_eq_error h⟩
        cases hp.symm.trans hq
        exact ⟨s, hs⟩
    · rename_i hp
      refine .inr ⟨fun q hq => ?_, declared_eq_error h⟩
      cases hp.symm.trans hq

/-- Undeclared members are refused for the first of them that is. -/
theorem undeclared_eq_error {f : String → Json → Except Refusal Slot} {index : PropertyIndex} :
    ∀ {input out : List (String × Json)}, undeclared f index input out = .error e →
      ∃ before x after, input = before ++ x :: after ∧
        (∀ b ∈ before, index.contains b.1 = false → ∃ s, f b.1 b.2 = .ok s) ∧
        index.contains x.1 = false ∧ f x.1 x.2 = .error e
  | (key, v) :: rest, out, h => by
    rw [undeclared] at h
    refine exists_first_cons_iff.mpr ?_
    split at h
    · rename_i hkey
      refine .inr ⟨fun hk => ?_, undeclared_eq_error h⟩
      cases hkey.symm.trans hk
    · rename_i hkey
      rcases bind_eq_error_iff.mp h with h | ⟨s, hs, h⟩
      · exact .inl ⟨Bool.eq_false_iff.mpr hkey, h⟩
      · exact .inr ⟨fun _ => ⟨s, hs⟩, undeclared_eq_error h⟩

end Loops

/-! ### Leaves that refuse -/

/-- A leaf that refuses a slot asks for itself, in words. -/
theorem value_leaf_refused {w : Walk} {m : Mismatch} {n : Nat} {o : Option String}
    {d : Descriptor} (hd : IsLeaf d) {s : Site} {slot : Slot}
    (h : w.value (n + 1) o d s slot = .error (.mismatch m)) :
    m = s.mismatch (Descriptor.name d) slot := by
  cases d with
  | any => cases h
  | never | literal _ =>
    cases h
    rfl
  | null =>
    simp only [value, null] at h
    split at h
    · cases h
    · cases h
      rfl
  | undefined =>
    simp only [value, undefined] at h
    split at h
    · cases h
    · cases h
      rfl
  | date =>
    simp only [value, date] at h
    split at h
    · cases h
    · split at h
      · cases h
      · cases h
        rfl
    · cases h
      rfl
  | primitive kind =>
    simp only [value, primitive] at h
    split at h
    · split at h
      · cases h
      · cases h
        rfl
    · cases h
      rfl
  | enum cases =>
    simp only [value, enum] at h
    split at h
    · split at h
      · cases h
      · cases h
        rfl
    · cases h
      rfl
  | ref _ | union _ | array _ | object _ _ => exact hd.elim

/-! ### Parts that are refused -/

section Parts

variable {w : Walk} {n depth : Nat} {slot : Slot}

theorem not_mismatches_zero {d : Descriptor} : ¬ w.Mismatches 0 d depth slot := by
  rintro ⟨m, h⟩
  cases h

theorem Mismatches.refuses {d : Descriptor} (h : w.Mismatches n d depth slot) :
    w.Refuses d depth slot := by
  obtain ⟨m, h⟩ := h
  exact ⟨n, m, h⟩

/-- What is accepted is never refused. -/
theorem Accepts.not_mismatches {d : Descriptor} {out : Slot} (h : w.Accepts d depth slot out) :
    ¬ w.Mismatches n d depth slot := fun hm => hm.refuses.not_accepts h

/-- A walk that ends and is not refused accepts. -/
theorem Ends.acceptsIn {d : Descriptor} (h : w.Ends n d depth slot)
    (hm : ¬ w.Mismatches n d depth slot) : ∃ out, w.AcceptsIn n d depth slot out :=
  eq_ok_of_ne h fun m he => hm ⟨m, he⟩

theorem Mismatches.ref {name : String} {d : Descriptor} (hd : w.table.get? name = some d)
    (h : w.Mismatches (n + 1) (.ref name) depth slot) : w.Mismatches n d depth slot := by
  unfold Mismatches at h
  simp only [value, hd] at h
  exact value_mismatch_iff.mp h

/-- A union is refused by all of its members. -/
theorem Mismatches.union {members : List Descriptor}
    (h : w.Mismatches (n + 1) (.union members) depth slot) :
    ∀ d ∈ members, w.Mismatches n d depth slot := by
  intro d hd
  obtain ⟨m, h⟩ := h
  rw [value] at h
  rcases bind_eq_error_iff.mp h with h | ⟨a, ha, h⟩
  · exact (firstAccepted_ne_mismatch members h).elim
  · cases a with
    | some a => cases h
    | none => exact value_mismatch_iff.mp (mismatch_of_firstAccepted_none ha d hd)

theorem enter_ne_error {s : Site} (hdepth : s.depth < w.maxDepth) {e : Refusal} :
    w.enter slot s ≠ .error e := by
  have hok : w.enter slot s = .ok () := enter_eq_ok_iff.mpr hdepth
  rw [hok]
  exact fun he => by cases he

/-- An array that does not lie too deep is refused by one of its items. -/
theorem Mismatches.array {item : Descriptor} {vs : List Json}
    (h : w.Mismatches (n + 1) (.array item) depth (some (.array vs)))
    (hdepth : depth < w.maxDepth) : ∃ v ∈ vs, w.Mismatches n item (depth + 1) (some v) := by
  obtain ⟨m, h⟩ := h
  simp only [value, Walk.array] at h
  rcases bind_eq_error_iff.mp h with h | ⟨_, -, h⟩
  · exact (enter_ne_error hdepth h).elim
  rcases bind_eq_error_iff.mp h with h | ⟨_, -, h⟩
  · obtain ⟨i, v, hv, h⟩ := items_eq_error h
    exact ⟨v, List.mem_of_getElem? hv, value_mismatch_iff.mp ⟨m, h⟩⟩
  · cases h

/-- An object that does not lie too deep is refused by a declared property, present or
not, or by an undeclared member. -/
theorem Mismatches.object {properties : List (Property Descriptor)}
    {additional : Additional Descriptor} {input : List (String × Json)}
    (hk : (properties.map w.direction.inputKey).Nodup)
    (h : w.Mismatches (n + 1) (.object properties additional) depth (some (.object input)))
    (hdepth : depth < w.maxDepth) :
    (∃ p ∈ properties, w.Mismatches n p.descriptor (depth + 1)
        (input.lookup (w.direction.inputKey p))) ∨
      ∃ m ∈ extras w.direction properties input, ∀ d, additional = .allow d →
        w.Mismatches n d (depth + 1) (some m.2) := by
  obtain ⟨m, h⟩ := h
  simp only [value, Walk.object] at h
  rcases bind_eq_error_iff.mp h with h | ⟨_, -, h⟩
  · exact (enter_ne_error hdepth h).elim
  rcases bind_eq_error_iff.mp h with h | ⟨_, -, h⟩
  · obtain ⟨_, e, _, hentries, -, p, hp, h⟩ := declared_eq_error h
    have he : e ∈ (PropertyIndex.ofProperties properties w.direction).entries := by
      rw [hentries]
      exact List.mem_append_right _ List.mem_cons_self
    rw [PropertyIndex.ofProperties_entries hk] at he
    obtain ⟨i, q, hq, rfl⟩ := PropertyIndex.mem_entriesFrom he
    rw [Nat.zero_add] at hp
    cases hp.symm.trans hq
    exact .inl ⟨p, List.mem_of_getElem? hp, value_mismatch_iff.mp ⟨m, h⟩⟩
  rcases bind_eq_error_iff.mp h with h | ⟨_, -, h⟩
  · obtain ⟨_, x, _, rfl, -, hkey, h⟩ := undeclared_eq_error h
    refine .inr ⟨x, ?_, ?_⟩
    · rw [← filter_contains hk]
      refine List.mem_filter.mpr ⟨List.mem_append_right _ List.mem_cons_self, ?_⟩
      rw [hkey, Bool.not_false]
    · rintro d rfl
      exact value_mismatch_iff.mp ⟨m, h⟩
  · cases h

end Parts

end Walk

/-! ### Conversions -/

namespace Engine

variable {e : Engine} {v : Json} {direction : Direction}

/-- Where every walk ends, a document that is never refused is converted. -/
theorem exists_convert_of_not_mismatches (hp : e.table.Productive) {root : String}
    (h : ∀ n, ¬ (e.walk direction).Mismatches n (.ref root) 0 (some v)) :
    ∃ out, e.convert v root direction = .ok out := by
  obtain ⟨n, hn⟩ := hp.ends (w := e.walk direction) (.ref root) 0 (some v)
  obtain ⟨out, hout⟩ := hn.acceptsIn (h n)
  obtain ⟨v', rfl⟩ := Slot.eq_some_of_kind hout.kind
  exact ⟨v', convert_eq_ok_iff.mpr hout.accepts⟩

end Engine
end Wireform
