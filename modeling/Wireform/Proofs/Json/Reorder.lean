/-
# Documents up to the order of their keys

A document as it comes from a text has no object with a key twice (`Json.Distinct`,
`Json.distinct_of_parse?`). Two documents are the same but for the order of keys if
one is the other with the members of its objects, at any depth, in another order
(`Json.Reordered`); everything else, the spelling of numbers included, is equal.

The same objects hold the same values under each key (`Json.Reordered.rel_lookup`), and
those that do are the same (`Json.reordered_of_rel_lookup`).

Key definitions: `Json.Distinct`, `Json.Reordered`, `Slot.Reordered`.
Key theorems: `Json.distinct_of_parse?`, `Json.merged_eq_self`, `Json.Reordered.rel_lookup`,
`Json.reordered_of_rel_lookup`, `Json.same_of_reordered`.
-/
import Wireform.Engine.Walk
import Wireform.Json.Reader
import Wireform.Proofs.Keyed
import Mathlib.Data.List.Forall2
import Mathlib.Data.List.Perm.Basic

namespace Wireform
namespace Json

/-! ### Distinct keys -/

mutual

/-- No object in the document has a key twice. -/
@[simp] def Distinct : Json → Prop
  | .array items => DistinctItems items
  | .object members => (Keyed.keys members).Nodup ∧ DistinctMembers members
  | _ => True

/-- No object in the items has a key twice. -/
@[simp] def DistinctItems : List Json → Prop
  | [] => True
  | v :: vs => Distinct v ∧ DistinctItems vs

/-- No object in the values of the members has a key twice. -/
@[simp] def DistinctMembers : List (String × Json) → Prop
  | [] => True
  | (_, v) :: rest => Distinct v ∧ DistinctMembers rest

end

theorem distinctItems_iff : ∀ {vs : List Json}, DistinctItems vs ↔ ∀ v ∈ vs, v.Distinct
  | [] => by simp
  | v :: vs => by rw [DistinctItems, distinctItems_iff, List.forall_mem_cons]

theorem distinctMembers_iff : ∀ {ms : List (String × Json)},
    DistinctMembers ms ↔ ∀ m ∈ ms, m.2.Distinct
  | [] => by simp
  | (_, v) :: rest => by rw [DistinctMembers, distinctMembers_iff, List.forall_mem_cons]

mutual

theorem distinct_merged : ∀ v : Json, v.merged.Distinct
  | .array vs => distinctItems_merged vs
  | .object ms => by
    refine ⟨Keyed.nodup_keys_ofList _, distinctMembers_iff.mpr fun m hm => ?_⟩
    have hm : m ∈ mergedMembers ms := (Keyed.mem_putAll hm).resolve_left List.not_mem_nil
    exact distinctMembers_iff.mp (distinctMembers_merged ms) m hm
  | .null | .bool _ | .number _ | .string _ => trivial

theorem distinctItems_merged : ∀ vs : List Json, DistinctItems (mergedItems vs)
  | [] => trivial
  | v :: vs => ⟨distinct_merged v, distinctItems_merged vs⟩

theorem distinctMembers_merged : ∀ ms : List (String × Json), DistinctMembers (mergedMembers ms)
  | [] => trivial
  | (_, v) :: rest => ⟨distinct_merged v, distinctMembers_merged rest⟩

end

/-- **A document that was read has no object with a key twice.** -/
theorem distinct_of_parse? {text : String} {v : Json} (h : parse? text = .ok v) : v.Distinct := by
  unfold parse? at h
  split at h
  · cases h
    exact distinct_merged _
  · cases h

mutual

/-- There is nothing to merge where no key stands twice. -/
theorem merged_eq_self : ∀ {v : Json}, v.Distinct → v.merged = v
  | .array vs, h => by rw [merged, mergedItems_eq_self h]
  | .object ms, h => by rw [merged, mergedMembers_eq_self h.2, Keyed.ofList_eq_self h.1]
  | .null, _ | .bool _, _ | .number _, _ | .string _, _ => rfl

theorem mergedItems_eq_self : ∀ {vs : List Json}, DistinctItems vs → mergedItems vs = vs
  | [], _ => rfl
  | v :: vs, h => by rw [mergedItems, merged_eq_self h.1, mergedItems_eq_self h.2]

theorem mergedMembers_eq_self : ∀ {ms : List (String × Json)}, DistinctMembers ms →
    mergedMembers ms = ms
  | [], _ => rfl
  | (_, v) :: rest, h => by rw [mergedMembers, merged_eq_self h.1, mergedMembers_eq_self h.2]

end

theorem Distinct.of_mem_items {vs : List Json} {v : Json} (h : Distinct (.array vs))
    (hv : v ∈ vs) : v.Distinct := distinctItems_iff.mp h v hv

theorem Distinct.of_mem_members {ms : List (String × Json)} {m : String × Json}
    (h : Distinct (.object ms)) (hm : m ∈ ms) : m.2.Distinct := distinctMembers_iff.mp h.2 m hm

/-! ### Reordered keys -/

mutual

/-- One document is the other but for the order of keys. -/
inductive Reordered : Json → Json → Prop
  | same (v : Json) : Reordered v v
  | array {vs ws} (h : ReorderedItems vs ws) : Reordered (.array vs) (.array ws)
  | object {ms ns ns'} (h : ReorderedMembers ms ns') (hp : ns'.Perm ns) :
    Reordered (.object ms) (.object ns)

/-- The items of one list are those of the other, in the same order. -/
inductive ReorderedItems : List Json → List Json → Prop
  | nil : ReorderedItems [] []
  | cons {v w vs ws} (h : Reordered v w) (hrest : ReorderedItems vs ws) :
    ReorderedItems (v :: vs) (w :: ws)

/-- The members of one list are those of the other, in the same order. -/
inductive ReorderedMembers : List (String × Json) → List (String × Json) → Prop
  | nil : ReorderedMembers [] []
  | cons {key v w ms ns} (h : Reordered v w) (hrest : ReorderedMembers ms ns) :
    ReorderedMembers ((key, v) :: ms) ((key, w) :: ns)

end

theorem reorderedItems_of_forall₂ : ∀ {vs ws : List Json}, List.Forall₂ Reordered vs ws →
    ReorderedItems vs ws
  | [], _, .nil => .nil
  | _ :: _, _ :: _, .cons h hrest => .cons h (reorderedItems_of_forall₂ hrest)

theorem reorderedMembers_of_forall₂ : ∀ {ms ns : List (String × Json)},
    List.Forall₂ (fun m n => n.1 = m.1 ∧ Reordered m.2 n.2) ms ns → ReorderedMembers ms ns
  | [], _, .nil => .nil
  | (_, _) :: _, (_, _) :: _, .cons ⟨hk, h⟩ hrest => by
    cases hk
    exact .cons h (reorderedMembers_of_forall₂ hrest)

theorem ReorderedItems.forall₂ : ∀ {vs ws : List Json}, ReorderedItems vs ws →
    List.Forall₂ Reordered vs ws
  | [], _, .nil => .nil
  | _ :: _, _, .cons h hrest => .cons h hrest.forall₂

theorem ReorderedMembers.forall₂ : ∀ {ms ns : List (String × Json)}, ReorderedMembers ms ns →
    List.Forall₂ (fun m n => n.1 = m.1 ∧ Reordered m.2 n.2) ms ns
  | [], _, .nil => .nil
  | _ :: _, _, .cons h hrest => .cons ⟨rfl, h⟩ hrest.forall₂

/-- An array with its keys in another order is an array. -/
theorem Reordered.array_inv {vs : List Json} {w : Json} (h : Reordered (.array vs) w) :
    ∃ ws, w = .array ws ∧ List.Forall₂ Reordered vs ws := by
  cases h with
  | same => exact ⟨vs, rfl, List.forall₂_same.mpr fun v _ => .same v⟩
  | array h => exact ⟨_, rfl, h.forall₂⟩

theorem Reordered.object_inv {ms : List (String × Json)} {w : Json}
    (h : Reordered (.object ms) w) : ∃ ns ns', w = .object ns ∧
      List.Forall₂ (fun m n => n.1 = m.1 ∧ Reordered m.2 n.2) ms ns' ∧ ns'.Perm ns := by
  cases h with
  | same => exact ⟨ms, ms, rfl, List.forall₂_same.mpr fun m _ => ⟨rfl, .same m.2⟩, .refl ms⟩
  | object h hp => exact ⟨_, _, rfl, h.forall₂, hp⟩

mutual

theorem Reordered.symm : ∀ {v w : Json}, Reordered v w → Reordered w v
  | _, _, .same v => .same v
  | .array _, _, .array h => .array h.symm
  | .object _, _, .object h hp => by
    have hback := h.symm.forall₂
    obtain ⟨ms, hms, hperm⟩ := List.perm_comp_forall₂ hp.symm hback
    exact .object (reorderedMembers_of_forall₂ hms) hperm

theorem ReorderedItems.symm : ∀ {vs ws : List Json}, ReorderedItems vs ws → ReorderedItems ws vs
  | [], _, .nil => .nil
  | _ :: _, _, .cons h hrest => .cons h.symm hrest.symm

theorem ReorderedMembers.symm : ∀ {ms ns : List (String × Json)}, ReorderedMembers ms ns →
    ReorderedMembers ns ms
  | [], _, .nil => .nil
  | (_, _) :: _, _, .cons h hrest => .cons h.symm hrest.symm

end

mutual

theorem Distinct.of_reordered : ∀ {v w : Json}, Reordered v w → v.Distinct → w.Distinct
  | _, _, .same _, hv => hv
  | .array _, _, .array h, hv => distinctItems_of_reordered h hv
  | .object _, .object _, .object h hp, hv => by
    have hkeys := congrArg List.Nodup (keys_eq_of_forall₂ h.forall₂)
    have hnodup := (hp.map Prod.fst).nodup_iff.mp (hkeys.mpr hv.1)
    refine ⟨hnodup, distinctMembers_iff.mpr fun m hm => ?_⟩
    exact distinctMembers_iff.mp (distinctMembers_of_reordered h hv.2) m (hp.mem_iff.mpr hm)

theorem distinctItems_of_reordered : ∀ {vs ws : List Json}, ReorderedItems vs ws →
    DistinctItems vs → DistinctItems ws
  | [], _, .nil, _ => trivial
  | _ :: _, _, .cons h hrest, hv => ⟨hv.1.of_reordered h, distinctItems_of_reordered hrest hv.2⟩

theorem distinctMembers_of_reordered : ∀ {ms ns : List (String × Json)}, ReorderedMembers ms ns →
    DistinctMembers ms → DistinctMembers ns
  | [], _, .nil, _ => trivial
  | (_, _) :: _, _, .cons h hrest, hv =>
    ⟨hv.1.of_reordered h, distinctMembers_of_reordered hrest hv.2⟩

end

/-! ### Reordered keys and look-ups -/

/-- A reordered object holds a reordered value under each key. -/
theorem Reordered.rel_lookup {ms ns : List (String × Json)}
    (h : Reordered (.object ms) (.object ns)) (hn : (Keyed.keys ms).Nodup) (key : String) :
    Option.Rel Reordered (ms.lookup key) (ns.lookup key) := by
  obtain ⟨_, ns', ⟨⟩, hns', hp⟩ := h.object_inv
  have hnodup : (Keyed.keys ns').Nodup := by
    rw [keys_eq_of_forall₂ hns']
    exact hn
  rw [Keyed.lookup_eq_of_perm hnodup hp key]
  exact Keyed.rel_lookup_of_forall₂ hns' key

/-- Objects that hold the same values under each key are the same but for the order. -/
theorem reordered_of_rel_lookup {ms ns : List (String × Json)} (hm : (Keyed.keys ms).Nodup)
    (hn : (Keyed.keys ns).Nodup)
    (h : ∀ key, Option.Rel Reordered (ms.lookup key) (ns.lookup key)) :
    Reordered (.object ms) (.object ns) := by
  obtain ⟨ns', hns', hp⟩ := Keyed.exists_perm_of_rel_lookup hm hn h
  exact .object (reorderedMembers_of_forall₂ hns') hp

theorem Reordered.length_eq {ms ns : List (String × Json)}
    (h : Reordered (.object ms) (.object ns)) : ns.length = ms.length := by
  obtain ⟨_, ns', ⟨⟩, hns', hp⟩ := h.object_inv
  rw [hns'.length_eq, hp.length_eq]

mutual

/-- What equals a document equals it with its keys in another order. -/
theorem same_of_reordered : ∀ (c : Json) {v w : Json}, Reordered v w → v.Distinct →
    c.same v = true → c.same w = true
  | .array cs, _, _, h, hv, hc => by
    cases h with
    | same => exact hc
    | array hvs =>
      simp only [same] at hc ⊢
      exact sameItems_of_reordered cs hvs hv hc
    | object _ _ => cases hc
  | .object cs, _, _, h, hv, hc => by
    cases h with
    | same => exact hc
    | array _ => cases hc
    | object hms hp =>
      have hobject := Reordered.object hms hp
      simp only [same, Bool.and_eq_true] at hc ⊢
      rw [hobject.length_eq]
      exact ⟨hc.1, sameMembers_of_reordered cs hobject hv hc.2⟩
  | .null, _, _, h, _, hc | .bool _, _, _, h, _, hc | .number _, _, _, h, _, hc
  | .string _, _, _, h, _, hc => by
    cases h with
    | same => exact hc
    | array _ => cases hc
    | object _ _ => cases hc

theorem sameItems_of_reordered : ∀ (cs : List Json) {vs ws : List Json}, ReorderedItems vs ws →
    DistinctItems vs → sameItems cs vs = true → sameItems cs ws = true
  | [], _, _, h, _, hc => by
    cases h with
    | nil => exact hc
    | cons _ _ => cases hc
  | c :: cs, _, _, h, hd, hc => by
    cases h with
    | nil => cases hc
    | cons hv hrest =>
      simp only [sameItems, Bool.and_eq_true] at hc ⊢
      exact ⟨same_of_reordered c hv hd.1 hc.1, sameItems_of_reordered cs hrest hd.2 hc.2⟩

theorem sameMembers_of_reordered : ∀ (cs : List (String × Json)) {ms ns : List (String × Json)},
    Reordered (.object ms) (.object ns) → Distinct (.object ms) → sameMembers cs ms = true →
      sameMembers cs ns = true
  | [], _, _, _, _, _ => by simp only [sameMembers]
  | (key, c) :: cs, ms, ns, h, hd, hc => by
    have hkey := h.rel_lookup hd.1 key
    have hdistinct : ∀ v, ms.lookup key = some v → v.Distinct := fun v hv =>
      hd.of_mem_members (Keyed.mem_of_lookup hv)
    simp only [sameMembers, Bool.and_eq_true] at hc ⊢
    refine ⟨?_, sameMembers_of_reordered cs h hd hc.2⟩
    generalize ms.lookup key = s at hkey hc hdistinct
    generalize ns.lookup key = t at hkey
    cases hkey with
    | some hvw => exact same_of_reordered c hvw (hdistinct _ rfl) hc.1
    | none => exact hc.1

end

end Json

namespace Slot

/-- Whether a slot is missing or its value has no object with a key twice. -/
def Distinct : Slot → Prop
  | some v => v.Distinct
  | none => True

theorem distinct_lookup {ms : List (String × Json)} (h : Json.Distinct (.object ms))
    (key : String) : Slot.Distinct (ms.lookup key) := by
  cases hl : ms.lookup key with
  | none => trivial
  | some v => exact h.of_mem_members (Keyed.mem_of_lookup hl)

/-- Both slots are missing, or one value is the other but for the order of keys. -/
def Reordered : Slot → Slot → Prop := Option.Rel Json.Reordered

theorem Reordered.same : ∀ s : Slot, Slot.Reordered s s
  | some v => .some (.same v)
  | none => .none

theorem Reordered.symm {s t : Slot} (h : Slot.Reordered s t) : Slot.Reordered t s := by
  cases h with
  | some h => exact .some h.symm
  | none => exact .none

theorem Reordered.array_inv {vs : List Json} {s : Slot}
    (h : Slot.Reordered (some (.array vs)) s) :
    ∃ ws, s = some (.array ws) ∧ List.Forall₂ Json.Reordered vs ws := by
  cases h with
  | some h =>
    obtain ⟨ws, rfl, hws⟩ := h.array_inv
    exact ⟨ws, rfl, hws⟩

theorem Reordered.object_inv {ms : List (String × Json)} {s : Slot}
    (h : Slot.Reordered (some (.object ms)) s) :
    ∃ ns, s = some (.object ns) ∧ Json.Reordered (.object ms) (.object ns) := by
  cases h with
  | some h =>
    obtain ⟨ns, _, rfl, -, -⟩ := h.object_inv
    exact ⟨ns, rfl, h⟩

theorem Distinct.of_reordered {s t : Slot} (h : Slot.Reordered s t) (hs : Slot.Distinct s) :
    Slot.Distinct t := by
  cases h with
  | some h => exact Json.Distinct.of_reordered h hs
  | none => trivial

end Slot
end Wireform
