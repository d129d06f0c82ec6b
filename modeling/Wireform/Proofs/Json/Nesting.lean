/-
# How deep what is read and converted nests

A reader opens arrays and objects as deep as it may and no deeper, so what it reads nests at
most that deep (`Json.Reader.nesting_le_of_value`), and to keep each key once makes nothing
deeper (`Json.nesting_merged_le`). What a descriptor accepts comes out no deeper than it went
in (`Walk.Accepts.nesting_out_le`): the values of a converted object stand in the object before.

Key theorems: `Json.Reader.nesting_le_of_value`, `Json.nesting_le_of_parse?`,
`Walk.Accepts.nesting_out_le`, `Engine.nesting_out_le`.
-/
import Wireform.Proofs.Json.Reading
import Wireform.Proofs.Walk.Depth

namespace Wireform
namespace Json

namespace Reader

variable {s ahead : List Char} {v : Json}

theorem inside_eq_ok_iff {α : Type} {step : Step} {x : Except Fault α} {a : α} :
    inside step x = .ok a ↔ x = .ok a := by
  cases x with
  | ok b => exact Iff.rfl
  | error f =>
    constructor <;> intro h <;> cases h

section Loops

variable {inner : List Char → Except Fault (Front Json)} {P : Json → Prop}

/-- What is said of all values that are read inside is said of the items. -/
theorem forall_of_items (hinner : ∀ s v ahead, inner s = .ok (v, ahead) → P v) :
    ∀ {fuel position : ℕ} {s ahead : List Char} {vs : List Json},
      items inner fuel position s = .ok (vs, ahead) → ∀ v ∈ vs, P v
  | 0, _, _, _, _, h => by cases h
  | fuel + 1, position, s, ahead, vs, h => by
    rw [items] at h
    obtain ⟨⟨v, s'⟩, hv, h⟩ := bind_eq_ok_iff.mp h
    have hfirst : P v := hinner _ _ _ (inside_eq_ok_iff.mp hv)
    dsimp only at h
    split at h
    · cases h
      exact List.forall_mem_singleton.mpr hfirst
    · split at h
      · cases h
      · cases h
      · obtain ⟨⟨vs', ahead'⟩, hvs, h⟩ := bind_eq_ok_iff.mp h
        cases h
        exact List.forall_mem_cons.mpr ⟨hfirst, forall_of_items hinner hvs⟩
    · cases h
    · cases h

theorem forall_of_array (hinner : ∀ s v ahead, inner s = .ok (v, ahead) → P v) {vs : List Json}
    (h : array inner s = .ok (vs, ahead)) : ∀ v ∈ vs, P v := by
  unfold array at h
  split at h
  · cases h
  · cases h
    exact List.forall_mem_nil _
  · exact forall_of_items hinner h

theorem of_member (hinner : ∀ s v ahead, inner s = .ok (v, ahead) → P v) {m : String × Json}
    (h : member inner s = .ok (m, ahead)) : P m.2 := by
  unfold member at h
  split at h
  · obtain ⟨_, -, h⟩ := bind_eq_ok_iff.mp h
    obtain ⟨_, -, h⟩ := bind_eq_ok_iff.mp h
    obtain ⟨⟨v, ahead'⟩, hv, h⟩ := bind_eq_ok_iff.mp h
    cases h
    exact hinner _ _ _ (inside_eq_ok_iff.mp hv)
  · cases h

theorem forall_of_members (hinner : ∀ s v ahead, inner s = .ok (v, ahead) → P v) :
    ∀ {fuel : ℕ} {s ahead : List Char} {ms : List (String × Json)},
      members inner fuel s = .ok (ms, ahead) → ∀ m ∈ ms, P m.2
  | 0, _, _, _, h => by cases h
  | fuel + 1, s, ahead, ms, h => by
    rw [members] at h
    obtain ⟨⟨m, s'⟩, hm, h⟩ := bind_eq_ok_iff.mp h
    have hfirst : P m.2 := of_member hinner hm
    obtain ⟨⟨more, s''⟩, -, h⟩ := bind_eq_ok_iff.mp h
    cases more with
    | false =>
      cases h
      exact List.forall_mem_singleton.mpr hfirst
    | true =>
      obtain ⟨⟨ms', ahead'⟩, hms, h⟩ := bind_eq_ok_iff.mp h
      cases h
      exact List.forall_mem_cons.mpr ⟨hfirst, forall_of_members hinner hms⟩

theorem forall_of_object (hinner : ∀ s v ahead, inner s = .ok (v, ahead) → P v)
    {ms : List (String × Json)} (h : object inner s = .ok (ms, ahead)) : ∀ m ∈ ms, P m.2 := by
  unfold object at h
  split at h
  · cases h
  · cases h
    exact List.forall_mem_nil _
  · exact forall_of_members hinner h

end Loops

/-- A value is a scalar, or it was opened and what stands in it was read inside. -/
theorem valueWith_cases {inner : Option (List Char → Except Fault (Front Json))}
    (h : valueWith inner s = .ok (v, ahead)) : v.nesting = 0 ∨ ∃ f t, inner = some f ∧
      ((∃ vs, v = .array vs ∧ array f t = .ok (vs, ahead)) ∨
        ∃ ms, v = .object ms ∧ object f t = .ok (ms, ahead)) := by
  unfold valueWith at h
  split at h
  case h_1 => cases h
  case h_2 | h_3 | h_4 =>
    obtain rfl := eq_of_literal h
    exact .inl rfl
  case h_5 | h_6 =>
    obtain ⟨_, -, h⟩ := bind_eq_ok_iff.mp h
    cases h
    exact .inl rfl
  case h_7 =>
    split at h
    · cases h
    · obtain ⟨⟨vs, _⟩, hvs, h⟩ := bind_eq_ok_iff.mp h
      cases h
      exact .inr ⟨_, _, rfl, .inl ⟨vs, rfl, hvs⟩⟩
  case h_8 =>
    split at h
    · cases h
    · obtain ⟨⟨ms, _⟩, hms, h⟩ := bind_eq_ok_iff.mp h
      cases h
      exact .inr ⟨_, _, rfl, .inr ⟨ms, rfl, hms⟩⟩
  case h_9 =>
    split_ifs at h
    · obtain ⟨_, -, h⟩ := bind_eq_ok_iff.mp h
      cases h
      exact .inl rfl
    · cases h

/-- **What is read nests at most as deep as the reader goes.** -/
theorem nesting_le_of_value : ∀ {depth : ℕ} {s ahead : List Char} {v : Json},
    value depth s = .ok (v, ahead) → v.nesting ≤ depth
  | 0, _, _, _, h => by
    rcases valueWith_cases h with hv | ⟨_, _, hnone, -⟩
    · exact hv.le
    · cases hnone
  | depth + 1, _, _, _, h => by
    have hinner : ∀ s v ahead, value depth s = .ok (v, ahead) → v.nesting ≤ depth :=
      fun _ _ _ hv => nesting_le_of_value hv
    rcases valueWith_cases h with hv | ⟨_, _, hsome, ⟨vs, rfl, hvs⟩ | ⟨ms, rfl, hms⟩⟩
    · exact hv.le.trans (Nat.zero_le _)
    · cases hsome
      exact Nat.succ_le_succ (nestingItems_le (forall_of_array hinner hvs))
    · cases hsome
      exact Nat.succ_le_succ (nestingMembers_le (forall_of_object hinner hms))

end Reader

mutual

theorem nesting_merged_le : ∀ v : Json, v.merged.nesting ≤ v.nesting
  | .null | .bool _ | .number _ | .string _ => le_rfl
  | .array vs => Nat.succ_le_succ (nestingItems_merged_le vs)
  | .object ms => by
    refine Nat.succ_le_succ (nestingMembers_le fun m hm => ?_)
    have hmem : m ∈ mergedMembers ms := (Keyed.mem_putAll hm).resolve_left List.not_mem_nil
    exact (nesting_le_of_mem_members hmem).trans (nestingMembers_merged_le ms)

theorem nestingItems_merged_le : ∀ vs : List Json,
    nestingItems (mergedItems vs) ≤ nestingItems vs
  | [] => le_rfl
  | v :: vs => max_le_max (nesting_merged_le v) (nestingItems_merged_le vs)

theorem nestingMembers_merged_le : ∀ ms : List (String × Json),
    nestingMembers (mergedMembers ms) ≤ nestingMembers ms
  | [] => le_rfl
  | (_, v) :: ms => max_le_max (nesting_merged_le v) (nestingMembers_merged_le ms)

end

theorem nesting_le_of_parse? {text : String} {v : Json} (h : parse? text = .ok v) :
    v.nesting ≤ nestingLimit := by
  unfold parse? at h
  split at h
  · rename_i tree htree
    cases h
    obtain ⟨⟨tree', ahead⟩, hvalue, htree⟩ := bind_eq_ok_iff.mp htree
    dsimp only at htree
    split at htree
    · cases htree
      exact (nesting_merged_le _).trans (Reader.nesting_le_of_value hvalue)
    · cases htree
  · cases h

end Json

namespace Walk

/-- **What is accepted comes out no deeper than it went in.** -/
theorem Accepts.nesting_out_le {w : Walk} (hs : w.table.Sound) {d : Descriptor} {depth : ℕ}
    {slot out : Slot} (hd : w.table.Checked d) (h : w.Accepts d depth slot out) :
    Slot.nesting out ≤ Slot.nesting slot := by
  refine Accepts.induct hs (motive := fun _ _ slot out => Slot.nesting out ≤ Slot.nesting slot)
    ?leaf ?ref ?union ?array ?object hd h
  case leaf =>
    intro d depth slot out _ htakes
    cases htakes <;> exact le_rfl
  case ref =>
    intro name d depth slot out _ ih
    exact ih
  case union =>
    intro before d after depth slot out _ _ ih
    exact ih
  case array =>
    intro item depth vs outs _ ih
    refine Nat.succ_le_succ (Json.nestingItems_le fun out hout => ?_)
    obtain ⟨v, hv, ih⟩ := exists_left_of_mem ih hout
    exact ih.trans (Json.nesting_le_of_mem_items hv)
  case object =>
    intro properties additional depth input members _ _ hconv
    refine Nat.succ_le_succ (Json.nestingMembers_le fun m hm => ?_)
    rcases hconv.mem hm with ⟨p, -, -, ih⟩ | ⟨x, hx, -, d, -, ih⟩
    · exact ih.trans (Slot.nesting_lookup_le _ _)
    · have hmem : x ∈ input := (List.mem_filter.mp hx).1
      exact ih.trans (Json.nesting_le_of_mem_members hmem)

end Walk

namespace Engine

theorem nesting_out_le {e : Engine} (hs : e.table.Sound) {v out : Json} {root : String}
    {direction : Direction} (h : e.convert v root direction = .ok out) :
    out.nesting ≤ v.nesting := by
  obtain ⟨d, -, hchecked, haccepts⟩ := accepts_of_convert hs h
  exact haccepts.nesting_out_le hs hchecked

end Engine
end Wireform
