/-
# When an object keeps its members

A converted object keeps its members if each of them is written under a key of its
own: a declared one under its output key, another one under the key it has. The
table sees to it that two declared properties never share an output key, but nothing
keeps an undeclared key from being the output key of a property. Where both are
present the undeclared member is written last and takes the place of the declared
one, which is lost. That is the only way to lose a member (`keeps_iff`).

Key definitions: `Walk.target`, `Walk.governing`, `Walk.Keeps`.
Key theorems: `Walk.perm_targets`, `Walk.keeps_iff`.
-/
import Wireform.Proofs.Walk.Rows

namespace Wireform

namespace Walk

section Targets

variable (direction : Direction) (properties : List (Property Descriptor))
  (additional : Additional Descriptor)

/-- The property that declares an input key. -/
def declaring? (key : String) : Option (Property Descriptor) :=
  properties.find? fun p => direction.inputKey p = key

/-- The key under which the member with an input key is written. -/
def target (key : String) : String :=
  match declaring? direction properties key with
  | some p => direction.outputKey p
  | none => key

/-- The descriptor that the value of an input key must match. -/
def governing (key : String) : Option Descriptor :=
  match declaring? direction properties key with
  | some p => some p.descriptor
  | none =>
    match additional with
    | .allow d => some d
    | .reject => none

end Targets

/-- Every member of an input object is found in the output, under a key of its own. -/
structure Keeps (w : Walk) (properties : List (Property Descriptor))
    (additional : Additional Descriptor) (depth : Nat) (input out : List (String × Json)) : Prop where
  /-- No two members are written under one key. -/
  targets : (input.map fun m => target w.direction properties m.1).Nodup
  length : out.length = input.length
  /-- What becomes of a member stands under its target. -/
  found : ∀ m ∈ input, ∃ d v, governing w.direction properties additional m.1 = some d ∧
    w.Accepts d (depth + 1) (some m.2) (some v) ∧
      out.lookup (target w.direction properties m.1) = some v

section Objects

variable {direction : Direction} {properties : List (Property Descriptor)}
  {additional : Additional Descriptor}

theorem declaring?_inputKey (hk : (properties.map direction.inputKey).Nodup)
    {p : Property Descriptor} (hp : p ∈ properties) :
    declaring? direction properties (direction.inputKey p) = some p := by
  cases hd : declaring? direction properties (direction.inputKey p) with
  | none => simpa using List.find?_eq_none.mp hd p hp
  | some q =>
    have hq : direction.inputKey q = direction.inputKey p := by simpa using List.find?_some hd
    rw [List.inj_on_of_nodup_map hk (List.mem_of_find?_eq_some hd) hp hq]

theorem declaring?_eq_none_iff {key : String} :
    declaring? direction properties key = none ↔ key ∉ properties.map direction.inputKey := by
  simp [declaring?, List.find?_eq_none]

theorem keys_written_map {ρ : Type} (key : ρ → String) (slot : ρ → Slot) : ∀ rows : List ρ,
    Keyed.keys (written (rows.map key) (rows.map slot)) =
      (rows.filter fun r => (slot r).isSome).map key
  | [] => rfl
  | r :: rows => by
    have ih := keys_written_map key slot rows
    cases hs : slot r with
    | none => simpa [hs] using ih
    | some v => simpa [hs] using ih

theorem target_inputKey (hk : (properties.map direction.inputKey).Nodup) {p : Property Descriptor}
    (hp : p ∈ properties) :
    target direction properties (direction.inputKey p) = direction.outputKey p := by
  rw [target, declaring?_inputKey hk hp]

theorem target_of_notMem {key : String} (h : key ∉ properties.map direction.inputKey) :
    target direction properties key = key := by
  rw [target, declaring?_eq_none_iff.mpr h]

/-- The members are written under their targets, in another order. -/
theorem perm_targets {C : Descriptor → Slot → Slot → Prop}
    (hC : ∀ d s s', C d s s' → Slot.kind s' = Slot.kind s)
    (hk : (properties.map direction.inputKey).Nodup) {input : List (String × Json)}
    (hn : (Keyed.keys input).Nodup) {slots : List Slot} {xs : List (String × Json)}
    (hslots : List.Forall₂ (fun p s => C p.descriptor (input.lookup (direction.inputKey p)) s)
      properties slots)
    (hxs : Keyed.keys xs = Keyed.keys (extras direction properties input)) :
    (Keyed.keys (written (properties.map direction.outputKey) slots ++ xs)).Perm
      (input.map fun m => target direction properties m.1) := by
  have hperm := (assembled_perm hk hn).map fun m => target direction properties m.1
  refine .trans (.of_eq ?_) hperm
  have hextras : (extras direction properties input).map (fun m => target direction properties m.1) =
      Keyed.keys (extras direction properties input) := by
    refine List.map_congr_left fun m hm => target_of_notMem ?_
    exact fresh_extras m.1 (List.mem_map_of_mem hm)
  obtain ⟨rows, rfl, rfl, hrows⟩ := exists_rows hslots
  have hmem : ∀ r ∈ rows, r.1 ∈ rows.map (·.1) := fun r hr => List.mem_map_of_mem hr
  calc Keyed.keys (written ((rows.map (·.1)).map direction.outputKey) (rows.map (·.2)) ++ xs)
      = (rows.filter fun r => r.2.isSome).map (fun r => direction.outputKey r.1) ++
          Keyed.keys (extras direction (rows.map (·.1)) input) := by
        rw [← hxs, List.map_map, Keyed.keys, List.map_append]
        exact congrArg (· ++ _) (keys_written_map _ _ rows)
    _ = (rows.filter fun r => (input.lookup (direction.inputKey r.1)).isSome).map
          (fun r => target direction (rows.map (·.1)) (direction.inputKey r.1)) ++
          Keyed.keys (extras direction (rows.map (·.1)) input) := by
        refine congrArg (· ++ _) ?_
        rw [List.filter_congr fun r hr => isSome_eq_of_kind (hC _ _ _ (hrows r hr))]
        refine List.map_congr_left fun r hr => ?_
        exact (target_inputKey hk (hmem r (List.mem_filter.mp hr).1)).symm
    _ = _ := by
        rw [List.map_append, hextras]
        refine congrArg (· ++ _) ?_
        have hkeys := keys_written_map (fun r => direction.inputKey r.1)
          (fun r => input.lookup (direction.inputKey r.1)) rows
        have htargets := congrArg (List.map (target direction (rows.map (·.1)))) hkeys
        rw [Keyed.keys, List.map_map, List.map_map] at htargets
        rw [List.map_map, List.map_map]
        exact htargets.symm

/-- The written members have keys of their own if no undeclared key is written by a
property. -/
theorem nodup_written_iff {C : Descriptor → Slot → Slot → Prop}
    (hC : ∀ d s s', C d s s' → Slot.kind s' = Slot.kind s)
    (hout : (properties.map direction.outputKey).Nodup) {input : List (String × Json)}
    (hn : (Keyed.keys input).Nodup) {slots : List Slot} {xs : List (String × Json)}
    (hslots : List.Forall₂ (fun p s => C p.descriptor (input.lookup (direction.inputKey p)) s)
      properties slots)
    (hxs : Keyed.keys xs = Keyed.keys (extras direction properties input)) :
    (Keyed.keys (written (properties.map direction.outputKey) slots ++ xs)).Nodup ↔
      ∀ p ∈ properties, direction.inputKey p ∈ Keyed.keys input →
        direction.outputKey p ∈ Keyed.keys input →
          direction.outputKey p ∈ properties.map direction.inputKey := by
  obtain ⟨rows, rfl, rfl, hrows⟩ := exists_rows hslots
  have hwritten : ∀ k, k ∈ Keyed.keys (written ((rows.map (·.1)).map direction.outputKey)
      (rows.map (·.2))) ↔ ∃ r ∈ rows, direction.inputKey r.1 ∈ Keyed.keys input ∧
        direction.outputKey r.1 = k := by
    intro k
    rw [List.map_map, keys_written_map, List.mem_map]
    simp only [List.mem_filter, and_assoc]
    refine exists_congr fun r => and_congr_right fun hr => and_congr_left' ?_
    rw [isSome_eq_of_kind (hC _ _ _ (hrows r hr)), Keyed.isSome_lookup_iff]
  have hothers : ∀ k, k ∈ Keyed.keys xs ↔
      k ∈ Keyed.keys input ∧ k ∉ (rows.map (·.1)).map direction.inputKey := by
    intro k
    rw [hxs, Keyed.keys, List.mem_map]
    constructor
    · rintro ⟨m, hm, rfl⟩
      exact ⟨List.mem_map_of_mem (List.mem_filter.mp hm).1, fresh_extras _ (List.mem_map_of_mem hm)⟩
    · rintro ⟨hk, hnot⟩
      obtain ⟨m, hm, rfl⟩ := List.mem_map.mp hk
      exact ⟨m, List.mem_filter.mpr ⟨hm, decide_eq_true hnot⟩, rfl⟩
  rw [Keyed.keys_append, List.nodup_append]
  constructor
  · rintro ⟨-, -, hdisjoint⟩ p hp hin hmem
    obtain ⟨r, hr, rfl⟩ := List.mem_map.mp hp
    by_contra hnot
    exact hdisjoint _ ((hwritten _).mpr ⟨r, hr, hin, rfl⟩) _ ((hothers _).mpr ⟨hmem, hnot⟩) rfl
  · intro h
    refine ⟨(keys_written_sublist _ _).nodup hout, ?_, ?_⟩
    · exact (congrArg List.Nodup hxs).mpr (nodup_keys_extras hn)
    · rintro a ha b hb rfl
      obtain ⟨r, hr, hin, rfl⟩ := (hwritten a).mp ha
      obtain ⟨hmem, hnot⟩ := (hothers _).mp hb
      exact hnot (h r.1 (List.mem_map_of_mem hr) hin hmem)

/-- Where the written members have keys of their own, each is found under its target. -/
theorem found_of_converts {C : Descriptor → Slot → Slot → Prop}
    (hC : ∀ d s s', C d s s' → Slot.kind s' = Slot.kind s)
    (hk : (properties.map direction.inputKey).Nodup) {input : List (String × Json)}
    (hn : (Keyed.keys input).Nodup) {slots : List Slot} {xs : List (String × Json)}
    (hslots : List.Forall₂ (fun p s => C p.descriptor (input.lookup (direction.inputKey p)) s)
      properties slots)
    (hxs : List.Forall₂ (fun m x => x.1 = m.1 ∧
      ∃ d, additional = .allow d ∧ C d (some m.2) (some x.2)) (extras direction properties input) xs)
    (hout : (Keyed.keys (written (properties.map direction.outputKey) slots ++ xs)).Nodup)
    {m : String × Json} (hm : m ∈ input) :
    ∃ d v, governing direction properties additional m.1 = some d ∧ C d (some m.2) (some v) ∧
      (written (properties.map direction.outputKey) slots ++ xs).lookup
        (target direction properties m.1) = some v := by
  by_cases hd : m.1 ∈ properties.map direction.inputKey
  · obtain ⟨rows, rfl, rfl, hrows⟩ := exists_rows hslots
    obtain ⟨p, hp, hpk⟩ := List.mem_map.mp hd
    obtain ⟨r, hr, rfl⟩ := List.mem_map.mp hp
    have hlookup : input.lookup (direction.inputKey r.1) = some m.2 :=
      hpk ▸ Keyed.lookup_of_mem hn hm
    have hc := hrows r hr
    rw [hlookup] at hc
    obtain ⟨v, hv⟩ := Slot.eq_some_of_kind (hC _ _ _ hc)
    rw [hv] at hc
    refine ⟨r.1.descriptor, v, ?_, hc, Keyed.lookup_of_mem hout (List.mem_append_left _ ?_)⟩
    · simp only [governing, ← hpk, declaring?_inputKey hk hp]
    · rw [List.map_map, ← hpk, target_inputKey hk hp]
      exact mem_written_map.mpr ⟨r, hr, rfl, hv⟩
  · obtain ⟨xrows, hextras, rfl, hxrows⟩ := exists_rows hxs
    have hmem : m ∈ xrows.map (·.1) := hextras ▸ List.mem_filter.mpr ⟨hm, decide_eq_true hd⟩
    obtain ⟨r, hr, rfl⟩ := List.mem_map.mp hmem
    obtain ⟨hkey, d, rfl, hc⟩ := hxrows r hr
    refine ⟨d, r.2.2, ?_, hc, Keyed.lookup_of_mem hout (List.mem_append_right _ ?_)⟩
    · simp only [governing, declaring?_eq_none_iff.mpr hd]
    · rw [target_of_notMem hd, ← hkey]
      exact List.mem_map_of_mem hr

end Objects

/-- **A converted object keeps its members if and only if no undeclared member has the
output key of a property that is present.** -/
theorem keeps_iff {definitions : List (String × Descriptor)} {w : Walk}
    (ht : Table.build definitions = .ok w.table) {root : String}
    {properties : List (Property Descriptor)} {additional : Additional Descriptor}
    (hreach : w.table.Reaches (.ref root) (.object properties additional))
    {n : Nat} {owner : Option String} {site : Site} {input : List (String × Json)} {slot : Slot}
    (hn : (Keyed.keys input).Nodup)
    (h : w.value n owner (.object properties additional) site (some (.object input)) = .ok slot) :
    ∃ out, slot = some (.object out) ∧ (w.Keeps properties additional site.depth input out ↔
      ∀ p ∈ properties, w.direction.inputKey p ∈ Keyed.keys input →
        w.direction.outputKey p ∈ Keyed.keys input →
          w.direction.outputKey p ∈ properties.map w.direction.inputKey) := by
  obtain ⟨hin, hout⟩ := ((Table.build_sound ht).checked_object hreach).nodup w.direction
  have ha := value_eq_ok_iff.mp h
  cases n with
  | zero => cases h
  | succ n =>
    obtain ⟨_, out, hslot, rfl, -, hconv⟩ := (acceptsIn_object_iff hin).mp ha
    cases hslot
    refine ⟨out, rfl, ?_⟩
    obtain ⟨slots, xs, hslots, hxs, rfl⟩ := hconv.mono fun _ _ _ h => h.accepts
    have hC : ∀ d s s', w.Accepts d (site.depth + 1) s s' → Slot.kind s' = Slot.kind s :=
      fun _ _ _ h => h.kind
    have hkeys := keys_eq_of_forall₂ hxs
    have hperm := perm_targets hC hin hn hslots hkeys
    rw [← nodup_written_iff hC hout hn hslots hkeys]
    constructor
    · intro hkeeps
      exact hperm.nodup_iff.mpr hkeeps.targets
    · intro hnodup
      rw [Keyed.ofList_eq_self hnodup]
      refine ⟨hperm.nodup_iff.mp hnodup, ?_, fun m hm => ?_⟩
      · have hlength := hperm.length_eq
        simpa only [Keyed.keys, List.length_map] using hlength
      · exact found_of_converts hC hin hn hslots hxs hnodup hm

/-! ### A property and an undeclared member -/

/-- A property that is renamed from `a` to `b`, among other members. -/
def renamed : List (Property Descriptor) := [⟨"a", "b", .any⟩]

/-- Decoding by the one type `Renamed`. -/
def renamedWalk : Walk := ⟨⟨[("Renamed", .object renamed (.allow .any))]⟩, .decode, 256⟩

theorem reaches_renamed :
    renamedWalk.table.Reaches (.ref "Renamed") (.object renamed (.allow .any)) :=
  .single (.ref rfl)

theorem keeps_renamed : ∃ out,
    renamedWalk.value 2 none (.object renamed (.allow .any)) .root
        (some (.object [("c", .null), ("a", .bool true)])) = .ok (some (.object out)) ∧
      renamedWalk.Keeps renamed (.allow .any) 0 [("c", .null), ("a", .bool true)] out := by
  have hbuild : Table.build [("Renamed", .object renamed (.allow .any))] = .ok renamedWalk.table := rfl
  have hn : (Keyed.keys [("c", Json.null), ("a", .bool true)]).Nodup := by decide
  have hvalue : renamedWalk.value 2 none (.object renamed (.allow .any)) .root
      (some (.object [("c", .null), ("a", .bool true)])) =
        .ok (some (.object [("b", .bool true), ("c", .null)])) := rfl
  obtain ⟨out, hslot, hiff⟩ := keeps_iff hbuild reaches_renamed hn hvalue
  refine ⟨out, hslot ▸ hvalue, hiff.mpr fun p hp => ?_⟩
  rw [List.mem_singleton.mp hp]
  decide

/-- With `b` beside `a`, the member that comes last is the only one left. -/
theorem not_keeps_renamed :
    Table.build [("Renamed", .object renamed (.allow .any))] = .ok renamedWalk.table ∧
      renamedWalk.table.Reaches (.ref "Renamed") (.object renamed (.allow .any)) ∧
      (Keyed.keys [("a", Json.bool true), ("b", .bool false)]).Nodup ∧
      renamedWalk.value 2 none (.object renamed (.allow .any)) .root
          (some (.object [("a", .bool true), ("b", .bool false)])) =
        .ok (some (.object [("b", .bool false)])) ∧
      ¬ renamedWalk.Keeps renamed (.allow .any) 0 [("a", .bool true), ("b", .bool false)]
        [("b", .bool false)] := by
  refine ⟨rfl, reaches_renamed, by decide, rfl, fun h => ?_⟩
  have hlength := h.length
  simp at hlength

end Walk
end Wireform
