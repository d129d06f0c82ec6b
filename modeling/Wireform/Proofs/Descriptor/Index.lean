/-
# What an index says of its properties

Where no input key is declared twice, an index is the list of the properties: each
input key with the output key and the position of its property, in declaration order.
In any case the positions are those of properties.

An index may be built of properties of which several are declared under one key. It then maps
the key to the last of them, but lists it where the first one stands (`Faithful`). Where no wire
key and no typed key is declared twice, the index of one direction is the index of the other
with the two keys of each property exchanged, and both list the properties as they are declared
(`PropertyIndex.faithful_ofProperties`).

Key definitions: `PropertyIndex.Faithful`.
Key theorems: `PropertyIndex.ofProperties_entries`, `PropertyIndex.contains_ofProperties`,
`PropertyIndex.mem_entriesFrom`, `PropertyIndex.position_lt`, `Keyed.pairwise_keys_ofList`,
`PropertyIndex.get?_eq_some_iff`, `PropertyIndex.faithful_ofProperties`.
-/
import Mathlib.Data.List.Induction
import Wireform.Descriptor.Index
import Wireform.Proofs.Keyed

namespace Wireform

/-! ### Indexes without repeated keys -/

namespace PropertyIndex

variable {δ : Type}

theorem ofProperties_entries {direction : Direction} {ps : List (Property δ)}
    (hk : (ps.map direction.inputKey).Nodup) :
    (ofProperties ps direction).entries = entriesFrom direction 0 ps :=
  Keyed.ofList_eq_self (by rwa [keys_entriesFrom])

@[simp] theorem contains_ofProperties {direction : Direction} {ps : List (Property δ)}
    (hk : (ps.map direction.inputKey).Nodup) (key : String) :
    (ofProperties ps direction).contains key = decide (key ∈ ps.map direction.inputKey) := by
  have hl : (entriesFrom direction 0 ps).lookup key = none ↔ key ∉ ps.map direction.inputKey := by
    rw [Keyed.lookup_eq_none_iff_notMem, keys_entriesFrom]
  unfold contains Keyed.has
  rw [ofProperties_entries hk]
  by_cases hm : key ∈ ps.map direction.inputKey
  · have := Option.isSome_iff_ne_none.mpr (mt hl.mp (not_not.mpr hm))
    simp [hm, this]
  · simp [hm, hl.mpr hm]

/-- An entry is that of the property at its position. -/
theorem mem_entriesFrom {direction : Direction} {m : String × IndexEntry} :
    ∀ {ps : List (Property δ)} {position : Nat}, m ∈ entriesFrom direction position ps →
      ∃ i p, ps[i]? = some p ∧
        m = (direction.inputKey p, ⟨direction.outputKey p, position + i⟩)
  | p :: ps, position, h => by
    rw [entriesFrom] at h
    rcases List.mem_cons.mp h with rfl | h
    · exact ⟨0, p, rfl, rfl⟩
    · obtain ⟨i, q, hq, rfl⟩ := mem_entriesFrom h
      refine ⟨i + 1, q, hq, ?_⟩
      rw [Nat.add_right_comm, Nat.add_assoc]

/-- An index points at properties only, whatever keys they declare. -/
theorem position_lt {direction : Direction} {ps : List (Property δ)} {m : String × IndexEntry}
    (h : m ∈ (ofProperties ps direction).entries) : m.2.position < ps.length := by
  have hmem := (Keyed.mem_putAll h).resolve_left List.not_mem_nil
  obtain ⟨i, p, hp, rfl⟩ := mem_entriesFrom hmem
  obtain ⟨hlt, -⟩ := List.getElem?_eq_some_iff.mp hp
  rwa [Nat.zero_add]

end PropertyIndex

/-! ### Keyed lists of entries with repeated keys -/

namespace Keyed

variable {α : Type}

theorem ofList_append_singleton (entries : List (String × α)) (e : String × α) :
    ofList (entries ++ [e]) = put (ofList entries) e.1 e.2 := putAll_append entries [e] []

theorem mem_keys_reverse {entries : List (String × α)} {key : String} :
    key ∈ keys entries.reverse ↔ key ∈ keys entries := by
  rw [keys, List.map_reverse, List.mem_reverse, keys]

theorem mem_keys_ofList {entries : List (String × α)} {key : String} :
    key ∈ keys (ofList entries) ↔ key ∈ keys entries := by
  rw [← isSome_lookup_iff, lookup_ofList, isSome_lookup_iff, mem_keys_reverse]

theorem notMem_keys_iff {entries : List (String × α)} {key : String} : key ∉ keys entries ↔
    ∀ (i : Nat) (e : String × α), entries[i]? = some e → e.1 ≠ key := by
  constructor
  · rintro h i e he rfl
    exact h (List.mem_map_of_mem (List.mem_of_getElem? he))
  · intro h hkey
    obtain ⟨e, he, rfl⟩ := List.mem_map.mp hkey
    obtain ⟨i, hi⟩ := List.mem_iff_getElem?.mp he
    exact h i e hi rfl

/-- **Keys stand in the order in which they occur first**, and so each of them once. -/
theorem pairwise_keys_ofList (entries : List (String × α)) :
    (keys (ofList entries)).Pairwise fun a b =>
      (keys entries).idxOf a < (keys entries).idxOf b := by
  induction entries using List.reverseRecOn with
  | nil => exact .nil
  | append_singleton entries e ih =>
    have hkeys : keys (entries ++ [e]) = keys entries ++ [e.1] := List.map_append
    -- the last entry does not move what occurs before it
    have hold : ∀ a ∈ keys (ofList entries),
        (keys (entries ++ [e])).idxOf a = (keys entries).idxOf a := by
      intro a ha
      rw [hkeys, List.idxOf_append_of_mem (mem_keys_ofList.mp ha)]
    have hfront : (keys (ofList entries)).Pairwise fun a b =>
        (keys (entries ++ [e])).idxOf a < (keys (entries ++ [e])).idxOf b := by
      refine ih.imp_of_mem fun ha hb hlt => ?_
      rwa [hold _ ha, hold _ hb]
    rw [ofList_append_singleton, keys_put]
    split_ifs with hk
    · exact hfront
    · refine List.pairwise_append.mpr ⟨hfront, List.pairwise_singleton _ _, fun a ha b hb => ?_⟩
      have hnew : e.1 ∉ keys entries := mt mem_keys_ofList.mpr hk
      rw [List.mem_singleton.mp hb, hold a ha, hkeys, List.idxOf_append_of_notMem hnew]
      exact Nat.lt_add_right _ (List.idxOf_lt_length_of_mem (mem_keys_ofList.mp ha))

/-- Looking from the end, the last entry of a key is found. -/
theorem lookup_reverse_eq_some_iff {key : String} {value : α} : ∀ {entries : List (String × α)},
    entries.reverse.lookup key = some value ↔ ∃ i : Nat, entries[i]? = some (key, value) ∧
      ∀ (j : Nat) (e : String × α), i < j → entries[j]? = some e → e.1 ≠ key
  | [] => by simp
  | (k, v) :: rest => by
    rw [List.reverse_cons, List.lookup_append, Option.or_eq_some_iff,
      lookup_reverse_eq_some_iff, lookup_eq_none_iff_notMem, mem_keys_reverse, notMem_keys_iff,
      lookup_cons]
    constructor
    · rintro (⟨i, hi, hlast⟩ | ⟨hnone, h⟩)
      · refine ⟨i + 1, hi, fun j e hj he => ?_⟩
        obtain ⟨j, rfl⟩ := Nat.exists_eq_add_of_lt hj
        exact hlast _ e (by omega) he
      · split_ifs at h with hk
        · cases h
          refine ⟨0, by rw [hk]; rfl, fun j e hj he => ?_⟩
          cases j with
          | zero => exact (Nat.lt_irrefl 0 hj).elim
          | succ j => exact hnone j e he
        · cases h
    · rintro ⟨_ | i, hi, hlast⟩
      · cases hi
        exact .inr ⟨fun j e he => hlast (j + 1) e (Nat.succ_pos j) he, by rw [if_pos rfl]⟩
      · exact .inl ⟨i, hi, fun j e hj he => hlast (j + 1) e (Nat.succ_lt_succ hj) he⟩

end Keyed

namespace PropertyIndex

variable {δ : Type} {direction : Direction} {ps : List (Property δ)}

theorem entriesFrom_eq_mapIdx : ∀ (position : Nat) (ps : List (Property δ)),
    entriesFrom direction position ps = ps.mapIdx fun i p =>
      (direction.inputKey p, ⟨direction.outputKey p, position + i⟩)
  | _, [] => rfl
  | position, p :: ps => by
    rw [entriesFrom, entriesFrom_eq_mapIdx (position + 1) ps, List.mapIdx_cons]
    simp only [Nat.add_zero, Nat.add_assoc, Nat.add_comm 1]

theorem getElem?_entriesFrom (i : Nat) : (entriesFrom direction 0 ps)[i]? =
    ps[i]?.map fun p => (direction.inputKey p, ⟨direction.outputKey p, i⟩) := by
  rw [entriesFrom_eq_mapIdx, List.getElem?_mapIdx, Nat.zero_add]

/-- A property is the last one under its input key. -/
def LastUnder (direction : Direction) (ps : List (Property δ)) (key : String) (position : Nat)
    (p : Property δ) : Prop :=
  ps[position]? = some p ∧ direction.inputKey p = key ∧
    ∀ later q, position < later → ps[later]? = some q → direction.inputKey q ≠ key

/-- **An input key stands for the last property that is declared under it.** -/
theorem get?_eq_some_iff {key : String} {entry : IndexEntry} :
    (ofProperties ps direction).get? key = some entry ↔
      ∃ p, LastUnder direction ps key entry.position p ∧
        direction.outputKey p = entry.outputKey := by
  rw [get?, ofProperties, Keyed.lookup_ofList, Keyed.lookup_reverse_eq_some_iff]
  simp only [getElem?_entriesFrom, Option.map_eq_some_iff]
  constructor
  · rintro ⟨i, ⟨p, hp, he⟩, hlast⟩
    cases he
    exact ⟨p, ⟨hp, rfl, fun j q hj hq => hlast j _ hj ⟨q, hq, rfl⟩⟩, rfl⟩
  · rintro ⟨p, ⟨hp, hkey, hlast⟩, hout⟩
    refine ⟨entry.position, ⟨p, hp, by rw [hkey, hout]⟩, ?_⟩
    rintro j m hj ⟨q, hq, rfl⟩
    exact hlast j q hj hq

/-- An index of properties in a direction: it maps every input key to the last property that is
declared under it, and lists each with what it maps it to, in the order in which they occur
first. -/
structure Faithful (index : PropertyIndex) (direction : Direction) (ps : List (Property δ)) :
    Prop where
  contains_iff : ∀ key, index.contains key = true ↔ ∃ p ∈ ps, direction.inputKey p = key
  get?_iff : ∀ key entry, index.get? key = some entry ↔
    ∃ p, LastUnder direction ps key entry.position p ∧ direction.outputKey p = entry.outputKey
  mem_iff : ∀ key entry, (key, entry) ∈ index.entries ↔ index.get? key = some entry
  order : (Keyed.keys index.entries).Pairwise fun a b =>
    (ps.map direction.inputKey).idxOf a < (ps.map direction.inputKey).idxOf b
  position_lt : ∀ m ∈ index.entries, m.2.position < ps.length

/-- Where no key is declared twice, every property is the last one under its key. -/
theorem lastUnder_iff (hn : (ps.map direction.inputKey).Nodup) {key : String} {position : Nat}
    {p : Property δ} : LastUnder direction ps key position p ↔
      ps[position]? = some p ∧ direction.inputKey p = key := by
  refine and_congr_right fun hp => and_iff_left_of_imp ?_
  rintro rfl later q hlt hq he
  have hpair := List.pairwise_iff_getElem.mp hn
  obtain ⟨hposition, rfl⟩ := List.getElem?_eq_some_iff.mp hp
  obtain ⟨hlater, rfl⟩ := List.getElem?_eq_some_iff.mp hq
  have hne := hpair position later (by simpa using hposition) (by simpa using hlater) hlt
  simp only [List.getElem_map] at hne
  exact hne he.symm

/-- **Indexes are faithful, and those of the two directions are inverse to each other** where no
key is declared twice on either side. -/
theorem faithful_ofProperties (ps : List (Property δ)) :
    (∀ direction, Faithful (ofProperties ps direction) direction ps) ∧
      ((ps.map (·.wireKey)).Nodup → (ps.map (·.typedKey)).Nodup →
        (∀ wire typed position,
          (ofProperties ps .decode).get? wire = some ⟨typed, position⟩ ↔
            (ofProperties ps .encode).get? typed = some ⟨wire, position⟩) ∧
        ∀ direction, (ofProperties ps direction).entries = ps.mapIdx fun position p =>
          (direction.inputKey p, ⟨direction.outputKey p, position⟩)) := by
  refine ⟨fun direction => ?_, fun hwire htyped => ?_⟩
  · have hkeys := keys_entriesFrom direction 0 ps
    refine ⟨fun key => ?_, fun key entry => get?_eq_some_iff, fun key entry => ?_, ?_,
      fun m => position_lt⟩
    · rw [contains, Keyed.has, Keyed.isSome_lookup_iff, ofProperties, Keyed.mem_keys_ofList, hkeys,
        List.mem_map]
    · have hn : (Keyed.keys (ofProperties ps direction).entries).Nodup :=
        Keyed.nodup_keys_ofList _
      exact ⟨Keyed.lookup_of_mem hn, Keyed.mem_of_lookup⟩
    · have horder := Keyed.pairwise_keys_ofList (entriesFrom direction 0 ps)
      rwa [hkeys] at horder
  · have hnodup : ∀ direction : Direction, (ps.map direction.inputKey).Nodup := by
      intro direction
      cases direction with
      | decode => exact hwire
      | encode => exact htyped
    refine ⟨fun wire typed position => ?_, fun direction => ?_⟩
    · simp only [get?_eq_some_iff, lastUnder_iff (hnodup _)]
      constructor
      · rintro ⟨p, ⟨hp, hkey⟩, hout⟩
        exact ⟨p, ⟨hp, hout⟩, hkey⟩
      · rintro ⟨p, ⟨hp, hkey⟩, hout⟩
        exact ⟨p, ⟨hp, hout⟩, hkey⟩
    · rw [ofProperties_entries (hnodup direction), entriesFrom_eq_mapIdx]
      simp only [Nat.zero_add]

/-- Two properties that exchange their keys: what `a` is written as is read as `a`. -/
theorem faithful_ofProperties_exchanged :
    let ps : List (Property Descriptor) := [⟨"a", "b", .date⟩, ⟨"b", "a", .any⟩]
    (ps.map (·.wireKey)).Nodup ∧ (ps.map (·.typedKey)).Nodup ∧
      (ofProperties ps .decode).get? "a" = some ⟨"b", 0⟩ ∧
      (ofProperties ps .encode).get? "b" = some ⟨"a", 0⟩ := by
  intro ps
  have hwire : (ps.map (·.wireKey)).Nodup := by decide
  have htyped : (ps.map (·.typedKey)).Nodup := by decide
  have ha : (ofProperties ps .decode).get? "a" = some ⟨"b", 0⟩ := rfl
  obtain ⟨-, hboth⟩ := faithful_ofProperties ps
  obtain ⟨hinverse, -⟩ := hboth hwire htyped
  exact ⟨hwire, htyped, ha, (hinverse "a" "b" 0).mp ha⟩

/-- A key that is declared again keeps its place, and stands for the later property. -/
example : (ofProperties [⟨"a", "x", ()⟩, ⟨"b", "y", ()⟩, ⟨"a", "z", ()⟩] .decode).entries =
    [("a", ⟨"z", 2⟩), ("b", ⟨"y", 1⟩)] := by decide

end PropertyIndex

end Wireform
