/-
# The keys of a converted object

A walk gives a present value exactly for a present slot, whatever the descriptor, for
every value that it gives is of the kind of the slot. So a declared property contributes a
key if and only if it is in the input, and the keys of the output are known before the walk
(`outputKeys`): those of the properties that are present, in the order in which they are
declared, and then the undeclared ones. An undeclared key that was written before, by a
renamed property, is not written a second time; it keeps the place of the property.

Key definitions: `Walk.outputKeys`.
Key theorems: `Keyed.keys_putAll`, `Walk.Converts.keys_eq`, `Walk.object_keys`.
-/
import Wireform.Proofs.Members
import Wireform.Proofs.Table.Faults
import Wireform.Proofs.Unchanged

namespace Wireform

/-- Entries with keys of their own add the keys that are new, in their order. -/
theorem Keyed.keys_putAll {α : Type} : ∀ {entries out : List (String × α)},
    (keys entries).Nodup → keys (putAll out entries) =
      keys out ++ (keys entries).filter fun key => decide (key ∉ keys out)
  | [], out, _ => (List.append_nil _).symm
  | (key, value) :: rest, out, hn => by
    obtain ⟨hnew, hrest⟩ : key ∉ keys rest ∧ (keys rest).Nodup := List.nodup_cons.mp hn
    have hcons : keys ((key, value) :: rest) = key :: keys rest := rfl
    rw [putAll, keys_putAll hrest, keys_put, hcons]
    by_cases hk : key ∈ keys out
    · rw [if_pos hk, List.filter_cons_of_neg (by simpa using hk)]
    · rw [if_neg hk, List.filter_cons_of_pos (by simpa using hk), List.append_assoc,
        List.singleton_append]
      -- the key is not among those that are still to come
      have hsame : (keys rest).filter (fun k => decide (k ∉ keys out ++ [key])) =
          (keys rest).filter fun k => decide (k ∉ keys out) := by
        refine List.filter_congr fun k hmem => ?_
        have hne : k ≠ key := fun he => hnew (he ▸ hmem)
        simp [hne]
      rw [hsame]

namespace Table

/-- Whatever stands in an accepted table or in a checked descriptor is in order. -/
theorem inOrder_of_mem_catalog {definitions : List (String × Descriptor)} {table : Table}
    (ht : build definitions = .ok table) {d : Descriptor} (hd : table.checkExternal d = .ok ())
    {p : Descriptor} (hp : p ∈ table.catalog d) : table.InOrder p := by
  obtain ⟨rfl, -, hflawless⟩ := build_eq_ok_iff_flawless.mp ht
  rcases List.mem_append.mp hp with hp | hp
  · obtain ⟨x, hx, hp⟩ := List.mem_flatMap.mp hp
    exact (hflawless x hx).parts p hp
  · exact (checkDescriptor_eq_ok_iff d).mp hd p hp

theorem InOrder.nodup {table : Table} {properties : List (Property Descriptor)}
    {additional : Additional Descriptor} (h : table.InOrder (.object properties additional))
    (direction : Direction) :
    (properties.map direction.inputKey).Nodup ∧ (properties.map direction.outputKey).Nodup := by
  cases direction with
  | decode => exact h
  | encode => exact h.symm

end Table

namespace Walk

/-- The keys of an object that is converted by a shape, from the keys of the input: the
output keys of the properties that are present, in the order in which they are declared, and
behind them the undeclared keys in the order of the input, but for those that are among the
first already. -/
def outputKeys {δ : Type} (direction : Direction) (properties : List (Property δ))
    (input : List String) : List String :=
  let written := (properties.filter fun p => decide (direction.inputKey p ∈ input)).map
    direction.outputKey
  let undeclared := input.filter fun key => decide (key ∉ properties.map direction.inputKey)
  written ++ undeclared.filter fun key => decide (key ∉ written)

section Objects

variable {direction : Direction} {properties : List (Property Descriptor)}
  {additional : Additional Descriptor} {C : Descriptor → Slot → Slot → Prop}
  {input out : List (String × Json)}

theorem keys_extras : Keyed.keys (extras direction properties input) =
    (Keyed.keys input).filter fun key => decide (key ∉ properties.map direction.inputKey) := by
  rw [extras, Keyed.keys, Keyed.keys, List.filter_map]
  rfl

/-- A property writes its output key if and only if its input key is present. -/
theorem keys_written_slots (hC : ∀ d s s', C d s s' → Slot.kind s' = Slot.kind s)
    {slots : List Slot}
    (h : List.Forall₂ (fun p s => C p.descriptor (input.lookup (direction.inputKey p)) s)
      properties slots) :
    Keyed.keys (written (properties.map direction.outputKey) slots) =
      (properties.filter fun p => decide (direction.inputKey p ∈ Keyed.keys input)).map
        direction.outputKey := by
  obtain ⟨rows, rfl, rfl, hrows⟩ := exists_rows h
  rw [List.map_map, keys_written_map, List.filter_map, List.map_map]
  refine congrArg _ (List.filter_congr fun r hr => ?_)
  rw [isSome_eq_of_kind (hC _ _ _ (hrows r hr)), Bool.eq_iff_iff, Keyed.isSome_lookup_iff]
  exact decide_eq_true_iff.symm

theorem Converts.keys_eq (h : Converts direction properties additional C input out)
    (hC : ∀ d s s', C d s s' → Slot.kind s' = Slot.kind s)
    (hn : (Keyed.keys input).Nodup) (hout : (properties.map direction.outputKey).Nodup) :
    Keyed.keys out = outputKeys direction properties (Keyed.keys input) := by
  obtain ⟨slots, xs, hslots, hxs, rfl⟩ := h
  have hkeys : Keyed.keys xs = Keyed.keys (extras direction properties input) :=
    keys_eq_of_forall₂ hxs
  have hdistinct : (Keyed.keys xs).Nodup := hkeys ▸ nodup_keys_extras hn
  have hwritten := (keys_written_sublist (properties.map direction.outputKey) slots).nodup hout
  rw [Keyed.ofList, Keyed.putAll_append, Keyed.keys_putAll hdistinct,
    show Keyed.putAll [] (written (properties.map direction.outputKey) slots) = written _ slots
      from Keyed.ofList_eq_self hwritten,
    keys_written_slots hC hslots, hkeys, keys_extras]
  rfl

/-- A shape without additional keys converts declared keys only. -/
theorem Converts.declared (h : Converts direction properties .reject C input out) {key : String}
    (hkey : key ∈ Keyed.keys input) : key ∈ properties.map direction.inputKey := by
  by_contra hnew
  obtain ⟨m, hm, rfl⟩ := List.mem_map.mp hkey
  obtain ⟨d, -, hd, -⟩ := h.extra (List.mem_filter.mpr ⟨hm, decide_eq_true hnew⟩)
  cases hd

end Objects

/-- **An object that is converted has exactly the keys that its shape and the keys of the
input say, and what a walk gives is present if and only if its slot is.** -/
theorem object_keys {definitions : List (String × Descriptor)} {w : Walk}
    (ht : Table.build definitions = .ok w.table) :
    (∀ d, w.table.checkExternal d = .ok () → ∀ properties additional,
      .object properties additional ∈ w.table.catalog d →
        ∀ n owner site input slot, (Keyed.keys input).Nodup →
          w.value n owner (.object properties additional) site (some (.object input)) = .ok slot →
            ∃ out, slot = some (.object out) ∧
              Keyed.keys out = outputKeys w.direction properties (Keyed.keys input) ∧
              (additional = .reject →
                ∀ key ∈ Keyed.keys input, key ∈ properties.map w.direction.inputKey)) ∧
    ∀ n owner d site slot result, w.value n owner d site slot = .ok result →
      (result.isSome ↔ slot.isSome) := by
  refine ⟨fun d hd properties additional hmem n owner site input slot hn h => ?_,
    fun n owner d site slot result h => by rw [isSome_eq_of_value h]⟩
  obtain ⟨hin, hout⟩ := (Table.inOrder_of_mem_catalog ht hd hmem).nodup w.direction
  cases n with
  | zero => cases h
  | succ n =>
    obtain ⟨_, out, hinput, rfl, -, hconv⟩ := (acceptsIn_object_iff hin).mp (value_eq_ok_iff.mp h)
    cases hinput
    refine ⟨out, rfl, hconv.keys_eq (fun _ _ _ ha => ha.kind) hn hout, ?_⟩
    rintro rfl key hkey
    exact hconv.declared hkey

/-! ### Properties that may be missing

Three of the four properties accept a missing slot; the key `w` of the input is what the
fourth writes. -/

/-- A row of which all but the last property may be missing. -/
def row : Descriptor :=
  .object [⟨"a", "x", .any⟩, ⟨"b", "y", .ref "Gap"⟩, ⟨"c", "z", .optional .null⟩,
    ⟨"d", "w", .any⟩] (.allow .any)

/-- Rows, and a day that may be missing. -/
def gaps : List (String × Descriptor) := [("Gap", .optional .date), ("Row", row)]

theorem object_keys_gaps :
    let w : Walk := ⟨⟨gaps⟩, .decode, 256⟩
    let input : List (String × Json) :=
      [("q", .null), ("w", .bool true), ("d", .null), ("b", .string "2024-02-29")]
    ∃ out, w.value 5 none row .root (some (.object input)) = .ok (some (.object out)) ∧
      Keyed.keys out = ["y", "w", "q"] := by
  intro w input
  have hbuild : Table.build gaps = .ok w.table := rfl
  have hchecked : w.table.checkExternal (.ref "Row") = .ok () := rfl
  have hmem : row ∈ w.table.catalog (.ref "Row") :=
    (Table.Reaches.opens .refl (.ref rfl)).mem_catalog
  have hn : (Keyed.keys input).Nodup := by decide
  have hvalue : w.value 5 none row .root (some (.object input)) = .ok (some (.object
      [("y", .string "2024-02-29T00:00:00.000Z"), ("w", .bool true), ("q", .null)])) := by
    cbv
  obtain ⟨hobjects, -⟩ := object_keys hbuild
  obtain ⟨out, hslot, hkeys, -⟩ := hobjects _ hchecked _ _ hmem 5 none .root input _ hn hvalue
  exact ⟨out, hslot ▸ hvalue, hkeys⟩

end Walk
end Wireform
