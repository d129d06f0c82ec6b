/-
# Shapes in another order

An object shape may declare its properties in another order, anywhere in a descriptor
and in a table (`Descriptor.Shuffled`). Nothing that a table is checked for depends on
that order, so a shuffled table is built, too (`Table.build_shuffled`); and its types
lead where those of the other table lead.

Key definitions: `Descriptor.Shuffled`, `Descriptor.ShuffledShape`.
Key theorems: `Descriptor.Shuffled.exists_part`, `Table.build_shuffled`,
`Table.Productive.of_shuffled`.
-/
import Mathlib.Data.List.Forall2
import Mathlib.Data.List.Perm.Basic
import Wireform.Proofs.Table.Faults
import Wireform.Proofs.Table.Related

namespace Wireform

namespace Descriptor

/-! ### Shapes with their properties in another order -/

/-- An object shape declares its properties, which may differ in their parts, in another
order. -/
inductive Shuffling (R : Descriptor → Descriptor → Prop) : Descriptor → Descriptor → Prop
  | object {properties among properties' additional additional'}
    (h : List.Forall₂ (Property.Related R) properties among) (hp : among.Perm properties')
    (hx : Additional.Related R additional additional') :
    Shuffling R (.object properties additional) (.object properties' additional')

theorem Shuffling.mono : Monotone Shuffling := by
  intro R S hRS _ _ h
  cases h with
  | object h hp hx => exact .object (h.imp fun _ _ h => h.mono hRS) hp (hx.mono hRS)

theorem Shuffling.flip {R S : Descriptor → Descriptor → Prop} (hRS : ∀ d d', R d d' → S d' d)
    {d d' : Descriptor} (h : Shuffling R d d') : Shuffling S d' d := by
  cases h with
  | object h hp hx =>
    have hback := (h.imp fun _ _ h => h.flip hRS).flip
    obtain ⟨among, hamong, hperm⟩ := List.perm_comp_forall₂ hp.symm hback
    exact .object hamong hperm (hx.flip hRS)

/-- The same descriptor, but for the order in which its object shapes declare properties. -/
abbrev Shuffled : Descriptor → Descriptor → Prop := Throughout Shuffling

theorem Shuffled.symm {d d' : Descriptor} (h : Shuffled d d') : Shuffled d' d :=
  Throughout.symm Shuffling.flip h

/-- Properties that are only moved are shuffled. -/
theorem Shuffled.of_perm {properties properties' : List (Property Descriptor)}
    (h : properties.Perm properties') (additional : Additional Descriptor) :
    Shuffled (.object properties additional) (.object properties' additional) :=
  .of_rule (.object (List.forall₂_same.mpr fun p _ => .refl .same p) h (.refl .same additional))

/-- What becomes of an object shape: its properties correspond, in some order. -/
structure ShuffledShape (properties properties' : List (Property Descriptor))
    (additional additional' : Additional Descriptor) : Prop where
  properties : ∃ among, List.Forall₂ (Property.Related Shuffled) properties among ∧
    among.Perm properties'
  additional : ∀ d, additional = .allow d → ∃ d', additional' = .allow d' ∧ Shuffled d d'

namespace ShuffledShape

variable {properties properties' : List (Property Descriptor)}
  {additional additional' : Additional Descriptor}

theorem exists_mem (h : ShuffledShape properties properties' additional additional')
    {p' : Property Descriptor} (hp' : p' ∈ properties') :
    ∃ p ∈ properties, Property.Related Shuffled p p' := by
  obtain ⟨among, hamong, hperm⟩ := h.properties
  exact exists_left_of_mem hamong (hperm.mem_iff.mpr hp')

theorem perm_inputKey (h : ShuffledShape properties properties' additional additional')
    (direction : Direction) :
    (properties.map direction.inputKey).Perm (properties'.map direction.inputKey) := by
  obtain ⟨among, hamong, hperm⟩ := h.properties
  rw [← Property.map_inputKey_of_related hamong direction]
  exact hperm.map _

theorem perm_outputKey (h : ShuffledShape properties properties' additional additional')
    (direction : Direction) :
    (properties.map direction.outputKey).Perm (properties'.map direction.outputKey) := by
  cases direction with
  | decode => exact h.perm_inputKey .encode
  | encode => exact h.perm_inputKey .decode

end ShuffledShape

namespace Shuffled

variable {d d' : Descriptor}

theorem leaf_inv (h : Shuffled d d') (hd : Walk.IsLeaf d) : d' = d := by
  rcases h.congruent_or_rule Shuffling.mono with h | h
  · cases h with
    | leaf _ => rfl
    | ref _ | union _ | array _ | object _ _ => exact hd.elim
  · cases h
    exact hd.elim

theorem ref_inv {name : String} (h : Shuffled (.ref name) d') : d' = .ref name := by
  rcases h.congruent_or_rule Shuffling.mono with h | h <;> cases h <;> rfl

theorem union_inv {members : List Descriptor} (h : Shuffled (.union members) d') :
    ∃ members', d' = .union members' ∧ List.Forall₂ Shuffled members members' := by
  rcases h.congruent_or_rule Shuffling.mono with h | h
  · cases h with
    | leaf hd => exact hd.elim
    | union hmembers => exact ⟨_, rfl, hmembers⟩
  · cases h

theorem array_inv {item : Descriptor} (h : Shuffled (.array item) d') :
    ∃ item', d' = .array item' ∧ Shuffled item item' := by
  rcases h.congruent_or_rule Shuffling.mono with h | h
  · cases h with
    | leaf hd => exact hd.elim
    | array hitem => exact ⟨_, rfl, hitem⟩
  · cases h

theorem object_inv {properties : List (Property Descriptor)} {additional : Additional Descriptor}
    (h : Shuffled (.object properties additional) d') :
    ∃ properties' additional', d' = .object properties' additional' ∧
      ShuffledShape properties properties' additional additional' := by
  rcases h.congruent_or_rule Shuffling.mono with h | h
  · cases h with
    | leaf hd => exact hd.elim
    | object hps hx => exact ⟨_, _, rfl, ⟨_, hps, .refl _⟩, fun _ => hx.exists_allow⟩
  · cases h with
    | object hps hperm hx => exact ⟨_, _, rfl, ⟨_, hps, hperm⟩, fun _ => hx.exists_allow⟩

/-- What stands in a shuffled descriptor is a shuffled part of the descriptor. -/
theorem exists_part (h : Shuffled d d') : ∀ p' ∈ d'.parts, ∃ p ∈ d.parts, Shuffled p p' := by
  induction h with
  | same d => exact fun p' hp' => ⟨p', hp', .same p'⟩
  | @parts _ d _ h hR ih =>
    intro p' hp'
    rcases h.exists_part ih hp' with rfl | hpart
    · exact ⟨d, mem_parts_self d, .parts h hR⟩
    · exact hpart
  | @rule _ d _ h hR ih =>
    intro p' hp'
    cases h with
    | object hps hperm hx =>
      rcases exists_part_of_object ih (fun _ hq' => exists_left_of_mem hps (hperm.mem_iff.mpr hq'))
        hx hp' with rfl | hpart
      · exact ⟨_, mem_parts_self _, .rule (.object hps hperm hx) hR⟩
      · exact hpart

end Shuffled

end Descriptor

/-! ### Shuffled tables -/

namespace Table

open Descriptor (Shuffled Shuffling)

section Shuffled

variable {definitions : List (String × Descriptor)} {table table' : Table}

theorem InOrder.of_shuffled {d d' : Descriptor} (hnames : table'.names = table.names)
    (h : Shuffled d d') (hd : table.InOrder d) : table'.InOrder d' := by
  rcases h.congruent_or_rule Shuffling.mono with h | h
  · exact hd.of_congruent (hnames ▸ List.Subset.refl _) h
  · cases h with
    | object hps hperm _ =>
      have hwire := Property.map_inputKey_of_related hps .decode
      have htyped := Property.map_inputKey_of_related hps .encode
      exact ⟨(hperm.map _).nodup_iff.mp (hwire.symm ▸ hd.1),
        (hperm.map _).nodup_iff.mp (htyped.symm ▸ hd.2)⟩

/-- **A table with its properties in another order is accepted, too.** -/
theorem build_shuffled (ht : build definitions = .ok table) (h : table.Related Shuffled table') :
    build table'.definitions = .ok table' := by
  refine build_of_related ht h (fun hdd hparts p' hp' => ?_) fun hd => hd.symm.ref_inv
  obtain ⟨p, hp, hpp⟩ := hdd.exists_part p' hp'
  exact (hparts p hp).of_shuffled h.keys hpp

theorem mirrors_shuffled (h : table.Related Shuffled table') : Mirrors Shuffled table table' where
  leads {d d' e'} hdd hlead := by
    cases hlead with
    | ref hget =>
      have hback : table'.Related Shuffled table := h.flip fun _ _ hd => hd.symm
      obtain ⟨e, he, hee⟩ := hback.exists_get? hget
      rw [hdd.symm.ref_inv]
      exact ⟨e, .ref he, hee.symm⟩
    | member hmem =>
      obtain ⟨members, rfl, hmembers⟩ := hdd.symm.union_inv
      obtain ⟨e, he, hee⟩ := exists_right_of_mem hmembers hmem
      exact ⟨e, .member he, hee.symm⟩
  name hd := hd.symm.ref_inv

theorem Productive.of_shuffled (hp : table.Productive) (h : table.Related Shuffled table') :
    table'.Productive :=
  hp.of_mirrors (mirrors_shuffled h) fun name => .same (.ref name)

end Shuffled

end Table

end Wireform
