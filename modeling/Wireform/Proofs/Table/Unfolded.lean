/-
# Names that are written out

In a descriptor, and in every definition of a table, some names may be written out as what
they stand for, and so may be the names in what was put there (`Descriptor.Unfolded`). What
stands in the result stood in the table before, so nothing is wrong with it; and a chain of
names in the new table is a chain in the old one with some of its names left out. So where
no type of the table leads back to itself, the table with names written out is accepted, too
(`Table.build_unfolded`).

Key definitions: `Descriptor.Unfolded`.
Key theorems: `Descriptor.Unfolded.congruent_or_ref`, `Table.build_unfolded`,
`Table.checkExternal_unfolded`.
-/
import Wireform.Proofs.Table.Faults
import Wireform.Proofs.Table.Related

namespace Wireform

namespace Descriptor

/-- A name is written out as a table defines it, or as what may take the place of that. -/
inductive Unfolding (table : Table) (R : Descriptor → Descriptor → Prop) :
    Descriptor → Descriptor → Prop
  | ref {name d d'} (hget : table.get? name = some d) (h : R d d') : Unfolding table R (.ref name) d'

theorem Unfolding.mono (table : Table) : Monotone (Unfolding table) := by
  intro R S hRS _ _ h
  cases h with
  | ref hget h => exact .ref hget (hRS _ _ h)

/-- The same descriptor, but for names that are written out as a table defines them. -/
abbrev Unfolded (table : Table) : Descriptor → Descriptor → Prop := Throughout (Unfolding table)

/-- A name is written out, and names in what was put there may be written out in turn. -/
theorem Unfolded.ref {table : Table} {name : String} {d d' : Descriptor}
    (hget : table.get? name = some d) (h : Unfolded table d d') : Unfolded table (.ref name) d' :=
  .of_rule (.ref hget h)

/-- The descriptor is kept and its parts are unfolded, or it is a name that is written out. -/
theorem Unfolded.congruent_or_ref {table : Table} {d d' : Descriptor} (h : Unfolded table d d') :
    Congruent (Unfolded table) d d' ∨
      ∃ name e, d = .ref name ∧ table.get? name = some e ∧ Unfolded table e d' := by
  refine (h.congruent_or_rule (Unfolding.mono table)).imp_right ?_
  rintro ⟨hget, h⟩
  exact ⟨_, _, rfl, hget, h⟩

end Descriptor

namespace Table

open Descriptor (Unfolded Unfolding)

variable {table table' : Table}

/-! ### What stands in an unfolded descriptor -/

/-- What stands in an unfolded descriptor takes the place of what stands in the descriptor, or
is in order, as it stands in a definition. -/
theorem exists_part_of_unfolded (hs : table.Sound) (hnames : table.names ⊆ table'.names)
    {d d' : Descriptor} (h : Unfolded table d d') :
    ∀ p' ∈ d'.parts, ∃ p ∈ d.parts, table.InOrder p → table'.InOrder p' := by
  induction h with
  | same d => exact fun p' hp' => ⟨p', hp', fun hp => hp.of_names hnames⟩
  | @parts _ d _ h _ ih =>
    intro p' hp'
    rcases h.exists_part ih hp' with rfl | hpart
    · exact ⟨d, Descriptor.mem_parts_self d, fun hd => hd.of_congruent hnames h⟩
    · exact hpart
  | rule h _ ih =>
    intro p' hp'
    obtain ⟨hget, h⟩ := h
    obtain ⟨p, hp, hpp⟩ := ih _ _ h p' hp'
    obtain ⟨owner, hchecked⟩ := hs _ _ hget
    exact ⟨_, Descriptor.mem_parts_self _, fun _ =>
      hpp ((checkDescriptor_eq_ok_iff _).mp hchecked p hp)⟩

/-- **What stands in an unfolded descriptor is in order**, as all is in the descriptor and
in the table. -/
theorem inOrder_of_unfolded (hs : table.Sound) (hnames : table.names ⊆ table'.names)
    {d d' : Descriptor} (h : Unfolded table d d') (hd : ∀ p ∈ d.parts, table.InOrder p) :
    ∀ p ∈ d'.parts, table'.InOrder p := by
  intro p' hp'
  obtain ⟨p, hp, hpp⟩ := exists_part_of_unfolded hs hnames h p' hp'
  exact hpp (hd p hp)

/-! ### Chains of names -/

/-- What a name is written out of leads to it. -/
theorem leads_of_unfolded {name : String} {d d' : Descriptor} (h : Unfolded table d d')
    (hname : d' = .ref name) : Relation.ReflTransGen table.Leads d d' := by
  induction h with
  | same d => exact .refl
  | parts h _ _ =>
    subst hname
    cases h with
    | leaf hd => exact hd.elim
    | ref _ => exact .refl
  | rule h _ ih =>
    obtain ⟨hget, h⟩ := h
    exact .head (.ref hget) (ih _ _ h hname)

/-- A step of a chain in the table with names written out is a chain in the other. -/
theorem leads_of_aliases (h : table.Related (Unfolded table) table') {name next : String}
    (ha : table'.Aliases name next) : Relation.TransGen table.Leads (.ref name) (.ref next) := by
  have hrel := h.get? name
  rw [ha] at hrel
  generalize hname : table.get? name = x at hrel
  cases hrel with
  | some hd => exact .head' (.ref hname) (leads_of_unfolded hd rfl)

/-- Where no type leads back to itself, no chain is without end once names are written out. -/
theorem Productive.not_unending_aliases (hp : table.Productive)
    (h : table.Related (Unfolded table) table') (name : String) :
    ¬ Unending table'.Aliases name := by
  rw [unending_aliases_iff]
  rintro ⟨again, -, hcycle⟩
  have hlift : ∀ a b, table'.Aliases a b →
      Relation.TransGen table.Leads (.ref a) (.ref b) := fun a b => leads_of_aliases h
  exact hp again (Relation.TransGen.lift' Descriptor.ref hlift again again hcycle)

/-- **A table with names written out is accepted, too.** -/
theorem build_unfolded {definitions : List (String × Descriptor)}
    (ht : build definitions = .ok table) (hp : table.Productive)
    (h : table.Related (Unfolded table) table') : build table'.definitions = .ok table' := by
  have hs := build_sound ht
  obtain ⟨rfl, hn, hflawless⟩ := build_eq_ok_iff_flawless.mp ht
  refine build_eq_ok_iff_flawless.mpr ⟨rfl, ?_, fun x' hx' => ?_⟩
  · rw [h.keys]
    exact hn
  obtain ⟨x, hx, -, hdd⟩ := exists_left_of_mem h hx'
  have hnames := h.names_subset
  exact ⟨inOrder_of_unfolded hs hnames hdd (hflawless x hx).parts, hp.not_unending_aliases h x'.1⟩

/-- A descriptor with names written out is accepted, too. -/
theorem checkExternal_unfolded (hs : table.Sound) (h : table.Related (Unfolded table) table')
    {d d' : Descriptor} (hd : table.checkExternal d = .ok ()) (hdd : Unfolded table d d') :
    table'.checkExternal d' = .ok () := by
  have hparts := (checkDescriptor_eq_ok_iff d).mp hd
  exact (checkDescriptor_eq_ok_iff d').mpr (inOrder_of_unfolded hs h.names_subset hdd hparts)

end Table

end Wireform
