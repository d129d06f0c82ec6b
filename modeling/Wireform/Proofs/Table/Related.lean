/-
# Tables that correspond

Two tables with the same names in the same order, where what one defines under a name
is related to what the other defines under it (`Table.Related`). Such tables are looked
up alike. If related descriptors also mirror each other where they lead
(`Table.Mirrors`), then types that lead back to themselves do so in both; and if they are in
order together, both tables are accepted (`Table.build_of_related`).

Key definitions: `Table.Related`, `Table.Mirrors`.
Key theorems: `Table.Related.get?`, `Table.Productive.of_leads`, `Table.build_of_related`.
-/
import Wireform.Proofs.Descriptor.Related
import Wireform.Proofs.Table.Faults
import Wireform.Proofs.Walk.Ends

namespace Wireform

namespace Descriptor

/-! ### The parts of related descriptors

Where what stands in one of two related descriptors has a counterpart that stands in the other,
so has what stands in descriptors with related parts. -/

section Parts

variable {R S : Descriptor → Descriptor → Prop}
  (hR : ∀ e e', R e e' → ∀ p' ∈ e'.parts, ∃ p ∈ e.parts, S p p') {p' : Descriptor}

include hR

theorem exists_part_of_additional {x x' : Additional Descriptor} (h : Additional.Related R x x')
    (hp' : p' ∈ partsOfAdditional x') : ∃ p ∈ partsOfAdditional x, S p p' := by
  cases h with
  | reject => exact (List.not_mem_nil hp').elim
  | allow h => exact hR _ _ h p' hp'

theorem exists_part_of_object {properties properties' : List (Property Descriptor)}
    {additional additional' : Additional Descriptor}
    (hp : ∀ q' ∈ properties', ∃ q ∈ properties, Property.Related R q q')
    (hx : Additional.Related R additional additional')
    (hp' : p' ∈ (object properties' additional').parts) :
    p' = object properties' additional' ∨ ∃ p ∈ (object properties additional).parts, S p p' := by
  rcases List.mem_cons.mp hp' with rfl | hp'
  · exact .inl rfl
  refine .inr ?_
  rcases List.mem_append.mp hp' with hp' | hp'
  · obtain ⟨q', hq', hp'⟩ := mem_partsOfProperties_iff.mp hp'
    obtain ⟨q, hq, hqq⟩ := hp q' hq'
    obtain ⟨p, hp, hpp⟩ := hR _ _ hqq.2.2 p' hp'
    have hparts := mem_partsOfProperties_iff.mpr ⟨q, hq, hp⟩
    exact ⟨p, List.mem_cons_of_mem _ (List.mem_append_left _ hparts), hpp⟩
  · obtain ⟨p, hp, hpp⟩ := exists_part_of_additional hR hx hp'
    exact ⟨p, List.mem_cons_of_mem _ (List.mem_append_right _ hp), hpp⟩

/-- What stands in a descriptor with related parts has a counterpart, the descriptor itself
aside. -/
theorem Congruent.exists_part {d d' : Descriptor} (h : Congruent R d d') (hp' : p' ∈ d'.parts) :
    p' = d' ∨ ∃ p ∈ d.parts, S p p' := by
  cases h with
  | @leaf d hd =>
    cases d with
    | ref _ | union _ | array _ | object _ _ => exact hd.elim
    | _ => exact .inl (List.mem_singleton.mp hp')
  | ref name => exact .inl (List.mem_singleton.mp hp')
  | union h =>
    rcases List.mem_cons.mp hp' with rfl | hp'
    · exact .inl rfl
    obtain ⟨e', he', hp'⟩ := mem_partsOfMembers_iff.mp hp'
    obtain ⟨e, he, hee⟩ := exists_left_of_mem h he'
    obtain ⟨p, hp, hpp⟩ := hR e e' hee p' hp'
    exact .inr ⟨p, List.mem_cons_of_mem _ (parts_subset_of_member he hp), hpp⟩
  | array h =>
    rcases List.mem_cons.mp hp' with rfl | hp'
    · exact .inl rfl
    obtain ⟨p, hp, hpp⟩ := hR _ _ h p' hp'
    exact .inr ⟨p, List.mem_cons_of_mem _ hp, hpp⟩
  | object hp hx => exact exists_part_of_object hR (fun _ => exists_left_of_mem hp) hx hp'

end Parts

end Descriptor

namespace Table

/-- What is in order is so with other parts in the places of its own. -/
theorem InOrder.of_congruent {R : Descriptor → Descriptor → Prop} {table table' : Table}
    {d d' : Descriptor} (hnames : table.names ⊆ table'.names) (h : Descriptor.Congruent R d d')
    (hd : table.InOrder d) : table'.InOrder d' := by
  cases h with
  | leaf _ => exact hd.of_names hnames
  | ref name => exact hd.of_names hnames
  | union _ | array _ => trivial
  | object hp _ =>
    have hwire := Property.map_inputKey_of_related hp .decode
    have htyped := Property.map_inputKey_of_related hp .encode
    exact ⟨hwire ▸ hd.1, htyped ▸ hd.2⟩

/-- The tables define the same names in the same order, as related descriptors. -/
def Related (R : Descriptor → Descriptor → Prop) (table table' : Table) : Prop :=
  List.Forall₂ (fun a b => b.1 = a.1 ∧ R a.2 b.2) table.definitions table'.definitions

section Related

variable {R S : Descriptor → Descriptor → Prop} {table table' : Table}

theorem Related.refl (hR : ∀ d, R d d) (table : Table) : Related R table table :=
  List.forall₂_same.mpr fun e _ => ⟨rfl, hR e.2⟩

theorem Related.mono (hRS : ∀ d d', R d d' → S d d') (h : Related R table table') :
    Related S table table' :=
  List.Forall₂.imp (fun _ _ hab => ⟨hab.1, hRS _ _ hab.2⟩) h

theorem Related.flip (hRS : ∀ d d', R d d' → S d' d) (h : Related R table table') :
    Related S table' table :=
  List.Forall₂.flip (h.imp fun _ _ hab => ⟨hab.1.symm, hRS _ _ hab.2⟩)

theorem Related.keys (h : Related R table table') :
    Keyed.keys table'.definitions = Keyed.keys table.definitions := keys_eq_of_forall₂ h

theorem Related.names_subset (h : Related R table table') : table.names ⊆ table'.names := by
  intro name hname
  rwa [names, h.keys]

theorem Related.get? (h : Related R table table') (name : String) :
    Option.Rel R (table.get? name) (table'.get? name) := Keyed.rel_lookup_of_forall₂ h name

theorem Related.exists_get? (h : Related R table table') {name : String} {d : Descriptor}
    (hd : table.get? name = some d) : ∃ d', table'.get? name = some d' ∧ R d d' := by
  have hrel := h.get? name
  rw [hd] at hrel
  cases hname : table'.get? name with
  | none =>
    rw [hname] at hrel
    cases hrel
  | some d' =>
    rw [hname] at hrel
    cases hrel with
    | some hdd' => exact ⟨d', rfl, hdd'⟩

end Related

/-! ### Where related descriptors lead -/

/-- Where the second of two related descriptors leads, the first leads too, and names are
related to themselves alone. -/
structure Mirrors (R : Descriptor → Descriptor → Prop) (table table' : Table) : Prop where
  leads : ∀ {d d' e'}, R d d' → table'.Leads d' e' → ∃ e, table.Leads d e ∧ R e e'
  name : ∀ {d name}, R d (.ref name) → d = .ref name

variable {R : Descriptor → Descriptor → Prop} {table table' : Table}

/-- Where one step of the second table is some steps of the first, so is a path. -/
theorem transGen_of_leads
    (hleads : ∀ {d d' e'}, R d d' → table'.Leads d' e' →
      ∃ e, Relation.TransGen table.Leads d e ∧ R e e')
    {d d' e' : Descriptor} (hd : R d d') (hpath : Relation.TransGen table'.Leads d' e') :
    ∃ e, Relation.TransGen table.Leads d e ∧ R e e' := by
  induction hpath with
  | single hlead => exact hleads hd hlead
  | tail _ hlead ih =>
    obtain ⟨b, hdb, hb⟩ := ih
    obtain ⟨e, hbe, he⟩ := hleads hb hlead
    exact ⟨e, hdb.trans hbe, he⟩

/-- **A table each step of which is some steps of a productive one is productive.** -/
theorem Productive.of_leads (hp : table.Productive)
    (hleads : ∀ {d d' e'}, R d d' → table'.Leads d' e' →
      ∃ e, Relation.TransGen table.Leads d e ∧ R e e')
    (hname : ∀ {d name}, R d (.ref name) → d = .ref name)
    (hrefl : ∀ name, R (.ref name) (.ref name)) : table'.Productive := by
  intro name hcycle
  obtain ⟨e, hpath, he⟩ := transGen_of_leads hleads (hrefl name) hcycle
  rw [hname he] at hpath
  exact hp name hpath

/-- A table that a productive one mirrors is productive. -/
theorem Productive.of_mirrors (hp : table.Productive) (h : Mirrors R table table')
    (hrefl : ∀ name, R (.ref name) (.ref name)) : table'.Productive := by
  refine hp.of_leads (fun hd hlead => ?_) h.name hrefl
  obtain ⟨e, he, hee⟩ := h.leads hd hlead
  exact ⟨e, .single he, hee⟩

/-! ### Accepted tables -/

/-- **What corresponds to an accepted table is accepted**, if descriptors related to those in
order are in order and names are related to themselves alone. -/
theorem build_of_related {definitions : List (String × Descriptor)}
    (ht : build definitions = .ok table) (h : table.Related R table')
    (hparts : ∀ {d d'}, R d d' → (∀ p ∈ d.parts, table.InOrder p) →
      ∀ p ∈ d'.parts, table'.InOrder p)
    (hname : ∀ {d name}, R d (.ref name) → d = .ref name) :
    build table'.definitions = .ok table' := by
  obtain ⟨rfl, hn, hflawless⟩ := build_eq_ok_iff_flawless.mp ht
  refine build_eq_ok_iff_flawless.mpr ⟨rfl, ?_, fun x' hx' => ?_⟩
  · rw [h.keys]
    exact hn
  have haliases : ∀ {name next : String}, table'.Aliases name next →
      (Table.mk definitions).Aliases name next := by
    intro name next ha
    have hrel := h.get? name
    rw [ha] at hrel
    generalize hd : get? ⟨definitions⟩ name = d at hrel
    cases hrel with
    | some hdd => rw [Aliases, hd, hname hdd]
  obtain ⟨x, hx, hkey, hdd⟩ := exists_left_of_mem h hx'
  refine ⟨hparts hdd (hflawless x hx).parts, fun hunending => (hflawless x hx).ends ?_⟩
  obtain ⟨f, hf, hstep⟩ := hunending
  exact ⟨f, hf.trans hkey, fun i => haliases (hstep i)⟩

end Table
end Wireform
