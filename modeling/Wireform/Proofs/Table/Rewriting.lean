/-
# Rewriting tables

A rule may be applied anywhere in one definition of a table (`Table.Rewrites`); the result
corresponds to the table. What is simplified in an accepted table is accepted: names and
object shapes go or move, but none is new (`Table.build_simplified`). And its types lead
nowhere else: a member of a union in a union was led to before, by one step more
(`Table.Productive.of_simplified`).

Key definitions: `Table.Rewrites`.
Key theorems: `Table.build_simplified`, `Table.Productive.of_simplified`.
-/
import Wireform.Proofs.Descriptor.Rewriting
import Wireform.Proofs.Table.Related

namespace Wireform
namespace Table

open Descriptor (Within Simplification Toggle)

/-- One table is the other with a rule applied once, somewhere in a definition. -/
inductive Rewrites (Rule : Descriptor → Descriptor → Prop) : Table → Table → Prop
  | intro {before name d d' after} (h : Within Rule d d') :
    Rewrites Rule ⟨before ++ (name, d) :: after⟩ ⟨before ++ (name, d') :: after⟩

variable {Rule Rule' : Descriptor → Descriptor → Prop} {table table' : Table}

theorem Rewrites.mono (hrule : ∀ d d', Rule d d' → Rule' d d') (h : Rewrites Rule table table') :
    Rewrites Rule' table table' := by
  cases h with
  | intro h => exact .intro (h.mono hrule)

theorem Rewrites.related (h : Rewrites Rule table table') :
    table.Related (Relation.ReflGen (Within Rule)) table' := by
  cases h with
  | intro h => exact forall₂_replace (fun _ => ⟨rfl, .refl⟩) ⟨rfl, .single h⟩ _ _

/-! ### What is simplified is in order -/

theorem checked_of_toggle {owner : String} {d d' : Descriptor} (h : Toggle d d')
    (hd : table.checkDescriptor owner d = .ok ()) : table.checkDescriptor owner d' = .ok () := by
  cases h with
  | allow | reject => exact hd

theorem checked_of_simplification {owner : String} {d d' : Descriptor} (h : Simplification d d')
    (hd : table.checkDescriptor owner d = .ok ()) : table.checkDescriptor owner d' = .ok () := by
  cases h with
  | splice =>
    rw [checkDescriptor, checkMembers_eq_ok_iff] at hd ⊢
    intro m hm
    simp only [List.mem_append, or_assoc] at hm
    rcases hm with hm | hm | hm
    · exact hd m (List.mem_append_left _ hm)
    · have hinner := hd _ (List.mem_append_right _ List.mem_cons_self)
      rw [checkDescriptor, checkMembers_eq_ok_iff] at hinner
      exact hinner m hm
    · exact hd m (List.mem_append_right _ (List.mem_cons_of_mem _ hm))
  | never | literal | repeated _ _ =>
    rw [checkDescriptor, checkMembers_eq_ok_iff] at hd ⊢
    intro m hm
    rcases List.mem_append.mp hm with hm | hm
    · exact hd m (List.mem_append_left _ hm)
    · exact hd m (List.mem_append_right _ (List.mem_cons_of_mem _ hm))
  | toggle h => exact checked_of_toggle h hd

/-- A rule that keeps checked descriptors checked does so wherever it is applied. -/
theorem checked_of_within {owner : String} (hrule : ∀ {d d'}, Rule d d' →
      table.checkDescriptor owner d = .ok () → table.checkDescriptor owner d' = .ok ())
    {d d' : Descriptor} (h : Within Rule d d') (hd : table.checkDescriptor owner d = .ok ()) :
    table.checkDescriptor owner d' = .ok () := by
  induction h with
  | here h => exact hrule h hd
  | member _ ih =>
    rw [checkDescriptor, checkMembers_eq_ok_iff, List.forall_mem_append,
      List.forall_mem_cons] at hd ⊢
    exact ⟨hd.1, ih hd.2.1, hd.2.2⟩
  | item _ ih =>
    rw [checkDescriptor] at hd ⊢
    exact ih hd
  | property _ ih =>
    rw [checkObject_eq_ok_iff, checkProperties_eq_ok_iff, List.forall_mem_append,
      List.forall_mem_cons] at hd ⊢
    obtain ⟨hwire, htyped, ⟨hbefore, hd, hafter⟩, hadditional⟩ := hd
    refine ⟨?_, ?_, ⟨hbefore, ih hd, hafter⟩, hadditional⟩
    · rwa [List.map_append] at hwire ⊢
    · rwa [List.map_append] at htyped ⊢
  | additional _ ih =>
    rw [checkObject_eq_ok_iff, checkAdditional] at hd ⊢
    exact ⟨hd.1, hd.2.1, hd.2.2.1, ih hd.2.2.2⟩

/-- A simplified descriptor is in order in a table that knows no fewer names. -/
theorem inOrder_of_simplified (hnames : table.names ⊆ table'.names) {d d' : Descriptor}
    (h : Relation.ReflGen (Within Simplification) d d') (hd : ∀ p ∈ d.parts, table.InOrder p) :
    ∀ p ∈ d'.parts, table'.InOrder p := by
  have hchecked : table.checkDescriptor "" d' = .ok () := by
    have hself : table.checkDescriptor "" d = .ok () := (checkDescriptor_eq_ok_iff d).mpr hd
    cases h with
    | refl => exact hself
    | single h => exact checked_of_within checked_of_simplification h hself
  intro p hp
  exact ((checkDescriptor_eq_ok_iff d').mp hchecked p hp).of_names hnames

/-- A simplified descriptor is a name only if it was that name. -/
theorem eq_ref_of_simplified {d : Descriptor} {name : String}
    (h : Relation.ReflGen (Within Simplification) d (.ref name)) : d = .ref name := by
  cases h with
  | refl => rfl
  | single h =>
    cases h with
    | here h =>
      rcases h.shape with ⟨_, he⟩ | ⟨_, _, he⟩
      · cases he
      · cases he

/-! ### Where simplified types lead -/

/-- Where a simplified union leads, the union led before, in a step or two. -/
theorem leads_of_simplification {d d' e : Descriptor} (hd : Simplification d d')
    (hlead : table'.Leads d' e) : Relation.TransGen table.Leads d e := by
  cases hd with
  | splice =>
    cases hlead with
    | member hmem =>
      simp only [List.mem_append, or_assoc] at hmem
      rcases hmem with hmem | hmem | hmem
      · exact .single (.member (List.mem_append_left _ hmem))
      · -- what stood in the inner union is a step further away
        refine .head (.member (List.mem_append_right _ List.mem_cons_self)) (.single ?_)
        exact .member hmem
      · exact .single (.member (List.mem_append_right _ (List.mem_cons_of_mem _ hmem)))
  | never | literal | repeated _ _ =>
    cases hlead with
    | member hmem =>
      rcases List.mem_append.mp hmem with hmem | hmem
      · exact .single (.member (List.mem_append_left _ hmem))
      · exact .single (.member (List.mem_append_right _ (List.mem_cons_of_mem _ hmem)))
  | toggle hd =>
    cases hd with
    | allow | reject => cases hlead

section Simplified

variable (h : table.Related (Relation.ReflGen (Within Simplification)) table')

include h

/-- **What is simplified in an accepted table is accepted.** -/
theorem build_simplified {definitions : List (String × Descriptor)}
    (ht : build definitions = .ok table) : build table'.definitions = .ok table' :=
  build_of_related ht h (inOrder_of_simplified h.names_subset) eq_ref_of_simplified

theorem leads_of_simplified {d d' e' : Descriptor}
    (hd : Relation.ReflGen (Within Simplification) d d') (hlead : table'.Leads d' e') :
    ∃ e, Relation.TransGen table.Leads d e ∧ Relation.ReflGen (Within Simplification) e e' := by
  have hcases : Simplification d d' ∨
      Descriptor.Congruent (Relation.ReflGen (Within Simplification)) d d' := by
    cases hd with
    | refl => exact .inr (.refl (fun _ => .refl) d)
    | single hd => exact hd.rule_or_congruent
  rcases hcases with hrule | hparts
  · exact ⟨e', leads_of_simplification hrule hlead, .refl⟩
  cases hlead with
  | @ref name _ hget =>
    cases hparts with
    | leaf hleaf => exact hleaf.elim
    | ref _ =>
      have hrel := h.get? name
      rw [hget] at hrel
      generalize he : table.get? name = e at hrel
      cases hrel with
      | some hee => exact ⟨_, .single (.ref he), hee⟩
  | member hmem =>
    cases hparts with
    | leaf hleaf => exact hleaf.elim
    | union hmembers =>
      obtain ⟨e, he, hee⟩ := exists_left_of_mem hmembers hmem
      exact ⟨e, .single (.member he), hee⟩

/-- **The types of a productive table are so still when they are simplified.** -/
theorem Productive.of_simplified (hp : table.Productive) : table'.Productive :=
  hp.of_leads (leads_of_simplified h) eq_ref_of_simplified fun _ => .refl

end Simplified

end Table
end Wireform
