/-
# Wider types

A descriptor becomes wider when its unions get more members, in whatever order, its
enums more cases, its closed objects a descriptor for additional keys, and when parts
of it become wider. What was accepted is still accepted, though not always as the same
value: a union stops at its first member that accepts, and with other members before it
that may be another one.

The reason is that nothing is refused by a wider descriptor but by its parts. Where a
slot is accepted, no part of it is refused; so whichever member a wider union stops at,
the containers around go on. The limit on nesting may be raised at the same time.

Key definitions: `Descriptor.Wider`, `Descriptor.Rearranged`.
Key theorems: `Walk.not_mismatches_of_wider`, `Engine.convert_widened`.
-/
import Mathlib
import Wireform.Proofs.Table.Related
import Wireform.Proofs.Table.Resolve
import Wireform.Proofs.Walk.Refusals

namespace Wireform
namespace Descriptor

/-! ### Wider descriptors -/

/-- A union has, in any order, what may take the places of its members, and any others; an enum
has more cases; and a closed object gets a descriptor for additional keys. -/
inductive Widening (R : Descriptor → Descriptor → Prop) : Descriptor → Descriptor → Prop
  | union {members members'} (h : ∀ d ∈ members, ∃ d' ∈ members', R d d') :
    Widening R (.union members) (.union members')
  | enum {cases cases'} (h : cases ⊆ cases') : Widening R (.enum cases) (.enum cases')
  | object {properties properties'} (h : List.Forall₂ (Property.Related R) properties properties')
    (additional' : Additional Descriptor) :
    Widening R (.object properties .reject) (.object properties' additional')

theorem Widening.mono : Monotone Widening := by
  intro R S hRS _ _ h
  cases h with
  | union h => exact .union fun d hd => (h d hd).imp fun _ ⟨hd', hR⟩ => ⟨hd', hRS _ _ hR⟩
  | enum h => exact .enum h
  | object h additional' => exact .object (h.imp fun _ _ h => h.mono hRS) additional'

/-- The second descriptor is the first one with parts of it made wider. -/
abbrev Wider : Descriptor → Descriptor → Prop := Throughout Widening

/-! ### Members in other places -/

/-- Each member of either union is in the place of a member of the other. -/
inductive Rearrangement (R : Descriptor → Descriptor → Prop) : Descriptor → Descriptor → Prop
  | union {members members'} (h : ∀ d ∈ members, ∃ d' ∈ members', R d d')
    (h' : ∀ d' ∈ members', ∃ d ∈ members, R d d') :
    Rearrangement R (.union members) (.union members')

/-- The same descriptor, but for the places and the repetitions of union members. -/
abbrev Rearranged : Descriptor → Descriptor → Prop := Throughout Rearrangement

theorem Rearrangement.flip {R S : Descriptor → Descriptor → Prop} (hRS : ∀ d d', R d d' → S d' d)
    {d d' : Descriptor} (h : Rearrangement R d d') : Rearrangement S d' d := by
  cases h with
  | union h h' =>
    exact .union (fun d' hd' => (h' d' hd').imp fun _ ⟨hd, hR⟩ => ⟨hd, hRS _ _ hR⟩)
      fun d hd => (h d hd).imp fun _ ⟨hd', hR⟩ => ⟨hd', hRS _ _ hR⟩

theorem Rearranged.symm {d d' : Descriptor} (h : Rearranged d d') : Rearranged d' d :=
  Throughout.symm Rearrangement.flip h

/-- A rearranged descriptor is wider, and so is the one that it came from. -/
theorem Rearranged.wider {d d' : Descriptor} (h : Rearranged d d') : Wider d d' :=
  h.imp fun _ _ _ h => by
    obtain ⟨h, -⟩ := h
    exact .union h

/-- Members that are only moved or repeated are rearranged. -/
theorem Rearranged.of_subset {members members' : List Descriptor} (h : members ⊆ members')
    (h' : members' ⊆ members) : Rearranged (.union members) (.union members') :=
  .of_rule (.union (fun d hd => ⟨d, h hd, .same d⟩) fun d hd => ⟨d, h' hd, .same d⟩)

/-! ### Shapes that are kept -/

namespace Wider

variable {d' : Descriptor}

theorem ref_inv {name : String} (h : Wider (.ref name) d') : d' = .ref name := by
  rcases h.congruent_or_rule Widening.mono with h | h <;> cases h <;> rfl

theorem union_inv {members : List Descriptor} (h : Wider (.union members) d') :
    ∃ members', d' = .union members' ∧ ∀ d ∈ members, ∃ d' ∈ members', Wider d d' := by
  rcases h.congruent_or_rule Widening.mono with h | h
  · cases h with
    | leaf hd => exact hd.elim
    | union hmembers => exact ⟨_, rfl, fun _ => exists_right_of_mem hmembers⟩
  · cases h with
    | union hmembers => exact ⟨_, rfl, hmembers⟩

theorem array_inv {item : Descriptor} (h : Wider (.array item) d') :
    ∃ item', d' = .array item' ∧ Wider item item' := by
  rcases h.congruent_or_rule Widening.mono with h | h
  · cases h with
    | leaf hd => exact hd.elim
    | array hitem => exact ⟨_, rfl, hitem⟩
  · cases h

theorem object_inv {properties : List (Property Descriptor)} {additional : Additional Descriptor}
    (h : Wider (.object properties additional) d') :
    ∃ properties' additional', d' = .object properties' additional' ∧
      List.Forall₂ (Property.Related Wider) properties properties' ∧
      ∀ x, additional = .allow x → ∃ x', additional' = .allow x' ∧ Wider x x' := by
  rcases h.congruent_or_rule Widening.mono with h | h
  · cases h with
    | leaf hd => exact hd.elim
    | object hps hx => exact ⟨_, _, rfl, hps, fun _ => hx.exists_allow⟩
  · cases h with
    | object hps additional' => exact ⟨_, _, rfl, hps, fun _ hx => by cases hx⟩

/-- A wider leaf takes what the leaf takes. -/
theorem takes {d : Descriptor} {slot out : Slot} (h : Wider d d') (hd : Walk.IsLeaf d)
    (ht : Walk.Takes d slot out) : Walk.IsLeaf d' ∧ Walk.Takes d' slot out := by
  rcases h.congruent_or_rule Widening.mono with h | h
  · cases h with
    | leaf _ => exact ⟨hd, ht⟩
    | ref _ | union _ | array _ | object _ _ => exact hd.elim
  · cases h with
    | enum hsub =>
      cases ht with
      | enum hany =>
        obtain ⟨c, hc, hcase⟩ := List.any_eq_true.mp hany
        exact ⟨trivial, .enum (List.any_eq_true.mpr ⟨c, hsub hc, hcase⟩)⟩
    | union _ | object _ _ => exact hd.elim

end Wider
end Descriptor

/-! ### The walk -/

namespace Walk

open Descriptor

/-- **Where a slot is accepted, no wider descriptor refuses it**, however deep containers
may nest beyond the old limit. -/
theorem not_mismatches_of_wider {w w' : Walk} (hs : w.table.Sound)
    (ht : w.table.Related Wider w'.table) (hdirection : w'.direction = w.direction)
    (hmax : w.maxDepth ≤ w'.maxDepth) {d d' : Descriptor} {depth : Nat} {slot out : Slot}
    (hd : w.table.Checked d) (h : w.Accepts d depth slot out) (hwider : d.Wider d') (n : Nat) :
    ¬ w'.Mismatches n d' depth slot := by
  suffices ∀ d', d.Wider d' → ∀ n, ¬ w'.Mismatches n d' depth slot from this d' hwider n
  clear hwider n d'
  refine Accepts.induct hs
    (motive := fun d depth slot _ => ∀ d', d.Wider d' → ∀ n, ¬ w'.Mismatches n d' depth slot)
    ?leaf ?ref ?union ?array ?object hd h
  case leaf =>
    intro d depth slot out hd htakes d' hwider n
    obtain ⟨hd', htakes'⟩ := hwider.takes hd htakes
    exact (htakes'.accepts hd').not_mismatches
  case ref =>
    rintro name d depth slot out hget ih d' hwider (_ | n) hm
    · exact not_mismatches_zero hm
    · rw [hwider.ref_inv] at hm
      obtain ⟨e, hget', hde⟩ := ht.exists_get? hget
      exact ih e hde n (hm.ref hget')
  case union =>
    rintro before d after depth slot out - - ih d' hwider (_ | n) hm
    · exact not_mismatches_zero hm
    · obtain ⟨members', rfl, hmembers⟩ := hwider.union_inv
      obtain ⟨e, he, hde⟩ := hmembers d (by simp)
      exact ih e hde n (hm.union e he)
  case array =>
    rintro item depth vs outs hdepth ih d' hwider (_ | n) hm
    · exact not_mismatches_zero hm
    · obtain ⟨item', rfl, hitem⟩ := hwider.array_inv
      obtain ⟨v, hv, hm⟩ := hm.array (hdepth.trans_le hmax)
      obtain ⟨_, -, hv⟩ := exists_right_of_mem ih hv
      exact hv item' hitem n hm
  case object =>
    rintro properties additional depth input members hdepth hchecked ih d' hwider (_ | n) hm
    · exact not_mismatches_zero hm
    · obtain ⟨properties', additional', rfl, hprops, hadd⟩ := hwider.object_inv
      have hkeys := Property.map_inputKey_of_related hprops w.direction
      have hk : (properties'.map w'.direction.inputKey).Nodup := by
        rw [hdirection, hkeys]
        exact (hchecked.nodup w.direction).1
      rcases hm.object hk (hdepth.trans_le hmax) with ⟨p', hp', hm⟩ | ⟨m, hmem, hm⟩
      · obtain ⟨p, hp, hpp⟩ := exists_left_of_mem hprops hp'
        obtain ⟨s, hs⟩ := ih.property hp
        rw [hdirection, hpp.inputKey] at hm
        exact hs _ hpp.2.2 n hm
      · have hextras : m ∈ extras w.direction properties input := by
          rwa [extras, hdirection, hkeys] at hmem
        obtain ⟨x, v, hx, hs⟩ := ih.extra hextras
        obtain ⟨x', hx', hxx'⟩ := hadd x hx
        exact hs x' hxx' n (hm x' hx')

end Walk

/-! ### Conversions -/

namespace Engine

open Descriptor

/-- What converts by a type converts by a wider one, where every walk ends. -/
theorem exists_convert_of_wider {e e' : Engine} (hs : e.table.Sound)
    (ht : e.table.Related Wider e'.table) (hmax : e.maxDepth ≤ e'.maxDepth)
    (hp : e'.table.Productive) {v : Json} {root : String} {direction : Direction}
    (h : ∃ out, e.convert v root direction = .ok out) :
    ∃ out, e'.convert v root direction = .ok out := by
  obtain ⟨out, h⟩ := h
  obtain ⟨d, hd, hchecked, ha⟩ := accepts_of_convert hs h
  have hpair : (e.walk direction).table.Related Wider (e'.walk direction).table := ht
  refine exists_convert_of_not_mismatches hp fun n => ?_
  exact Walk.not_mismatches_of_wider hs hpair rfl hmax hchecked ha (.same _) n

/-- **Wider types accept more, and rearranged types the same**, where every conversion
ends. -/
theorem convert_widened {definitions definitions' : List (String × Descriptor)}
    {table table' : Table} (ht : Table.build definitions = .ok table)
    (ht' : Table.build definitions' = .ok table') (hp : table.Productive)
    (hp' : table'.Productive) (maxDepth : Nat) (v : Json) (root : String)
    (direction : Direction) :
    (table.Related Wider table' →
      (∃ out, (⟨table, maxDepth⟩ : Engine).convert v root direction = .ok out) →
        ∃ out, (⟨table', maxDepth⟩ : Engine).convert v root direction = .ok out) ∧
    (table.Related Rearranged table' →
      ((∃ out, (⟨table, maxDepth⟩ : Engine).convert v root direction = .ok out) ↔
        ∃ out, (⟨table', maxDepth⟩ : Engine).convert v root direction = .ok out)) := by
  let e : Engine := ⟨table, maxDepth⟩
  let e' : Engine := ⟨table', maxDepth⟩
  have hs : e.table.Sound := Table.build_sound ht
  have hs' : e'.table.Sound := Table.build_sound ht'
  refine ⟨fun hr => ?_, fun hr => ⟨?_, ?_⟩⟩
  · have hw : e.table.Related Wider e'.table := hr
    exact exists_convert_of_wider hs hw le_rfl hp'
  · have hw : e.table.Related Wider e'.table := hr.mono fun _ _ h => h.wider
    exact exists_convert_of_wider hs hw le_rfl hp'
  · have hw : e'.table.Related Wider e.table := hr.flip fun _ _ h => h.symm.wider
    exact exists_convert_of_wider hs' hw le_rfl hp

/-! ### Trees with marks -/

/-- Trees whose marks are of a union in which the type `Mark` may stand. -/
def trees (marks : List Descriptor) (additional : Additional Descriptor)
    (members : List Descriptor) : List (String × Descriptor) :=
  [("Tree", .object [⟨"kids", "children", .array (.ref "Tree")⟩, ⟨"at", "mark", .union marks⟩]
    additional), ("Mark", .union members)]

theorem productive_trees {marks members : List Descriptor} {additional : Additional Descriptor}
    (h : ∀ m ∈ members, Table.IsShape m) : Table.Productive ⟨trees marks additional members⟩ := by
  refine Table.productive_of_shapes (List.forall_mem_cons.mpr ⟨.inl trivial, ?_⟩)
  exact List.forall_mem_singleton.mpr (.inr ⟨members, rfl, h⟩)

/-- The number 1. -/
def one : Json := .number (.whole ⟨1, by decide, by decide⟩)

/-- A mark is 1, `null` or a date. -/
def marked : List (String × Descriptor) := trees [.enum [one], .ref "Mark"] .reject [.null, .date]

/-- There are more marks, some of them ahead of the old ones, and other keys. -/
def markedMore : List (String × Descriptor) :=
  trees [.primitive .string, .ref "Mark", .enum [.string "x", one], .ref "Mark"] (.allow .any)
    [.primitive .boolean, .date, .null]

/-- The same marks in another order, some of them twice. -/
def markedAgain : List (String × Descriptor) :=
  trees [.ref "Mark", .enum [one], .ref "Mark"] .reject [.date, .null, .date]

theorem wider_marked : Table.Related Wider ⟨marked⟩ ⟨markedMore⟩ := by
  have henum : Wider (.enum [one]) (.enum [.string "x", one]) := .of_rule (.enum (by simp))
  have hmarks : Wider (.union [.enum [one], .ref "Mark"])
      (.union [.primitive .string, .ref "Mark", .enum [.string "x", one], .ref "Mark"]) :=
    .of_rule (.union (List.forall_mem_cons.mpr ⟨⟨_, by simp, henum⟩,
      List.forall_mem_singleton.mpr ⟨.ref "Mark", by simp, .same _⟩⟩))
  have hmembers : Wider (.union [.null, .date]) (.union [.primitive .boolean, .date, .null]) :=
    .of_rule (.union (List.forall_mem_cons.mpr ⟨⟨.null, by simp, .same _⟩,
      List.forall_mem_singleton.mpr ⟨.date, by simp, .same _⟩⟩))
  refine .cons ⟨rfl, .of_rule (.object ?_ _)⟩ (.cons ⟨rfl, hmembers⟩ .nil)
  exact .cons (.refl .same _) (.cons ⟨rfl, rfl, hmarks⟩ .nil)

theorem rearranged_marked : Table.Related Rearranged ⟨marked⟩ ⟨markedAgain⟩ := by
  have hmarks : Rearranged (.union [.enum [one], .ref "Mark"])
      (.union [.ref "Mark", .enum [one], .ref "Mark"]) := .of_subset (by simp) (by simp)
  have hmembers : Rearranged (.union [.null, .date]) (.union [.date, .null, .date]) :=
    .of_subset (by simp) (by simp)
  refine .cons ⟨rfl, .of_congruent (.object ?_ .reject)⟩ (.cons ⟨rfl, hmembers⟩ .nil)
  exact .cons (.refl .same _) (.cons ⟨rfl, rfl, hmarks⟩ .nil)

/-- The day is written out by the narrow type alone; what is accepted is the same. -/
theorem convert_widened_marks :
    let tree (day : String) : Json := .object [("kids", .array [.object
      [("kids", .array []), ("at", .string day)]]), ("at", one)]
    let out : Json := .object [("children", .array [.object [("children", .array []),
      ("mark", .string "2024-02-29T00:00:00.000Z")]]), ("mark", one)]
    (⟨⟨marked⟩, 4⟩ : Engine).convert (tree "2024-02-29") "Tree" .decode = .ok out ∧
      (⟨⟨markedMore⟩, 4⟩ : Engine).convert (tree "2024-02-29") "Tree" .decode ≠ .ok out ∧
      (∃ out, (⟨⟨markedMore⟩, 4⟩ : Engine).convert (tree "2024-02-29") "Tree" .decode = .ok out) ∧
      (∃ out, (⟨⟨markedAgain⟩, 4⟩ : Engine).convert (tree "2024-02-29") "Tree" .decode = .ok out) ∧
      ¬ ∃ out, (⟨⟨markedAgain⟩, 4⟩ : Engine).convert (tree "x") "Tree" .decode = .ok out := by
  intro tree out
  have hbuild : Table.build marked = .ok ⟨marked⟩ := rfl
  have hmore : Table.build markedMore = .ok ⟨markedMore⟩ := rfl
  have hagain : Table.build markedAgain = .ok ⟨markedAgain⟩ := rfl
  have hp : Table.Productive ⟨marked⟩ := productive_trees (by simp)
  have hpmore : Table.Productive ⟨markedMore⟩ := productive_trees (by simp)
  have hpagain : Table.Productive ⟨markedAgain⟩ := productive_trees (by simp)
  have hday : (⟨⟨marked⟩, 4⟩ : Engine).convert (tree "2024-02-29") "Tree" .decode = .ok out := by
    cbv
  have hother : (⟨⟨markedMore⟩, 4⟩ : Engine).convert (tree "2024-02-29") "Tree" .decode =
      .ok (.object [("children", .array [.object [("children", .array []),
        ("mark", .string "2024-02-29")]]), ("mark", one)]) := by cbv
  have hx : ∃ m, (⟨⟨marked⟩, 4⟩ : Engine).convert (tree "x") "Tree" .decode =
      .error (.mismatch m) := ⟨_, by cbv⟩
  have hwidened := convert_widened hbuild hmore hp hpmore 4 (tree "2024-02-29") "Tree" .decode
  have hmoved (day : String) :=
    (convert_widened hbuild hagain hp hpagain 4 (tree day) "Tree" .decode).2 rearranged_marked
  refine ⟨hday, ?_, hwidened.1 wider_marked ⟨_, hday⟩, (hmoved _).mp ⟨_, hday⟩, fun hok => ?_⟩
  · rw [hother]
    simp [out]
  · obtain ⟨_, hok⟩ := (hmoved _).mpr hok
    obtain ⟨m, hm⟩ := hx
    rw [hm] at hok
    cases hok

end Engine
end Wireform
