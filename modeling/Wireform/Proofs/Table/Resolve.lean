/-
# Resolving types

A type is resolved by following names and turning to the members of unions until a
descriptor comes that is neither (`Table.Resolves`). A walk does the same with a slot,
without entering it (`Walk.Stays`), so where some type does not resolve, a walk may go on
for ever at one level of a document.

When a table is built, only definitions that are directly a name are followed. That is
enough for names alone, but a type may also lead back to itself through a member of a
union, and such a table is built all the same (`Table.not_productive_loop`). It is the
one way in which types fail to resolve (`Table.productive_tfae`).

Key definitions: `Table.Resolves`, `Walk.Stays`.
Key theorems: `Table.Resolves.not_unending`, `Table.resolves_of_not_unending`,
`Walk.unending_stays_iff`, `Table.productive_tfae`.
-/
import Wireform.Proofs.Table.Chain
import Wireform.Proofs.Walk.Ends
import Mathlib.Data.List.TFAE
import Mathlib.Tactic.TFAE

namespace Wireform

namespace Table

/-- Every way of following names and turning to members comes to a descriptor that is
neither a name nor a union. -/
inductive Resolves (table : Table) : Descriptor → Prop
  | here {d} (hname : ∀ name, d ≠ .ref name) (hunion : ∀ members, d ≠ .union members) :
    Resolves table d
  | ref {name d} (hd : table.get? name = some d) (h : Resolves table d) : Resolves table (.ref name)
  | union {members} (h : ∀ d ∈ members, Resolves table d) : Resolves table (.union members)

variable {table : Table}

/-- What resolves leads nowhere for ever. -/
theorem Resolves.not_unending {d : Descriptor} (h : table.Resolves d) :
    ¬ Unending table.Leads d := by
  induction h with
  | here hname hunion =>
    intro hd
    obtain ⟨b, hlead, -⟩ := hd.exists_next
    cases hlead with
    | ref _ => exact hname _ rfl
    | member _ => exact hunion _ rfl
  | ref hd _ ih =>
    intro hname
    obtain ⟨b, hlead, hb⟩ := hname.exists_next
    cases hlead with
    | ref hget =>
      rw [hd] at hget
      cases hget
      exact ih hb
  | union _ ih =>
    intro hunion
    obtain ⟨b, hlead, hb⟩ := hunion.exists_next
    cases hlead with
    | member hmem => exact ih b hmem hb

/-- A checked descriptor that does not resolve leads to another. -/
theorem exists_leads_of_not_resolves (hs : table.Sound) {d : Descriptor}
    (hd : table.Checked d) (h : ¬ table.Resolves d) :
    ∃ b, (table.Checked b ∧ ¬ table.Resolves b) ∧ table.Leads d b := by
  by_contra hnone
  have hresolves : ∀ b, table.Opens d b → table.Leads d b → table.Resolves b := by
    intro b hopens hlead
    by_contra hb
    exact hnone ⟨b, ⟨hd.opens hs hopens, hb⟩, hlead⟩
  refine h ?_
  cases d with
  | ref name =>
    obtain ⟨b, hget⟩ := Option.isSome_iff_exists.mp (isSome_get?_iff.mpr hd.mem_names)
    exact .ref hget (hresolves b (.ref hget) (.ref hget))
  | union members => exact .union fun b hb => hresolves b (.member hb) (.member hb)
  | any | null | never | undefined | date | primitive _ | literal _ | enum _ | array _
  | object _ _ => exact .here nofun nofun

theorem resolves_of_not_unending (hs : table.Sound) {d : Descriptor} (hd : table.Checked d)
    (h : ¬ Unending table.Leads d) : table.Resolves d := by
  by_contra hnot
  exact h (unending_of_step (fun b hb => exists_leads_of_not_resolves hs hb.1 hb.2) ⟨hd, hnot⟩)

theorem Leads.opens {a b : Descriptor} (h : table.Leads a b) : table.Opens a b := by
  cases h with
  | ref hd => exact .ref hd
  | member hd => exact .member hd

/-- A descriptor leads somewhere for ever if and only if it leads into a cycle. -/
theorem unending_leads_iff {d : Descriptor} : Unending table.Leads d ↔
    ∃ b, Relation.ReflTransGen table.Leads d b ∧ Relation.TransGen table.Leads b b := by
  classical
  refine unending_iff_exists_cycle (S := (table.catalog d).toFinset) fun x _ hx _ => ?_
  have hreaches : table.Reaches d x := hx.lift id fun _ _ h => Leads.opens h
  exact List.mem_toFinset.mpr hreaches.mem_catalog

theorem Productive.not_unending (h : table.Productive) (d : Descriptor) :
    ¬ Unending table.Leads d := by
  rw [unending_leads_iff]
  rintro ⟨b, -, hb⟩
  exact h.acyclic b hb

/-- **A table whose types resolve is productive.** -/
theorem productive_of_resolves (h : ∀ name ∈ table.names, table.Resolves (.ref name)) :
    table.Productive := by
  intro name hname
  obtain ⟨b, hlead, -⟩ := Relation.TransGen.head'_iff.mp hname
  cases hlead with
  | ref hd => exact (h name (mem_names_of_get? hd)).not_unending (unending_of_cycle .refl hname)

/-- Neither a name nor a union. -/
@[simp] def IsShape : Descriptor → Prop
  | .ref _ | .union _ => False
  | _ => True

theorem IsShape.resolves {d : Descriptor} (h : IsShape d) : table.Resolves d := by
  cases d with
  | ref _ | union _ => exact h.elim
  | any | null | never | undefined | date | primitive _ | literal _ | enum _ | array _
  | object _ _ => exact .here nofun nofun

/-- A table that defines shapes and unions of shapes is productive. -/
theorem productive_of_shapes
    (h : ∀ e ∈ table.definitions, IsShape e.2 ∨ ∃ ms, e.2 = .union ms ∧ ∀ m ∈ ms, IsShape m) :
    table.Productive := by
  refine productive_of_resolves fun name hname => ?_
  obtain ⟨d, hd⟩ := Option.isSome_iff_exists.mp (isSome_get?_iff.mpr hname)
  refine .ref hd ?_
  rcases h _ (Keyed.mem_of_lookup hd) with hshape | ⟨ms, hms, hshapes⟩
  · exact hshape.resolves
  · have hunion : d = .union ms := hms
    rw [hunion]
    exact .union fun m hm => (hshapes m hm).resolves

/-- A name that leads back to itself stands for another such name, unless a union does. -/
theorem exists_alias_of_cycle
    (h : ∀ members, ¬ Relation.TransGen table.Leads (.union members) (.union members))
    {name : String} (hname : Relation.TransGen table.Leads (.ref name) (.ref name)) :
    ∃ next, Relation.TransGen table.Leads (.ref next) (.ref next) ∧ table.Aliases name next := by
  obtain ⟨d, hlead, hback⟩ := Relation.TransGen.head'_iff.mp hname
  have hcycle : Relation.TransGen table.Leads d d := Relation.TransGen.tail' hback hlead
  cases hlead with
  | ref hd =>
    obtain ⟨_, hlead, -⟩ := Relation.TransGen.head'_iff.mp hcycle
    cases hlead with
    | ref _ => exact ⟨_, hcycle, hd⟩
    | member _ => exact (h _ hcycle).elim

end Table

/-! ### Staying at one level -/

namespace Walk

/-- A turn of a walk that enters neither an array nor an object. -/
def Stays (table : Table) (p q : Place) : Prop := Calls table p q ∧ q.depth = p.depth

theorem Stays.leads {table : Table} {p q : Place} (h : Stays table p q) :
    table.Leads p.descriptor q.descriptor := by
  obtain ⟨hcall, hdepth⟩ := h
  cases hcall with
  | ref hd => exact .ref hd
  | member hd => exact .member hd
  | item _ => exact (Nat.succ_ne_self _ hdepth).elim
  | property _ => exact (Nat.succ_ne_self _ hdepth).elim
  | extra _ => exact (Nat.succ_ne_self _ hdepth).elim

theorem stays_of_leads {table : Table} {a b : Descriptor} (h : table.Leads a b) (depth : ℕ)
    (slot : Slot) : Stays table ⟨a, depth, slot⟩ ⟨b, depth, slot⟩ := by
  cases h with
  | ref hd => exact ⟨.ref hd, rfl⟩
  | member hd => exact ⟨.member hd, rfl⟩

/-- What a walk does at one level depends on the descriptor alone. -/
theorem unending_stays_iff {table : Table} {p : Place} :
    Unending (Stays table) p ↔ Unending table.Leads p.descriptor := by
  constructor
  · rintro ⟨f, rfl, hf⟩
    exact ⟨fun i => (f i).descriptor, rfl, fun i => (hf i).leads⟩
  · rintro ⟨f, hf0, hf⟩
    have hp : (⟨f 0, p.depth, p.slot⟩ : Place) = p := by rw [hf0]
    exact ⟨fun i => ⟨f i, p.depth, p.slot⟩, hp, fun i => stays_of_leads (hf i) p.depth p.slot⟩

end Walk

namespace Table

/-- **The types of a table that was built resolve if and only if no union leads back to
itself**, and just then no walk stays at one level of a document for ever. -/
theorem productive_tfae {definitions : List (String × Descriptor)} {table : Table}
    (ht : build definitions = .ok table) :
    List.TFAE [
      ∀ members, ¬ Relation.TransGen table.Leads (.union members) (.union members),
      table.Productive,
      ∀ name ∈ table.names, table.Resolves (.ref name),
      ∀ p : Walk.Place, ¬ Unending (Walk.Stays table) p] := by
  tfae_have 1 → 2 := by
    intro hunions name hname
    exact not_unending_of_build ht name
      (unending_of_step (fun _ h => exists_alias_of_cycle hunions h) hname)
  tfae_have 2 → 3 := by
    intro hp name hname
    obtain ⟨d, hd⟩ := Option.isSome_iff_exists.mp (isSome_get?_iff.mpr hname)
    exact resolves_of_not_unending (build_sound ht) ((build_sound ht).checked_ref hd .refl)
      (hp.not_unending _)
  tfae_have 3 → 2 := productive_of_resolves
  tfae_have 2 → 4 := by
    intro hp p
    rw [Walk.unending_stays_iff]
    exact hp.not_unending p.descriptor
  tfae_have 4 → 1 := by
    intro hstays members hmembers
    refine hstays ⟨.union members, 0, none⟩ ?_
    rw [Walk.unending_stays_iff]
    exact unending_of_cycle .refl hmembers
  tfae_finish

/-! ### Two tables

In the one a union leads to an array of the type that it belongs to, in the other to the
type itself. -/

/-- The definitions of days, nested in any number of arrays. -/
def calendar : List (String × Descriptor) :=
  [("Days", .union [.null, .ref "Rest"]), ("Rest", .union [.ref "Day", .array (.ref "Days")]),
    ("Day", .ref "Stamp"), ("Stamp", .date)]

theorem productive_calendar : ∃ table, build calendar = .ok table ∧
    (∀ members, ¬ Relation.TransGen table.Leads (.union members) (.union members)) ∧
    table.Productive ∧ ∀ p : Walk.Place, ¬ Unending (Walk.Stays table) p := by
  have hbuild : build calendar = .ok ⟨calendar⟩ := rfl
  have hstamp : Resolves ⟨calendar⟩ (.ref "Stamp") := .ref rfl (.here nofun nofun)
  have hday : Resolves ⟨calendar⟩ (.ref "Day") := .ref rfl hstamp
  have hrest : Resolves ⟨calendar⟩ (.ref "Rest") := by
    refine .ref rfl (.union ?_)
    rw [List.forall_mem_cons, List.forall_mem_singleton]
    exact ⟨hday, .here nofun nofun⟩
  have hdays : Resolves ⟨calendar⟩ (.ref "Days") := by
    refine .ref rfl (.union ?_)
    rw [List.forall_mem_cons, List.forall_mem_singleton]
    exact ⟨.here nofun nofun, hrest⟩
  have hresolves : ∀ name ∈ names ⟨calendar⟩, Resolves ⟨calendar⟩ (.ref name) := by
    have hnames : names ⟨calendar⟩ = ["Days", "Rest", "Day", "Stamp"] := rfl
    rw [hnames, List.forall_mem_cons, List.forall_mem_cons, List.forall_mem_cons,
      List.forall_mem_singleton]
    exact ⟨hdays, hrest, hday, hstamp⟩
  have htfae := productive_tfae hbuild
  exact ⟨_, hbuild, (htfae.out 2 0).mp hresolves, (htfae.out 2 1).mp hresolves,
    (htfae.out 2 3).mp hresolves⟩

/-- The definition of what is `null`, or else itself. -/
def loop : List (String × Descriptor) := [("Loop", .union [.null, .ref "Loop"])]

/-- Nothing but `null` is ever settled. -/
theorem value_loop (direction : Direction) (maxDepth : ℕ) :
    ∀ (n : ℕ) (o : Option String) (s : Site),
      (⟨⟨loop⟩, direction, maxDepth⟩ : Walk).value n o (.ref "Loop") s (some (.bool true)) =
        .error .endless
  | 0, _, _ => rfl
  | 1, _, _ => rfl
  | 2, _, _ => rfl
  | n + 3, o, s => by
    have hloop := value_loop direction maxDepth (n + 1) none s.member
    have hget : get? ⟨loop⟩ "Loop" = some (.union [.null, .ref "Loop"]) := rfl
    rw [Walk.value]
    simp only [hget]
    rw [Walk.value, Walk.firstAccepted_cons, Walk.firstAccepted_cons, hloop]
    rfl

/-- **A table is built although its type leads back to itself**, and no number of steps is
enough for a walk. -/
theorem not_productive_loop : ∃ table, build loop = .ok table ∧ ¬ table.Productive ∧
    ∀ n direction maxDepth, (⟨table, direction, maxDepth⟩ : Walk).value n none (.ref "Loop") .root
      (some (.bool true)) = .error .endless := by
  refine ⟨⟨loop⟩, rfl, fun hp => ?_, fun n direction maxDepth => ?_⟩
  · have hunion : (⟨loop⟩ : Table).Leads (.ref "Loop") (.union [.null, .ref "Loop"]) := .ref rfl
    have hback : (⟨loop⟩ : Table).Leads (.union [.null, .ref "Loop"]) (.ref "Loop") :=
      .member (by simp)
    exact hp "Loop" (.tail (.single hunion) hback)
  · exact value_loop direction maxDepth n none .root

end Table
end Wireform
