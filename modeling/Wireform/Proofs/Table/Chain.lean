/-
# Chains of names

A definition that is directly another name hands on to it (`Table.Aliases`). The chain
that starts at a name ends at one that stands for something else, or for nothing, or it
goes on for ever (`Unending`). A table has only so many names, so a chain that goes on
for ever comes back to a name that it has passed: it leads into a cycle, on which its
first name need not lie (`Table.unending_aliases_iff`).

The check of a chain follows it for one step more than there are types. That many steps
pass some name twice, so the check refuses exactly the chains that never end
(`Table.checkChain_eq_ok_iff`).

Key definitions: `Unending`, `Table.Aliases`, `Table.LeadsIntoCycle`.
Key theorems: `exists_cycle_of_chain`, `unending_iff_exists_cycle`,
`Table.unending_aliases_iff`, `Table.checkChain_eq_ok_iff`, `Table.checkChain_eq_error_iff`.
-/
import Wireform.Proofs.Table.Reach
import Mathlib.Data.Finset.Card

namespace Wireform

/-! ### Chains of a relation -/

section Chains

variable {α : Type} {r : α → α → Prop} {a b : α}

/-- Some chain of the relation starts here and never ends. -/
def Unending (r : α → α → Prop) (a : α) : Prop :=
  ∃ f : ℕ → α, f 0 = a ∧ ∀ i, r (f i) (f (i + 1))

/-- Of two places on a chain the later is reached from the earlier. -/
theorem reaches_along {f : ℕ → α} {n i j : ℕ} (hr : ∀ k < n, r (f k) (f (k + 1))) (hij : i ≤ j)
    (hj : j ≤ n) : Relation.ReflTransGen r (f i) (f j) := by
  induction j, hij using Nat.le_induction with
  | base => exact .refl
  | succ j _ ih =>
    have hij : Relation.ReflTransGen r (f i) (f j) := ih (by omega)
    exact hij.tail (hr j hj)

/-- **A chain with more places than there are things passes one of them twice.** -/
theorem exists_cycle_of_chain {f : ℕ → α} {n : ℕ} {S : Finset α}
    (hr : ∀ i < n, r (f i) (f (i + 1))) (hS : ∀ i ≤ n, f i ∈ S) (hn : S.card ≤ n) :
    ∃ b, Relation.ReflTransGen r (f 0) b ∧ Relation.TransGen r b b := by
  have hcard : S.card < (Finset.range (n + 1)).card := by
    rw [Finset.card_range]
    exact Nat.lt_succ_of_le hn
  have hmaps : ∀ i ∈ Finset.range (n + 1), f i ∈ S := by
    intro i hi
    exact hS i (Nat.le_of_lt_succ (Finset.mem_range.mp hi))
  obtain ⟨x, hx, y, hy, hne, hxy⟩ := Finset.exists_ne_map_eq_of_card_lt_of_maps_to hcard hmaps
  rw [Finset.mem_range] at hx hy
  -- of the two places with the same thing, `i` comes first
  obtain ⟨i, j, hij, hj, heq⟩ : ∃ i j, i < j ∧ j ≤ n ∧ f i = f j := by
    rcases Nat.lt_or_gt_of_ne hne with hlt | hlt
    · exact ⟨x, y, hlt, by omega, hxy⟩
    · exact ⟨y, x, hlt, by omega, hxy.symm⟩
  refine ⟨f i, reaches_along hr (Nat.zero_le i) (by omega), ?_⟩
  have hfirst : r (f i) (f (i + 1)) := hr i (by omega)
  have hrest : Relation.ReflTransGen r (f (i + 1)) (f j) := reaches_along hr hij hj
  rw [← heq] at hrest
  exact Relation.TransGen.head' hfirst hrest

/-- Where each thing is followed by another of its sort, a chain goes on for ever. -/
theorem unending_of_step {P : α → Prop} (hstep : ∀ x, P x → ∃ y, P y ∧ r x y) (ha : P a) :
    Unending r a := by
  have hnext : ∀ x : {x // P x}, ∃ y : {y // P y}, r x y := by
    rintro ⟨x, hx⟩
    obtain ⟨y, hy, hxy⟩ := hstep x hx
    exact ⟨⟨y, hy⟩, hxy⟩
  choose next hnext using hnext
  refine ⟨fun i => (next^[i] ⟨a, ha⟩).1, rfl, fun i => ?_⟩
  have hi := hnext (next^[i] ⟨a, ha⟩)
  rwa [← Function.iterate_succ_apply' next i] at hi

/-- A chain that never ends has a second place, and never ends from there. -/
theorem Unending.exists_next (h : Unending r a) : ∃ b, r a b ∧ Unending r b := by
  obtain ⟨f, rfl, hf⟩ := h
  exact ⟨f 1, hf 0, fun i => f (i + 1), rfl, fun i => hf (i + 1)⟩

/-- A chain that has come to a cycle goes round it for ever. -/
theorem unending_of_cycle (hab : Relation.ReflTransGen r a b) (hb : Relation.TransGen r b b) :
    Unending r a := by
  refine unending_of_step (P := fun x => Relation.ReflTransGen r x b) (fun x hx => ?_) hab
  rcases hx.cases_head with rfl | ⟨y, hxy, hyb⟩
  · obtain ⟨y, hxy, hyb⟩ := Relation.TransGen.head'_iff.mp hb
    exact ⟨y, hyb, hxy⟩
  · exact ⟨y, hyb, hxy⟩

/-- **Among finitely many things a chain goes on for ever if and only if it leads into a
cycle.** -/
theorem unending_iff_exists_cycle {S : Finset α}
    (hS : ∀ x y, Relation.ReflTransGen r a x → r x y → x ∈ S) :
    Unending r a ↔ ∃ b, Relation.ReflTransGen r a b ∧ Relation.TransGen r b b := by
  constructor
  · rintro ⟨f, rfl, hf⟩
    have hmem : ∀ i, f i ∈ S := fun i =>
      hS (f i) _ (reaches_along (fun k _ => hf k) (Nat.zero_le i) le_rfl) (hf i)
    exact exists_cycle_of_chain (fun i _ => hf i) (fun i _ => hmem i) le_rfl
  · rintro ⟨b, hab, hb⟩
    exact unending_of_cycle hab hb

end Chains

/-! ### Chains of definitions -/

namespace Table

variable {table : Table}

theorem isSome_get?_iff {name : String} : (table.get? name).isSome = true ↔ name ∈ table.names :=
  Keyed.isSome_lookup_iff

theorem mem_names_of_get? {name : String} {d : Descriptor} (h : table.get? name = some d) :
    name ∈ table.names := isSome_get?_iff.mp (by rw [h]; rfl)

theorem card_names_le (table : Table) : table.names.toFinset.card ≤ table.size := by
  have hlength : table.names.length = table.size := List.length_map _
  exact hlength ▸ List.toFinset_card_le table.names

/-- The definition of one name is directly another name. -/
def Aliases (table : Table) (name next : String) : Prop := table.get? name = some (.ref next)

theorem Aliases.mem_names {name next : String} (h : table.Aliases name next) :
    name ∈ table.names := mem_names_of_get? h

/-- The chain of names comes to one that it passes again. -/
def LeadsIntoCycle (table : Table) (name : String) : Prop :=
  ∃ again, Relation.ReflTransGen table.Aliases name again ∧
    Relation.TransGen table.Aliases again again

/-- **A chain of names never ends if and only if it leads into a cycle.** -/
theorem unending_aliases_iff {name : String} :
    Unending table.Aliases name ↔ table.LeadsIntoCycle name :=
  unending_iff_exists_cycle (S := table.names.toFinset)
    fun _ _ _ h => List.mem_toFinset.mpr h.mem_names

/-- A chain has one way to go: where it never ends, it never ends from any name on it. -/
theorem Unending.along {name later : String} (h : Unending table.Aliases name)
    (hr : Relation.ReflTransGen table.Aliases name later) : Unending table.Aliases later := by
  induction hr with
  | refl => exact h
  | @tail b c _ hbc ih =>
    obtain ⟨c', hbc', hc'⟩ := ih.exists_next
    rw [Aliases, hbc] at hbc'
    cases hbc'
    exact hc'

/-- A chain that runs into a name that is not defined ends there. -/
theorem not_unending_of_notMem {name last target : String}
    (hr : Relation.ReflTransGen table.Aliases name last) (hlast : table.Aliases last target)
    (htarget : target ∉ table.names) : ¬ Unending table.Aliases name := by
  intro h
  obtain ⟨_, hnext, -⟩ := (Unending.along h (hr.tail hlast)).exists_next
  exact htarget hnext.mem_names

theorem chainLasts_eq_true_iff : ∀ {n : ℕ} {name : String}, table.chainLasts n name = true ↔
    ∃ f : ℕ → String, f 0 = name ∧ ∀ i < n, table.Aliases (f i) (f (i + 1))
  | 0, name => by
    rw [chainLasts]
    exact iff_of_true rfl ⟨fun _ => name, rfl, by simp⟩
  | n + 1, name => by
    rw [chainLasts]
    constructor
    · intro h
      split at h
      · rename_i next hget
        obtain ⟨f, hf0, hf⟩ := chainLasts_eq_true_iff.mp h
        refine ⟨fun i => i.casesOn name f, rfl, fun i hi => ?_⟩
        cases i with
        | zero =>
          show table.get? name = some (.ref (f 0))
          rw [hf0, hget]
        | succ i => exact hf i (by omega)
      · cases h
    · rintro ⟨f, rfl, hf⟩
      have hget : table.get? (f 0) = some (.ref (f 1)) := hf 0 (Nat.succ_pos n)
      rw [hget]
      exact chainLasts_eq_true_iff.mpr ⟨fun i => f (i + 1), rfl, fun i hi => hf (i + 1) (by omega)⟩

/-- One step more than there are types is as good as following a chain for ever. -/
theorem chainLasts_size_iff {name : String} :
    table.chainLasts (table.size + 1) name = true ↔ Unending table.Aliases name := by
  rw [chainLasts_eq_true_iff]
  constructor
  · rintro ⟨f, rfl, hf⟩
    have hnames : ∀ i ≤ table.size, f i ∈ table.names.toFinset := by
      intro i hi
      exact List.mem_toFinset.mpr (hf i (by omega)).mem_names
    exact unending_aliases_iff.mpr
      (exists_cycle_of_chain (fun i hi => hf i (by omega)) hnames table.card_names_le)
  · rintro ⟨f, hf0, hf⟩
    exact ⟨f, hf0, fun i _ => hf i⟩

/-- **The check of a chain passes if and only if the chain ends.** -/
theorem checkChain_eq_ok_iff {name : String} :
    table.checkChain name = .ok () ↔ ¬ Unending table.Aliases name := by
  rw [← chainLasts_size_iff]
  unfold checkChain
  by_cases h : table.chainLasts (table.size + 1) name = true
  · rw [if_pos h]
    exact iff_of_false nofun (not_not.mpr h)
  · rw [if_neg h]
    exact iff_of_true rfl h

theorem checkChain_eq_error_iff {name : String} {e : SchemaError} :
    table.checkChain name = .error e ↔ Unending table.Aliases name ∧ e = .refCycle name := by
  rw [← chainLasts_size_iff]
  unfold checkChain
  by_cases h : table.chainLasts (table.size + 1) name = true
  · rw [if_pos h, and_iff_right h, Except.error.injEq, eq_comm]
  · rw [if_neg h]
    exact iff_of_false nofun fun hand => h hand.1

/-- **No chain in a table that was built goes on for ever.** -/
theorem not_unending_of_build {definitions : List (String × Descriptor)}
    (ht : build definitions = .ok table) (name : String) : ¬ Unending table.Aliases name := by
  obtain ⟨rfl, -, hchecks⟩ := build_eq_ok_iff.mp ht
  rintro ⟨f, rfl, hf⟩
  have hmem : (f 0, .ref (f 1)) ∈ definitions := Keyed.mem_of_lookup (hf 0)
  have hchain := (checkDefinitions_eq_ok_iff.mp hchecks _ hmem).2
  exact checkChain_eq_ok_iff.mp hchain ⟨f, rfl, hf⟩

/-- A name in a checked descriptor is defined. -/
theorem Checked.mem_names {name : String} (h : table.Checked (.ref name)) :
    name ∈ table.names := by
  obtain ⟨owner, h⟩ := h
  rw [checkDescriptor] at h
  split at h
  · rename_i hget
    exact isSome_get?_iff.mp hget
  · cases h

/-- Where every name is defined, a chain that ends has no more steps than there are types. -/
theorem chainLasts_size_of_sound (hs : table.Sound) {name : String} (hname : name ∈ table.names)
    (hend : ¬ Unending table.Aliases name) : table.chainLasts table.size name = false := by
  by_contra hlasts
  rw [Bool.not_eq_false] at hlasts
  obtain ⟨f, rfl, hf⟩ := chainLasts_eq_true_iff.mp hlasts
  have hnames : ∀ i ≤ table.size, f i ∈ table.names.toFinset := by
    intro i hi
    rw [List.mem_toFinset]
    cases i with
    | zero => exact hname
    | succ i => exact (hs _ _ (hf i hi)).mem_names
  exact hend (unending_aliases_iff.mpr (exists_cycle_of_chain hf hnames table.card_names_le))

end Table
end Wireform
