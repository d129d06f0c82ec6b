/-
# The limit on nesting

A walk counts the arrays and objects around a slot and refuses to enter another where the
count has come to the limit. A slot that nests no deeper than what is left of the limit
is therefore never refused for its depth, and walked the same under every larger limit,
to the same value or the same mismatch (`Walk.value_eq_of_nesting`).

The other way round a walk enters every array and object of a document that it accepts,
unless a descriptor takes a value as a whole: `any` takes every value, an enum those
among its cases. Without such descriptors what is accepted nests within the limit
(`Walk.Accepts.nesting_le`), and the limit refuses exactly the documents that nest too
deep (`Engine.depth_exact`).

Key definitions: `Slot.nesting`, `Descriptor.TakesWhole`, `Table.LooksInto`,
`Engine.Unlimited`.
Key theorems: `Walk.value_eq_of_nesting`, `Walk.Accepts.nesting_le`, `Engine.depth_exact`.
-/
import Mathlib
import Wireform.Proofs.Json.Reorder
import Wireform.Proofs.Walk.Rows

namespace Wireform

/-! ### Nesting -/

namespace Json

/-- Arrays and objects nest, scalars do not. -/
theorem nesting_pos_iff {v : Json} : 0 < v.nesting ↔ v.IsContainer := by
  cases v <;> simp [IsContainer]

theorem nestingItems_le {vs : List Json} {n : ℕ} (h : ∀ v ∈ vs, v.nesting ≤ n) :
    nestingItems vs ≤ n := by
  induction vs with
  | nil => exact Nat.zero_le n
  | cons v vs ih =>
    rw [List.forall_mem_cons] at h
    exact Nat.max_le.mpr ⟨h.1, ih h.2⟩

theorem nestingMembers_le {ms : List (String × Json)} {n : ℕ} (h : ∀ m ∈ ms, m.2.nesting ≤ n) :
    nestingMembers ms ≤ n := by
  induction ms with
  | nil => exact Nat.zero_le n
  | cons m ms ih =>
    rw [List.forall_mem_cons] at h
    exact Nat.max_le.mpr ⟨h.1, ih h.2⟩

end Json

/-- How deep arrays and objects nest in a slot. -/
def Slot.nesting : Slot → ℕ
  | none => 0
  | some v => v.nesting

theorem Slot.nesting_lookup_le (input : List (String × Json)) (key : String) :
    Slot.nesting (input.lookup key) ≤ Json.nestingMembers input := by
  cases hl : input.lookup key with
  | none => exact Nat.zero_le _
  | some v => exact Json.nesting_le_of_mem_members (Keyed.mem_of_lookup hl)

namespace Walk

/-! ### Within the limit -/

/-- The containers around a slot and those in it do not become more. -/
theorem Calls.depth_add_nesting_le {table : Table} {p q : Place} (h : Calls table p q) :
    q.depth + Slot.nesting q.slot ≤ p.depth + Slot.nesting p.slot := by
  cases h with
  | ref _ => exact le_rfl
  | member _ => exact le_rfl
  | @item _ depth vs v hv =>
    have hle := Json.nesting_le_of_mem_items hv
    show depth + 1 + v.nesting ≤ depth + (Json.nestingItems vs + 1)
    omega
  | @property _ _ depth input _ key _ =>
    have hle := Slot.nesting_lookup_le input key
    show depth + 1 + Slot.nesting (input.lookup key) ≤ depth + (Json.nestingMembers input + 1)
    omega
  | @extra _ _ depth input m hm =>
    have hle := Json.nesting_le_of_mem_members hm
    show depth + 1 + m.2.nesting ≤ depth + (Json.nestingMembers input + 1)
    omega

theorem enter_of_lt {w : Walk} {slot : Slot} {s : Site} (h : s.depth < w.maxDepth) :
    w.enter slot s = .ok () := if_pos h

/-- **A slot that nests within the limit is walked the same under every larger limit.** -/
theorem value_eq_of_nesting {w w' : Walk} (htable : w'.table = w.table)
    (hdir : w'.direction = w.direction) (hle : w.maxDepth ≤ w'.maxDepth) :
    ∀ (n : ℕ) (o : Option String) (d : Descriptor) (s : Site) (slot : Slot),
      s.depth + Slot.nesting slot ≤ w.maxDepth → w'.value n o d s slot = w.value n o d s slot
  | 0, _, _, _, _, _ => rfl
  | n + 1, o, d, s, slot, h => by
    have hstep : w.value (n + 1) o d s slot = w'.value (n + 1) o d s slot := by
      refine value_inStep eq_respected eq_paired ⟨rfl, rfl⟩ hdir (fun _ _ => by rw [htable])
        (fun v hslot hv => ?_) fun q hq => ?_
      · -- a container has a level of its own, so its site lies under the limit
        have hpos : 0 < Slot.nesting slot := hslot ▸ Json.nesting_pos_iff.mpr hv
        have hlt : s.depth < w.maxDepth := by omega
        rw [enter_of_lt hlt, enter_of_lt (hlt.trans_le hle)]
      · rintro _ _ o s' ⟨rfl, rfl⟩ hdepth
        have hq' : s'.depth + Slot.nesting q.slot ≤ w.maxDepth :=
          hdepth ▸ hq.depth_add_nesting_le.trans h
        exact (value_eq_of_nesting htable hdir hle n o q.descriptor s' q.slot hq').symm
    exact hstep.symm

end Walk

/-! ### What is taken as a whole -/

/-- Whether a descriptor may accept an array or an object without looking into it. -/
def Descriptor.TakesWhole : Descriptor → Prop
  | .any => True
  | .enum cases => ∃ v ∈ cases, v.IsContainer
  | _ => False

/-- Nothing that is reached from a type takes an array or an object as a whole. -/
def Table.LooksInto (table : Table) (root : String) : Prop :=
  ∀ d, table.Reaches (.ref root) d → ¬ d.TakesWhole

/-- What is the case of an enum is an array or an object only if the case is. -/
theorem Descriptor.isContainer_of_isCase {c v : Json} (h : isCase c v = true)
    (hv : v.IsContainer) : c.IsContainer := by
  cases v <;> cases c <;> simp_all [isCase, Json.same, Json.IsContainer]

theorem Kind.not_isContainer_of_admits {kind : Kind} {v : Json} (h : kind.admits v = true) :
    ¬ v.IsContainer := by
  cases kind <;> cases v <;> simp_all [Kind.admits, Json.IsContainer]

namespace Walk

/-- A leaf that does not take values as a whole takes no array and no object. -/
theorem Takes.nesting_eq_zero {d : Descriptor} {slot out : Slot} (h : Takes d slot out)
    (hd : ¬ d.TakesWhole) : Slot.nesting slot = 0 := by
  cases h with
  | any slot => exact (hd trivial).elim
  | null => rfl
  | undefined => rfl
  | primitive hkind =>
    have hscalar := mt Json.nesting_pos_iff.mp (Kind.not_isContainer_of_admits hkind)
    exact Nat.eq_zero_of_not_pos hscalar
  | enum hcase =>
    obtain ⟨c, hc, hcase⟩ := List.any_eq_true.mp hcase
    have hscalar : ¬ 0 < Json.nesting _ := fun hpos =>
      hd ⟨c, hc, Descriptor.isContainer_of_isCase hcase (Json.nesting_pos_iff.mp hpos)⟩
    exact Nat.eq_zero_of_not_pos hscalar
  | noDate => rfl
  | date _ => rfl

/-- Each member of a converted object is converted, by something that the shape opens. -/
theorem Converts.exists_of_mem {direction : Direction} {properties : List (Property Descriptor)}
    {additional : Additional Descriptor} {C : Descriptor → Slot → Slot → Prop}
    {input out : List (String × Json)} (h : Converts direction properties additional C input out)
    (table : Table) (hn : (Keyed.keys input).Nodup) {m : String × Json} (hm : m ∈ input) :
    ∃ d s, table.Opens (.object properties additional) d ∧ C d (some m.2) s := by
  by_cases hd : m.1 ∈ properties.map direction.inputKey
  · obtain ⟨p, hp, hkey⟩ := List.mem_map.mp hd
    obtain ⟨s, hc⟩ := h.property hp
    rw [hkey, Keyed.lookup_of_mem hn hm] at hc
    exact ⟨_, s, .property hp, hc⟩
  · obtain ⟨d, v, rfl, hc⟩ := h.extra (List.mem_filter.mpr ⟨hm, decide_eq_true hd⟩)
    exact ⟨d, _, .extra, hc⟩

/-- **What is accepted nests within the limit**, unless something takes it as a whole. -/
theorem Accepts.nesting_le {w : Walk} (hs : w.table.Sound) {root : String}
    (hlooks : w.table.LooksInto root) {d : Descriptor} {depth : ℕ} {slot out : Slot}
    (hd : w.table.Checked d) (h : w.Accepts d depth slot out) :
    w.table.Reaches (.ref root) d → Slot.Distinct slot → depth ≤ w.maxDepth →
      depth + Slot.nesting slot ≤ w.maxDepth := by
  refine Accepts.induct hs (motive := fun d depth slot _ =>
    w.table.Reaches (.ref root) d → Slot.Distinct slot → depth ≤ w.maxDepth →
      depth + Slot.nesting slot ≤ w.maxDepth)
    ?leaf ?ref ?union ?array ?object hd h
  case leaf =>
    intro d depth slot out _ htakes hreach _ hdepth
    rw [htakes.nesting_eq_zero (hlooks d hreach)]
    exact hdepth
  case ref =>
    intro name d depth slot out hget ih hreach
    exact ih (hreach.opens (.ref hget))
  case union =>
    intro before d after depth slot out _ _ ih hreach
    exact ih (hreach.opens (.member (by simp)))
  case array =>
    intro item depth vs outs hdepth ih hreach hdist _
    have hitems : ∀ v ∈ vs, v.nesting ≤ w.maxDepth - (depth + 1) := by
      intro v hv
      obtain ⟨_, -, ih⟩ := exists_right_of_mem ih hv
      have hle : depth + 1 + v.nesting ≤ w.maxDepth :=
        ih (hreach.opens .item) (hdist.of_mem_items hv) hdepth
      omega
    have hle := Json.nestingItems_le hitems
    show depth + (Json.nestingItems vs + 1) ≤ w.maxDepth
    omega
  case object =>
    intro properties additional depth input members hdepth _ hconv hreach hdist _
    have hmembers : ∀ m ∈ input, m.2.nesting ≤ w.maxDepth - (depth + 1) := by
      intro m hm
      obtain ⟨d, s, hopens, ih⟩ := hconv.exists_of_mem w.table hdist.1 hm
      have hle : depth + 1 + m.2.nesting ≤ w.maxDepth :=
        ih (hreach.opens hopens) (hdist.of_mem_members hm) hdepth
      omega
    have hle := Json.nestingMembers_le hmembers
    show depth + (Json.nestingMembers input + 1) ≤ w.maxDepth
    omega

end Walk

/-! ### Conversions -/

namespace Engine

/-- The result of a conversion without a limit: under every limit from some one on. -/
def Unlimited (table : Table) (v : Json) (root : String) (direction : Direction)
    (result : Except Failure Json) : Prop :=
  ∃ limit, ∀ maxDepth ≥ limit, (⟨table, maxDepth⟩ : Engine).convert v root direction = result

theorem run_eq_of_nesting {table : Table} {m m' : ℕ} {v : Json} (hv : v.nesting ≤ m) (hle : m ≤ m')
    (d : Descriptor) (direction : Direction) :
    (⟨table, m'⟩ : Engine).run v d direction = (⟨table, m⟩ : Engine).run v d direction := by
  have hroot : Site.root.depth + Slot.nesting (some v) ≤ m := by
    show 0 + v.nesting ≤ m
    omega
  let w : Walk := ⟨table, direction, m⟩
  let w' : Walk := ⟨table, direction, m'⟩
  have htable : w'.table = w.table := rfl
  have hdir : w'.direction = w.direction := rfl
  have hvalue := Walk.value_eq_of_nesting htable hdir hle (steps table v d) none d .root (some v)
    hroot
  simp only [run]
  rw [hvalue]

theorem convert_eq_of_nesting {table : Table} {m m' : ℕ} {v : Json} (hv : v.nesting ≤ m)
    (hle : m ≤ m') (root : String) (direction : Direction) :
    (⟨table, m'⟩ : Engine).convert v root direction =
      (⟨table, m⟩ : Engine).convert v root direction := by
  simp only [convert, run_eq_of_nesting hv hle]

theorem nesting_le_of_convert {e : Engine} (hs : e.table.Sound) {root : String}
    (hlooks : e.table.LooksInto root) {v out : Json} (hv : v.Distinct) {direction : Direction}
    (h : e.convert v root direction = .ok out) : v.nesting ≤ e.maxDepth := by
  have ha := convert_eq_ok_iff.mp h
  obtain ⟨d, hroot⟩ := ha.exists_of_ref
  have hle := ha.nesting_le hs hlooks (hs.checked_ref hroot .refl) .refl hv (Nat.zero_le _)
  rwa [Nat.zero_add] at hle

/-- **The limit on nesting is exact.** It changes nothing for a document that nests no
deeper. Where nothing takes an array or an object as a whole, a conversion succeeds if and
only if its document nests no deeper and the conversion succeeds without a limit. -/
theorem depth_exact {definitions : List (String × Descriptor)} {table : Table}
    (ht : Table.build definitions = .ok table) (root : String) (direction : Direction) (v : Json)
    (m : ℕ) :
    (v.nesting ≤ m → ∀ m' ≥ m, (⟨table, m'⟩ : Engine).convert v root direction =
      (⟨table, m⟩ : Engine).convert v root direction) ∧
    (table.LooksInto root → v.Distinct → ∀ out,
      (⟨table, m⟩ : Engine).convert v root direction = .ok out ↔
        v.nesting ≤ m ∧ Unlimited table v root direction (.ok out)) := by
  refine ⟨fun hv m' hle => convert_eq_of_nesting hv hle root direction,
    fun hlooks hdist out => ⟨fun h => ?_, ?_⟩⟩
  · have hv : v.nesting ≤ m :=
      nesting_le_of_convert (e := ⟨table, m⟩) (Table.build_sound ht) hlooks hdist h
    refine ⟨hv, m, fun m' hle => ?_⟩
    rw [convert_eq_of_nesting hv hle, h]
  · rintro ⟨hv, limit, hlimit⟩
    rw [← convert_eq_of_nesting hv (Nat.le_max_left m limit)]
    exact hlimit _ (Nat.le_max_right m limit)

/-! ### Trees

A tree is a number, an array of trees, or an object of trees. -/

/-- The definition of trees. -/
def tree : List (String × Descriptor) :=
  [("Tree", .union [.primitive .number, .array (.ref "Tree"), .object [] (.allow (.ref "Tree"))])]

theorem looksInto_tree : Table.LooksInto ⟨tree⟩ "Tree" := by
  intro d hreach
  have hmem := hreach.mem_catalog
  simp only [Table.catalog, tree, List.flatMap_cons, List.flatMap_nil, Descriptor.parts,
    Descriptor.partsOfProperties, Descriptor.partsOfMembers, Descriptor.partsOfAdditional,
    List.mem_append, List.mem_cons, List.not_mem_nil, or_false, false_or] at hmem
  rcases hmem with (rfl | rfl | (rfl | rfl) | rfl | rfl) | rfl <;> exact not_false

theorem depth_exact_tree :
    let v : Json := .array [.array [], .object [("a", .array [])]]
    Table.build tree = .ok ⟨tree⟩ ∧ Table.LooksInto ⟨tree⟩ "Tree" ∧
      (∀ m ≥ 3, (⟨⟨tree⟩, m⟩ : Engine).convert v "Tree" .decode = .ok v) ∧
      ∀ m < 3, ∀ out, (⟨⟨tree⟩, m⟩ : Engine).convert v "Tree" .decode ≠ .ok out := by
  intro v
  have hbuild : Table.build tree = .ok ⟨tree⟩ := rfl
  have hnesting : v.nesting = 3 := rfl
  have hdist : v.Distinct := by
    simp [v]
  have hconvert : (⟨⟨tree⟩, 3⟩ : Engine).convert v "Tree" .decode = .ok v := by cbv
  refine ⟨hbuild, looksInto_tree, fun m hm => ?_, fun m hm out h => ?_⟩
  · rw [(depth_exact hbuild "Tree" .decode v 3).1 hnesting.le m hm, hconvert]
  · have hle := ((depth_exact hbuild "Tree" .decode v m).2 looksInto_tree hdist out).mp h
    omega

end Engine
end Wireform
