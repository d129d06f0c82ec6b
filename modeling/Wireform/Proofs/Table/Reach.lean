/-
# What a descriptor reaches

A descriptor opens its members, its item, the types of its properties, the
descriptor of its additional keys, and what the table defines under its name;
reaching is opening again and again. In a table that was built, everything that is
reached is checked, and so no object shape in it declares a key twice.

All that a descriptor can reach stands in a finite list, the parts of the table and
of the descriptor itself, as long as their weights together.

Key definitions: `Table.Opens`, `Table.Reaches`, `Table.Checked`, `Descriptor.parts`.
Key theorems: `Table.build_eq_ok_iff`, `Table.Checked.reaches`, `Table.build_sound`,
`Table.opens_mem_catalog`.
-/
import Wireform.Descriptor.Index
import Wireform.Proofs.Keyed
import Wireform.Proofs.Sequence
import Wireform.Table.Basic
import Mathlib.Logic.Relation

namespace Wireform

/-- The first item with a property is the head, or the head does not get in its way. -/
theorem exists_first_cons_iff {α : Type} {P Q : α → Prop} {x : α} {xs : List α} :
    (∃ before a after, x :: xs = before ++ a :: after ∧ (∀ b ∈ before, P b) ∧ Q a) ↔
      Q x ∨ P x ∧ ∃ before a after, xs = before ++ a :: after ∧ (∀ b ∈ before, P b) ∧ Q a := by
  constructor
  · rintro ⟨before, a, after, h, hb, ha⟩
    cases before with
    | nil =>
      cases h
      exact .inl ha
    | cons b before =>
      cases h
      rw [List.forall_mem_cons] at hb
      exact .inr ⟨hb.1, before, a, after, rfl, hb.2, ha⟩
  · rintro (hx | ⟨hx, before, a, after, rfl, hb, ha⟩)
    · exact ⟨[], x, xs, rfl, by simp, hx⟩
    · exact ⟨x :: before, a, after, rfl, List.forall_mem_cons.mpr ⟨hx, hb⟩, ha⟩

namespace Table

/-- A descriptor that a descriptor opens directly. -/
inductive Opens (table : Table) : Descriptor → Descriptor → Prop
  | ref {name d} (h : table.get? name = some d) : Opens table (.ref name) d
  | member {members d} (h : d ∈ members) : Opens table (.union members) d
  | item {d} : Opens table (.array d) d
  | property {properties additional p} (h : p ∈ properties) :
    Opens table (.object properties additional) p.descriptor
  | extra {properties d} : Opens table (.object properties (.allow d)) d

/-- A name leads to what it stands for, and a union to its members: what is opened
there is walked with the same slot. -/
inductive Leads (table : Table) : Descriptor → Descriptor → Prop
  | ref {name d} (h : table.get? name = some d) : Leads table (.ref name) d
  | member {members d} (h : d ∈ members) : Leads table (.union members) d

/-- A descriptor that can be opened from a descriptor, in any number of steps. -/
def Reaches (table : Table) : Descriptor → Descriptor → Prop :=
  Relation.ReflTransGen table.Opens

theorem Reaches.opens {table : Table} {a b c : Descriptor} (h : table.Reaches a b)
    (ho : table.Opens b c) : table.Reaches a c := h.tail ho

/-! ### Checked descriptors -/

/-- The names in a descriptor are defined and its object shapes declare no key twice. -/
def Checked (table : Table) (d : Descriptor) : Prop :=
  ∃ owner, table.checkDescriptor owner d = .ok ()

/-- Every definition of the table is checked. -/
def Sound (table : Table) : Prop := ∀ name d, table.get? name = some d → table.Checked d

theorem checkMembers_eq_ok_iff {table : Table} {owner : String} : ∀ {ds : List Descriptor},
    table.checkMembers owner ds = .ok () ↔ ∀ d ∈ ds, table.checkDescriptor owner d = .ok ()
  | [] => by simp [checkMembers]
  | d :: ds => by
    rw [checkMembers, seq_eq_ok_iff, checkMembers_eq_ok_iff, List.forall_mem_cons]

theorem checkProperties_eq_ok_iff {table : Table} {owner : String} :
    ∀ {ps : List (Property Descriptor)}, table.checkProperties owner ps = .ok () ↔
      ∀ p ∈ ps, table.checkDescriptor owner p.descriptor = .ok ()
  | [] => by simp [checkProperties]
  | ⟨_, _, d⟩ :: ps => by
    rw [checkProperties, seq_eq_ok_iff, checkProperties_eq_ok_iff, List.forall_mem_cons]

theorem checkKeys_eq_ok_iff {owner : String} {side : Side} {keys : List String} :
    checkKeys owner side keys = .ok () ↔ keys.Nodup := by
  rw [← Keyed.firstRepeated_nil_eq_none_iff]
  unfold checkKeys
  cases Keyed.firstRepeated [] keys with
  | none => exact iff_of_true rfl rfl
  | some key => exact iff_of_false nofun nofun

/-- What the check of an object shape comes to. -/
theorem checkObject_eq_ok_iff {table : Table} {owner : String}
    {properties : List (Property Descriptor)} {additional : Additional Descriptor} :
    table.checkDescriptor owner (.object properties additional) = .ok () ↔
      (properties.map (·.wireKey)).Nodup ∧ (properties.map (·.typedKey)).Nodup ∧
        table.checkProperties owner properties = .ok () ∧
        table.checkAdditional owner additional = .ok () := by
  rw [checkDescriptor, seq_eq_ok_iff, seq_eq_ok_iff, seq_eq_ok_iff, checkKeys_eq_ok_iff,
    checkKeys_eq_ok_iff]

theorem Checked.opens {table : Table} (hs : table.Sound) {a b : Descriptor} (h : table.Checked a)
    (ho : table.Opens a b) : table.Checked b := by
  obtain ⟨owner, h⟩ := h
  cases ho with
  | ref hget => exact hs _ _ hget
  | member hm =>
    rw [checkDescriptor, checkMembers_eq_ok_iff] at h
    exact ⟨owner, h b hm⟩
  | item => exact ⟨owner, by simpa only [checkDescriptor] using h⟩
  | property hp =>
    obtain ⟨-, -, hproperties, -⟩ := checkObject_eq_ok_iff.mp h
    exact ⟨owner, checkProperties_eq_ok_iff.mp hproperties _ hp⟩
  | extra =>
    obtain ⟨-, -, -, hadditional⟩ := checkObject_eq_ok_iff.mp h
    exact ⟨owner, by simpa only [checkAdditional] using hadditional⟩

/-- **All that a checked descriptor reaches is checked.** -/
theorem Checked.reaches {table : Table} (hs : table.Sound) {a b : Descriptor}
    (h : table.Checked a) (hr : table.Reaches a b) : table.Checked b := by
  induction hr with
  | refl => exact h
  | tail _ ho ih => exact ih.opens hs ho

theorem Checked.nodup {table : Table} {properties : List (Property Descriptor)}
    {additional : Additional Descriptor} (h : table.Checked (.object properties additional))
    (direction : Direction) :
    (properties.map direction.inputKey).Nodup ∧ (properties.map direction.outputKey).Nodup := by
  obtain ⟨owner, h⟩ := h
  obtain ⟨hw, ht, -⟩ := checkObject_eq_ok_iff.mp h
  cases direction with
  | decode => exact ⟨hw, ht⟩
  | encode => exact ⟨ht, hw⟩

theorem checkDefinitions_eq_ok_iff {table : Table} : ∀ {ds : List (String × Descriptor)},
    table.checkDefinitions ds = .ok () ↔
      ∀ e ∈ ds, table.checkDescriptor e.1 e.2 = .ok () ∧ table.checkChain e.1 = .ok ()
  | [] => by simp [checkDefinitions]
  | (name, d) :: ds => by
    rw [checkDefinitions, seq_eq_ok_iff, seq_eq_ok_iff, checkDefinitions_eq_ok_iff,
      List.forall_mem_cons, and_assoc]

/-- A table is built from definitions with distinct names that pass their checks. -/
theorem build_eq_ok_iff {definitions : List (String × Descriptor)} {table : Table} :
    build definitions = .ok table ↔ table = ⟨definitions⟩ ∧ (Keyed.keys definitions).Nodup ∧
      table.checkDefinitions definitions = .ok () := by
  rw [← Keyed.firstRepeated_nil_eq_none_iff]
  unfold build
  cases Keyed.firstRepeated [] (Keyed.keys definitions) with
  | some name => exact iff_of_false nofun fun h => nomatch h.2.1
  | none =>
    rw [bind_eq_ok_iff]
    constructor
    · rintro ⟨⟨⟩, hc, ht⟩
      cases ht
      exact ⟨rfl, rfl, hc⟩
    · rintro ⟨rfl, -, hc⟩
      exact ⟨(), hc, rfl⟩

/-- **The definitions of a table that was built are checked.** -/
theorem build_sound {definitions : List (String × Descriptor)} {table : Table}
    (h : build definitions = .ok table) : table.Sound := by
  obtain ⟨rfl, -, hc⟩ := build_eq_ok_iff.mp h
  intro name d hget
  have hmem : (name, d) ∈ definitions := Keyed.mem_of_lookup hget
  exact ⟨name, (checkDefinitions_eq_ok_iff.mp hc (name, d) hmem).1⟩

/-- A name of a table that was built reaches checked descriptors only. -/
theorem Sound.checked_ref {table : Table} (hs : table.Sound) {root : String} {d r : Descriptor}
    (hroot : table.get? root = some r) (hr : table.Reaches (.ref root) d) : table.Checked d := by
  have hc : table.Checked (.ref root) := ⟨"", by simp [checkDescriptor, hroot]⟩
  exact hc.reaches hs hr

theorem Sound.checked_object {table : Table} (hs : table.Sound) {root : String}
    {properties : List (Property Descriptor)} {additional : Additional Descriptor}
    (hr : table.Reaches (.ref root) (.object properties additional)) :
    table.Checked (.object properties additional) := by
  rcases hr.cases_head with h | ⟨d, ho, -⟩
  · cases h
  · cases ho with
    | ref hroot => exact hs.checked_ref hroot hr

end Table

/-! ### The parts of a descriptor -/

namespace Descriptor

mutual

/-- The descriptors that stand in a descriptor, itself included. -/
@[simp] def parts : Descriptor → List Descriptor
  | .union members => .union members :: partsOfMembers members
  | .array item => .array item :: parts item
  | .object properties additional =>
    .object properties additional :: (partsOfProperties properties ++ partsOfAdditional additional)
  | d => [d]

/-- The parts of all members. -/
@[simp] def partsOfMembers : List Descriptor → List Descriptor
  | [] => []
  | d :: ds => parts d ++ partsOfMembers ds

/-- The parts of all property types. -/
@[simp] def partsOfProperties : List (Property Descriptor) → List Descriptor
  | [] => []
  | ⟨_, _, d⟩ :: ps => parts d ++ partsOfProperties ps

/-- The parts of the descriptor of additional keys. -/
@[simp] def partsOfAdditional : Additional Descriptor → List Descriptor
  | .reject => []
  | .allow d => parts d

end

mutual

/-- There are as many parts as the size says. -/
theorem length_parts : ∀ d : Descriptor, (parts d).length = size d
  | .union members => by simp [parts, size, length_partsOfMembers members]
  | .array item => by simp [parts, size, length_parts item]
  | .object properties additional => by
    simp [parts, size, length_partsOfProperties properties, length_partsOfAdditional additional]
  | .primitive _ | .any | .null | .never | .undefined | .date | .literal _ | .ref _ | .enum _ => rfl

theorem length_partsOfMembers : ∀ ds : List Descriptor,
    (partsOfMembers ds).length = sizeMembers ds
  | [] => rfl
  | d :: ds => by
    simp [partsOfMembers, sizeMembers, length_parts d, length_partsOfMembers ds]

theorem length_partsOfProperties : ∀ ps : List (Property Descriptor),
    (partsOfProperties ps).length = sizeProperties ps
  | [] => rfl
  | ⟨_, _, d⟩ :: ps => by
    simp [partsOfProperties, sizeProperties, length_parts d, length_partsOfProperties ps]

theorem length_partsOfAdditional : ∀ x : Additional Descriptor,
    (partsOfAdditional x).length = sizeAdditional x
  | .reject => rfl
  | .allow d => by simp [partsOfAdditional, sizeAdditional, length_parts d]

end

theorem mem_parts_self (d : Descriptor) : d ∈ parts d := by
  cases d <;> simp

theorem mem_partsOfMembers_iff {a : Descriptor} {ds : List Descriptor} :
    a ∈ partsOfMembers ds ↔ ∃ d ∈ ds, a ∈ parts d := by
  induction ds with
  | nil => simp [partsOfMembers]
  | cons d ds ih => rw [partsOfMembers, List.mem_append, ih, List.exists_mem_cons_iff]

theorem parts_subset_of_member {m : Descriptor} {ds : List Descriptor} (hm : m ∈ ds) :
    parts m ⊆ partsOfMembers ds := fun _ ha => mem_partsOfMembers_iff.mpr ⟨m, hm, ha⟩

theorem mem_partsOfProperties_iff {a : Descriptor} {ps : List (Property Descriptor)} :
    a ∈ partsOfProperties ps ↔ ∃ p ∈ ps, a ∈ parts p.descriptor := by
  induction ps with
  | nil => simp [partsOfProperties]
  | cons p ps ih => rw [partsOfProperties, List.mem_append, ih, List.exists_mem_cons_iff]

theorem parts_subset_of_property {p : Property Descriptor} {ps : List (Property Descriptor)}
    (hp : p ∈ ps) : parts p.descriptor ⊆ partsOfProperties ps :=
  fun _ ha => mem_partsOfProperties_iff.mpr ⟨p, hp, ha⟩

/-- What a descriptor opens is one of its own parts, unless it is the meaning of a name. -/
theorem opens_mem_parts {table : Table} {a b : Descriptor} (ho : table.Opens a b) :
    b ∈ parts a ∨ ∃ name, a = .ref name ∧ table.get? name = some b := by
  cases ho with
  | ref h => exact .inr ⟨_, rfl, h⟩
  | member h =>
    exact .inl (List.mem_cons_of_mem _ (parts_subset_of_member h (mem_parts_self b)))
  | item => exact .inl (List.mem_cons_of_mem _ (mem_parts_self b))
  | property h =>
    refine .inl (List.mem_cons_of_mem _ (List.mem_append_left _ ?_))
    exact parts_subset_of_property h (mem_parts_self _)
  | extra =>
    refine .inl (List.mem_cons_of_mem _ (List.mem_append_right _ ?_))
    exact mem_parts_self b

mutual

/-- The parts of a part are parts. -/
theorem parts_subset_of_mem {a : Descriptor} : ∀ d : Descriptor, a ∈ parts d → parts a ⊆ parts d
  | .union members, h => by
    rcases List.mem_cons.mp h with rfl | h
    · exact fun _ hx => hx
    · exact List.subset_cons_of_subset _ (parts_subset_of_mem_members members h)
  | .array item, h => by
    rcases List.mem_cons.mp h with rfl | h
    · exact fun _ hx => hx
    · exact List.subset_cons_of_subset _ (parts_subset_of_mem item h)
  | .object properties additional, h => by
    rcases List.mem_cons.mp h with rfl | h
    · exact fun _ hx => hx
    · refine List.subset_cons_of_subset _ ?_
      rcases List.mem_append.mp h with h | h
      · exact List.subset_append_of_subset_left _ (parts_subset_of_mem_properties properties h)
      · exact List.subset_append_of_subset_right _ (parts_subset_of_mem_additional additional h)
  | .primitive _, h | .any, h | .null, h | .never, h | .undefined, h | .date, h | .literal _, h
  | .ref _, h | .enum _, h => by
    rw [List.mem_singleton.mp h]
    exact fun _ hx => hx

theorem parts_subset_of_mem_members {a : Descriptor} : ∀ ds : List Descriptor,
    a ∈ partsOfMembers ds → parts a ⊆ partsOfMembers ds
  | d :: ds, h => by
    rcases List.mem_append.mp h with h | h
    · exact List.subset_append_of_subset_left _ (parts_subset_of_mem d h)
    · exact List.subset_append_of_subset_right _ (parts_subset_of_mem_members ds h)

theorem parts_subset_of_mem_properties {a : Descriptor} : ∀ ps : List (Property Descriptor),
    a ∈ partsOfProperties ps → parts a ⊆ partsOfProperties ps
  | ⟨_, _, d⟩ :: ps, h => by
    rcases List.mem_append.mp h with h | h
    · exact List.subset_append_of_subset_left _ (parts_subset_of_mem d h)
    · exact List.subset_append_of_subset_right _ (parts_subset_of_mem_properties ps h)

theorem parts_subset_of_mem_additional {a : Descriptor} : ∀ x : Additional Descriptor,
    a ∈ partsOfAdditional x → parts a ⊆ partsOfAdditional x
  | .allow d, h => parts_subset_of_mem d h

end

end Descriptor

namespace Table

/-- All descriptors that a walk from `d` can come across. -/
def catalog (table : Table) (d : Descriptor) : List Descriptor :=
  table.definitions.flatMap (fun e => e.2.parts) ++ d.parts

theorem length_catalog (table : Table) (d : Descriptor) :
    (table.catalog d).length = table.weight + d.size := by
  have hlength : ∀ es : List (String × Descriptor), (es.flatMap fun e => e.2.parts).length =
      es.foldr (fun e rest => e.2.size + rest) 0 := by
    intro es
    induction es with
    | nil => rfl
    | cons e es ih =>
      rw [List.flatMap_cons, List.length_append, Descriptor.length_parts, ih, List.foldr_cons]
  rw [catalog, weight, List.length_append, Descriptor.length_parts, hlength]

/-- The catalog holds what its members open. -/
theorem opens_mem_catalog {table : Table} {d a b : Descriptor} (ha : a ∈ table.catalog d)
    (ho : table.Opens a b) : b ∈ table.catalog d := by
  rcases Descriptor.opens_mem_parts ho with hb | ⟨name, -, hget⟩
  · rcases List.mem_append.mp ha with ha | ha
    · obtain ⟨e, he, ha⟩ := List.mem_flatMap.mp ha
      refine List.mem_append_left _ (List.mem_flatMap.mpr ⟨e, he, ?_⟩)
      exact Descriptor.parts_subset_of_mem _ ha hb
    · exact List.mem_append_right _ (Descriptor.parts_subset_of_mem _ ha hb)
  · refine List.mem_append_left _ (List.mem_flatMap.mpr ⟨(name, b), ?_, b.mem_parts_self⟩)
    exact Keyed.mem_of_lookup hget

/-- The catalog of a descriptor holds all that it reaches. -/
theorem Reaches.mem_catalog {table : Table} {d a : Descriptor} (h : table.Reaches d a) :
    a ∈ table.catalog d := by
  induction h with
  | refl => exact List.mem_append_right _ d.mem_parts_self
  | tail _ ho ih => exact opens_mem_catalog ih ho

end Table
end Wireform
