/-
# What a table is refused for

A definition can go wrong in two ways. Something that stands in it is out of order: a
name that is not defined, or an object shape with a key twice (`Table.Defect`). Or nothing
in it is, and the chain of names that starts at it never ends. The checks look at the
definitions one by one, and in each at what stands in it before they follow its chain.
So a table is accepted if and only if nothing is wrong with any definition, and what a
table is refused for is wrong with the first definition that has a fault
(`Table.build_exact`).

A chain that runs into an undefined name ends there. No definition on it is refused as a
cycle; the last one is refused for the name it hands on to.

Key definitions: `Table.InOrder`, `Table.Defect`, `Table.Flawless`.
Key theorems: `Table.checkDescriptor_eq_ok_iff`, `Table.defect_of_checkDescriptor`,
`Table.checkDefinitions_eq_error_iff`, `Table.build_exact`.
-/
import Wireform.Proofs.Table.Chain

namespace Wireform
namespace Table

/-- What is asked of a descriptor, but not of the descriptors in it: a name is defined, and
an object shape declares no key of one form twice. -/
def InOrder (table : Table) : Descriptor → Prop
  | .ref target => target ∈ table.names
  | .object properties _ =>
    (properties.map (·.wireKey)).Nodup ∧ (properties.map (·.typedKey)).Nodup
  | _ => True

/-- What is reported of a descriptor that stands in the definition of `owner` and is out of
order. -/
inductive Defect (table : Table) (owner : String) : Descriptor → SchemaError → Prop
  | unresolved {target} (h : target ∉ table.names) :
    Defect table owner (.ref target) (.unresolvedRef owner target)
  | wire {properties additional key} (h : List.Duplicate key (properties.map (·.wireKey))) :
    Defect table owner (.object properties additional) (.duplicateKey owner key .wire)
  | typed {properties additional key} (h : List.Duplicate key (properties.map (·.typedKey))) :
    Defect table owner (.object properties additional) (.duplicateKey owner key .typed)

/-- Nothing is wrong with a definition: all that stands in it is in order, and its chain
ends. -/
structure Flawless (table : Table) (definition : String × Descriptor) : Prop where
  parts : ∀ p ∈ definition.2.parts, table.InOrder p
  ends : ¬ Unending table.Aliases definition.1

section Definitions

variable {table : Table} {owner : String} {e : SchemaError}

/-! ### What stands in a definition -/

/-- In a table that knows more names, what was in order is so still. -/
theorem InOrder.of_names {table' : Table} (hnames : table.names ⊆ table'.names) {d : Descriptor}
    (h : table.InOrder d) : table'.InOrder d := by
  cases d with
  | ref target => exact hnames h
  | object properties additional => exact h
  | any | null | never | undefined | date | primitive _ | literal _ | enum _ | union _
  | array _ => trivial

theorem Defect.ne_refCycle {p : Descriptor} {name : String} (h : table.Defect owner p e) :
    e ≠ .refCycle name := by
  cases h <;> exact fun he => by cases he

theorem checkKeys_eq_error {side : Side} {keys : List String}
    (h : checkKeys owner side keys = .error e) :
    ∃ key, List.Duplicate key keys ∧ e = .duplicateKey owner key side := by
  unfold checkKeys at h
  split at h
  · rename_i key hkey
    cases h
    exact ⟨key, Keyed.duplicate_of_firstRepeated_nil hkey, rfl⟩
  · cases h

mutual

/-- **A descriptor passes its check if and only if all that stands in it is in order.** -/
theorem checkDescriptor_eq_ok_iff : ∀ d : Descriptor,
    table.checkDescriptor owner d = .ok () ↔ ∀ p ∈ d.parts, table.InOrder p
  | .ref target => by
    have hparts : (∀ p ∈ (Descriptor.ref target).parts, table.InOrder p) ↔ target ∈ table.names :=
      List.forall_mem_singleton
    rw [checkDescriptor, hparts, ← isSome_get?_iff]
    by_cases h : (table.get? target).isSome = true
    · rw [if_pos h]
      exact iff_of_true rfl h
    · rw [if_neg h]
      exact iff_of_false nofun h
  | .union members => by
    rw [checkDescriptor, Descriptor.parts, List.forall_mem_cons,
      checkMembers_eq_ok_iff_parts members]
    exact (and_iff_right trivial).symm
  | .array item => by
    rw [checkDescriptor, Descriptor.parts, List.forall_mem_cons, checkDescriptor_eq_ok_iff item]
    exact (and_iff_right trivial).symm
  | .object properties additional => by
    rw [checkObject_eq_ok_iff, Descriptor.parts, List.forall_mem_cons, List.forall_mem_append,
      InOrder, and_assoc, checkProperties_eq_ok_iff_parts properties,
      checkAdditional_eq_ok_iff_parts additional]
  | .primitive _ | .any | .null | .never | .undefined | .date | .literal _ | .enum _ =>
    iff_of_true rfl (List.forall_mem_singleton.mpr trivial)

theorem checkMembers_eq_ok_iff_parts : ∀ ds : List Descriptor,
    table.checkMembers owner ds = .ok () ↔ ∀ p ∈ Descriptor.partsOfMembers ds, table.InOrder p
  | [] => by simp [checkMembers]
  | d :: ds => by
    rw [checkMembers, seq_eq_ok_iff, Descriptor.partsOfMembers, List.forall_mem_append,
      checkDescriptor_eq_ok_iff d, checkMembers_eq_ok_iff_parts ds]

theorem checkProperties_eq_ok_iff_parts : ∀ ps : List (Property Descriptor),
    table.checkProperties owner ps = .ok () ↔
      ∀ p ∈ Descriptor.partsOfProperties ps, table.InOrder p
  | [] => by simp [checkProperties]
  | ⟨_, _, d⟩ :: ps => by
    rw [checkProperties, seq_eq_ok_iff, Descriptor.partsOfProperties, List.forall_mem_append,
      checkDescriptor_eq_ok_iff d, checkProperties_eq_ok_iff_parts ps]

theorem checkAdditional_eq_ok_iff_parts : ∀ x : Additional Descriptor,
    table.checkAdditional owner x = .ok () ↔
      ∀ p ∈ Descriptor.partsOfAdditional x, table.InOrder p
  | .reject => by simp [checkAdditional]
  | .allow d => by
    rw [checkAdditional, Descriptor.partsOfAdditional, checkDescriptor_eq_ok_iff d]

end

mutual

/-- **What is reported of a descriptor is a fault of something that stands in it.** -/
theorem defect_of_checkDescriptor : ∀ d : Descriptor, table.checkDescriptor owner d = .error e →
    ∃ p ∈ d.parts, table.Defect owner p e
  | .ref target, h => by
    rw [checkDescriptor] at h
    split at h
    · cases h
    · rename_i hget
      cases h
      exact ⟨_, List.mem_singleton.mpr rfl, .unresolved fun hmem => hget (isSome_get?_iff.mpr hmem)⟩
  | .union members, h => by
    rw [checkDescriptor] at h
    obtain ⟨p, hp, hdefect⟩ := defect_of_checkMembers members h
    exact ⟨p, List.mem_cons_of_mem _ hp, hdefect⟩
  | .array item, h => by
    rw [checkDescriptor] at h
    obtain ⟨p, hp, hdefect⟩ := defect_of_checkDescriptor item h
    exact ⟨p, List.mem_cons_of_mem _ hp, hdefect⟩
  | .object properties additional, h => by
    rw [checkDescriptor, seq_eq_error_iff, seq_eq_error_iff, seq_eq_error_iff] at h
    rcases h with h | ⟨-, h | ⟨-, h | ⟨-, h⟩⟩⟩
    · obtain ⟨key, hkey, rfl⟩ := checkKeys_eq_error h
      exact ⟨_, List.mem_cons_self, .wire hkey⟩
    · obtain ⟨key, hkey, rfl⟩ := checkKeys_eq_error h
      exact ⟨_, List.mem_cons_self, .typed hkey⟩
    · obtain ⟨p, hp, hdefect⟩ := defect_of_checkProperties properties h
      exact ⟨p, List.mem_cons_of_mem _ (List.mem_append_left _ hp), hdefect⟩
    · obtain ⟨p, hp, hdefect⟩ := defect_of_checkAdditional additional h
      exact ⟨p, List.mem_cons_of_mem _ (List.mem_append_right _ hp), hdefect⟩
  | .primitive _, h | .any, h | .null, h | .never, h | .undefined, h | .date, h | .literal _, h
  | .enum _, h => by simp [checkDescriptor] at h

theorem defect_of_checkMembers : ∀ ds : List Descriptor, table.checkMembers owner ds = .error e →
    ∃ p ∈ Descriptor.partsOfMembers ds, table.Defect owner p e
  | [], h => by cases h
  | d :: ds, h => by
    rw [checkMembers, seq_eq_error_iff] at h
    rcases h with h | ⟨-, h⟩
    · obtain ⟨p, hp, hdefect⟩ := defect_of_checkDescriptor d h
      exact ⟨p, List.mem_append_left _ hp, hdefect⟩
    · obtain ⟨p, hp, hdefect⟩ := defect_of_checkMembers ds h
      exact ⟨p, List.mem_append_right _ hp, hdefect⟩

theorem defect_of_checkProperties : ∀ ps : List (Property Descriptor),
    table.checkProperties owner ps = .error e →
      ∃ p ∈ Descriptor.partsOfProperties ps, table.Defect owner p e
  | [], h => by cases h
  | ⟨_, _, d⟩ :: ps, h => by
    rw [checkProperties, seq_eq_error_iff] at h
    rcases h with h | ⟨-, h⟩
    · obtain ⟨p, hp, hdefect⟩ := defect_of_checkDescriptor d h
      exact ⟨p, List.mem_append_left _ hp, hdefect⟩
    · obtain ⟨p, hp, hdefect⟩ := defect_of_checkProperties ps h
      exact ⟨p, List.mem_append_right _ hp, hdefect⟩

theorem defect_of_checkAdditional : ∀ x : Additional Descriptor,
    table.checkAdditional owner x = .error e →
      ∃ p ∈ Descriptor.partsOfAdditional x, table.Defect owner p e
  | .reject, h => by cases h
  | .allow d, h => defect_of_checkDescriptor d h

end

/-! ### The definitions in order -/

theorem flawless_iff {x : String × Descriptor} : table.Flawless x ↔
    table.checkDescriptor x.1 x.2 = .ok () ∧ table.checkChain x.1 = .ok () := by
  rw [checkDescriptor_eq_ok_iff, checkChain_eq_ok_iff]
  exact ⟨fun h => ⟨h.parts, h.ends⟩, fun h => ⟨h.1, h.2⟩⟩

/-- What one definition is refused for. -/
def RefusedFor (table : Table) (x : String × Descriptor) (e : SchemaError) : Prop :=
  table.checkDescriptor x.1 x.2 = .error e ∨
    table.checkDescriptor x.1 x.2 = .ok () ∧ table.checkChain x.1 = .error e

/-- **The first definition with a fault is the one that is reported.** -/
theorem checkDefinitions_eq_error_iff : ∀ {ds : List (String × Descriptor)},
    table.checkDefinitions ds = .error e ↔ ∃ before x after, ds = before ++ x :: after ∧
      (∀ b ∈ before, table.Flawless b) ∧ table.RefusedFor x e
  | [] => by
    rw [checkDefinitions]
    constructor
    · intro h; cases h
    · rintro ⟨before, x, after, h, -⟩
      simp at h
  | (name, d) :: ds => by
    rw [exists_first_cons_iff, ← checkDefinitions_eq_error_iff, flawless_iff, checkDefinitions,
      seq_eq_error_iff, seq_eq_error_iff, RefusedFor]
    tauto

/-- What a definition is refused for is a fault of something in it; only if there is none is
it the chain that starts there. -/
theorem RefusedFor.defect {x : String × Descriptor} (h : table.RefusedFor x e) :
    (∃ p ∈ x.2.parts, table.Defect x.1 p e) ∨
      (∀ p ∈ x.2.parts, table.InOrder p) ∧ Unending table.Aliases x.1 ∧ e = .refCycle x.1 := by
  rcases h with h | ⟨hparts, hchain⟩
  · exact .inl (defect_of_checkDescriptor x.2 h)
  · exact .inr ⟨(checkDescriptor_eq_ok_iff x.2).mp hparts, checkChain_eq_error_iff.mp hchain⟩

theorem refusedFor_refCycle_iff {x : String × Descriptor} {name : String} :
    table.RefusedFor x (.refCycle name) ↔
      (∀ p ∈ x.2.parts, table.InOrder p) ∧ Unending table.Aliases x.1 ∧ x.1 = name := by
  constructor
  · intro h
    rcases h.defect with ⟨p, -, hdefect⟩ | ⟨hparts, hchain, hname⟩
    · exact (hdefect.ne_refCycle rfl).elim
    · exact ⟨hparts, hchain, (SchemaError.refCycle.inj hname).symm⟩
  · rintro ⟨hparts, hchain, rfl⟩
    have hcheck : table.checkDescriptor x.1 x.2 = .ok () :=
      (checkDescriptor_eq_ok_iff x.2).mpr hparts
    exact .inr ⟨hcheck, checkChain_eq_error_iff.mpr ⟨hchain, rfl⟩⟩

/-- A definition that is directly an undefined name is refused for it. -/
theorem refusedFor_unresolved {name target : String} (h : target ∉ table.names) :
    table.RefusedFor (name, .ref target) (.unresolvedRef name target) := by
  refine .inl ?_
  rw [checkDescriptor, if_neg fun hsome => h (isSome_get?_iff.mp hsome)]

end Definitions

/-! ### The whole table -/

section Build

variable {definitions : List (String × Descriptor)}

theorem build_eq_error_iff (hn : (Keyed.keys definitions).Nodup) {e : SchemaError} :
    build definitions = .error e ↔
      (Table.mk definitions).checkDefinitions definitions = .error e := by
  unfold build
  rw [Keyed.firstRepeated_nil_eq_none_iff.mpr hn]
  show ((Table.mk definitions).checkDefinitions definitions >>= fun _ => _) = _ ↔ _
  rw [bind_eq_error_iff]
  refine or_iff_left ?_
  rintro ⟨_, -, h⟩
  cases h

theorem build_of_not_nodup (hn : ¬ (Keyed.keys definitions).Nodup) :
    ∃ name, List.Duplicate name (Keyed.keys definitions) ∧
      build definitions = .error (.duplicateType name) := by
  unfold build
  cases hrepeated : Keyed.firstRepeated [] (Keyed.keys definitions) with
  | none => exact (hn (Keyed.firstRepeated_nil_eq_none_iff.mp hrepeated)).elim
  | some name => exact ⟨name, Keyed.duplicate_of_firstRepeated_nil hrepeated, rfl⟩

/-- A definition of the table, with nothing wrong in those before it. -/
def SoundBefore (table : Table) (x : String × Descriptor) : Prop :=
  ∃ before after, table.definitions = before ++ x :: after ∧ ∀ b ∈ before, table.Flawless b

theorem build_eq_error_iff_refusedFor (hn : (Keyed.keys definitions).Nodup) {e : SchemaError} :
    build definitions = .error e ↔
      ∃ x, SoundBefore ⟨definitions⟩ x ∧ RefusedFor ⟨definitions⟩ x e := by
  rw [build_eq_error_iff hn, checkDefinitions_eq_error_iff]
  constructor
  · rintro ⟨before, x, after, hds, hbefore, hx⟩
    exact ⟨x, ⟨before, after, hds, hbefore⟩, hx⟩
  · rintro ⟨x, ⟨before, after, hds, hbefore⟩, hx⟩
    exact ⟨before, x, after, hds, hbefore, hx⟩

theorem build_eq_ok_iff_flawless {built : Table} : build definitions = .ok built ↔
    built = ⟨definitions⟩ ∧ (Keyed.keys definitions).Nodup ∧
      ∀ x ∈ definitions, Flawless ⟨definitions⟩ x := by
  rw [build_eq_ok_iff, checkDefinitions_eq_ok_iff]
  simp only [flawless_iff]
  refine and_congr_right fun h => ?_
  rw [h]

theorem build_eq_refCycle_iff (hn : (Keyed.keys definitions).Nodup) {name : String} :
    build definitions = .error (.refCycle name) ↔
      ∃ d, SoundBefore ⟨definitions⟩ (name, d) ∧ (∀ p ∈ d.parts, InOrder ⟨definitions⟩ p) ∧
        LeadsIntoCycle ⟨definitions⟩ name := by
  rw [build_eq_error_iff_refusedFor hn]
  constructor
  · rintro ⟨⟨_, d⟩, hfirst, hx⟩
    obtain ⟨hparts, hchain, rfl⟩ := refusedFor_refCycle_iff.mp hx
    exact ⟨d, hfirst, hparts, unending_aliases_iff.mp hchain⟩
  · rintro ⟨d, hfirst, hparts, hcycle⟩
    refine ⟨(name, d), hfirst, refusedFor_refCycle_iff.mpr ⟨hparts, ?_, rfl⟩⟩
    exact unending_aliases_iff.mpr hcycle

/-- **A table is accepted if and only if nothing is wrong with it, and what it is refused
for is wrong with the first definition that has a fault.** -/
theorem build_exact (definitions : List (String × Descriptor)) :
    let table : Table := ⟨definitions⟩
    (∀ built, build definitions = .ok built ↔
      built = table ∧ table.names.Nodup ∧ ∀ x ∈ definitions, table.Flawless x) ∧
    (¬ table.names.Nodup →
      ∃ name, List.Duplicate name table.names ∧ build definitions = .error (.duplicateType name)) ∧
    (table.names.Nodup →
      (∀ e, build definitions = .error e → ∃ name d, table.SoundBefore (name, d) ∧
        ((∃ p ∈ d.parts, table.Defect name p e) ∨
          (∀ p ∈ d.parts, table.InOrder p) ∧ table.LeadsIntoCycle name ∧ e = .refCycle name)) ∧
      (∀ name, build definitions = .error (.refCycle name) ↔ ∃ d, table.SoundBefore (name, d) ∧
        (∀ p ∈ d.parts, table.InOrder p) ∧ table.LeadsIntoCycle name) ∧
      ∀ name last target, Relation.ReflTransGen table.Aliases name last →
        table.Aliases last target → target ∉ table.names →
          (∀ built, build definitions ≠ .ok built) ∧
          build definitions ≠ .error (.refCycle name) ∧
          (table.SoundBefore (last, .ref target) →
            build definitions = .error (.unresolvedRef last target))) := by
  intro table
  refine ⟨fun built => build_eq_ok_iff_flawless, build_of_not_nodup, fun hn => ⟨fun e he => ?_,
    fun name => build_eq_refCycle_iff hn, fun name last target hr hlast htarget => ⟨?_, ?_, ?_⟩⟩⟩
  · obtain ⟨⟨name, d⟩, hfirst, hx⟩ := (build_eq_error_iff_refusedFor hn).mp he
    refine ⟨name, d, hfirst, hx.defect.imp_right fun ⟨hparts, hchain, hname⟩ => ?_⟩
    exact ⟨hparts, unending_aliases_iff.mp hchain, hname⟩
  · -- the last name of the chain is in order only if the target is defined
    intro built hbuilt
    obtain ⟨-, -, hall⟩ := build_eq_ok_iff_flawless.mp hbuilt
    have hmem : (last, .ref target) ∈ definitions := Keyed.mem_of_lookup hlast
    exact htarget ((hall _ hmem).parts _ (Descriptor.mem_parts_self _))
  · intro hrefused
    obtain ⟨_, -, -, hcycle⟩ := (build_eq_refCycle_iff hn).mp hrefused
    exact not_unending_of_notMem hr hlast htarget (unending_aliases_iff.mpr hcycle)
  · intro hfirst
    exact (build_eq_error_iff_refusedFor hn).mpr ⟨_, hfirst, refusedFor_unresolved htarget⟩

/-- A type whose chain leads into a cycle that it is not on, and a chain that runs into a name
that is not defined, with a cycle further on in the table. -/
theorem build_exact_chains :
    let rho : List (String × Descriptor) :=
      [("Plain", .date), ("Head", .ref "Left"), ("Left", .ref "Right"), ("Right", .ref "Left")]
    let loose : List (String × Descriptor) :=
      [("Alias", .ref "Last"), ("Last", .ref "Missing"), ("Loop", .ref "Loop")]
    (Keyed.keys rho).Nodup ∧ build rho = .error (.refCycle "Head") ∧
      (Keyed.keys loose).Nodup ∧ build loose = .error (.unresolvedRef "Last" "Missing") := by
  intro rho loose
  have hrho : (Keyed.keys rho).Nodup := by decide
  have hloose : (Keyed.keys loose).Nodup := by decide
  refine ⟨hrho, ?_, hloose, ?_⟩
  · obtain ⟨-, -, hfailure⟩ := build_exact rho
    obtain ⟨-, hcycle, -⟩ := hfailure hrho
    have hplain : Flawless ⟨rho⟩ ("Plain", .date) := by
      refine ⟨List.forall_mem_singleton.mpr trivial, ?_⟩
      rintro ⟨f, hf0, hf⟩
      have hfirst := hf 0
      rw [hf0] at hfirst
      cases hfirst
    refine (hcycle "Head").mpr ⟨_, ⟨[("Plain", .date)], _, rfl, ?_⟩, ?_, ?_⟩
    · exact List.forall_mem_singleton.mpr hplain
    · exact List.forall_mem_singleton.mpr (show "Left" ∈ Keyed.keys rho by decide)
    · exact ⟨"Left", .single rfl, .tail (.single (b := "Right") rfl) rfl⟩
  · obtain ⟨-, -, hfailure⟩ := build_exact loose
    obtain ⟨-, -, hundefined⟩ := hfailure hloose
    have hlast : Aliases ⟨loose⟩ "Last" "Missing" := rfl
    have hchain : Relation.ReflTransGen (Aliases ⟨loose⟩) "Alias" "Last" := .single rfl
    have hmissing : "Missing" ∉ names ⟨loose⟩ := by decide
    obtain ⟨-, -, hreported⟩ := hundefined "Alias" "Last" "Missing" hchain hlast hmissing
    refine hreported ⟨[("Alias", .ref "Last")], _, rfl, List.forall_mem_singleton.mpr ⟨?_, ?_⟩⟩
    · exact List.forall_mem_singleton.mpr (show "Last" ∈ Keyed.keys loose by decide)
    · exact not_unending_of_notMem hchain hlast hmissing

end Build
end Table
end Wireform
