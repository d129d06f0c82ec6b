/-
# Swapping the two forms

Exchanging wire and typed keys everywhere, in a table or in a descriptor, exchanges
the two directions and nothing else: what was encoded is then decoded, with the same
answer to the last field of a mismatch. A direction shows in a walk only through the
property indexes, and the index of swapped properties in the other direction is the
same index (`ofProperties_swap`); so two walks go the same way, step by step
(`value_swap`). A swapped table is accepted like the table; only which of two faults
is named may differ, since wire keys are looked at before typed keys.

Key definitions: `Descriptor.swap`, `Table.swap`, `Engine.swap`,
`Engine.SameAnswer`.
Key theorems: `Walk.value_swap`, `Table.build_swap_iff`, `Engine.swap_symmetry`.
-/
import Wireform.Proofs.Table.Reach
import Wireform.Engine.Basic

namespace Wireform

namespace Descriptor

mutual

/-- A descriptor with wire and typed keys exchanged everywhere. -/
def swap : Descriptor → Descriptor
  | .union members => .union (swapMembers members)
  | .array item => .array (swap item)
  | .object properties additional => .object (swapProperties properties) (swapAdditional additional)
  | .primitive kind => .primitive kind
  | .any => .any
  | .null => .null
  | .never => .never
  | .undefined => .undefined
  | .date => .date
  | .literal text => .literal text
  | .ref target => .ref target
  | .enum cases => .enum cases

/-- Members with their keys exchanged. -/
def swapMembers : List Descriptor → List Descriptor
  | [] => []
  | d :: ds => swap d :: swapMembers ds

/-- Properties with their keys exchanged, and those in their types. -/
def swapProperties : List (Property Descriptor) → List (Property Descriptor)
  | [] => []
  | ⟨wire, typed, d⟩ :: ps => ⟨typed, wire, swap d⟩ :: swapProperties ps

/-- Additional keys whose values have their keys exchanged. -/
def swapAdditional : Additional Descriptor → Additional Descriptor
  | .reject => .reject
  | .allow d => .allow (swap d)

end

end Descriptor

/-- A property with its keys exchanged, and those in its type. -/
def Property.swap (p : Property Descriptor) : Property Descriptor :=
  ⟨p.typedKey, p.wireKey, p.descriptor.swap⟩

namespace Descriptor

theorem swapMembers_eq_map (ds : List Descriptor) : swapMembers ds = ds.map swap := by
  induction ds with
  | nil => rfl
  | cons d ds ih => exact congrArg (swap d :: ·) ih

theorem swapProperties_eq_map (ps : List (Property Descriptor)) :
    swapProperties ps = ps.map Property.swap := by
  induction ps with
  | nil => rfl
  | cons p ps ih => exact congrArg (p.swap :: ·) ih

/-! ### What a swap leaves as it is -/

mutual

theorem size_swap : ∀ d : Descriptor, size d.swap = size d
  | .union members => by rw [swap, size, size, sizeMembers_swap members]
  | .array item => by rw [swap, size, size, size_swap item]
  | .object properties additional => by
    rw [swap, size, size, sizeProperties_swap properties, sizeAdditional_swap additional]
  | .primitive _ | .any | .null | .never | .undefined | .date | .literal _ | .ref _ | .enum _ => rfl

theorem sizeMembers_swap : ∀ ds : List Descriptor, sizeMembers (swapMembers ds) = sizeMembers ds
  | [] => rfl
  | d :: ds => by rw [swapMembers, sizeMembers, sizeMembers, size_swap d, sizeMembers_swap ds]

theorem sizeProperties_swap : ∀ ps : List (Property Descriptor),
    sizeProperties (swapProperties ps) = sizeProperties ps
  | [] => rfl
  | ⟨_, _, d⟩ :: ps => by
    rw [swapProperties, sizeProperties, sizeProperties, size_swap d, sizeProperties_swap ps]

theorem sizeAdditional_swap : ∀ x : Additional Descriptor,
    sizeAdditional (swapAdditional x) = sizeAdditional x
  | .reject => rfl
  | .allow d => size_swap d

end

theorem swap_eq_undefined_iff {d : Descriptor} : d.swap = .undefined ↔ d = .undefined := by
  cases d <;> simp [swap]

theorem swapMembers_ne {members : List Descriptor} (h : ∀ inner, members ≠ [.undefined, inner]) :
    ∀ inner, swapMembers members ≠ [.undefined, inner] := by
  intro inner he
  rw [swapMembers_eq_map, List.map_eq_cons_iff] at he
  obtain ⟨d, ds, rfl, hd, hds⟩ := he
  obtain ⟨e, rfl, -⟩ := List.map_eq_singleton_iff.mp hds
  exact h e (by rw [swap_eq_undefined_iff.mp hd])

mutual

theorem name_swap : ∀ d : Descriptor, name d.swap = name d
  | .union members => by
    have ih := memberNames_swap members
    by_cases h : ∃ inner, members = [.undefined, inner]
    · obtain ⟨inner, rfl⟩ := h
      simp only [swapMembers, memberNames, List.cons.injEq, and_true] at ih
      simp only [swap, swapMembers, name, ih.2]
    · have hne : ∀ inner, members ≠ [.undefined, inner] := fun inner he => h ⟨inner, he⟩
      rw [swap, name_union hne, name_union (swapMembers_ne hne), ih]
  | .array _ | .object _ _ | .primitive _ | .any | .null | .never | .undefined | .date
  | .literal _ | .ref _ | .enum _ => rfl

theorem memberNames_swap : ∀ ds : List Descriptor, memberNames (swapMembers ds) = memberNames ds
  | [] => rfl
  | d :: ds => by rw [swapMembers, memberNames, memberNames, name_swap d, memberNames_swap ds]

end

end Descriptor

/-- The definitions with wire and typed keys exchanged everywhere. -/
def Table.swap (table : Table) : Table := ⟨table.definitions.map fun e => (e.1, e.2.swap)⟩

/-- The walk in the other direction of the swapped table. -/
def Walk.swap (w : Walk) : Walk := ⟨w.table.swap, w.direction.flip, w.maxDepth⟩

/-- The engine of the swapped table. -/
def Engine.swap (e : Engine) : Engine := ⟨e.table.swap, e.maxDepth⟩

namespace Table

theorem get?_swap (table : Table) (name : String) :
    table.swap.get? name = (table.get? name).map Descriptor.swap := by
  unfold get? swap
  induction table.definitions with
  | nil => rfl
  | cons e rest ih =>
    obtain ⟨key, d⟩ := e
    by_cases hk : name = key
    · subst hk
      simp
    · rw [List.map_cons, Keyed.lookup_cons_of_ne hk, Keyed.lookup_cons_of_ne hk, ih]

theorem keys_swap (table : Table) :
    Keyed.keys table.swap.definitions = Keyed.keys table.definitions := by
  rw [Keyed.keys, Keyed.keys, swap, List.map_map]
  rfl

theorem size_swap (table : Table) : table.swap.size = table.size := List.length_map _

theorem weight_swap (table : Table) : table.swap.weight = table.weight := by
  unfold weight swap
  rw [List.foldr_map]
  simp only [Descriptor.size_swap]

end Table

/-! ### The walk -/

namespace PropertyIndex

theorem entriesFrom_swap (direction : Direction) : ∀ (position : Nat)
    (ps : List (Property Descriptor)),
    entriesFrom direction.flip position (ps.map Property.swap) = entriesFrom direction position ps
  | _, [] => rfl
  | position, p :: ps => by
    have ih := entriesFrom_swap direction (position + 1) ps
    cases direction with
    | decode => exact congrArg (_ :: ·) ih
    | encode => exact congrArg (_ :: ·) ih

/-- The index of swapped properties in the other direction is the same. -/
theorem ofProperties_swap (properties : List (Property Descriptor)) (direction : Direction) :
    ofProperties (properties.map Property.swap) direction.flip = ofProperties properties direction := by
  rw [ofProperties, ofProperties, entriesFrom_swap]

end PropertyIndex

namespace Walk

section Loops

theorem firstAccepted_swap {f g : Descriptor → Except Refusal Slot} (h : ∀ d, f d.swap = g d) :
    ∀ ds : List Descriptor, firstAccepted f (ds.map Descriptor.swap) = firstAccepted g ds
  | [] => rfl
  | d :: ds => by
    rw [List.map_cons, firstAccepted, firstAccepted, h d, firstAccepted_swap h ds]

theorem declared_swap {f g : String → Descriptor → Slot → Except Refusal Slot}
    (h : ∀ key d slot, f key d.swap slot = g key d slot) (properties : List (Property Descriptor))
    (input : List (String × Json)) : ∀ (entries : List (String × IndexEntry))
      (out : List (String × Json)),
      declared f (properties.map Property.swap) input entries out =
        declared g properties input entries out
  | [], _ => rfl
  | (key, entry) :: rest, out => by
    simp only [declared, List.getElem?_map]
    cases properties[entry.position]? with
    | none => exact declared_swap h properties input rest out
    | some p =>
      simp only [Option.map_some, Property.swap, h, declared_swap h properties input rest]

end Loops

theorem object_swap (w : Walk) {f g : Descriptor → Site → Slot → Except Refusal Slot}
    (h : ∀ d s slot, f d.swap s slot = g d s slot) (properties : List (Property Descriptor))
    (additional : Additional Descriptor) (o : Option String) (slot : Slot) (s : Site) :
    object w.swap f (Descriptor.swapProperties properties) (Descriptor.swapAdditional additional) o
      slot s = object w g properties additional o slot s := by
  rw [Descriptor.swapProperties_eq_map]
  unfold object
  split
  · rename_i input
    rw [show w.swap.direction = w.direction.flip from rfl, PropertyIndex.ofProperties_swap]
    have hdeclared := declared_swap (f := fun key d slot => f d (s.property (o.getD "") key) slot)
      (fun key d slot => h d _ slot) properties input
    cases additional with
    | reject =>
      simp only [Descriptor.swapAdditional, hdeclared]
      rfl
    | allow d =>
      simp only [Descriptor.swapAdditional, hdeclared, h]
      rfl
  · rfl

/-- **The swapped walk goes the same way.** -/
theorem value_swap (w : Walk) : ∀ (n : Nat) (o : Option String) (d : Descriptor) (s : Site)
    (slot : Slot), w.swap.value n o d.swap s slot = w.value n o d s slot
  | 0, _, _, _, _ => rfl
  | n + 1, o, d, s, slot => by
    have ih := value_swap w n
    cases d with
    | ref name =>
      simp only [Descriptor.swap, value]
      rw [show w.swap.table = w.table.swap from rfl, Table.get?_swap]
      cases w.table.get? name with
      | none => rfl
      | some d => exact ih (some name) d s slot
    | union members =>
      have hname := Descriptor.name_swap (.union members)
      simp only [Descriptor.swap, Descriptor.swapMembers_eq_map] at hname
      simp only [Descriptor.swap, value, Descriptor.swapMembers_eq_map]
      rw [firstAccepted_swap fun d => ih none d s.member slot, hname]
    | array item =>
      simp only [Descriptor.swap, value, ih]
      rfl
    | object properties additional =>
      simp only [Descriptor.swap, value]
      exact object_swap w (fun d s slot => ih none d s slot) properties additional o slot s
    | any | null | never | undefined | date | primitive _ | literal _ | enum _ => rfl

end Walk

/-! ### The checks -/

namespace Table

variable (table : Table) (owner : String)

mutual

theorem checkDescriptor_swap : ∀ d : Descriptor,
    table.swap.checkDescriptor owner d.swap = .ok () ↔ table.checkDescriptor owner d = .ok ()
  | .ref target => by
    simp only [Descriptor.swap, checkDescriptor, get?_swap, Option.isSome_map]
  | .union members => by
    simp only [Descriptor.swap, checkDescriptor]
    exact checkMembers_swap members
  | .array item => by
    simp only [Descriptor.swap, checkDescriptor]
    exact checkDescriptor_swap item
  | .object properties additional => by
    have hwire : (properties.map Property.swap).map (·.wireKey) = properties.map (·.typedKey) :=
      List.map_map
    have htyped : (properties.map Property.swap).map (·.typedKey) = properties.map (·.wireKey) :=
      List.map_map
    have hproperties := checkProperties_swap properties
    have hadditional := checkAdditional_swap additional
    rw [Descriptor.swapProperties_eq_map] at hproperties
    simp only [Descriptor.swap, Descriptor.swapProperties_eq_map, checkObject_eq_ok_iff, hwire,
      htyped, hproperties, hadditional]
    exact and_left_comm
  | .primitive _ | .any | .null | .never | .undefined | .date | .literal _ | .enum _ => by
    simp only [Descriptor.swap, checkDescriptor]

theorem checkMembers_swap : ∀ ds : List Descriptor,
    table.swap.checkMembers owner (Descriptor.swapMembers ds) = .ok () ↔
      table.checkMembers owner ds = .ok ()
  | [] => by simp only [Descriptor.swapMembers, checkMembers]
  | d :: ds => by
    simp only [Descriptor.swapMembers, checkMembers, seq_eq_ok_iff, checkDescriptor_swap d,
      checkMembers_swap ds]

theorem checkProperties_swap : ∀ ps : List (Property Descriptor),
    table.swap.checkProperties owner (Descriptor.swapProperties ps) = .ok () ↔
      table.checkProperties owner ps = .ok ()
  | [] => by simp only [Descriptor.swapProperties, checkProperties]
  | ⟨_, _, d⟩ :: ps => by
    simp only [Descriptor.swapProperties, checkProperties, seq_eq_ok_iff, checkDescriptor_swap d,
      checkProperties_swap ps]

theorem checkAdditional_swap : ∀ x : Additional Descriptor,
    table.swap.checkAdditional owner (Descriptor.swapAdditional x) = .ok () ↔
      table.checkAdditional owner x = .ok ()
  | .reject => by simp only [Descriptor.swapAdditional, checkAdditional]
  | .allow d => by
    simp only [Descriptor.swapAdditional, checkAdditional]
    exact checkDescriptor_swap d

end

theorem chainLasts_swap : ∀ (n : Nat) (name : String),
    table.swap.chainLasts n name = table.chainLasts n name
  | 0, _ => rfl
  | n + 1, name => by
    rw [chainLasts, chainLasts, get?_swap]
    cases hd : table.get? name with
    | none => rfl
    | some d =>
      cases d with
      | ref next => exact chainLasts_swap n next
      | any | null | never | undefined | date | primitive _ | literal _ | enum _ | union _
      | array _ | object _ _ => rfl

theorem checkChain_swap (name : String) : table.swap.checkChain name = table.checkChain name := by
  rw [checkChain, checkChain, size_swap, chainLasts_swap]

theorem checkDefinitions_swap : ∀ ds : List (String × Descriptor),
    table.swap.checkDefinitions (ds.map fun e => (e.1, e.2.swap)) = .ok () ↔
      table.checkDefinitions ds = .ok ()
  | [] => by simp only [List.map_nil, checkDefinitions]
  | (name, d) :: ds => by
    simp only [List.map_cons, checkDefinitions, seq_eq_ok_iff, checkDescriptor_swap,
      checkChain_swap, checkDefinitions_swap ds]

/-- **A table is accepted if and only if the swapped table is.** -/
theorem build_swap_iff : build table.swap.definitions = .ok table.swap ↔
    build table.definitions = .ok table := by
  rw [build_eq_ok_iff, build_eq_ok_iff, keys_swap, and_iff_right rfl, and_iff_right rfl]
  exact and_congr_right' (table.checkDefinitions_swap table.definitions)

end Table

/-! ### The answers -/

namespace Engine

theorem run_swap (e : Engine) (v : Json) (d : Descriptor) (direction : Direction) :
    e.swap.run v d.swap direction.flip = e.run v d direction := by
  have hsteps : steps e.swap.table v d.swap = steps e.table v d := by
    rw [steps, steps, show e.swap.table = e.table.swap from rfl, Table.weight_swap,
      Descriptor.size_swap]
  have hvalue := Walk.value_swap ⟨e.table, direction, e.maxDepth⟩ (steps e.table v d) none d .root
    (some v)
  rw [run, run, hsteps]
  simp only [Walk.swap] at hvalue
  simp only [swap, hvalue]

theorem convert_swap (e : Engine) (v : Json) (root : String) (direction : Direction) :
    e.swap.convert v root direction.flip = e.convert v root direction := by
  have hrun := run_swap e v (.ref root) direction
  unfold convert Table.resolve
  rw [show e.swap.table = e.table.swap from rfl, Table.get?_swap]
  cases e.table.get? root with
  | none => rfl
  | some d => exact hrun

/-- Two answers are the same. Of two faults of a descriptor any may be named. -/
def SameAnswer : Except Failure Json → Except Failure Json → Prop
  | .error (.schema _), .error (.schema _) => True
  | a, b => a = b

theorem SameAnswer.of_eq {a b : Except Failure Json} (h : a = b) : SameAnswer a b := by
  subst h
  unfold SameAnswer
  split
  · trivial
  · rfl

theorem transform_swap (e : Engine) (v : Json) (d : Descriptor) (direction : Direction) :
    SameAnswer (e.swap.transform v d.swap direction.flip) (e.transform v d direction) := by
  have hcheck := Table.checkDescriptor_swap e.table "<inline>" d
  unfold transform Table.checkExternal
  rw [show e.swap.table = e.table.swap from rfl]
  rcases hswap : e.table.swap.checkDescriptor "<inline>" d.swap with err | ⟨⟩
  · rcases hplain : e.table.checkDescriptor "<inline>" d with err' | ⟨⟩
    · trivial
    · rw [hcheck.mpr hplain] at hswap
      cases hswap
  · rw [hcheck.mp hswap]
    exact .of_eq (run_swap e v d direction)

/-- **Swapping the two forms exchanges the two directions**: the swapped table is accepted
like the table, and what is asked of it in the other direction has the same answer. -/
theorem swap_symmetry (e : Engine) :
    (Table.build e.swap.table.definitions = .ok e.swap.table ↔
      Table.build e.table.definitions = .ok e.table) ∧
    ∀ (v : Json) (direction : Direction),
      (∀ root, e.swap.convert v root direction.flip = e.convert v root direction) ∧
      ∀ d, SameAnswer (e.swap.transform v d.swap direction.flip) (e.transform v d direction) := by
  refine ⟨e.table.build_swap_iff, fun v direction => ⟨fun root => ?_, fun d => ?_⟩⟩
  · exact convert_swap e v root direction
  · exact transform_swap e v d direction

end Engine
end Wireform
