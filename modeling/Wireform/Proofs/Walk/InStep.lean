/-
# Two walks in step

A walk does nothing with the conversion of a part but look at its result, and it
does that in three ways: it hands a result on, it goes on with an accepted slot,
and a union turns to its next member. A relation between results that these three
respect (`Respected`) therefore holds between two walks of one slot as soon as it
holds between what they do with its parts. The two may go by descriptors that differ
in their parts (`value_congruent`) or by the same one (`value_inStep`). The parts of
a visit are the places that it may turn to (`Calls`).

Key definitions: `Place`, `Calls`, `Respected`, `Paired`.
Key theorems: `value_congruent`, `value_inStep`.
-/
import Wireform.Engine.Walk
import Wireform.Proofs.Descriptor.Related
import Wireform.Proofs.Keyed

namespace Wireform

/-- Whether a value is an array or an object. -/
def Json.IsContainer : Json → Prop
  | .array _ | .object _ => True
  | _ => False

namespace Walk

/-! ### The parts of a visit -/

/-- What is walked: a slot against a descriptor, with so many containers around. -/
structure Place where
  descriptor : Descriptor
  depth : Nat
  slot : Slot

/-- The places that a walk may turn to from a place. A property may be looked up
under any key. -/
inductive Calls (table : Table) : Place → Place → Prop
  | ref {name d depth slot} (h : table.get? name = some d) :
    Calls table ⟨.ref name, depth, slot⟩ ⟨d, depth, slot⟩
  | member {members d depth slot} (h : d ∈ members) :
    Calls table ⟨.union members, depth, slot⟩ ⟨d, depth, slot⟩
  | item {item depth vs v} (h : v ∈ vs) :
    Calls table ⟨.array item, depth, some (.array vs)⟩ ⟨item, depth + 1, some v⟩
  | property {properties additional depth input p key} (h : p ∈ properties) :
    Calls table ⟨.object properties additional, depth, some (.object input)⟩
      ⟨p.descriptor, depth + 1, input.lookup key⟩
  | extra {properties d depth input m} (h : m ∈ input) :
    Calls table ⟨.object properties (.allow d), depth, some (.object input)⟩
      ⟨d, depth + 1, some m.2⟩

/-! ### Relations between results -/

/-- What a union does with the result of a member: a refusal gives the turn to the next. -/
def orNext (first : Except Refusal Slot) (next : Except Refusal (Option Slot)) :
    Except Refusal (Option Slot) :=
  match first with
  | .ok slot => .ok (some slot)
  | .error .endless => .error .endless
  | .error (.mismatch _) => next

theorem firstAccepted_cons (convert : Descriptor → Except Refusal Slot) (d : Descriptor)
    (ds : List Descriptor) :
    firstAccepted convert (d :: ds) = orNext (convert d) (firstAccepted convert ds) := by
  rw [firstAccepted]
  rcases convert d with (m | _) | s <;> rfl

/-- A relation between results that a walk respects. -/
structure Respected (R : {α : Type} → Except Refusal α → Except Refusal α → Prop) : Prop where
  ok : ∀ {α : Type} (a : α), R (.ok a) (.ok a)
  bind : ∀ {α β : Type} {x y : Except Refusal α} {f g : α → Except Refusal β},
    R x y → (∀ a, R (f a) (g a)) → R (x >>= f) (y >>= g)
  orNext : ∀ {x y : Except Refusal Slot} {f g : Except Refusal (Option Slot)},
    R x y → R f g → R (orNext x f) (orNext y g)

section Loops

variable {R : {α : Type} → Except Refusal α → Except Refusal α → Prop} (hR : Respected @R)

include hR

theorem firstAccepted_inStep {f g : Descriptor → Except Refusal Slot} :
    ∀ {ds ds' : List Descriptor}, List.Forall₂ (fun d d' => R (f d) (g d')) ds ds' →
      R (firstAccepted f ds) (firstAccepted g ds')
  | [], _, .nil => hR.ok none
  | d :: ds, _, .cons h hrest => by
    rw [firstAccepted_cons, firstAccepted_cons]
    exact hR.orNext h (firstAccepted_inStep hrest)

theorem items_inStep {f g : Nat → Json → Except Refusal Slot} :
    ∀ (vs : List Json) (position : Nat), (∀ v ∈ vs, ∀ i, R (f i v) (g i v)) →
      R (items f position vs) (items g position vs)
  | [], _, _ => hR.ok []
  | v :: vs, position, h => by
    refine hR.bind (h v List.mem_cons_self position) fun s => ?_
    refine hR.bind (items_inStep vs (position + 1) fun x hx => h x (List.mem_cons_of_mem _ hx))
      fun rest => ?_
    exact hR.ok _

theorem declared_inStep {f g : String → Descriptor → Slot → Except Refusal Slot}
    {properties properties' : List (Property Descriptor)} (input : List (String × Json))
    (h : List.Forall₂ (fun p p' => ∀ key, R (f key p.descriptor (input.lookup key))
      (g key p'.descriptor (input.lookup key))) properties properties') :
    ∀ (entries : List (String × IndexEntry)) (out : List (String × Json)),
      R (declared f properties input entries out) (declared g properties' input entries out)
  | [], out => hR.ok out
  | (key, entry) :: rest, out => by
    have hentry := rel_getElem? h entry.position
    unfold declared
    generalize properties[entry.position]? = p at hentry
    generalize properties'[entry.position]? = p' at hentry
    cases hentry with
    | none => exact declared_inStep input h rest out
    | some hp => exact hR.bind (hp key) fun s => declared_inStep input h rest _

theorem undeclared_inStep {f g : String → Json → Except Refusal Slot} (index : PropertyIndex) :
    ∀ (input out : List (String × Json)), (∀ m ∈ input, R (f m.1 m.2) (g m.1 m.2)) →
      R (undeclared f index input out) (undeclared g index input out)
  | [], out, _ => hR.ok out
  | (key, v) :: rest, out, h => by
    have hrest : ∀ m ∈ rest, R (f m.1 m.2) (g m.1 m.2) :=
      fun m hm => h m (List.mem_cons_of_mem _ hm)
    unfold undeclared
    split
    · exact undeclared_inStep index rest out hrest
    · exact hR.bind (h (key, v) List.mem_cons_self)
        fun s => undeclared_inStep index rest _ hrest

end Loops

/-- The conversion of an undeclared member of an object. -/
def convertExtra (convert : Descriptor → Site → Slot → Except Refusal Slot)
    (additional : Additional Descriptor) (site : Site) (v : Json) : Except Refusal Slot :=
  match additional with
  | .reject => site.refuse (Descriptor.name .never) (some v)
  | .allow d => convert d site (some v)

/-! ### Visits in step -/

/-- A relation between the visits of two walks (an owner and a site each) under which
refusals are related, and which passes on to the parts of the visits. -/
structure Paired (R : {α : Type} → Except Refusal α → Except Refusal α → Prop)
    (V : Option String → Site → Option String → Site → Prop) : Prop where
  refuse : ∀ {α : Type} {o s o' s'} (expected : String) (slot : Slot), V o s o' s' →
    R (s.refuse expected slot : Except Refusal α) (s'.refuse expected slot)
  shape : ∀ {o s o' s'} (slot : Slot), V o s o' s' →
    R (s.refuse (o.getD "object") slot : Except Refusal Slot) (s'.refuse (o'.getD "object") slot)
  ref : ∀ {o s o' s'} (name : String), V o s o' s' → V (some name) s (some name) s'
  member : ∀ {o s o' s'}, V o s o' s' → V none s.member none s'.member
  item : ∀ {o s o' s'} (i : Nat), V o s o' s' → V none (s.item i) none (s'.item i)
  property : ∀ {o s o' s'} (key : String), V o s o' s' →
    V none (s.property (o.getD "") key) none (s'.property (o'.getD "") key)

section Visits

variable {R : {α : Type} → Except Refusal α → Except Refusal α → Prop} (hR : Respected @R)
  {w w' : Walk} {V : Option String → Site → Option String → Site → Prop} (hV : Paired @R V)
  {o o' : Option String} {s s' : Site} (hv : V o s o' s')

include hR hV hv

theorem primitive_inStep (kind : Kind) (slot : Slot) :
    R (primitive kind slot s) (primitive kind slot s') := by
  unfold primitive
  split
  · split
    · exact hR.ok _
    · exact hV.refuse _ _ hv
  · exact hV.refuse _ _ hv

theorem null_inStep (slot : Slot) : R (null slot s) (null slot s') := by
  unfold null
  split
  · exact hR.ok _
  · exact hV.refuse _ _ hv

theorem undefined_inStep (slot : Slot) : R (undefined slot s) (undefined slot s') := by
  unfold undefined
  split
  · exact hR.ok _
  · exact hV.refuse _ _ hv

theorem date_inStep (slot : Slot) : R (date slot s) (date slot s') := by
  unfold date
  split
  · exact hR.ok _
  · split
    · exact hR.ok _
    · exact hV.refuse _ _ hv
  · exact hV.refuse _ _ hv

theorem enum_inStep (cases : List Json) (slot : Slot) :
    R (enum cases slot s) (enum cases slot s') := by
  unfold enum
  split
  · split
    · exact hR.ok _
    · exact hV.refuse _ _ hv
  · exact hV.refuse _ _ hv

theorem array_inStep {f g : Site → Slot → Except Refusal Slot} (slot : Slot)
    (henter : ∀ v, slot = some v → v.IsContainer → R (w.enter slot s) (w'.enter slot s'))
    (h : ∀ vs, slot = some (.array vs) → ∀ v ∈ vs, ∀ i,
      R (f (s.item i) (some v)) (g (s'.item i) (some v))) :
    R (array w f slot s) (array w' g slot s') := by
  unfold array
  split
  · rename_i vs
    refine hR.bind (henter _ rfl trivial) fun _ => ?_
    refine hR.bind (items_inStep hR vs 0 fun v hvs i => h vs rfl v hvs i) fun out => ?_
    exact hR.ok _
  · exact hV.refuse _ _ hv

/-- Two objects whose shapes declare properties that correspond, and whose undeclared members
are converted in step. -/
theorem object_inStep_undeclared (hdir : w'.direction = w.direction)
    {D : Descriptor → Descriptor → Prop} {f g : Descriptor → Site → Slot → Except Refusal Slot}
    {properties properties' : List (Property Descriptor)}
    {additional additional' : Additional Descriptor}
    (hproperties : List.Forall₂ (Property.Related D) properties properties') (slot : Slot)
    (henter : ∀ v, slot = some v → v.IsContainer → R (w.enter slot s) (w'.enter slot s'))
    (hp : ∀ input, slot = some (.object input) → ∀ p ∈ properties, ∀ d', D p.descriptor d' →
      ∀ key, R (f p.descriptor (s.property (o.getD "") key) (input.lookup key))
        (g d' (s'.property (o'.getD "") key) (input.lookup key)))
    (hx : ∀ input, slot = some (.object input) → ∀ m ∈ input,
      R (convertExtra f additional (s.property (o.getD "") m.1) m.2)
        (convertExtra g additional' (s'.property (o'.getD "") m.1) m.2)) :
    R (object w f properties additional o slot s)
      (object w' g properties' additional' o' slot s') := by
  unfold object
  split
  · rename_i input
    have hdeclared : List.Forall₂ (fun p p' => ∀ key,
        R (f p.descriptor (s.property (o.getD "") key) (input.lookup key))
          (g p'.descriptor (s'.property (o'.getD "") key) (input.lookup key)))
        properties properties' := by
      refine forall₂_of_mem (fun p hmem p' hpp => ?_) hproperties
      exact hp input rfl p hmem _ hpp.2.2
    refine hR.bind (henter _ rfl trivial) fun _ => ?_
    rw [hdir, PropertyIndex.ofProperties_of_related hproperties]
    refine hR.bind (declared_inStep hR input hdeclared _ _) fun out => ?_
    exact hR.bind (undeclared_inStep hR _ input out fun m hm => hx input rfl m hm) fun out => hR.ok _
  · exact hV.shape _ hv

theorem object_inStep (hdir : w'.direction = w.direction) {D : Descriptor → Descriptor → Prop}
    {f g : Descriptor → Site → Slot → Except Refusal Slot}
    {properties properties' : List (Property Descriptor)}
    {additional additional' : Additional Descriptor}
    (hproperties : List.Forall₂ (Property.Related D) properties properties')
    (hadditional : Additional.Related D additional additional') (slot : Slot)
    (henter : ∀ v, slot = some v → v.IsContainer → R (w.enter slot s) (w'.enter slot s'))
    (hp : ∀ input, slot = some (.object input) → ∀ p ∈ properties, ∀ d', D p.descriptor d' →
      ∀ key, R (f p.descriptor (s.property (o.getD "") key) (input.lookup key))
        (g d' (s'.property (o'.getD "") key) (input.lookup key)))
    (hx : ∀ input, slot = some (.object input) → ∀ d d', additional = .allow d → D d d' →
      ∀ m ∈ input, R (f d (s.property (o.getD "") m.1) (some m.2))
        (g d' (s'.property (o'.getD "") m.1) (some m.2))) :
    R (object w f properties additional o slot s)
      (object w' g properties' additional' o' slot s') := by
  refine object_inStep_undeclared hR hV hv hdir hproperties slot henter hp fun input hi m hm => ?_
  cases hadditional with
  | reject => exact hV.refuse _ _ (hV.property m.1 hv)
  | allow hd => exact hx input hi _ _ rfl hd m hm

/-- **Two walks of one slot, by descriptors that differ in their parts, are in step if they
are so on the parts.** -/
theorem value_congruent (hdir : w'.direction = w.direction) {D : Descriptor → Descriptor → Prop}
    {n n' : Nat} {d d' : Descriptor} {slot : Slot} (hd : Descriptor.Congruent D d d')
    (hget : ∀ name, d = .ref name → Option.Rel D (w.table.get? name) (w'.table.get? name))
    (hrefuse : R (s.refuse (Descriptor.name d) slot : Except Refusal Slot)
      (s'.refuse (Descriptor.name d') slot))
    (henter : ∀ v, slot = some v → v.IsContainer → R (w.enter slot s) (w'.enter slot s'))
    (hcall : ∀ q d', Calls w.table ⟨d, s.depth, slot⟩ q → D q.descriptor d' →
      ∀ {o s o' s'}, V o s o' s' → s.depth = q.depth →
      R (w.value n o q.descriptor s q.slot) (w'.value n' o' d' s' q.slot)) :
    R (w.value (n + 1) o d s slot) (w'.value (n' + 1) o' d' s' slot) := by
  unfold value
  cases hd with
  | leaf hleaf =>
    cases d with
    | any => exact hR.ok _
    | null => exact null_inStep hR hV hv slot
    | never => exact hV.refuse _ _ hv
    | undefined => exact undefined_inStep hR hV hv slot
    | date => exact date_inStep hR hV hv slot
    | primitive kind => exact primitive_inStep hR hV hv kind slot
    | literal text => exact hV.refuse _ _ hv
    | enum cases => exact enum_inStep hR hV hv cases slot
    | ref _ | union _ | array _ | object _ _ => exact hleaf.elim
  | ref name =>
    have hrel := hget name rfl
    dsimp only
    generalize hname : w.table.get? name = x at hrel
    generalize w'.table.get? name = y at hrel
    cases hrel with
    | none => exact hV.refuse _ _ hv
    | some hdd => exact hcall _ _ (.ref hname) hdd (hV.ref name hv) rfl
  | union hmembers =>
    refine hR.bind (firstAccepted_inStep hR (forall₂_of_mem (fun m hm m' hmm => ?_) hmembers))
      fun accepted => ?_
    · exact hcall _ _ (.member hm) hmm (hV.member hv) rfl
    · cases accepted with
      | none => exact hrefuse
      | some out => exact hR.ok _
  | array hitem =>
    refine array_inStep hR hV hv slot henter fun vs hvs v hmem i => ?_
    subst hvs
    exact hcall _ _ (.item hmem) hitem (hV.item i hv) rfl
  | object hproperties hadditional =>
    refine object_inStep hR hV hv hdir hproperties hadditional slot henter
      (fun input hi p hp d' hdd key => ?_) fun input hi d d' hd hdd m hm => ?_
    · subst hi
      exact hcall _ _ (.property hp) hdd (hV.property key hv) rfl
    · subst hi hd
      exact hcall _ _ (.extra hm) hdd (hV.property m.1 hv) rfl

/-- **Two walks of one slot are in step if they are so on its parts.** -/
theorem value_inStep (hdir : w'.direction = w.direction) {n n' : Nat} {d : Descriptor} {slot : Slot}
    (hname : ∀ name, d = .ref name → w'.table.get? name = w.table.get? name)
    (henter : ∀ v, slot = some v → v.IsContainer → R (w.enter slot s) (w'.enter slot s'))
    (hcall : ∀ q, Calls w.table ⟨d, s.depth, slot⟩ q → ∀ {o s o' s'}, V o s o' s' →
      s.depth = q.depth →
      R (w.value n o q.descriptor s q.slot) (w'.value n' o' q.descriptor s' q.slot)) :
    R (w.value (n + 1) o d s slot) (w'.value (n' + 1) o' d s' slot) := by
  have hget : ∀ name, d = .ref name →
      Option.Rel Eq (w.table.get? name) (w'.table.get? name) := by
    intro name hd
    rw [hname name hd]
    cases w.table.get? name with
    | none => exact .none
    | some d => exact .some rfl
  refine value_congruent hR hV hv hdir (.refl (fun _ => rfl) d) hget (hV.refuse _ _ hv) henter ?_
  rintro q _ hq rfl o s o' s' hv hdepth
  exact hcall q hq hv hdepth

end Visits

end Walk
end Wireform
