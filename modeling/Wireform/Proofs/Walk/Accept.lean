/-
# What a walk accepts

A slot that is accepted is converted to one of its own kind (`AcceptsIn.kind`): a
missing slot stays missing, an array stays an array. What is accepted against a
descriptor is described by what is accepted against the descriptors in it: leaves
take a slot as it is (`Takes`), a union is what its first accepting member makes of
the slot, an array is converted item by item, and an object member by member
(`Converts`): first the declared properties in their order, as far as they are
present, then the undeclared members in theirs. Object shapes are those of a built
table, in which no key is declared twice.

Key definitions: `SlotKind`, `Takes`, `extras`, `written`, `Converts`.
Key theorems: `AcceptsIn.kind`, `acceptsIn_union_iff`, `acceptsIn_array_iff`,
`acceptsIn_object_iff`, `Accepts.induct`, `Engine.convert_eq_ok_iff`.
-/
import Wireform.Proofs.Descriptor.Index
import Wireform.Proofs.Walk.Steps
import Mathlib.Data.List.Forall2

namespace Wireform

/-- The kinds that slots come in. -/
inductive SlotKind where
  | missing
  | null
  | boolean
  | number
  | string
  | array
  | object
deriving DecidableEq

/-- The kind of a slot. -/
def Slot.kind : Slot → SlotKind
  | none => .missing
  | some .null => .null
  | some (.bool _) => .boolean
  | some (.number _) => .number
  | some (.string _) => .string
  | some (.array _) => .array
  | some (.object _) => .object

theorem Slot.eq_some_of_kind {s : Slot} {v : Json} (h : Slot.kind s = Slot.kind (some v)) :
    ∃ v', s = some v' := by
  rcases s with _ | v'
  · cases v <;> cases h
  · exact ⟨v', rfl⟩

namespace Walk

theorem isSome_eq_of_kind {s t : Slot} (h : Slot.kind s = Slot.kind t) : s.isSome = t.isSome := by
  cases t with
  | some v =>
    obtain ⟨v', rfl⟩ := Slot.eq_some_of_kind h
    rfl
  | none =>
    cases s with
    | none => rfl
    | some v =>
      obtain ⟨v', hv'⟩ := Slot.eq_some_of_kind h.symm
      cases hv'

/-! ### The loops, where they succeed -/

theorem firstAccepted_eq_ok_some_iff {f : Descriptor → Except Refusal Slot} {out : Slot}
    {ds : List Descriptor} : firstAccepted f ds = .ok (some out) ↔
      ∃ before d after, ds = before ++ d :: after ∧
        (∀ a ∈ before, ∃ m, f a = .error (.mismatch m)) ∧ f d = .ok out := by
  induction ds with
  | nil => simp [firstAccepted]
  | cons d ds ih =>
    rw [firstAccepted_cons, exists_first_cons_iff, ← ih]
    rcases f d with (m | _) | s
    · simp [orNext]
    · simp [orNext]
    · simp [orNext]

theorem items_eq_ok_iff {f : Nat → Json → Except Refusal Slot} {C : Json → Slot → Prop}
    (hf : ∀ i v s, f i v = .ok s ↔ C v s) : ∀ {vs : List Json} {position : Nat} {outs : List Json},
      items f position vs = .ok outs ↔
        List.Forall₂ (fun v o => ∃ s, C v s ∧ o = s.getD .null) vs outs
  | [], _, outs => by
    rw [items, List.forall₂_nil_left_iff]
    exact ⟨fun h => (Except.ok.inj h).symm, fun h => by rw [h]⟩
  | v :: vs, position, outs => by
    simp only [items, bind_eq_ok_iff, List.forall₂_cons_left_iff, hf, items_eq_ok_iff hf]
    constructor
    · rintro ⟨s, hs, rest, hrest, h⟩
      cases h
      exact ⟨_, rest, ⟨s, hs, rfl⟩, hrest, rfl⟩
    · rintro ⟨_, rest, ⟨s, hs, rfl⟩, hrest, rfl⟩
      exact ⟨s, hs, rest, hrest, rfl⟩

/-- The members that are written: each key with its slot, if that is present. -/
@[simp] def written : List String → List Slot → List (String × Json)
  | key :: keys, some v :: slots => (key, v) :: written keys slots
  | _ :: keys, none :: slots => written keys slots
  | _, _ => []

theorem putAll_putSlot (out : List (String × Json)) (key : String) (slot : Slot)
    (keys : List String) (slots : List Slot) :
    Keyed.putAll (putSlot out key slot) (written keys slots) =
      Keyed.putAll out (written (key :: keys) (slot :: slots)) := by
  cases slot <;> rfl

theorem drop_succ_of_drop {α : Type} {all xs : List α} {x : α} {position : Nat}
    (h : all.drop position = x :: xs) : all.drop (position + 1) = xs := by
  rw [← List.tail_drop, h]
  rfl

/-- The first of the properties from a position on is converted first. -/
theorem declared_cons {f : String → Descriptor → Slot → Except Refusal Slot}
    {all ps : List (Property Descriptor)} {input : List (String × Json)} {direction : Direction}
    {p : Property Descriptor} {position : Nat} (out : List (String × Json))
    (hdrop : all.drop position = p :: ps) :
    declared f all input (PropertyIndex.entriesFrom direction position (p :: ps)) out =
      f (direction.inputKey p) p.descriptor (input.lookup (direction.inputKey p)) >>= fun slot =>
        declared f all input (PropertyIndex.entriesFrom direction (position + 1) ps)
          (putSlot out (direction.outputKey p) slot) := by
  have hp : all[position]? = some p := by
    rw [← List.head?_drop, hdrop]
    rfl
  simp only [PropertyIndex.entriesFrom, declared, hp]

theorem declared_eq_ok_iff {f : String → Descriptor → Slot → Except Refusal Slot}
    {C : Descriptor → Slot → Slot → Prop} (hf : ∀ key d s s', f key d s = .ok s' ↔ C d s s')
    {all : List (Property Descriptor)} {input : List (String × Json)} {direction : Direction} :
    ∀ {ps : List (Property Descriptor)} {position : Nat} (out : List (String × Json))
      {out' : List (String × Json)}, all.drop position = ps →
      (declared f all input (PropertyIndex.entriesFrom direction position ps) out = .ok out' ↔
        ∃ slots, List.Forall₂ (fun p s => C p.descriptor (input.lookup (direction.inputKey p)) s)
            ps slots ∧
          out' = Keyed.putAll out (written (ps.map direction.outputKey) slots))
  | [], _, out, out', _ => by
    simp only [PropertyIndex.entriesFrom, declared, List.forall₂_nil_left_iff]
    constructor
    · intro h; cases h; exact ⟨[], rfl, rfl⟩
    · rintro ⟨_, rfl, rfl⟩; rfl
  | p :: ps, position, out, out', hdrop => by
    have hps := drop_succ_of_drop hdrop
    simp only [declared_cons out hdrop, bind_eq_ok_iff, hf, declared_eq_ok_iff hf _ hps,
      List.forall₂_cons_left_iff, List.map_cons, putAll_putSlot]
    constructor
    · rintro ⟨s, hs, slots, hslots, rfl⟩
      exact ⟨s :: slots, ⟨s, slots, hs, hslots, rfl⟩, rfl⟩
    · rintro ⟨_, ⟨s, slots, hs, hslots, rfl⟩, rfl⟩
      exact ⟨s, hs, slots, hslots, rfl⟩

theorem undeclared_eq_ok_iff {f : String → Json → Except Refusal Slot} {index : PropertyIndex}
    {C : String × Json → Slot → Prop} (hf : ∀ key v s, f key v = .ok s ↔ C (key, v) s) :
    ∀ {input : List (String × Json)} (out : List (String × Json)) {out' : List (String × Json)},
      undeclared f index input out = .ok out' ↔
        ∃ slots, List.Forall₂ C (input.filter fun m => !index.contains m.1) slots ∧
          out' = Keyed.putAll out
            (written ((input.filter fun m => !index.contains m.1).map (·.1)) slots)
  | [], out, out' => by
    simp only [undeclared, List.filter_nil, List.forall₂_nil_left_iff]
    constructor
    · intro h; cases h; exact ⟨[], rfl, rfl⟩
    · rintro ⟨_, rfl, rfl⟩; rfl
  | (key, v) :: rest, out, out' => by
    unfold undeclared
    by_cases hk : index.contains key = true
    · simp only [hk, ↓reduceIte, List.filter_cons, Bool.not_true, Bool.false_eq_true]
      exact undeclared_eq_ok_iff hf out
    · simp only [hk, Bool.false_eq_true, ↓reduceIte, List.filter_cons, Bool.not_false,
        bind_eq_ok_iff, hf, undeclared_eq_ok_iff hf, List.forall₂_cons_left_iff, List.map_cons,
        putAll_putSlot]
      constructor
      · rintro ⟨s, hs, slots, hslots, rfl⟩
        exact ⟨s :: slots, ⟨s, slots, hs, hslots, rfl⟩, rfl⟩
      · rintro ⟨_, ⟨s, slots, hs, hslots, rfl⟩, rfl⟩
        exact ⟨s, hs, slots, hslots, rfl⟩


/-! ### Leaves -/

/-- What a descriptor without others in it accepts, and what it makes of it. -/
inductive Takes : Descriptor → Slot → Slot → Prop
  | any (slot : Slot) : Takes .any slot slot
  | null : Takes .null (some .null) (some .null)
  | undefined : Takes .undefined none none
  | primitive {kind v} (h : Kind.admits kind v = true) : Takes (.primitive kind) (some v) (some v)
  | enum {cases v} (h : cases.any (Descriptor.isCase · v) = true) :
    Takes (.enum cases) (some v) (some v)
  | noDate : Takes .date (some .null) (some .null)
  | date {text canonical} (h : Date.normalize? text = some canonical) :
    Takes .date (some (.string text)) (some (.string canonical))

theorem value_leaf_eq_ok_iff {w : Walk} {n : Nat} {o : Option String} {d : Descriptor}
    (hd : IsLeaf d) {s : Site} {slot out : Slot} :
    w.value (n + 1) o d s slot = .ok out ↔ Takes d slot out := by
  constructor
  · intro h
    cases d with
    | any => cases h; exact .any slot
    | null =>
      simp only [value, null] at h
      split at h <;> cases h
      exact .null
    | never => cases h
    | undefined =>
      simp only [value, undefined] at h
      split at h <;> cases h
      exact .undefined
    | date =>
      simp only [value, date] at h
      split at h
      · cases h; exact .noDate
      · split at h <;> cases h
        exact .date ‹_›
      · cases h
    | primitive kind =>
      simp only [value, primitive] at h
      split at h
      · split at h <;> cases h
        exact .primitive ‹_›
      · cases h
    | literal text => cases h
    | enum cases =>
      simp only [value, enum] at h
      split at h
      · split at h <;> cases h
        exact .enum ‹_›
      · cases h
    | ref _ | union _ | array _ | object _ _ => exact hd.elim
  · intro h
    cases h with
    | any => rfl
    | null => rfl
    | undefined => rfl
    | primitive h => simp only [value, Walk.primitive, h, ↓reduceIte]
    | enum h => simp only [value, Walk.enum, h, ↓reduceIte]
    | noDate => rfl
    | date h => simp only [value, Walk.date, h]

/-! ### Kinds -/

theorem Takes.kind {d : Descriptor} {slot out : Slot} (h : Takes d slot out) :
    Slot.kind out = Slot.kind slot := by
  cases h <;> rfl

/-- **What is accepted keeps its kind.** -/
theorem value_kind {w : Walk} : ∀ {n : Nat} {o : Option String} {d : Descriptor} {s : Site}
    {slot out : Slot}, w.value n o d s slot = .ok out → Slot.kind out = Slot.kind slot
  | 0, _, _, _, _, _, h => by cases h
  | n + 1, o, .ref name, s, slot, out, h => by
    simp only [value] at h
    split at h
    · exact value_kind h
    · cases h
  | n + 1, o, .union members, s, slot, out, h => by
    simp only [value] at h
    obtain ⟨a, ha, h⟩ := bind_eq_ok_iff.mp h
    cases a with
    | none => cases h
    | some a =>
      cases h
      obtain ⟨_, d, _, -, -, hd⟩ := firstAccepted_eq_ok_some_iff.mp ha
      exact value_kind hd
  | n + 1, o, .array item, s, slot, out, h => by
    simp only [value] at h
    unfold array at h
    split at h
    · obtain ⟨_, _, h⟩ := bind_eq_ok_iff.mp h
      obtain ⟨_, _, h⟩ := bind_eq_ok_iff.mp h
      cases h
      rfl
    · cases h
  | n + 1, o, .object properties additional, s, slot, out, h => by
    simp only [value] at h
    unfold object at h
    split at h
    · obtain ⟨_, _, h⟩ := bind_eq_ok_iff.mp h
      obtain ⟨_, _, h⟩ := bind_eq_ok_iff.mp h
      obtain ⟨_, _, h⟩ := bind_eq_ok_iff.mp h
      cases h
      rfl
    · cases h
  | n + 1, o, .any, s, slot, out, h | n + 1, o, .null, s, slot, out, h
  | n + 1, o, .never, s, slot, out, h | n + 1, o, .undefined, s, slot, out, h
  | n + 1, o, .date, s, slot, out, h | n + 1, o, .primitive _, s, slot, out, h
  | n + 1, o, .literal _, s, slot, out, h | n + 1, o, .enum _, s, slot, out, h =>
    ((value_leaf_eq_ok_iff (by exact trivial)).mp h).kind

theorem AcceptsIn.kind {w : Walk} {n : Nat} {d : Descriptor} {depth : Nat} {slot out : Slot}
    (h : w.AcceptsIn n d depth slot out) : Slot.kind out = Slot.kind slot := value_kind h

theorem Accepts.kind {w : Walk} {d : Descriptor} {depth : Nat} {slot out : Slot}
    (h : w.Accepts d depth slot out) : Slot.kind out = Slot.kind slot := h.elim fun _ h => h.kind

/-! ### Names, unions and arrays -/

section Steps

variable {w : Walk} {n depth : Nat} {slot out : Slot}

theorem not_acceptsIn_zero {d : Descriptor} : ¬ w.AcceptsIn 0 d depth slot out := fun h => by cases h

theorem acceptsIn_leaf_iff {d : Descriptor} (hd : IsLeaf d) :
    w.AcceptsIn (n + 1) d depth slot out ↔ Takes d slot out := value_leaf_eq_ok_iff hd

theorem acceptsIn_ref_iff {name : String} : w.AcceptsIn (n + 1) (.ref name) depth slot out ↔
    ∃ d, w.table.get? name = some d ∧ w.AcceptsIn n d depth slot out := by
  unfold AcceptsIn
  simp only [value]
  cases hd : w.table.get? name with
  | none =>
    constructor
    · intro h; cases h
    · rintro ⟨_, h, -⟩; cases h
  | some d =>
    have hv : w.value n (some name) d (.bare depth) slot = .ok out ↔
        w.AcceptsIn n d depth slot out := value_eq_ok_iff
    constructor
    · intro h; exact ⟨d, rfl, hv.mp h⟩
    · rintro ⟨_, h, ha⟩; cases h; exact hv.mpr ha

theorem acceptsIn_union_iff {members : List Descriptor} :
    w.AcceptsIn (n + 1) (.union members) depth slot out ↔
      ∃ before d after, members = before ++ d :: after ∧
        (∀ a ∈ before, ∃ m, w.value n none a (.bare depth) slot = .error (.mismatch m)) ∧
        w.AcceptsIn n d depth slot out := by
  unfold AcceptsIn
  rw [value, bind_eq_ok_iff]
  constructor
  · rintro ⟨a, ha, h⟩
    cases a with
    | none => cases h
    | some a => cases h; exact firstAccepted_eq_ok_some_iff.mp ha
  · intro h
    exact ⟨some out, firstAccepted_eq_ok_some_iff.mpr h, rfl⟩

theorem enter_eq_ok_iff {s : Site} {u : Unit} :
    w.enter slot s = .ok u ↔ s.depth < w.maxDepth := by
  unfold enter
  split
  · exact ⟨fun _ => ‹_›, fun _ => rfl⟩
  · exact ⟨fun h => by (cases h), fun h => absurd h ‹_›⟩

/-- An array is converted item by item. -/
theorem acceptsIn_array_iff {item : Descriptor} :
    w.AcceptsIn (n + 1) (.array item) depth slot out ↔
      ∃ vs outs, slot = some (.array vs) ∧ out = some (.array outs) ∧ depth < w.maxDepth ∧
        List.Forall₂ (fun v o => w.AcceptsIn n item (depth + 1) (some v) (some o)) vs outs := by
  have hitem : ∀ (i : Nat) (v : Json) (s : Slot),
      w.value n none item ((Site.bare depth).item i) (some v) = .ok s ↔
        w.AcceptsIn n item (depth + 1) (some v) s := fun _ _ _ => value_eq_ok_iff
  have hsome : ∀ {v o}, (∃ s, w.AcceptsIn n item (depth + 1) (some v) s ∧ o = s.getD .null) ↔
      w.AcceptsIn n item (depth + 1) (some v) (some o) := by
    intro v o
    constructor
    · rintro ⟨s, hs, rfl⟩
      obtain ⟨v', rfl⟩ := Slot.eq_some_of_kind hs.kind
      exact hs
    · intro h
      exact ⟨_, h, rfl⟩
  unfold AcceptsIn
  simp only [value]
  unfold array
  split
  · rename_i vs
    simp only [bind_eq_ok_iff, enter_eq_ok_iff, items_eq_ok_iff hitem, hsome]
    constructor
    · rintro ⟨_, hdepth, outs, houts, h⟩
      cases h
      exact ⟨vs, outs, rfl, rfl, hdepth, houts⟩
    · rintro ⟨_, outs, hv, rfl, hdepth, houts⟩
      cases hv
      exact ⟨(), hdepth, outs, houts, rfl⟩
  · rename_i hslot
    constructor
    · intro h; cases h
    · rintro ⟨vs, _, rfl, -⟩
      exact (hslot vs rfl).elim

/-! ### Objects -/

end Steps

/-- The members whose keys are not declared. -/
def extras (direction : Direction) (properties : List (Property Descriptor))
    (input : List (String × Json)) : List (String × Json) :=
  input.filter fun m => decide (m.1 ∉ properties.map direction.inputKey)

/-- How the members of an object become those of its result, where `C` says what
becomes of a slot: each declared property, present or not, and each undeclared member
is converted, and what is present afterwards is written, the declared ones first. -/
def Converts (direction : Direction) (properties : List (Property Descriptor))
    (additional : Additional Descriptor) (C : Descriptor → Slot → Slot → Prop)
    (input out : List (String × Json)) : Prop :=
  ∃ slots xs,
    List.Forall₂ (fun p s => C p.descriptor (input.lookup (direction.inputKey p)) s)
      properties slots ∧
    List.Forall₂ (fun m x => x.1 = m.1 ∧ ∃ d, additional = .allow d ∧ C d (some m.2) (some x.2))
      (extras direction properties input) xs ∧
    out = Keyed.ofList (written (properties.map direction.outputKey) slots ++ xs)

section Converts

variable {direction : Direction} {properties : List (Property Descriptor)}
  {additional : Additional Descriptor} {C C' : Descriptor → Slot → Slot → Prop}
  {input out : List (String × Json)}

/-- Another account of the same slots gives the same result. -/
theorem Converts.imp (h : Converts direction properties additional C input out)
    (hp : ∀ p ∈ properties, ∀ s, C p.descriptor (input.lookup (direction.inputKey p)) s →
      C' p.descriptor (input.lookup (direction.inputKey p)) s)
    (hx : ∀ m ∈ extras direction properties input, ∀ d s, additional = .allow d →
      C d (some m.2) s → C' d (some m.2) s) :
    Converts direction properties additional C' input out := by
  obtain ⟨slots, xs, hslots, hxs, rfl⟩ := h
  refine ⟨slots, xs, forall₂_of_mem hp hslots, forall₂_of_mem (fun m hm x h => ?_) hxs, rfl⟩
  obtain ⟨hk, d, hd, h⟩ := h
  exact ⟨hk, d, hd, hx m hm d _ hd h⟩

theorem Converts.mono (h : Converts direction properties additional C input out)
    (hC : ∀ d s s', C d s s' → C' d s s') : Converts direction properties additional C' input out :=
  h.imp (fun _ _ _ h => hC _ _ _ h) fun _ _ _ _ _ h => hC _ _ _ h

/-- What becomes of a declared property. -/
theorem Converts.property (h : Converts direction properties additional C input out)
    {p : Property Descriptor} (hp : p ∈ properties) :
    ∃ s, C p.descriptor (input.lookup (direction.inputKey p)) s := by
  obtain ⟨slots, xs, hslots, -, -⟩ := h
  obtain ⟨s, -, hs⟩ := exists_right_of_mem hslots hp
  exact ⟨s, hs⟩

/-- What becomes of an undeclared member. -/
theorem Converts.extra (h : Converts direction properties additional C input out)
    {m : String × Json} (hm : m ∈ extras direction properties input) :
    ∃ d v, additional = .allow d ∧ C d (some m.2) (some v) := by
  obtain ⟨slots, xs, -, hxs, -⟩ := h
  obtain ⟨x, -, -, d, hd, hc⟩ := exists_right_of_mem hxs hm
  exact ⟨d, x.2, hd, hc⟩

end Converts

/-- Slots that are all present, written under keys of their own. -/
theorem written_of_present {C : String × Json → Slot → Prop}
    (hC : ∀ m s, C m s → Slot.kind s = Slot.kind (some m.2)) :
    ∀ {ms : List (String × Json)} {slots : List Slot}, List.Forall₂ C ms slots →
      List.Forall₂ (fun m x => x.1 = m.1 ∧ C m (some x.2)) ms (written (ms.map (·.1)) slots)
  | [], _, .nil => .nil
  | m :: ms, s :: slots, .cons h hrest => by
    obtain ⟨v, rfl⟩ := Slot.eq_some_of_kind (hC m s h)
    exact .cons ⟨rfl, h⟩ (written_of_present hC hrest)

theorem slots_of_written {C : String × Json → Slot → Prop} :
    ∀ {ms xs : List (String × Json)},
      List.Forall₂ (fun m x => x.1 = m.1 ∧ C m (some x.2)) ms xs →
      ∃ slots, List.Forall₂ C ms slots ∧ written (ms.map (·.1)) slots = xs
  | [], _, .nil => ⟨[], .nil, rfl⟩
  | m :: ms, x :: xs, .cons ⟨hk, h⟩ hrest => by
    obtain ⟨slots, hs, hw⟩ := slots_of_written hrest
    refine ⟨some x.2 :: slots, .cons h hs, ?_⟩
    rw [List.map_cons, written, hw, ← hk]

/-- The members that an index does not contain are the undeclared ones. -/
theorem filter_contains {direction : Direction} {properties : List (Property Descriptor)}
    (hk : (properties.map direction.inputKey).Nodup) (input : List (String × Json)) :
    (input.filter fun m => !(PropertyIndex.ofProperties properties direction).contains m.1) =
      extras direction properties input := by
  simp only [extras, PropertyIndex.contains_ofProperties hk, decide_not]

/-- An undeclared member is accepted if additional keys are, as what they may be. -/
theorem extra_eq_ok_iff {w : Walk} {n depth : Nat} {additional : Additional Descriptor}
    (key : String) (v : Json) (s : Slot) :
    (match additional with
      | .reject => ((Site.bare depth).property "" key).refuse (Descriptor.name .never) (some v)
      | .allow d => w.value n none d ((Site.bare depth).property "" key) (some v)) = .ok s ↔
      ∃ d, additional = .allow d ∧ w.AcceptsIn n d (depth + 1) (some v) s := by
  cases additional with
  | reject =>
    constructor
    · intro h; cases h
    · rintro ⟨d, h, -⟩; cases h
  | allow d =>
    constructor
    · intro h; exact ⟨d, rfl, value_eq_ok_iff.mp h⟩
    · rintro ⟨_, h, ha⟩; cases h; exact value_eq_ok_iff.mpr ha

/-- **An object is converted member by member.** -/
theorem acceptsIn_object_iff {w : Walk} {n depth : Nat} {slot out : Slot}
    {properties : List (Property Descriptor)} {additional : Additional Descriptor}
    (hk : (properties.map w.direction.inputKey).Nodup) :
    w.AcceptsIn (n + 1) (.object properties additional) depth slot out ↔
      ∃ input members, slot = some (.object input) ∧ out = some (.object members) ∧
        depth < w.maxDepth ∧ Converts w.direction properties additional
          (fun d s s' => w.AcceptsIn n d (depth + 1) s s') input members := by
  have hchild : ∀ (key : String) (d : Descriptor) (s s' : Slot),
      w.value n none d ((Site.bare depth).property "" key) s = .ok s' ↔
        w.AcceptsIn n d (depth + 1) s s' := fun _ _ _ _ => value_eq_ok_iff
  let C : String × Json → Slot → Prop := fun m s =>
    ∃ d, additional = .allow d ∧ w.AcceptsIn n d (depth + 1) (some m.2) s
  have hkind : ∀ m s, C m s → Slot.kind s = Slot.kind (some m.2) := by
    rintro m s ⟨d, -, h⟩
    exact h.kind
  have hentries := PropertyIndex.ofProperties_entries hk
  unfold AcceptsIn
  simp only [value]
  unfold object
  split
  · rename_i input
    constructor
    · intro h
      obtain ⟨_, hdepth, h⟩ := bind_eq_ok_iff.mp h
      obtain ⟨_, hdecl, h⟩ := bind_eq_ok_iff.mp h
      obtain ⟨_, hundecl, h⟩ := bind_eq_ok_iff.mp h
      cases h
      rw [hentries] at hdecl
      obtain ⟨slots, hslots, rfl⟩ := (declared_eq_ok_iff hchild [] List.drop_zero).mp hdecl
      obtain ⟨es, hes, rfl⟩ := (undeclared_eq_ok_iff (C := C) extra_eq_ok_iff _).mp hundecl
      rw [filter_contains hk] at hes ⊢
      refine ⟨input, _, rfl, rfl, enter_eq_ok_iff.mp hdepth, slots, _, hslots,
        written_of_present hkind hes, ?_⟩
      rw [Keyed.ofList, Keyed.putAll_append]
    · rintro ⟨_, _, hi, rfl, hdepth, slots, xs, hslots, hxs, rfl⟩
      cases hi
      obtain ⟨es, hes, hw⟩ := slots_of_written (C := C) hxs
      rw [← filter_contains hk] at hes hw
      have hdecl := (declared_eq_ok_iff hchild [] List.drop_zero).mpr ⟨slots, hslots, rfl⟩
      rw [← hentries] at hdecl
      have hundecl := fun out => (undeclared_eq_ok_iff (C := C) extra_eq_ok_iff out).mpr ⟨es, hes, rfl⟩
      refine bind_eq_ok_iff.mpr ⟨(), enter_eq_ok_iff.mpr hdepth, ?_⟩
      refine bind_eq_ok_iff.mpr ⟨_, hdecl, ?_⟩
      refine bind_eq_ok_iff.mpr ⟨_, hundecl _, ?_⟩
      rw [hw, Keyed.ofList, Keyed.putAll_append]
  · rename_i hslot
    constructor
    · intro h; cases h
    · rintro ⟨input, _, rfl, -⟩
      exact (hslot input rfl).elim

/-! ### Without counting steps -/

/-- Steps that are enough for each pair of two lists are enough for all of them. -/
theorem exists_common_steps {α β : Type} {P : Nat → α → β → Prop}
    (hmono : ∀ {n m a b}, n ≤ m → P n a b → P m a b) {as : List α} {bs : List β}
    (h : List.Forall₂ (fun a b => ∃ n, P n a b) as bs) : ∃ n, List.Forall₂ (P n) as bs := by
  induction h with
  | nil => exact ⟨0, .nil⟩
  | cons hab _ ih =>
    obtain ⟨n, hn⟩ := hab
    obtain ⟨m, hm⟩ := ih
    refine ⟨max n m, .cons (hmono (Nat.le_max_left n m) hn) ?_⟩
    exact hm.imp fun _ _ h => hmono (Nat.le_max_right n m) h

section Accepting

variable {w : Walk} {depth : Nat} {slot out : Slot}

theorem Takes.accepts {d : Descriptor} (hd : IsLeaf d) (h : Takes d slot out) :
    w.Accepts d depth slot out := ⟨1, (acceptsIn_leaf_iff hd).mpr h⟩

theorem Accepts.ref {name : String} {d : Descriptor} (hd : w.table.get? name = some d)
    (h : w.Accepts d depth slot out) : w.Accepts (.ref name) depth slot out := by
  obtain ⟨n, h⟩ := h
  exact ⟨n + 1, acceptsIn_ref_iff.mpr ⟨d, hd, h⟩⟩

/-- A name that accepts is defined. -/
theorem Accepts.exists_of_ref {name : String} (h : w.Accepts (.ref name) depth slot out) :
    ∃ d, w.table.get? name = some d := by
  obtain ⟨n, h⟩ := h
  cases n with
  | zero => exact (not_acceptsIn_zero h).elim
  | succ n =>
    obtain ⟨d, hd, -⟩ := acceptsIn_ref_iff.mp h
    exact ⟨d, hd⟩

theorem Accepts.array {item : Descriptor} {vs outs : List Json} (hdepth : depth < w.maxDepth)
    (h : List.Forall₂ (fun v o => w.Accepts item (depth + 1) (some v) (some o)) vs outs) :
    w.Accepts (.array item) depth (some (.array vs)) (some (.array outs)) := by
  obtain ⟨n, h⟩ := exists_common_steps
    (P := fun n v o => w.AcceptsIn n item (depth + 1) (some v) (some o))
    (fun hnm h => h.mono hnm) h
  exact ⟨n + 1, acceptsIn_array_iff.mpr ⟨vs, outs, rfl, rfl, hdepth, h⟩⟩

end Accepting

/-- **Induction on what is accepted**, in a table whose definitions are checked. -/
theorem Accepts.induct {w : Walk} (hs : w.table.Sound)
    {motive : Descriptor → Nat → Slot → Slot → Prop}
    (leaf : ∀ {d depth slot out}, IsLeaf d → Takes d slot out → motive d depth slot out)
    (ref : ∀ {name d depth slot out}, w.table.get? name = some d →
      motive d depth slot out → motive (.ref name) depth slot out)
    (union : ∀ {before d after depth slot out}, (∀ a ∈ before, w.Refuses a depth slot) →
      w.Accepts d depth slot out → motive d depth slot out →
      motive (.union (before ++ d :: after)) depth slot out)
    (array : ∀ {item depth vs outs}, depth < w.maxDepth →
      List.Forall₂ (fun v o => motive item (depth + 1) (some v) (some o)) vs outs →
      motive (.array item) depth (some (.array vs)) (some (.array outs)))
    (object : ∀ {properties additional depth input members}, depth < w.maxDepth →
      w.table.Checked (.object properties additional) →
      Converts w.direction properties additional (fun d s s' => motive d (depth + 1) s s')
        input members →
      motive (.object properties additional) depth (some (.object input))
        (some (.object members)))
    {d : Descriptor} {depth : Nat} {slot out : Slot} (hd : w.table.Checked d)
    (h : w.Accepts d depth slot out) : motive d depth slot out := by
  obtain ⟨n, h⟩ := h
  induction n generalizing d depth slot out with
  | zero => exact (not_acceptsIn_zero h).elim
  | succ n ih =>
    cases d with
    | ref name =>
      obtain ⟨d, hget, h⟩ := acceptsIn_ref_iff.mp h
      exact ref hget (ih (hs _ _ hget) h)
    | union members =>
      obtain ⟨before, d, after, rfl, hb, h⟩ := acceptsIn_union_iff.mp h
      refine union (fun a ha => ?_) h.accepts (ih (hd.opens hs (.member (by simp))) h)
      obtain ⟨m, hm⟩ := hb a ha
      exact ⟨n, m, hm⟩
    | array item =>
      obtain ⟨vs, outs, rfl, rfl, hdepth, h⟩ := acceptsIn_array_iff.mp h
      exact array hdepth (h.imp fun _ _ h => ih (hd.opens hs .item) h)
    | object properties additional =>
      obtain ⟨input, members, rfl, rfl, hdepth, h⟩ :=
        (acceptsIn_object_iff (hd.nodup _).1).mp h
      refine object hdepth hd (h.imp (fun p hp s ha => ?_) fun m hm d s hadd ha => ?_)
      · exact ih (hd.opens hs (.property hp)) ha
      · subst hadd
        exact ih (hd.opens hs .extra) ha
    | any | null | never | undefined | date | primitive _ | literal _ | enum _ =>
      exact leaf (by exact trivial) ((acceptsIn_leaf_iff (by exact trivial)).mp h)


end Walk

/-! ### Conversions -/

namespace Engine

/-- The walk of an engine in a direction. -/
def walk (e : Engine) (direction : Direction) : Walk := ⟨e.table, direction, e.maxDepth⟩

theorem run_eq_ok_iff {e : Engine} {v out : Json} {d : Descriptor} {direction : Direction} :
    e.run v d direction = .ok out ↔ (e.walk direction).Accepts d 0 (some v) (some out) := by
  have hrun : e.run v d direction = .ok out ↔
      (e.walk direction).value (steps e.table v d) none d (.bare 0) (some v) = .ok (some out) := by
    simp only [run]
    constructor
    · intro h
      split at h
      · rename_i slot hslot
        cases h
        obtain ⟨v', rfl⟩ := Slot.eq_some_of_kind (Walk.value_kind hslot)
        exact hslot
      · cases h
      · cases h
    · intro h
      simp only [walk, Site.bare] at h
      simp only [Site.root, h, Option.getD_some]
  rw [hrun]
  constructor
  · intro h; exact ⟨_, h⟩
  · rintro ⟨n, h⟩
    have hends := Walk.value_of_ends (w := e.walk direction) (n := n) (o := none) (s := .bare 0)
      (by rw [h]; exact fun he => by cases he)
    rw [h] at hends
    exact hends

/-- **A conversion succeeds if the type is known and its walk accepts**, whatever the steps. -/
theorem convert_eq_ok_iff {e : Engine} {v out : Json} {root : String} {direction : Direction} :
    e.convert v root direction = .ok out ↔
      (e.walk direction).Accepts (.ref root) 0 (some v) (some out) := by
  rw [← run_eq_ok_iff]
  unfold convert Table.resolve
  cases hroot : e.table.get? root with
  | some d => rfl
  | none =>
    constructor
    · intro h; cases h
    · intro h
      obtain ⟨d, hd⟩ := (run_eq_ok_iff.mp h).exists_of_ref
      rw [show (e.walk direction).table = e.table from rfl, hroot] at hd
      cases hd

/-- What converts by a sound table converts by a name that it knows and has checked. -/
theorem accepts_of_convert {e : Engine} (hs : e.table.Sound) {v out : Json} {root : String}
    {direction : Direction} (h : e.convert v root direction = .ok out) :
    ∃ d, e.table.get? root = some d ∧ e.table.Checked (.ref root) ∧
      (e.walk direction).Accepts (.ref root) 0 (some v) (some out) := by
  have ha := convert_eq_ok_iff.mp h
  obtain ⟨d, hroot⟩ := ha.exists_of_ref
  exact ⟨d, hroot, hs.checked_ref hroot .refl, ha⟩

end Engine
end Wireform
