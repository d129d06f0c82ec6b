/-
# The spot of a mismatch

A walk goes down a document along its descriptors: a name leads to what it stands for,
an array to its items, an object to what stands under its keys (`Along`). A union is no
way down. Its members are walked at the union's own place, and what they refuse is thrown
away, so a walk that ends in a mismatch has come along to the spot that refused by arrays
and objects alone, and all that it visited on its way before was accepted (`Meets`,
`meets_of_value`). The way is determined by its segments, so what is known of the way that
the walk took is known of every way along the same segments (`Meets.of_along`).

Key definitions: `Spot`, `Asks`, `Along`, `Spot.Expects`, `Admits`, `Meets`.
Key theorems: `meets_of_value`, `Meets.of_along`, `Meets.exists_along`.
-/
import Wireform.Proofs.Json.Reorder
import Wireform.Proofs.Table.Chain
import Wireform.Proofs.Walk.Answers
import Wireform.Proofs.Walk.Refusals

namespace Wireform

/-- What is asked of undeclared keys. -/
def Additional.descriptor : Additional Descriptor → Descriptor
  | .reject => .never
  | .allow d => d

namespace Walk

/-- Where a walk is: at a slot with a descriptor, and with the name by which the
descriptor was reached, if it was reached directly by one. -/
structure Spot where
  owner : Option String
  descriptor : Descriptor
  site : Site
  slot : Slot

/-- Where the walk of a document begins. -/
def Spot.root (d : Descriptor) (doc : Json) : Spot := ⟨none, d, .root, some doc⟩

/-- What an object shape asks of a key: what it declares, or what it asks of other keys. -/
inductive Asks (direction : Direction) (properties : List (Property Descriptor))
    (additional : Additional Descriptor) : String → Descriptor → Prop
  | declared {p} (hp : p ∈ properties) :
    Asks direction properties additional (direction.inputKey p) p.descriptor
  | extra {key} (hk : key ∉ properties.map direction.inputKey) :
    Asks direction properties additional key additional.descriptor

/-- The spots down a document, with the segments that lead there. -/
inductive Along (table : Table) (direction : Direction) : Spot → List Segment → Spot → Prop
  | here (p : Spot) : Along table direction p [] p
  | ref {o name s slot d segments q} (hd : table.get? name = some d)
    (h : Along table direction ⟨some name, d, s, slot⟩ segments q) :
    Along table direction ⟨o, .ref name, s, slot⟩ segments q
  | item {o item s vs i v segments q} (hv : vs[i]? = some v)
    (h : Along table direction ⟨none, item, s.item i, some v⟩ segments q) :
    Along table direction ⟨o, .array item, s, some (.array vs)⟩ (.index i :: segments) q
  | property {o properties additional s ms key d segments q}
    (hd : Asks direction properties additional key d)
    (h : Along table direction ⟨none, d, s.property (o.getD "") key, ms.lookup key⟩ segments q) :
    Along table direction ⟨o, .object properties additional, s, some (.object ms)⟩
      (.key key :: segments) q

/-- What a refusal at a spot says was expected: what stands there, where the slot is nothing
of the kind, or less nesting. -/
inductive Spot.Expects (maxDepth : Nat) : Spot → String → Prop
  | leaf {o d s slot} (hd : IsLeaf d) (hslot : ∀ out, ¬ Takes d slot out) :
    Expects maxDepth ⟨o, d, s, slot⟩ (Descriptor.name d)
  | union {o members s slot} :
    Expects maxDepth ⟨o, .union members, s, slot⟩ (Descriptor.name (.union members))
  | array {o item s slot} (hslot : ∀ vs, slot ≠ some (.array vs)) :
    Expects maxDepth ⟨o, .array item, s, slot⟩ "array"
  | object {o properties additional s slot} (hslot : ∀ ms, slot ≠ some (.object ms)) :
    Expects maxDepth ⟨o, .object properties additional, s, slot⟩ (o.getD "object")
  | deepArray {o item s vs} (hdepth : maxDepth ≤ s.depth) :
    Expects maxDepth ⟨o, .array item, s, some (.array vs)⟩
      ("a value nested at most " ++ toString maxDepth ++ " levels deep")
  | deepObject {o properties additional s ms} (hdepth : maxDepth ≤ s.depth) :
    Expects maxDepth ⟨o, .object properties additional, s, some (.object ms)⟩
      ("a value nested at most " ++ toString maxDepth ++ " levels deep")

/-- The keys of an object in the order in which a walk visits them: the declared ones,
present or not, then the others. -/
def visited (direction : Direction) (properties : List (Property Descriptor))
    (members : List (String × Json)) : List String :=
  properties.map direction.inputKey ++ Keyed.keys (extras direction properties members)

/-- Whether what an object of a shape holds under a key is accepted. -/
def Admits (w : Walk) (properties : List (Property Descriptor))
    (additional : Additional Descriptor) (depth : Nat) (members : List (String × Json))
    (key : String) : Prop :=
  ∃ d out, Asks w.direction properties additional key d ∧ w.Accepts d depth (members.lookup key) out

/-- A walk comes from a spot along some segments to the one that refuses, and in every
object on its way it has accepted what it visited before, and refuses what it visits then. -/
inductive Meets (w : Walk) (m : Mismatch) : Spot → List Segment → Prop
  | here {p} (he : p.Expects w.maxDepth m.expected) (hm : m = p.site.mismatch m.expected p.slot) :
    Meets w m p []
  | ref {o name s slot d segments} (hd : w.table.get? name = some d)
    (h : Meets w m ⟨some name, d, s, slot⟩ segments) :
    Meets w m ⟨o, .ref name, s, slot⟩ segments
  | item {o item s vs i v segments} (hv : vs[i]? = some v)
    (h : Meets w m ⟨none, item, s.item i, some v⟩ segments) :
    Meets w m ⟨o, .array item, s, some (.array vs)⟩ (.index i :: segments)
  | property {o properties additional s ms before key after d segments}
    (hvisited : visited w.direction properties ms = before ++ key :: after)
    (hbefore : ∀ k ∈ before, w.Admits properties additional (s.depth + 1) ms k)
    (hd : Asks w.direction properties additional key d)
    (hrefused : w.Refuses d (s.depth + 1) (ms.lookup key))
    (h : Meets w m ⟨none, d, s.property (o.getD "") key, ms.lookup key⟩ segments) :
    Meets w m ⟨o, .object properties additional, s, some (.object ms)⟩ (.key key :: segments)

/-! ### Visited keys -/

/-- What is asked of a key by a checked shape is checked. -/
theorem Asks.checked {table : Table} (hs : table.Sound) {direction : Direction}
    {properties : List (Property Descriptor)} {additional : Additional Descriptor} {key : String}
    {d : Descriptor} (h : Asks direction properties additional key d)
    (hd : table.Checked (.object properties additional)) : table.Checked d := by
  cases h with
  | declared hp => exact hd.opens hs (.property hp)
  | extra hk =>
    cases additional with
    | reject => exact ⟨"", rfl⟩
    | allow d => exact hd.opens hs .extra

section Order

variable {direction : Direction} {properties : List (Property Descriptor)}

theorem extras_append (ms ns : List (String × Json)) : extras direction properties (ms ++ ns) =
    extras direction properties ms ++ extras direction properties ns := List.filter_append ms ns

theorem extras_cons {m : String × Json} {ms : List (String × Json)}
    (hm : m.1 ∉ properties.map direction.inputKey) :
    extras direction properties (m :: ms) = m :: extras direction properties ms :=
  List.filter_cons_of_pos (decide_eq_true hm)

end Order

/-! ### The walk -/

section Walks

variable {w : Walk} {m : Mismatch} {n : Nat} {o : Option String} {s : Site} {slot : Slot}

theorem refuses_of_value {d : Descriptor} (h : w.value n o d s slot = .error (.mismatch m)) :
    w.Refuses d s.depth slot := ⟨n, value_mismatch_iff.mp ⟨m, h⟩⟩

theorem enter_refused (h : w.enter slot s = .error (.mismatch m)) : w.maxDepth ≤ s.depth ∧
    m = s.mismatch ("a value nested at most " ++ toString w.maxDepth ++ " levels deep") slot := by
  unfold enter at h
  split at h
  · cases h
  · cases h
    exact ⟨by omega, rfl⟩

theorem value_leaf_meets {d : Descriptor} (hd : IsLeaf d)
    (h : w.value (n + 1) o d s slot = .error (.mismatch m)) : w.Meets m ⟨o, d, s, slot⟩ [] := by
  have hm : m = s.mismatch (Descriptor.name d) slot := value_leaf_refused hd h
  have hslot : ∀ out, ¬ Takes d slot out := by
    intro out htakes
    rw [(value_leaf_eq_ok_iff hd).mpr htakes] at h
    cases h
  subst hm
  exact .here (.leaf hd hslot) rfl

theorem array_meets {item : Descriptor} (hslot : Slot.Distinct slot)
    (hmeets : ∀ {s slot}, Slot.Distinct slot →
      w.value n none item s slot = .error (.mismatch m) →
        ∃ segments, w.Meets m ⟨none, item, s, slot⟩ segments)
    (h : w.array (fun s slot => w.value n none item s slot) slot s = .error (.mismatch m)) :
    ∃ segments, w.Meets m ⟨o, .array item, s, slot⟩ segments := by
  unfold array at h
  split at h
  · rename_i vs
    rcases bind_eq_error_iff.mp h with h | ⟨_, -, h⟩
    · obtain ⟨hdepth, rfl⟩ := enter_refused h
      exact ⟨[], .here (.deepArray hdepth) rfl⟩
    rcases bind_eq_error_iff.mp h with h | ⟨_, -, h⟩
    · obtain ⟨i, v, hv, h⟩ := items_eq_error h
      rw [Nat.zero_add] at h
      have hdistinct : Slot.Distinct (some v) :=
        Json.Distinct.of_mem_items hslot (List.mem_of_getElem? hv)
      obtain ⟨segments, hm⟩ := hmeets hdistinct h
      exact ⟨_, .item hv hm⟩
    · cases h
  · rename_i hslot
    cases h
    exact ⟨[], .here (.array hslot) rfl⟩

section Objects

variable {properties : List (Property Descriptor)} {additional : Additional Descriptor}
  {ms out : List (String × Json)}

/-- A mismatch at a declared key: those that are declared before it were accepted. -/
theorem declared_meets (hk : (properties.map w.direction.inputKey).Nodup)
    (hmeets : ∀ {key d}, Asks w.direction properties additional key d →
      w.value n none d (s.property (o.getD "") key) (ms.lookup key) = .error (.mismatch m) →
        ∃ segments, w.Meets m ⟨none, d, s.property (o.getD "") key, ms.lookup key⟩ segments)
    (h : declared (fun key d slot => w.value n none d (s.property (o.getD "") key) slot) properties
      ms (PropertyIndex.ofProperties properties w.direction).entries out =
        .error (.mismatch m)) :
    ∃ segments, w.Meets m ⟨o, .object properties additional, s, some (.object ms)⟩ segments := by
  rw [PropertyIndex.ofProperties_entries hk] at h
  obtain ⟨before, e, after, hentries, hbefore, p, hp, h⟩ := declared_eq_error h
  -- an entry is that of a property, so the one at its position is asked of its key
  have hasks : ∀ b ∈ before ++ e :: after, ∃ q, properties[b.2.position]? = some q ∧
      Asks w.direction properties additional b.1 q.descriptor := by
    intro b hb
    rw [← hentries] at hb
    obtain ⟨i, q, hq, rfl⟩ := PropertyIndex.mem_entriesFrom hb
    rw [Nat.zero_add]
    exact ⟨q, hq, .declared (List.mem_of_getElem? hq)⟩
  have hvisited : visited w.direction properties ms = Keyed.keys before ++
      e.1 :: (Keyed.keys after ++ Keyed.keys (extras w.direction properties ms)) := by
    have hkeys := congrArg Keyed.keys hentries
    rw [PropertyIndex.keys_entriesFrom] at hkeys
    simp [visited, hkeys]
  have hadmits : ∀ k ∈ Keyed.keys before, w.Admits properties additional (s.depth + 1) ms k := by
    intro k hk
    obtain ⟨b, hb, rfl⟩ := List.mem_map.mp hk
    obtain ⟨q, hq, hasked⟩ := hasks b (List.mem_append_left _ hb)
    obtain ⟨out, hout⟩ := hbefore b hb q hq
    exact ⟨q.descriptor, out, hasked, (value_eq_ok_iff.mp hout).accepts⟩
  obtain ⟨q, hq, hasked⟩ := hasks e (List.mem_append_right _ List.mem_cons_self)
  cases hp.symm.trans hq
  obtain ⟨segments, hm⟩ := hmeets hasked h
  exact ⟨_, .property hvisited hadmits hasked (refuses_of_value h) hm⟩

/-- Where the declared keys are through, they were all accepted. -/
theorem declared_admits {out' : List (String × Json)}
    (hk : (properties.map w.direction.inputKey).Nodup)
    (h : declared (fun key d slot => w.value n none d (s.property (o.getD "") key) slot) properties
      ms (PropertyIndex.ofProperties properties w.direction).entries out = .ok out') :
    ∀ k ∈ properties.map w.direction.inputKey,
      w.Admits properties additional (s.depth + 1) ms k := by
  rw [PropertyIndex.ofProperties_entries hk] at h
  have hvalue : ∀ (key : String) (d : Descriptor) (slot out : Slot),
      w.value n none d (s.property (o.getD "") key) slot = .ok out ↔
        w.AcceptsIn n d (s.depth + 1) slot out := fun _ _ _ _ => value_eq_ok_iff
  obtain ⟨slots, hslots, -⟩ := (declared_eq_ok_iff hvalue out List.drop_zero).mp h
  intro k hk
  obtain ⟨p, hp, rfl⟩ := List.mem_map.mp hk
  obtain ⟨slot, -, hslot⟩ := exists_right_of_mem hslots hp
  exact ⟨p.descriptor, slot, .declared hp, hslot.accepts⟩

/-- A mismatch at an undeclared key: the declared keys and the undeclared ones that stand
before it were accepted. -/
theorem undeclared_meets (hk : (properties.map w.direction.inputKey).Nodup)
    (hms : (Keyed.keys ms).Nodup)
    (h : undeclared (fun key v =>
      match additional with
      | .reject => (s.property (o.getD "") key).refuse (Descriptor.name .never) (some v)
      | .allow d => w.value n none d (s.property (o.getD "") key) (some v))
        (PropertyIndex.ofProperties properties w.direction) ms out = .error (.mismatch m))
    (hdeclared : ∀ k ∈ properties.map w.direction.inputKey,
      w.Admits properties additional (s.depth + 1) ms k)
    (hmeets : ∀ {key d}, Asks w.direction properties additional key d →
      w.value n none d (s.property (o.getD "") key) (ms.lookup key) = .error (.mismatch m) →
        ∃ segments, w.Meets m ⟨none, d, s.property (o.getD "") key, ms.lookup key⟩ segments) :
    ∃ segments, w.Meets m ⟨o, .object properties additional, s, some (.object ms)⟩ segments := by
  obtain ⟨before, x, after, hinput, hbefore, hx, h⟩ := undeclared_eq_error h
  have hcontains : ∀ key, (PropertyIndex.ofProperties properties w.direction).contains key =
      false ↔ key ∉ properties.map w.direction.inputKey := by
    intro key
    rw [PropertyIndex.contains_ofProperties hk, decide_eq_false_iff_not]
  have hlookup : ∀ b ∈ before ++ x :: after, ms.lookup b.1 = some b.2 := by
    intro b hb
    rw [← hinput] at hb
    exact Keyed.lookup_of_mem hms hb
  have hvisited : visited w.direction properties ms =
      (properties.map w.direction.inputKey ++ Keyed.keys (extras w.direction properties before)) ++
        x.1 :: Keyed.keys (extras w.direction properties after) := by
    rw [visited, hinput, extras_append, extras_cons ((hcontains x.1).mp hx)]
    simp
  have hadmits : ∀ k ∈ properties.map w.direction.inputKey ++
      Keyed.keys (extras w.direction properties before),
        w.Admits properties additional (s.depth + 1) ms k := by
    intro k hk
    rcases List.mem_append.mp hk with hk | hk
    · exact hdeclared k hk
    obtain ⟨b, hb, rfl⟩ := List.mem_map.mp hk
    obtain ⟨hb, hkey⟩ := List.mem_filter.mp hb
    have hkey := of_decide_eq_true hkey
    obtain ⟨out, hout⟩ := hbefore b hb ((hcontains b.1).mpr hkey)
    rw [← hlookup b (List.mem_append_left _ hb)] at hout
    cases additional with
    | reject => cases hout
    | allow d => exact ⟨d, out, .extra hkey, (value_eq_ok_iff.mp hout).accepts⟩
  have hasked : Asks w.direction properties additional x.1 additional.descriptor :=
    .extra ((hcontains x.1).mp hx)
  rw [← hlookup x (List.mem_append_right _ List.mem_cons_self)] at h
  cases additional with
  | reject =>
    have hnever : ∀ out, ¬ Takes .never (ms.lookup x.1) out := by
      intro out htakes
      cases htakes
    cases h
    exact ⟨_, .property hvisited hadmits hasked ⟨1, _, rfl⟩ (.here (.leaf trivial hnever) rfl)⟩
  | allow d =>
    obtain ⟨segments, hm⟩ := hmeets hasked h
    exact ⟨_, .property hvisited hadmits hasked (refuses_of_value h) hm⟩

theorem object_meets {slot : Slot} (hk : (properties.map w.direction.inputKey).Nodup)
    (hslot : Slot.Distinct slot)
    (hmeets : ∀ {ms key d}, slot = some (.object ms) →
      Asks w.direction properties additional key d →
      w.value n none d (s.property (o.getD "") key) (ms.lookup key) = .error (.mismatch m) →
        ∃ segments, w.Meets m ⟨none, d, s.property (o.getD "") key, ms.lookup key⟩ segments)
    (h : w.object (fun d s slot => w.value n none d s slot) properties additional o slot s =
      .error (.mismatch m)) :
    ∃ segments, w.Meets m ⟨o, .object properties additional, s, slot⟩ segments := by
  unfold object at h
  split at h
  · rename_i ms
    rcases bind_eq_error_iff.mp h with h | ⟨_, -, h⟩
    · obtain ⟨hdepth, rfl⟩ := enter_refused h
      exact ⟨[], .here (.deepObject hdepth) rfl⟩
    rcases bind_eq_error_iff.mp h with h | ⟨_, hdeclared, h⟩
    · exact declared_meets hk (hmeets rfl) h
    rcases bind_eq_error_iff.mp h with h | ⟨_, -, h⟩
    · exact undeclared_meets hk hslot.1 h (declared_admits hk hdeclared) (hmeets rfl)
    · cases h
  · rename_i hslot
    cases h
    exact ⟨[], .here (.object hslot) rfl⟩

end Objects

/-- **A mismatch is met at a spot along the way**, past what was accepted. -/
theorem meets_of_value (hs : w.table.Sound) : ∀ {n : Nat} {o : Option String} {d : Descriptor}
    {s : Site} {slot : Slot}, w.table.Checked d → Slot.Distinct slot →
      w.value n o d s slot = .error (.mismatch m) → ∃ segments, w.Meets m ⟨o, d, s, slot⟩ segments
  | 0, _, _, _, _, _, _, h => by cases h
  | n + 1, o, .ref name, s, slot, hd, hslot, h => by
    simp only [value] at h
    split at h
    · rename_i d hget
      obtain ⟨segments, hm⟩ := meets_of_value hs (hs _ _ hget) hslot h
      exact ⟨segments, .ref hget hm⟩
    · rename_i hget
      have hname := Table.isSome_get?_iff.mpr hd.mem_names
      rw [hget] at hname
      cases hname
  | n + 1, o, .union members, s, slot, _, _, h => by
    simp only [value] at h
    rcases bind_eq_error_iff.mp h with h | ⟨a, -, h⟩
    · exact (firstAccepted_ne_mismatch members h).elim
    · cases a with
      | some a => cases h
      | none =>
        cases h
        exact ⟨[], .here .union rfl⟩
  | n + 1, o, .array item, s, slot, hd, hslot, h => by
    simp only [value] at h
    exact array_meets hslot (meets_of_value hs (hd.opens hs .item)) h
  | n + 1, o, .object properties additional, s, slot, hd, hslot, h => by
    simp only [value] at h
    refine object_meets (hd.nodup _).1 hslot (fun {ms key d} hms hasked hvalue => ?_) h
    subst hms
    exact meets_of_value hs (hasked.checked hs hd) (Slot.distinct_lookup hslot key) hvalue
  | n + 1, o, .any, s, slot, _, _, h | n + 1, o, .null, s, slot, _, _, h
  | n + 1, o, .never, s, slot, _, _, h | n + 1, o, .undefined, s, slot, _, _, h
  | n + 1, o, .date, s, slot, _, _, h | n + 1, o, .primitive _, s, slot, _, _, h
  | n + 1, o, .literal _, s, slot, _, _, h | n + 1, o, .enum _, s, slot, _, _, h =>
    ⟨[], value_leaf_meets (by exact trivial) h⟩

end Walks

/-! ### The way along the segments -/

section Ways

variable {w : Walk} {m : Mismatch} {table : Table} {direction : Direction} {p q : Spot}
  {segments after : List Segment}

/-- The trail grows by the segments of the way. -/
theorem Along.trail (h : Along table direction p segments q) :
    q.site.trail = segments.reverse ++ p.site.trail := by
  induction h with
  | here => rfl
  | ref _ _ ih => exact ih
  | item _ _ ih => simp [ih]
  | property _ _ ih => simp [ih]

theorem Along.checked (hs : table.Sound) (h : Along table direction p segments q) :
    table.Checked p.descriptor → table.Checked q.descriptor := by
  induction h with
  | here => exact id
  | ref hd _ ih => exact fun _ => ih (hs _ _ hd)
  | item _ _ ih => exact fun hp => ih (hp.opens hs .item)
  | property hd _ ih => exact fun hp => ih (hd.checked hs hp)

theorem Along.distinct (h : Along table direction p segments q) :
    Slot.Distinct p.slot → Slot.Distinct q.slot := by
  induction h with
  | here => exact id
  | ref _ _ ih => exact ih
  | item hv _ ih => exact fun hp => ih (Json.Distinct.of_mem_items hp (List.mem_of_getElem? hv))
  | property _ _ ih => exact fun hp => ih (Slot.distinct_lookup hp _)

/-- A shape asks one thing of a key. -/
theorem Asks.unique {properties : List (Property Descriptor)}
    {additional : Additional Descriptor} {key : String} {d d' : Descriptor}
    (hn : (properties.map direction.inputKey).Nodup)
    (h : Asks direction properties additional key d)
    (h' : Asks direction properties additional key d') : d' = d := by
  cases h with
  | @declared p hp =>
    generalize hkey : direction.inputKey p = key at h'
    cases h' with
    | @declared p' hp' => rw [List.inj_on_of_nodup_map hn hp' hp hkey.symm]
    | extra hk => exact (hk (hkey ▸ List.mem_map_of_mem hp)).elim
  | extra hk =>
    cases h' with
    | declared hp' => exact (hk (List.mem_map_of_mem hp')).elim
    | extra _ => rfl

/-- A mismatch is the refusal of the spot at the end of its way. -/
theorem Meets.exists_along (h : w.Meets m p segments) :
    ∃ q, Along w.table w.direction p segments q ∧ q.Expects w.maxDepth m.expected ∧
      m = q.site.mismatch m.expected q.slot := by
  induction h with
  | @here p he hm => exact ⟨p, .here p, he, hm⟩
  | ref hd _ ih =>
    obtain ⟨q, hq, hrest⟩ := ih
    exact ⟨q, .ref hd hq, hrest⟩
  | item hv _ ih =>
    obtain ⟨q, hq, hrest⟩ := ih
    exact ⟨q, .item hv hq, hrest⟩
  | property _ _ hd _ _ ih =>
    obtain ⟨q, hq, hrest⟩ := ih
    exact ⟨q, .property hd hq, hrest⟩

theorem Meets.ref_inv {o : Option String} {name : String} {s : Site} {slot : Slot} {d : Descriptor}
    (hd : w.table.get? name = some d) (h : w.Meets m ⟨o, .ref name, s, slot⟩ segments) :
    w.Meets m ⟨some name, d, s, slot⟩ segments := by
  cases h with
  | here he _ =>
    cases he with
    | leaf hleaf _ => exact hleaf.elim
  | ref hd' h =>
    cases hd.symm.trans hd'
    exact h

/-- A union is where a way ends, and what it expects is itself. -/
theorem Meets.union_inv {o : Option String} {members : List Descriptor} {s : Site} {slot : Slot}
    (h : w.Meets m ⟨o, .union members, s, slot⟩ segments) : segments = [] ∧
      m.expected = Descriptor.name (.union members) ∧ m.actual = slot.text := by
  cases h with
  | here he hm =>
    have hactual : m.actual = slot.text := by rw [hm]; rfl
    refine ⟨rfl, ?_, hactual⟩
    generalize m.expected = text at he
    cases he with
    | leaf hleaf _ => exact hleaf.elim
    | union => rfl

/-- **A walk that meets a mismatch behind a spot comes by every way that leads there.** -/
theorem Meets.of_along (hs : w.table.Sound) {before : List Segment}
    (h : Along w.table w.direction p before q) :
    w.table.Checked p.descriptor → (∀ name, q.descriptor ≠ .ref name) →
      w.Meets m p (before ++ after) → w.Meets m q after := by
  induction h with
  | here p => exact fun _ _ hm => hm
  | ref hd _ ih => exact fun hp hq hm => ih (hs _ _ hd) hq (hm.ref_inv hd)
  | item hv _ ih =>
    intro hp hq hm
    refine ih (hp.opens hs .item) hq ?_
    cases hm with
    | item hv' hm =>
      cases hv.symm.trans hv'
      exact hm
  | property hd _ ih =>
    intro hp hq hm
    refine ih (hd.checked hs hp) hq ?_
    cases hm with
    | property _ _ hd' _ hm =>
      cases hd.unique (hp.nodup _).1 hd'
      exact hm

end Ways

end Walk

/-! ### Conversions -/

namespace Engine

variable {e : Engine} {doc : Json} {direction : Direction} {m : Mismatch}

theorem meets_of_run (hs : e.table.Sound) {d : Descriptor} (hd : e.table.Checked d)
    (hdoc : doc.Distinct) (h : e.run doc d direction = .error (.mismatch m)) :
    (e.walk direction).Meets m (.root d doc) m.path.segments := by
  obtain ⟨n, hvalue⟩ := value_of_run_eq_mismatch h
  have hslot : Slot.Distinct (some doc) := hdoc
  obtain ⟨segments, hm⟩ := Walk.meets_of_value hs hd hslot hvalue
  obtain ⟨q, hq, -, hmismatch⟩ := hm.exists_along
  have htrail : q.site.trail = segments.reverse ++ [] := hq.trail
  have hpath : m.path.segments = segments := by
    rw [hmismatch]
    simp [Site.mismatch, htrail]
  rw [hpath]
  exact hm

/-- The mismatch of a conversion by a type is met on the way from its name. -/
theorem meets_of_convert (hs : e.table.Sound) {root : String} (hdoc : doc.Distinct)
    (h : e.convert doc root direction = .error (.mismatch m)) :
    e.table.Checked (.ref root) ∧
      (e.walk direction).Meets m (.root (.ref root) doc) m.path.segments := by
  unfold convert at h
  split at h
  · cases h
  · rename_i d hresolve
    have hroot : e.table.get? root = some d := by
      unfold Table.resolve at hresolve
      split at hresolve
      · cases hresolve
        assumption
      · cases hresolve
    have hchecked := hs.checked_ref hroot .refl
    exact ⟨hchecked, meets_of_run hs hchecked hdoc h⟩

/-- The mismatch of a conversion by a descriptor is met on the way from it. -/
theorem meets_of_transform (hs : e.table.Sound) {d : Descriptor} (hdoc : doc.Distinct)
    (h : e.transform doc d direction = .error (.mismatch m)) :
    e.table.Checked d ∧ (e.walk direction).Meets m (.root d doc) m.path.segments := by
  unfold transform at h
  split at h
  · cases h
  · rename_i hexternal
    have hchecked : e.table.Checked d := ⟨_, hexternal⟩
    exact ⟨hchecked, meets_of_run hs hchecked hdoc h⟩

end Engine
end Wireform
