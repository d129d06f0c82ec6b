/-
# Back and forth

What was converted is converted back to the document it came from, but for the
order of keys, and that once more to the same result. It takes three things. The
members of every union are told apart by the kinds of slots that they accept
(`Engine.Separates`): a conversion keeps the kind of a slot, so the way back turns
to the same member. An object shape that lets additional keys through has the same
keys in both forms (`Table.KeepsKeys`): an undeclared key is then undeclared on the
way back too. And the dates are in canonical form (`Walk.ReadsDate`).

Where definitions lead only to each other the way back may not end, although the way there
did (`Engine.not_convert_roundTrip`); over a productive table both ways end.

Key definitions: `Engine.Separates`, `Table.KeepsKeys`, `Walk.ReadsDate`, `Walk.Returns`.
Key theorems: `Walk.Accepts.returns`, `Engine.convert_roundTrip`,
`Engine.not_convert_roundTrip`.
-/
import Mathlib
import Wireform.Proofs.Json.Reorder
import Wireform.Proofs.Table.Resolve
import Wireform.Proofs.Walk.Settles

namespace Wireform

namespace Json

mutual

/-- The strings in a document, keys left out. -/
def texts : Json → List String
  | .string s => [s]
  | .array items => textsOfItems items
  | .object members => textsOfMembers members
  | _ => []

/-- The strings in items. -/
def textsOfItems : List Json → List String
  | [] => []
  | v :: vs => texts v ++ textsOfItems vs

/-- The strings in the values of members. -/
def textsOfMembers : List (String × Json) → List String
  | [] => []
  | (_, v) :: rest => texts v ++ textsOfMembers rest

end

theorem mem_textsOfItems {v : Json} {text : String} (ht : text ∈ v.texts) :
    ∀ {vs : List Json}, v ∈ vs → text ∈ textsOfItems vs
  | x :: vs, h => by
    rw [textsOfItems, List.mem_append]
    rcases List.mem_cons.mp h with rfl | h
    · exact .inl ht
    · exact .inr (mem_textsOfItems ht h)

theorem mem_textsOfMembers {m : String × Json} {text : String} (ht : text ∈ m.2.texts) :
    ∀ {ms : List (String × Json)}, m ∈ ms → text ∈ textsOfMembers ms
  | x :: ms, h => by
    rw [textsOfMembers, List.mem_append]
    rcases List.mem_cons.mp h with rfl | h
    · exact .inl ht
    · exact .inr (mem_textsOfMembers ht h)

end Json

/-- In each object shape that a type reaches, additional keys are rejected or the
wire keys are the typed keys. -/
def Table.KeepsKeys (table : Table) (root : String) : Prop :=
  ∀ properties additional, table.Reaches (.ref root) (.object properties additional) →
    additional = .reject ∨
      ∀ key, key ∈ properties.map (·.wireKey) ↔ key ∈ properties.map (·.typedKey)

namespace Engine

/-- Some slot of a kind is accepted, in one direction or the other. -/
def CanAccept (e : Engine) (d : Descriptor) (kind : SlotKind) : Prop :=
  ∃ direction depth slot out, Slot.kind slot = kind ∧ (e.walk direction).Accepts d depth slot out

/-- In each union that a type reaches, different members accept slots of different kinds. -/
def Separates (e : Engine) (root : String) : Prop :=
  ∀ members, e.table.Reaches (.ref root) (.union members) →
    ∀ a ∈ members, ∀ b ∈ members, a ≠ b → ∀ kind, ¬ (e.CanAccept a kind ∧ e.CanAccept b kind)

end Engine

theorem Slot.Reordered.kind {s t : Slot} (h : Slot.Reordered s t) : Slot.kind s = Slot.kind t := by
  cases h with
  | none => rfl
  | some h =>
    cases h with
    | same v => rfl
    | array _ => rfl
    | object _ _ => rfl

namespace Walk

/-- The texts that a walk reads as dates, in a slot that it accepts. -/
inductive ReadsDate (w : Walk) : Descriptor → Nat → Slot → String → Prop
  | date {depth text} : ReadsDate w .date depth (some (.string text)) text
  | ref {name d depth slot text} (hd : w.table.get? name = some d)
    (h : ReadsDate w d depth slot text) : ReadsDate w (.ref name) depth slot text
  | member {before d after depth slot out text} (hb : ∀ a ∈ before, w.Refuses a depth slot)
    (ha : w.Accepts d depth slot out) (h : ReadsDate w d depth slot text) :
    ReadsDate w (.union (before ++ d :: after)) depth slot text
  | item {item depth vs v text} (hv : v ∈ vs) (h : ReadsDate w item (depth + 1) (some v) text) :
    ReadsDate w (.array item) depth (some (.array vs)) text
  | property {properties additional depth input p text} (hp : p ∈ properties)
    (h : ReadsDate w p.descriptor (depth + 1) (input.lookup (w.direction.inputKey p)) text) :
    ReadsDate w (.object properties additional) depth (some (.object input)) text
  | extra {properties d depth input m text} (hm : m ∈ extras w.direction properties input)
    (h : ReadsDate w d (depth + 1) (some m.2) text) :
    ReadsDate w (.object properties (.allow d)) depth (some (.object input)) text

/-- What is read as a date stands in the document. -/
theorem ReadsDate.mem_texts {w : Walk} {d : Descriptor} {depth : Nat} {slot : Slot} {text : String}
    (h : w.ReadsDate d depth slot text) : ∃ v, slot = some v ∧ text ∈ v.texts := by
  induction h with
  | date => exact ⟨_, rfl, List.mem_singleton.mpr rfl⟩
  | ref _ _ ih => exact ih
  | member _ _ _ ih => exact ih
  | item hv _ ih =>
    obtain ⟨_, hslot, ht⟩ := ih
    cases hslot
    exact ⟨_, rfl, Json.mem_textsOfItems ht hv⟩
  | property _ _ ih =>
    obtain ⟨v, hslot, ht⟩ := ih
    exact ⟨_, rfl, Json.mem_textsOfMembers ht (Keyed.mem_of_lookup hslot)⟩
  | extra hm _ ih =>
    obtain ⟨_, hslot, ht⟩ := ih
    cases hslot
    exact ⟨_, rfl, Json.mem_textsOfMembers ht (List.mem_filter.mp hm).1⟩

/-- What comes of a slot returns to it in a second walk, but for the order of keys,
and from there to the same result. -/
def Returns (w w' : Walk) (d : Descriptor) (depth : Nat) (slot out : Slot) : Prop :=
  ∃ back, Slot.Reordered back slot ∧ w'.Settles d depth out back ∧ w.Settles d depth back out

theorem Returns.of_some {w w' : Walk} {d : Descriptor} {depth : Nat} {v o : Json}
    (h : Returns w w' d depth (some v) (some o)) : ∃ back, Json.Reordered back v ∧
      w'.Settles d depth (some o) (some back) ∧ w.Settles d depth (some back) (some o) := by
  obtain ⟨_, hre, hout, hin⟩ := h
  cases hre with
  | some hre => exact ⟨_, hre, hout, hin⟩

/-! ### One level -/

/-- A leaf takes a slot as it is, but for dates. -/
theorem Takes.eq {d : Descriptor} {slot out : Slot} (h : Takes d slot out)
    (hdate : ∀ text, d = .date → slot = some (.string text) → Date.normalize? text = some text) :
    out = slot := by
  cases h with
  | date h =>
    have hcanonical := hdate _ rfl rfl
    rw [h] at hcanonical
    rw [Option.some.inj hcanonical]
  | any | null | undefined | primitive _ | enum _ | noDate => rfl

theorem returns_leaf {w w' : Walk} {d : Descriptor} {depth : Nat} {slot out : Slot}
    (hd : IsLeaf d) (h : Takes d slot out)
    (hdate : ∀ text, w.ReadsDate d depth slot text → Date.normalize? text = some text) :
    Returns w w' d depth slot out := by
  have heq : out = slot := by
    refine h.eq fun text hdd hslot => hdate text ?_
    subst hdd hslot
    exact .date
  subst heq
  exact ⟨out, .same out, .leaf hd h, .leaf hd h⟩

theorem returns_array {w w' : Walk} {item : Descriptor} {depth : Nat} {vs outs : List Json}
    (hdepth : depth < w.maxDepth) (hdepth' : depth < w'.maxDepth)
    (h : List.Forall₂ (fun v o => Returns w w' item (depth + 1) (some v) (some o)) vs outs) :
    Returns w w' (.array item) depth (some (.array vs)) (some (.array outs)) := by
  obtain ⟨rows, rfl, rfl, hrows⟩ := exists_rows h
  have hback : ∀ r ∈ rows, ∃ back, Json.Reordered back r.1 ∧
      w'.Settles item (depth + 1) (some r.2) (some back) ∧
      w.Settles item (depth + 1) (some back) (some r.2) := fun r hr => (hrows r hr).of_some
  choose! back hre hout hin using hback
  refine ⟨some (.array (rows.map back)), .some (.array ?_), ?_, ?_⟩
  · exact Json.reorderedItems_of_forall₂ (forall₂_rows hre)
  · exact .array hdepth' (forall₂_rows hout)
  · exact .array hdepth (forall₂_rows hin)

section Objects

variable {e : Engine} {direction : Direction} {properties : List (Property Descriptor)}
  {additional : Additional Descriptor}

theorem mem_keys_iff (direction : Direction)
    (h : ∀ key, key ∈ properties.map (·.wireKey) ↔ key ∈ properties.map (·.typedKey))
    (key : String) :
    key ∈ properties.map direction.inputKey ↔ key ∈ properties.map direction.outputKey := by
  cases direction with
  | decode => exact h key
  | encode => exact (h key).symm

/-- An undeclared key is undeclared on the way back too. -/
theorem fresh_back {ρ : Type} {rows : List ρ} {p : ρ → Property Descriptor}
    {xs : List (String × Json)}
    (hkeep : xs = [] ∨ ∀ key, key ∈ (rows.map p).map (·.wireKey) ↔
      key ∈ (rows.map p).map (·.typedKey))
    (hfresh : Fresh rows (fun r => direction.inputKey (p r)) xs) :
    Fresh rows (fun r => direction.outputKey (p r)) xs := by
  rcases hkeep with rfl | hkeep
  · intro k hk
    cases hk
  · intro k hk hmem
    have hiff := mem_keys_iff direction hkeep k
    rw [List.map_map, List.map_map] at hiff
    exact hfresh k hk (hiff.mpr hmem)

/-- `Settles.object` in the other direction: what comes from the output keys settles at
the input keys. -/
theorem settles_object_back {ρ : Type} {rows : List ρ} {p : ρ → Property Descriptor}
    {a b : ρ → Slot} {depth : Nat} {xs ys : List (String × Json)}
    (hin : (rows.map fun r => direction.inputKey (p r)).Nodup)
    (hout : (rows.map fun r => direction.outputKey (p r)).Nodup)
    (hdistinct : (Keyed.keys xs).Nodup)
    (hfresh : Fresh rows (fun r => direction.inputKey (p r)) xs)
    (hfresh' : Fresh rows (fun r => direction.outputKey (p r)) xs)
    (hdepth : depth < e.maxDepth)
    (hrows : ∀ r ∈ rows, (e.walk direction.flip).Settles (p r).descriptor (depth + 1) (a r) (b r))
    (hxs : List.Forall₂ (fun x y => y.1 = x.1 ∧ ∃ d, additional = .allow d ∧
      (e.walk direction.flip).Settles d (depth + 1) (some x.2) (some y.2)) xs ys) :
    (e.walk direction.flip).Settles (.object (rows.map p) additional) depth
      (some (.object (written (rows.map fun r => direction.outputKey (p r)) (rows.map a) ++ xs)))
      (some (.object (written (rows.map fun r => direction.inputKey (p r)) (rows.map b) ++ ys))) := by
  have hsettles := Settles.object (w := e.walk direction.flip) (p := p) (a := a) (b := b)
    (by simpa only [Engine.walk, Direction.inputKey_flip] using hout)
    (by simpa only [Engine.walk, Direction.outputKey_flip] using hin) hdistinct
    (by simpa only [Engine.walk, Direction.inputKey_flip] using hfresh')
    (by simpa only [Engine.walk, Direction.outputKey_flip] using hfresh) hdepth hrows hxs
  simpa only [Engine.walk, Direction.inputKey_flip, Direction.outputKey_flip] using hsettles

theorem returns_object {depth : Nat} {input members : List (String × Json)}
    (hin : (properties.map direction.inputKey).Nodup)
    (hout : (properties.map direction.outputKey).Nodup)
    (hkeep : additional = .reject ∨
      ∀ key, key ∈ properties.map (·.wireKey) ↔ key ∈ properties.map (·.typedKey))
    (hinput : (Keyed.keys input).Nodup) (hdepth : depth < e.maxDepth)
    (h : Converts direction properties additional
      (Returns (e.walk direction) (e.walk direction.flip) · (depth + 1)) input members) :
    Returns (e.walk direction) (e.walk direction.flip) (.object properties additional) depth
      (some (.object input)) (some (.object members)) := by
  obtain ⟨slots, xs, hslots, hxs, rfl⟩ := h
  have hxkeys' := keys_eq_of_forall₂ hxs
  obtain ⟨rows, rfl, rfl, hrows⟩ := exists_rows hslots
  obtain ⟨xrows, hextras, rfl, hxrows⟩ := exists_rows hxs
  rw [← hextras] at hxkeys'
  have hxkeys : (Keyed.keys (xrows.map (·.1))).Nodup := hextras ▸ nodup_keys_extras hinput
  have hfresh : Fresh rows (fun r => direction.inputKey r.1) (xrows.map (·.1)) := by
    have hf : Fresh (rows.map (·.1)) direction.inputKey (xrows.map (·.1)) := hextras ▸ fresh_extras
    rwa [Fresh, List.map_map] at hf
  have hkeep : xrows.map (·.1) = [] ∨ ∀ key, key ∈ (rows.map (·.1)).map (·.wireKey) ↔
      key ∈ (rows.map (·.1)).map (·.typedKey) := by
    refine hkeep.imp_left fun hreject => List.map_eq_nil_iff.mpr ?_
    refine List.eq_nil_iff_forall_not_mem.mpr fun r hr => ?_
    obtain ⟨-, d, hd, -⟩ := hxrows r hr
    cases hreject.symm.trans hd
  have hfresh' := fresh_back hkeep hfresh
  have hback : ∀ r ∈ rows, ∃ back, Slot.Reordered back (input.lookup (direction.inputKey r.1)) ∧
      (e.walk direction.flip).Settles r.1.descriptor (depth + 1) r.2 back ∧
      (e.walk direction).Settles r.1.descriptor (depth + 1) back r.2 := hrows
  choose! back hre hthere hagain using hback
  have hxback : ∀ r ∈ xrows, ∃ back, Json.Reordered back r.1.2 ∧ ∃ d, additional = .allow d ∧
      (e.walk direction.flip).Settles d (depth + 1) (some r.2.2) (some back) ∧
      (e.walk direction).Settles d (depth + 1) (some back) (some r.2.2) := by
    intro r hr
    obtain ⟨-, d, hd, hreturns⟩ := hxrows r hr
    obtain ⟨back, hre, hthere, hagain⟩ := hreturns.of_some
    exact ⟨back, hre, d, hd, hthere, hagain⟩
  choose! xback hxre hxsettles using hxback
  have hperm := assembled_perm hin hinput
  rw [← hextras] at hperm
  simp only [List.map_map, Function.comp_def] at hin hout hperm ⊢
  have hbkeys : Keyed.keys (xrows.map fun r => (r.1.1, xback r)) = Keyed.keys (xrows.map (·.1)) := by
    rw [Keyed.keys, Keyed.keys, List.map_map, List.map_map]
    rfl
  rw [Keyed.ofList_eq_self (nodup_assembled hout (hxkeys' ▸ hxkeys) (hfresh'.congr hxkeys'))]
  refine ⟨some (.object (written (rows.map fun r => direction.inputKey r.1) (rows.map back) ++
    xrows.map fun r => (r.1.1, xback r))), .some (.object ?_ hperm), ?_, ?_⟩
  · refine Json.reorderedMembers_of_forall₂ (List.rel_append (forall₂_written hre) ?_)
    exact forall₂_rows fun r hr => ⟨rfl, hxre r hr⟩
  · refine settles_object_back hin hout (hxkeys' ▸ hxkeys) (hfresh.congr hxkeys')
      (hfresh'.congr hxkeys') hdepth hthere (forall₂_rows fun r hr => ?_)
    obtain ⟨d, hd, hthere, -⟩ := hxsettles r hr
    exact ⟨(hxrows r hr).1.symm, d, hd, hthere⟩
  · refine Settles.object (p := Prod.fst) hin hout (hbkeys ▸ hxkeys) (hfresh.congr hbkeys)
      (hfresh'.congr hbkeys) hdepth hagain (forall₂_rows fun r hr => ?_)
    obtain ⟨d, hd, -, hagain⟩ := hxsettles r hr
    exact ⟨(hxrows r hr).1, d, hd, hagain⟩

end Objects

/-! ### A whole walk -/

section Whole

variable {e : Engine} {root : String} {direction : Direction}

/-- The first member that accepts is the one that the way back turns to. -/
theorem returns_union (hsep : e.Separates root) {before after : List Descriptor} {d : Descriptor}
    {depth : Nat} {slot out : Slot}
    (hreach : e.table.Reaches (.ref root) (.union (before ++ d :: after)))
    (hb : ∀ a ∈ before, (e.walk direction).Refuses a depth slot)
    (ha : (e.walk direction).Accepts d depth slot out)
    (h : Returns (e.walk direction) (e.walk direction.flip) d depth slot out) :
    Returns (e.walk direction) (e.walk direction.flip) (.union (before ++ d :: after)) depth
      slot out := by
  have hother : ∀ a ∈ before, ∀ w s s', Slot.kind s = Slot.kind slot →
      ¬ (e.walk w).Accepts a depth s s' := by
    intro a hmem w s s' hkind has
    have hne : a ≠ d := by
      rintro rfl
      exact (hb a hmem).not_accepts ha
    refine hsep _ hreach a (by simp [hmem]) d (by simp) hne (Slot.kind slot) ⟨?_, ?_⟩
    · exact ⟨w, depth, s, s', hkind, has⟩
    · exact ⟨direction, depth, slot, out, rfl, ha⟩
  obtain ⟨back, hre, hthere, hagain⟩ := h
  refine ⟨back, hre, .union (fun a hmem s => ?_) hthere, .union (fun a hmem s => ?_) hagain⟩
  · exact hother a hmem _ out s ha.kind
  · exact hother a hmem _ back s (Slot.Reordered.kind hre)

/-- **What a type accepts returns.** -/
theorem Accepts.returns (hs : e.table.Sound) (hsep : e.Separates root)
    (hkeep : e.table.KeepsKeys root) {d : Descriptor} {depth : Nat} {slot out : Slot}
    (hd : e.table.Checked d) (h : (e.walk direction).Accepts d depth slot out) :
    e.table.Reaches (.ref root) d → Slot.Distinct slot →
      (∀ text, (e.walk direction).ReadsDate d depth slot text →
        Date.normalize? text = some text) →
      Returns (e.walk direction) (e.walk direction.flip) d depth slot out := by
  refine Accepts.induct (w := e.walk direction) hs (motive := fun d depth slot out =>
    e.table.Reaches (.ref root) d → Slot.Distinct slot →
      (∀ text, (e.walk direction).ReadsDate d depth slot text →
        Date.normalize? text = some text) →
      Returns (e.walk direction) (e.walk direction.flip) d depth slot out)
    ?leaf ?ref ?union ?array ?object hd h
  case leaf =>
    intro d depth slot out hleaf htakes _ _ hdates
    exact returns_leaf hleaf htakes hdates
  case ref =>
    intro name d depth slot out hget ih hreach hdist hdates
    obtain ⟨back, hre, hthere, hagain⟩ := ih (hreach.opens (.ref hget)) hdist
      fun text ht => hdates text (.ref hget ht)
    exact ⟨back, hre, .ref hget hthere, .ref hget hagain⟩
  case union =>
    intro before d after depth slot out hb ha ih hreach hdist hdates
    refine returns_union hsep hreach hb ha (ih (hreach.opens (.member (by simp))) hdist ?_)
    exact fun text ht => hdates text (.member hb ha ht)
  case array =>
    intro item depth vs outs hdepth ih hreach hdist hdates
    refine returns_array hdepth hdepth ?_
    refine ((List.forall₂_and_left _ _).mpr ⟨fun v hv => hv, ih⟩).imp fun v o ⟨hv, ih⟩ => ?_
    exact ih (hreach.opens .item) (hdist.of_mem_items hv) fun text ht => hdates text (.item hv ht)
  case object =>
    intro properties additional depth input members hdepth hc hconv hreach hdist hdates
    obtain ⟨hin, hout⟩ := hc.nodup direction
    refine returns_object hin hout (hkeep _ _ hreach) hdist.1 hdepth ?_
    obtain ⟨slots, xs, hslots, hxs, rfl⟩ := hconv
    refine ⟨slots, xs, ?_, ?_, rfl⟩
    · refine ((List.forall₂_and_left _ _).mpr ⟨fun p hp => hp, hslots⟩).imp
        fun p s ⟨hp, ih⟩ => ?_
      exact ih (hreach.opens (.property hp)) (Slot.distinct_lookup hdist _)
        fun text ht => hdates text (.property hp ht)
    · refine ((List.forall₂_and_left _ _).mpr ⟨fun m hm => hm, hxs⟩).imp
        fun m x ⟨hm, hk, d, hadd, ih⟩ => ⟨hk, d, hadd, ?_⟩
      subst hadd
      exact ih (hreach.opens .extra) (hdist.of_mem_members (List.mem_filter.mp hm).1)
        fun text ht => hdates text (.extra hm ht)

end Whole

end Walk

namespace Engine

/-- **What was converted is converted back**, to the same document but for the order of
keys, and that again to the same result, where every walk ends. -/
theorem convert_roundTrip {definitions : List (String × Descriptor)} {e : Engine}
    (ht : Table.build definitions = .ok e.table) (hp : e.table.Productive) {root : String}
    (hsep : e.Separates root) (hkeep : e.table.KeepsKeys root) {raw out : Json}
    {direction : Direction} (hraw : raw.Distinct)
    (hdates : ∀ text, (e.walk direction).ReadsDate (.ref root) 0 (some raw) text →
      Date.normalize? text = some text)
    (h : e.convert raw root direction = .ok out) :
    ∃ back, Json.Reordered back raw ∧ e.convert out root direction.flip = .ok back ∧
      e.convert back root direction = .ok out := by
  have hs := Table.build_sound ht
  have ha := convert_eq_ok_iff.mp h
  obtain ⟨d, hroot⟩ := ha.exists_of_ref
  have hreturns := ha.returns hs hsep hkeep (hs.checked_ref hroot .refl) .refl hraw hdates
  obtain ⟨back, hre, hthere, hagain⟩ := hreturns.of_some
  exact ⟨back, hre, convert_of_settles hp hthere, convert_of_settles hp hagain⟩

/-! ### A chain of entries

In its two forms `val` and `at` stand for each other, the rest of the chain may be
missing or `null`, and other keys are kept. -/

/-- An entry: a number, a date and the rest of the chain. -/
def entry : Descriptor :=
  .object [⟨"val", "at", .primitive .number⟩, ⟨"at", "val", .date⟩,
    ⟨"nxt", "nxt", .union [.undefined, .null, .ref "Entry"]⟩] (.allow .any)

/-- The engine of the one type `Entry`. -/
def chain : Engine := .ofTable ⟨[("Entry", entry)]⟩

theorem chain_reaches {d : Descriptor} (h : chain.table.Reaches (.ref "Entry") d) :
    d = .ref "Entry" ∨ d = entry ∨ d = .union [.undefined, .null, .ref "Entry"] ∨
      d ∈ [.primitive .number, .date, .undefined, .null, .any] := by
  have hmem := h.mem_catalog
  simp only [Table.catalog, chain, ofTable, List.flatMap_cons, List.flatMap_nil, entry,
    Descriptor.parts, Descriptor.partsOfProperties, Descriptor.partsOfMembers,
    Descriptor.partsOfAdditional, List.mem_append, List.mem_cons, List.not_mem_nil] at hmem ⊢
  tauto

theorem chain_accepts {d : Descriptor} {kind : SlotKind} (h : chain.CanAccept d kind) :
    (d = .undefined → kind = .missing) ∧ (d = .null → kind = .null) ∧
      (d = .ref "Entry" → kind = .object) := by
  obtain ⟨direction, depth, slot, out, rfl, n, h⟩ := h
  refine ⟨?_, ?_, ?_⟩
  · rintro rfl
    cases n with
    | zero => cases h
    | succ n =>
      cases (Walk.acceptsIn_leaf_iff (by exact trivial)).mp h
      rfl
  · rintro rfl
    cases n with
    | zero => cases h
    | succ n =>
      cases (Walk.acceptsIn_leaf_iff (by exact trivial)).mp h
      rfl
  · rintro rfl
    rcases n with _ | _ | n
    · cases h
    · obtain ⟨_, -, h⟩ := Walk.acceptsIn_ref_iff.mp h
      cases h
    · obtain ⟨_, hd, h⟩ := Walk.acceptsIn_ref_iff.mp h
      cases hd
      have hk : ∀ direction : Direction, ([⟨"val", "at", .primitive .number⟩, ⟨"at", "val", .date⟩,
          ⟨"nxt", "nxt", .union [.undefined, .null, .ref "Entry"]⟩].map
            (direction.inputKey (δ := Descriptor))).Nodup := by
        rintro (_ | _) <;> decide
      obtain ⟨_, _, rfl, -⟩ := (Walk.acceptsIn_object_iff (hk _)).mp h
      rfl

theorem chain_separates : chain.Separates "Entry" := by
  intro members hreach a ha b hb hne kind ⟨hka, hkb⟩
  have hmembers : members = [.undefined, .null, .ref "Entry"] := by
    rcases chain_reaches hreach with h | h | h | h
    · cases h
    · cases h
    · cases h; rfl
    · simp at h
  subst hmembers
  have h1 := chain_accepts hka
  have h2 := chain_accepts hkb
  simp only [List.mem_cons, List.not_mem_nil, or_false] at ha hb
  rcases ha with rfl | rfl | rfl <;> rcases hb with rfl | rfl | rfl <;> simp_all

theorem chain_keepsKeys : chain.table.KeepsKeys "Entry" := by
  intro properties additional hreach
  rcases chain_reaches hreach with h | h | h | h
  · cases h
  · cases h
    refine .inr fun key => ?_
    simp only [List.map_cons, List.map_nil, List.mem_cons, List.not_mem_nil]
    tauto
  · cases h
  · simp at h

theorem convert_roundTrip_chain :
    let one : Json := .number (.whole ⟨1, by decide, by decide⟩)
    let day : Json := .string "2024-02-29T00:00:00.000Z"
    let raw : Json := .object [("x", .array [one]), ("nxt", .object [("at", .null), ("val", one)]),
      ("at", day), ("val", one)]
    let out : Json := .object [("at", one), ("val", day),
      ("nxt", .object [("at", one), ("val", .null)]), ("x", .array [one])]
    chain.convert raw "Entry" .decode = .ok out ∧
      ∃ back, Json.Reordered back raw ∧ chain.convert out "Entry" .encode = .ok back ∧
        chain.convert back "Entry" .decode = .ok out := by
  intro one day raw out
  have hbuild : Table.build [("Entry", entry)] = .ok chain.table := rfl
  have hproductive : chain.table.Productive :=
    Table.productive_of_shapes (by simp [chain, ofTable, entry])
  have hraw : raw.Distinct := by
    simp [raw, one, day]
  have hday : Date.normalize? "2024-02-29T00:00:00.000Z" = some "2024-02-29T00:00:00.000Z" := by cbv
  have hdates : ∀ text, (chain.walk .decode).ReadsDate (.ref "Entry") 0 (some raw) text →
      Date.normalize? text = some text := by
    intro text h
    obtain ⟨_, hslot, ht⟩ := h.mem_texts
    cases hslot
    rw [List.mem_singleton.mp ht]
    exact hday
  have hconvert : chain.convert raw "Entry" .decode = .ok out := by cbv
  exact ⟨hconvert, convert_roundTrip hbuild hproductive chain_separates chain_keepsKeys hraw hdates
    hconvert⟩

/-! ### A way back without end

One way is over before it comes to the type that leads to itself, the other is not. -/

/-- An object with a number, and a value of a type that leads back to itself. -/
def gate : Descriptor :=
  .object [⟨"x", "y", .primitive .number⟩, ⟨"b", "b", .ref "Loop"⟩] .reject

/-- The engine of a union of such objects and of any. -/
def gated : Engine :=
  .ofTable ⟨[("Loop", .union [.ref "Loop"]), ("Root", .union [gate, .map .any])]⟩

/-- A type that is nothing but itself accepts nothing. -/
theorem not_acceptsIn_loop {direction : Direction} {depth : Nat} {slot out : Slot} :
    ∀ n, ¬ (gated.walk direction).AcceptsIn n (.ref "Loop") depth slot out
  | 0, h => Walk.not_acceptsIn_zero h
  | 1, h => by
    obtain ⟨d, -, h⟩ := Walk.acceptsIn_ref_iff.mp h
    exact Walk.not_acceptsIn_zero h
  | n + 2, h => by
    obtain ⟨d, hd, h⟩ := Walk.acceptsIn_ref_iff.mp h
    cases hd
    obtain ⟨before, d, after, hmembers, -, h⟩ := Walk.acceptsIn_union_iff.mp h
    have hmem : d ∈ [Descriptor.ref "Loop"] := hmembers ▸ List.mem_append_right _ List.mem_cons_self
    rw [List.mem_singleton.mp hmem] at h
    exact not_acceptsIn_loop n h

theorem not_canAccept_gate {kind : SlotKind} : ¬ gated.CanAccept gate kind := by
  rintro ⟨direction, depth, slot, out, -, _ | n, h⟩
  · exact Walk.not_acceptsIn_zero h
  · have hk : ∀ direction : Direction, ([⟨"x", "y", .primitive .number⟩, ⟨"b", "b", .ref "Loop"⟩].map
        (direction.inputKey (δ := Descriptor))).Nodup := by
      rintro (_ | _) <;> decide
    obtain ⟨_, _, -, -, -, hconverts⟩ := (Walk.acceptsIn_object_iff (hk _)).mp h
    obtain ⟨s, hs⟩ := hconverts.property
      (show (⟨"b", "b", .ref "Loop"⟩ : Property Descriptor) ∈ _ by simp)
    exact not_acceptsIn_loop n hs

theorem gated_reaches {d : Descriptor} (h : gated.table.Reaches (.ref "Root") d) :
    d ∈ [.ref "Root", .union [gate, .map .any], gate, .primitive .number, .ref "Loop",
      .union [.ref "Loop"], .map .any, .any] := by
  have hmem := h.mem_catalog
  simp only [Table.catalog, gated, gate, Descriptor.map, ofTable, List.flatMap_cons,
    List.flatMap_nil, Descriptor.parts, Descriptor.partsOfProperties, Descriptor.partsOfMembers,
    Descriptor.partsOfAdditional, List.mem_append, List.mem_cons, List.not_mem_nil] at hmem ⊢
  tauto

/-- **The way back of what was converted need not end.** -/
theorem not_convert_roundTrip :
    let v : Json := .object [("y", .number (.whole ⟨1, by decide, by decide⟩))]
    (∃ definitions, Table.build definitions = .ok gated.table) ∧ gated.Separates "Root" ∧
      gated.table.KeepsKeys "Root" ∧ v.Distinct ∧
      (∀ text, ¬ (gated.walk .decode).ReadsDate (.ref "Root") 0 (some v) text) ∧
      gated.convert v "Root" .decode = .ok v ∧
      gated.convert v "Root" .encode = .error .endless := by
  intro v
  refine ⟨⟨gated.table.definitions, rfl⟩, ?separates, ?keepsKeys, by simp [v],
    fun text h => ?dates, by cbv, by cbv⟩
  case separates =>
    intro members hreach a ha b hb hne kind hkinds
    obtain ⟨hka, hkb⟩ := hkinds
    have hmembers := gated_reaches hreach
    simp only [List.mem_cons, List.not_mem_nil, or_false, gate, Descriptor.map, reduceCtorEq,
      false_or, Descriptor.union.injEq] at hmembers
    rcases hmembers with rfl | rfl
    · simp only [List.mem_cons, List.not_mem_nil, or_false] at ha hb
      rcases ha with rfl | rfl
      · exact not_canAccept_gate hka
      · rcases hb with rfl | rfl
        · exact not_canAccept_gate hkb
        · exact hne rfl
    · exact hne ((List.mem_singleton.mp ha).trans (List.mem_singleton.mp hb).symm)
  case keepsKeys =>
    intro properties additional hreach
    have hshape := gated_reaches hreach
    simp only [List.mem_cons, List.not_mem_nil, or_false, gate, Descriptor.map, reduceCtorEq,
      false_or, Descriptor.object.injEq] at hshape
    rcases hshape with ⟨-, rfl⟩ | ⟨rfl, -⟩
    · exact .inl rfl
    · exact .inr fun key => Iff.rfl
  case dates =>
    obtain ⟨_, hslot, ht⟩ := h.mem_texts
    cases hslot
    exact List.not_mem_nil ht

end Engine
end Wireform
