/-
# What a mismatch names

A mismatch names the key at which the walk was and the type that owns the key, and both can
be read off its path. The path leads through arrays and objects, so a union that it comes to
is where it ends, and the union speaks for all that stands below it. A key at the end of the
path is named with the last name that led to the object before it; at the root and at an item
there is nothing to name.

Key definitions: `Walk.Named`, `Mismatch.Attributed`.
Key theorems: `Walk.Along.named`, `Walk.Meets.attributed`, `Engine.mismatch_attributed`.
-/
import Mathlib
import Wireform.Proofs.Walk.Spots

namespace Wireform
namespace Walk

/-- Where the key and the owner at a spot come from: from the spot before, if no segment
leads on from there, and else from the last segment that does. -/
inductive Named (table : Table) (direction : Direction) (p q : Spot) : List Segment → Prop
  | here (hkey : q.site.key = p.site.key) (howner : q.site.owner = p.site.owner) :
    Named table direction p q []
  | item (before i) (hkey : q.site.key = "") (howner : q.site.owner = "") :
    Named table direction p q (before ++ [.index i])
  | property (before key) {object properties additional}
    (hobject : Along table direction p before object)
    (hshape : object.descriptor = .object properties additional)
    (hkey : q.site.key = key) (howner : q.site.owner = object.owner.getD "") :
    Named table direction p q (before ++ [.key key])

section Named

variable {table : Table} {direction : Direction} {p p' q : Spot} {segments : List Segment}

/-- A segment in front matters only if it is the last. -/
theorem Named.cons {segment : Segment} (h : Named table direction p' q segments)
    (hway : ∀ {before object}, Along table direction p' before object →
      Along table direction p (segment :: before) object)
    (hfirst : q.site.key = p'.site.key → q.site.owner = p'.site.owner →
      Named table direction p q [segment]) : Named table direction p q (segment :: segments) := by
  cases h with
  | here hkey howner => exact hfirst hkey howner
  | item before i hkey howner => exact .item (segment :: before) i hkey howner
  | property before key hobject hshape hkey howner =>
    exact .property (segment :: before) key (hway hobject) hshape hkey howner

/-- A name in front does not matter. -/
theorem Named.ref {o : Option String} {name : String} {s : Site} {slot : Slot} {d : Descriptor}
    (hd : table.get? name = some d) (h : Named table direction ⟨some name, d, s, slot⟩ q segments) :
    Named table direction ⟨o, .ref name, s, slot⟩ q segments := by
  cases h with
  | here hkey howner => exact .here hkey howner
  | item before i hkey howner => exact .item before i hkey howner
  | property before key hobject hshape hkey howner =>
    exact .property before key (.ref hd hobject) hshape hkey howner

/-- **The key and the owner at a spot are read off the way that leads there.** -/
theorem Along.named (h : Along table direction p segments q) :
    Named table direction p q segments := by
  induction h with
  | here p => exact .here rfl rfl
  | ref hd _ ih => exact ih.ref hd
  | item hv _ ih =>
    exact ih.cons (fun hway => .item hv hway) fun hkey howner => .item [] _ hkey howner
  | property hd _ ih =>
    refine ih.cons (fun hway => .property hd hway) fun hkey howner => ?_
    exact .property [] _ (.here _) rfl hkey howner

end Named

end Walk

/-- How a mismatch follows from its path. -/
structure Mismatch.Attributed (m : Mismatch) (table : Table) (direction : Direction)
    (maxDepth : ℕ) (start : Walk.Spot) : Prop where
  /-- The path leads through arrays and objects to the spot that the mismatch speaks of. -/
  reached : ∃ q, Walk.Along table direction start m.path.segments q ∧
    q.Expects maxDepth m.expected ∧ m.actual = q.slot.text
  /-- A union on the path is the end of it, and the mismatch is its own. -/
  union : ∀ {before after q members}, m.path.segments = before ++ after →
    Walk.Along table direction start before q → q.descriptor = .union members →
      after = [] ∧ m.expected = Descriptor.name (.union members) ∧ m.actual = q.slot.text
  /-- A key at the end of the path is named, with the name by which its object was reached. -/
  key : ∀ {before k}, m.path.segments = before ++ [.key k] → m.key = k ∧
    ∃ q properties additional, Walk.Along table direction start before q ∧
      q.descriptor = .object properties additional ∧ m.owner = q.owner.getD ""
  /-- At the root and at an item nothing is named. -/
  unnamed : (m.path.segments = [] ∨ ∃ before i, m.path.segments = before ++ [.index i]) →
    m.key = "" ∧ m.owner = ""

/-- What a walk meets from the root of a document is attributed. -/
theorem Walk.Meets.attributed {w : Walk} {m : Mismatch} {d : Descriptor} {doc : Json}
    (hs : w.table.Sound) (hd : w.table.Checked d)
    (h : w.Meets m (.root d doc) m.path.segments) :
    m.Attributed w.table w.direction w.maxDepth (.root d doc) := by
  obtain ⟨q, hq, hexpects, hm⟩ := h.exists_along
  have hnamed := hq.named
  have hkey : m.key = q.site.key := by rw [hm]; rfl
  have howner : m.owner = q.site.owner := by rw [hm]; rfl
  have hactual : m.actual = q.slot.text := by rw [hm]; rfl
  refine ⟨⟨q, hq, hexpects, hactual⟩, ?_, ?_, ?_⟩
  · intro before after r members hsplit hr hunion
    obtain ⟨o, d', s, slot⟩ := r
    subst hunion
    rw [hsplit] at h
    exact (Meets.of_along hs hr hd nofun h).union_inv
  · intro before k hsplit
    rw [hkey, howner]
    generalize m.path.segments = segments at hsplit hnamed
    cases hnamed with
    | here => simp at hsplit
    | item => simp at hsplit
    | property _ _ hobject hshape hkey howner =>
      obtain ⟨rfl, hlast⟩ := List.append_inj' hsplit rfl
      cases hlast
      exact ⟨hkey, _, _, _, hobject, hshape, howner⟩
  · intro hlast
    rw [hkey, howner]
    generalize m.path.segments = segments at hlast hnamed
    cases hnamed with
    | here hkey howner => exact ⟨hkey, howner⟩
    | item _ _ hkey howner => exact ⟨hkey, howner⟩
    | property => simp at hlast

namespace Engine

/-- **A mismatch is attributed by its path**, whether the document was converted by a type of
an accepted table or by a descriptor outside it. -/
theorem mismatch_attributed {definitions : List (String × Descriptor)} {table : Table}
    (ht : Table.build definitions = .ok table) (maxDepth : ℕ) {doc : Json} (hdoc : doc.Distinct)
    (direction : Direction) (m : Mismatch) :
    (∀ root, (⟨table, maxDepth⟩ : Engine).convert doc root direction = .error (.mismatch m) →
      m.Attributed table direction maxDepth (.root (.ref root) doc)) ∧
    ∀ d, (⟨table, maxDepth⟩ : Engine).transform doc d direction = .error (.mismatch m) →
      m.Attributed table direction maxDepth (.root d doc) := by
  have hs := Table.build_sound ht
  constructor
  · intro root h
    obtain ⟨hd, hm⟩ := meets_of_convert hs hdoc h
    exact hm.attributed hs hd
  · intro d h
    obtain ⟨hd, hm⟩ := meets_of_transform hs hdoc h
    exact hm.attributed hs hd

/-- Stores of crates, a crate being a box by another name, and of spare boxes under other
keys, which may be missing. -/
def stores : List (String × Descriptor) :=
  [("Crate", .ref "Box"), ("Box", .object [⟨"w", "weight", .primitive .number⟩] .reject),
    ("Store", .object [⟨"crates", "crates", .array (.ref "Crate")⟩]
      (.allow (.optional (.map (.ref "Box")))))]

/-- A weight is named with the box and not with the crate, a spare box is reported by the
optional map around it, and a crate in an array is not named. -/
theorem mismatch_attributed_stores :
    let e : Engine := ⟨⟨stores⟩, 9⟩
    let heavy : Json := .object [("crates", .array [.object [("w", .string "x")]])]
    let spare : Json := .object [("crates", .array []),
      ("spare", .object [("a", .object [("w", .null)])])]
    let row : Json := .array [.bool true]
    let m : Mismatch := ⟨"number", "\"x\"", "w", "Box", ⟨[.key "crates", .index 0, .key "w"]⟩⟩
    let m' : Mismatch := ⟨"an optional object", "\x7b\"a\":\x7b\"w\":null\x7d\x7d", "spare", "Store",
      ⟨[.key "spare"]⟩⟩
    let m'' : Mismatch := ⟨"Box", "true", "", "", ⟨[.index 0]⟩⟩
    Table.build stores = .ok ⟨stores⟩ ∧
      e.convert heavy "Store" .decode = .error (.mismatch m) ∧
      m.Attributed ⟨stores⟩ .decode 9 (.root (.ref "Store") heavy) ∧
      e.convert spare "Store" .decode = .error (.mismatch m') ∧
      m'.Attributed ⟨stores⟩ .decode 9 (.root (.ref "Store") spare) ∧
      e.transform row (.array (.ref "Crate")) .encode = .error (.mismatch m'') ∧
      m''.Attributed ⟨stores⟩ .encode 9 (.root (.array (.ref "Crate")) row) := by
  intro e heavy spare row m m' m''
  have ht : Table.build stores = .ok ⟨stores⟩ := rfl
  have hheavy : heavy.Distinct := by
    simp [heavy]
  have hspare : spare.Distinct := by
    simp [spare]
  have hrow : row.Distinct := by simp [row]
  have h : e.convert heavy "Store" .decode = .error (.mismatch m) := by cbv
  have h' : e.convert spare "Store" .decode = .error (.mismatch m') := by cbv
  have h'' : e.transform row (.array (.ref "Crate")) .encode = .error (.mismatch m'') := by cbv
  exact ⟨ht, h, (mismatch_attributed ht 9 hheavy .decode m).1 _ h,
    h', (mismatch_attributed ht 9 hspare .decode m').1 _ h',
    h'', (mismatch_attributed ht 9 hrow .encode m'').2 _ h''⟩

end Engine
end Wireform
