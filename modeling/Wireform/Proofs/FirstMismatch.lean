/-
# The first mismatch

The mismatch that ends a walk is the first that the walk comes to. A walk visits the keys
of an object in the order of their declaration, and the undeclared ones after them, so at
every object on the path of a mismatch all that is visited before the path's own key was
accepted. If the keys of the object stand in that order, they were accepted in the order of
the document. If not, a mismatch may be reported while another stands before it.

Key definitions: `Before`, `Mismatch.Through`, `Mismatch.First`, `Walk.InWalkOrder`,
`Mismatch.Earliest`.
Key theorems: `Walk.Meets.of_through`, `Walk.Meets.earliest`, `Engine.mismatch_earliest`,
`Engine.not_first_in_document`.
-/
import Mathlib
import Wireform.Proofs.Walk.Rows
import Wireform.Proofs.Walk.Spots

namespace Wireform

/-- Whether a key comes before another in a list of keys. -/
def Before (keys : List String) (j k : String) : Prop := [j, k].Sublist keys

/-- Where no key is repeated, what comes before a key is what stands in front of it. -/
theorem Before.mem {before after : List String} {j k : String}
    (hn : (before ++ k :: after).Nodup) (h : Before (before ++ k :: after) j k) : j ∈ before := by
  have hk : k ∉ after := by
    rw [List.nodup_middle, List.nodup_cons, List.mem_append, not_or] at hn
    exact hn.1.2
  obtain ⟨front, back, hsplit, hfront, hback⟩ := List.sublist_append_iff.mp h
  cases front with
  | nil =>
    -- then the two keys both stand from `k` on, where `k` stands once and first
    rw [List.nil_append] at hsplit
    subst hsplit
    cases hback with
    | cons _ h => exact (hk (h.subset (by simp))).elim
    | cons_cons _ h => exact (hk (h.subset (by simp))).elim
  | cons x front =>
    obtain ⟨rfl, -⟩ := List.cons.inj hsplit
    exact hfront.subset List.mem_cons_self

/-- Whether the path of a mismatch goes through a key of an object that is converted under
a shape, with so many containers around the object. -/
def Mismatch.Through (m : Mismatch) (w : Walk) (start : Walk.Spot)
    (properties : List (Property Descriptor)) (additional : Additional Descriptor) (depth : ℕ)
    (members : List (String × Json)) (key : String) : Prop :=
  ∃ before after o site, m.path.segments = before ++ .key key :: after ∧ site.depth = depth ∧
    Walk.Along w.table w.direction start before
      ⟨o, .object properties additional, site, some (.object members)⟩

/-- Whether at every object on the path of a mismatch all that comes before the path's key,
in an order of the keys, is accepted. -/
def Mismatch.First (m : Mismatch) (w : Walk) (start : Walk.Spot)
    (order : List (Property Descriptor) → List (String × Json) → List String) : Prop :=
  ∀ properties additional depth members key,
    m.Through w start properties additional depth members key →
      ∀ j, Before (order properties members) j key →
        w.Admits properties additional (depth + 1) members j

namespace Walk

/-- Whether the keys of an object stand in the order in which a walk visits them: the
declared ones in the order of their declaration, the undeclared ones behind them. -/
def InWalkOrder (direction : Direction) (properties : List (Property Descriptor))
    (members : List (String × Json)) : Prop :=
  (Keyed.keys members).Sublist (visited direction properties members)

theorem nodup_visited {direction : Direction} {properties : List (Property Descriptor)}
    {members : List (String × Json)} (hp : (properties.map direction.inputKey).Nodup)
    (hm : (Keyed.keys members).Nodup) : (visited direction properties members).Nodup := by
  refine List.nodup_append.mpr ⟨hp, nodup_keys_extras hm, ?_⟩
  rintro a ha b hb rfl
  exact fresh_extras a hb ha

section Through

variable {w : Walk} {m : Mismatch} {d : Descriptor} {doc : Json}
  {properties : List (Property Descriptor)} {additional : Additional Descriptor} {depth : ℕ}
  {members : List (String × Json)} {key : String}

/-- **At a key on the path of a mismatch, what is visited before was accepted, and what stands
there was refused.** -/
theorem Meets.of_through (hs : w.table.Sound) (hd : w.table.Checked d) (hdoc : doc.Distinct)
    (h : w.Meets m (.root d doc) m.path.segments)
    (hthrough : m.Through w (.root d doc) properties additional depth members key) :
    (visited w.direction properties members).Nodup ∧
      ∃ front back d', visited w.direction properties members = front ++ key :: back ∧
        (∀ k ∈ front, w.Admits properties additional (depth + 1) members k) ∧
        Asks w.direction properties additional key d' ∧
        w.Refuses d' (depth + 1) (members.lookup key) := by
  obtain ⟨before, after, o, site, hpath, rfl, hway⟩ := hthrough
  have hshape := hway.checked hs hd
  have hmembers : Json.Distinct (.object members) := hway.distinct hdoc
  refine ⟨nodup_visited (hshape.nodup w.direction).1 hmembers.1, ?_⟩
  rw [hpath] at h
  have hmeets := Meets.of_along hs hway hd nofun h
  cases hmeets with
  | property hvisited hfront hasked hrefused _ => exact ⟨_, _, _, hvisited, hfront, hasked, hrefused⟩

/-- What is visited before a key on the path of a mismatch is accepted. -/
theorem Meets.first (hs : w.table.Sound) (hd : w.table.Checked d) (hdoc : doc.Distinct)
    (h : w.Meets m (.root d doc) m.path.segments) :
    m.First w (.root d doc) (visited w.direction) := by
  intro properties additional depth members key hthrough j hj
  obtain ⟨hn, front, back, -, hvisited, hfront, -, -⟩ := h.of_through hs hd hdoc hthrough
  rw [hvisited] at hn hj
  exact hfront j (hj.mem hn)

/-- What a key on the path of a mismatch holds is not accepted. -/
theorem Meets.not_admits (hs : w.table.Sound) (hd : w.table.Checked d) (hdoc : doc.Distinct)
    (h : w.Meets m (.root d doc) m.path.segments)
    (hthrough : m.Through w (.root d doc) properties additional depth members key) :
    ¬ w.Admits properties additional (depth + 1) members key := by
  obtain ⟨hn, front, back, d', -, -, hasked, hrefused⟩ := h.of_through hs hd hdoc hthrough
  rintro ⟨d'', out, hasks, haccepts⟩
  rw [hasked.unique (List.Nodup.of_append_left hn) hasks] at haccepts
  exact hrefused.not_accepts haccepts

end Through

end Walk

/-- How early a mismatch is: its path goes through keys that are not accepted, and they are the
first in the order in which the keys of an object are visited; so at an object whose keys stand
in that order it is the first of the document. -/
structure Mismatch.Earliest (m : Mismatch) (w : Walk) (start : Walk.Spot) : Prop where
  refused : ∀ {properties additional depth members key},
    m.Through w start properties additional depth members key →
      ¬ w.Admits properties additional (depth + 1) members key
  visited : m.First w start (Walk.visited w.direction)
  document : ∀ {properties additional depth members key},
    m.Through w start properties additional depth members key →
      Walk.InWalkOrder w.direction properties members →
        ∀ j, Before (Keyed.keys members) j key →
          w.Admits properties additional (depth + 1) members j

theorem Walk.Meets.earliest {w : Walk} {m : Mismatch} {d : Descriptor} {doc : Json}
    (hs : w.table.Sound) (hd : w.table.Checked d) (hdoc : doc.Distinct)
    (h : w.Meets m (.root d doc) m.path.segments) : m.Earliest w (.root d doc) where
  refused hthrough := h.not_admits hs hd hdoc hthrough
  visited := h.first hs hd hdoc
  document hthrough horder j hj :=
    h.first hs hd hdoc _ _ _ _ _ hthrough j (List.Sublist.trans hj horder)

namespace Engine

/-- **The mismatch that is reported is the first that the walk comes to**, whether the document
is converted by a type of an accepted table or by a descriptor outside it. -/
theorem mismatch_earliest {definitions : List (String × Descriptor)} {table : Table}
    (ht : Table.build definitions = .ok table) (maxDepth : ℕ) {doc : Json} (hdoc : doc.Distinct)
    (direction : Direction) (m : Mismatch) :
    (∀ root, (⟨table, maxDepth⟩ : Engine).convert doc root direction = .error (.mismatch m) →
      m.Earliest ⟨table, direction, maxDepth⟩ (.root (.ref root) doc)) ∧
    ∀ d, (⟨table, maxDepth⟩ : Engine).transform doc d direction = .error (.mismatch m) →
      m.Earliest ⟨table, direction, maxDepth⟩ (.root d doc) := by
  have hs := Table.build_sound ht
  constructor
  · intro root h
    obtain ⟨hd, hm⟩ := meets_of_convert hs hdoc h
    exact hm.earliest hs hd hdoc
  · intro d h
    obtain ⟨hd, hm⟩ := meets_of_transform hs hdoc h
    exact hm.earliest hs hd hdoc

/-- Pairs of two texts. -/
def pairs : List (String × Descriptor) :=
  [("Pair", .object [⟨"a", "a", .primitive .string⟩, ⟨"b", "b", .primitive .string⟩] .reject)]

/-- The second text of a pair is missed only after the first was accepted. -/
theorem mismatch_earliest_pairs :
    let pair : List (String × Json) := [("a", .string "x"), ("b", .bool true)]
    let doc : Json := .array [.object pair]
    let d : Descriptor := .array (.ref "Pair")
    let w : Walk := ⟨⟨pairs⟩, .decode, 9⟩
    let shape : List (Property Descriptor) :=
      [⟨"a", "a", .primitive .string⟩, ⟨"b", "b", .primitive .string⟩]
    let m : Mismatch := ⟨"string", "true", "b", "Pair", ⟨[.index 0, .key "b"]⟩⟩
    Table.build pairs = .ok ⟨pairs⟩ ∧ doc.Distinct ∧
      (⟨⟨pairs⟩, 9⟩ : Engine).transform doc d .decode = .error (.mismatch m) ∧
      m.Through w (.root d doc) shape .reject 1 pair "b" ∧
      Walk.InWalkOrder .decode shape pair ∧ Before (Keyed.keys pair) "a" "b" ∧
      w.Admits shape .reject 2 pair "a" ∧ ¬ w.Admits shape .reject 2 pair "b" := by
  intro pair doc d w shape m
  have ht : Table.build pairs = .ok ⟨pairs⟩ := rfl
  have hdoc : doc.Distinct := by
    simp [doc, pair]
  have h : (⟨⟨pairs⟩, 9⟩ : Engine).transform doc d .decode = .error (.mismatch m) := by cbv
  have hthrough : m.Through w (.root d doc) shape .reject 1 pair "b" :=
    ⟨[.index 0], [], some "Pair", Site.root.item 0, rfl, rfl, .item rfl (.ref rfl (.here _))⟩
  have horder : Walk.InWalkOrder .decode shape pair := .refl _
  have hbefore : Before (Keyed.keys pair) "a" "b" := .refl _
  have hearliest := (mismatch_earliest ht 9 hdoc .decode m).2 d h
  exact ⟨ht, hdoc, h, hthrough, horder, hbefore, hearliest.document hthrough horder "a" hbefore,
    hearliest.refused hthrough⟩

/-- **A mismatch may be reported while another stands before it**: a pair that is written the
other way round is refused for its first text, which stands behind the second. -/
theorem not_first_in_document :
    let pair : List (String × Json) := [("b", .bool true), ("a", .bool false)]
    let doc : Json := .object pair
    let w : Walk := ⟨⟨pairs⟩, .decode, 9⟩
    let m : Mismatch := ⟨"string", "false", "a", "Pair", ⟨[.key "a"]⟩⟩
    Table.build pairs = .ok ⟨pairs⟩ ∧ doc.Distinct ∧
      (⟨⟨pairs⟩, 9⟩ : Engine).convert doc "Pair" .decode = .error (.mismatch m) ∧
      ¬ m.First w (.root (.ref "Pair") doc) fun _ members => Keyed.keys members := by
  intro pair doc w m
  have ht : Table.build pairs = .ok ⟨pairs⟩ := rfl
  have hdoc : doc.Distinct := by
    simp [doc, pair]
  have h : (⟨⟨pairs⟩, 9⟩ : Engine).convert doc "Pair" .decode = .error (.mismatch m) := by cbv
  refine ⟨ht, hdoc, h, fun hfirst => ?_⟩
  have hthrough : m.Through w (.root (.ref "Pair") doc)
      [⟨"a", "a", .primitive .string⟩, ⟨"b", "b", .primitive .string⟩] .reject 0 pair "a" :=
    ⟨[], [], some "Pair", .root, rfl, rfl, .ref rfl (.here _)⟩
  obtain ⟨d, out, hasks, haccepts⟩ := hfirst _ _ _ _ _ hthrough "b" (.refl _)
  have hd : d = .primitive .string := by
    have hb : Walk.Asks .decode
        [⟨"a", "a", .primitive .string⟩, ⟨"b", "b", .primitive .string⟩] .reject "b"
          (.primitive .string) := .declared (List.mem_cons_of_mem _ List.mem_cons_self)
    exact hb.unique (by decide) hasks
  subst hd
  have hrefuses : w.Refuses (.primitive .string) 1 (pair.lookup "b") := ⟨1, _, rfl⟩
  exact hrefuses.not_accepts haccepts

end Engine
end Wireform
