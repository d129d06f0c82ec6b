/-
# Where a mismatch points

A mismatch quotes a part of the document, and its path leads to that part. Slots and
trails go down together: an item adds its position and is what the array holds there,
a property adds its key and is what the object holds under it, and a member of a union
stays where the union is. So every refusal, wherever in the walk it comes from, quotes
what stands at the end of its trail (`value_blames`). Only a property can be missing;
its key is then the end of the trail, and the object before it has no such key.

Key definitions: `Slot.Quotes`, `Site.Blames`, `Mismatch.PointsInto`.
Key theorems: `Walk.value_blames`, `Slot.Quotes.descend`, `Engine.mismatch_pointsInto`.
-/
import Mathlib
import Wireform.Proofs.Json.Pointer
import Wireform.Proofs.Json.Reorder
import Wireform.Proofs.Walk.Answers
import Wireform.Proofs.Walk.Refusals

namespace Wireform

/-- What is quoted of a slot at the end of segments that lead down from it. -/
inductive Slot.Quotes : Slot → List Segment → String → Prop
  | here (slot : Slot) : Quotes slot [] (Slot.text slot)
  | item {vs i v segments text} (hv : vs[i]? = some v) (h : Quotes (some v) segments text) :
    Quotes (some (.array vs)) (.index i :: segments) text
  | member {ms key segments text} (h : Quotes (ms.lookup key) segments text) :
    Quotes (some (.object ms)) (.key key :: segments) text

namespace Site

/-- Whether a mismatch quotes what its path leads to, by way of a slot at a site. -/
def Blames (site : Site) (slot : Slot) (m : Mismatch) : Prop :=
  ∃ segments, m.path.segments = site.trail.reverse ++ segments ∧
    Slot.Quotes slot segments m.actual

variable {site : Site} {m : Mismatch}

theorem refuse_blames {α : Type} {expected : String} {slot : Slot}
    (h : site.refuse expected slot = (.error (.mismatch m) : Except Refusal α)) :
    site.Blames slot m := by
  cases h
  exact ⟨[], (List.append_nil _).symm, .here slot⟩

theorem Blames.of_item {vs : List Json} {i : Nat} {v : Json} (hv : vs[i]? = some v)
    (h : (site.item i).Blames (some v) m) : site.Blames (some (.array vs)) m := by
  obtain ⟨segments, hpath, hquotes⟩ := h
  refine ⟨.index i :: segments, ?_, .item hv hquotes⟩
  rw [hpath, item, List.reverse_cons, List.append_assoc, List.singleton_append]

theorem Blames.of_property {ms : List (String × Json)} {owner key : String}
    (h : (site.property owner key).Blames (ms.lookup key) m) :
    site.Blames (some (.object ms)) m := by
  obtain ⟨segments, hpath, hquotes⟩ := h
  refine ⟨.key key :: segments, ?_, .member hquotes⟩
  rw [hpath, property, List.reverse_cons, List.append_assoc, List.singleton_append]

end Site

namespace Walk

/-! ### The walk -/

variable {w : Walk} {m : Mismatch}

theorem enter_blames {slot : Slot} {s : Site} (h : w.enter slot s = .error (.mismatch m)) :
    s.Blames slot m := by
  unfold enter at h
  split at h
  · cases h
  · exact Site.refuse_blames h

theorem value_leaf_blames {n : Nat} {o : Option String} {d : Descriptor} (hd : IsLeaf d)
    {s : Site} {slot : Slot} (h : w.value (n + 1) o d s slot = .error (.mismatch m)) :
    s.Blames slot m := by
  rw [value_leaf_refused hd h]
  exact ⟨[], (List.append_nil _).symm, .here slot⟩

theorem array_blames {convert : Site → Slot → Except Refusal Slot} {slot : Slot} {s : Site}
    (hs : Slot.Distinct slot)
    (hconvert : ∀ {s slot}, Slot.Distinct slot → convert s slot = .error (.mismatch m) →
      s.Blames slot m)
    (h : w.array convert slot s = .error (.mismatch m)) : s.Blames slot m := by
  unfold array at h
  split at h
  · rename_i vs
    rcases bind_eq_error_iff.mp h with h | ⟨_, -, h⟩
    · exact enter_blames h
    · rcases bind_eq_error_iff.mp h with h | ⟨_, -, h⟩
      · obtain ⟨i, v, hv, h⟩ := items_eq_error h
        rw [Nat.zero_add] at h
        have hdistinct : Slot.Distinct (some v) :=
          Json.Distinct.of_mem_items hs (List.mem_of_getElem? hv)
        exact .of_item hv (hconvert hdistinct h)
      · cases h
  · exact Site.refuse_blames h

theorem object_blames {convert : Descriptor → Site → Slot → Except Refusal Slot}
    {properties : List (Property Descriptor)} {additional : Additional Descriptor}
    {o : Option String} {slot : Slot} {s : Site} (hs : Slot.Distinct slot)
    (hconvert : ∀ {d s slot}, Slot.Distinct slot → convert d s slot = .error (.mismatch m) →
      s.Blames slot m)
    (h : w.object convert properties additional o slot s = .error (.mismatch m)) :
    s.Blames slot m := by
  unfold object at h
  split at h
  · rename_i input
    rcases bind_eq_error_iff.mp h with h | ⟨_, -, h⟩
    · exact enter_blames h
    rcases bind_eq_error_iff.mp h with h | ⟨_, -, h⟩
    · obtain ⟨-, ⟨key, _⟩, -, -, -, p, -, h⟩ := declared_eq_error h
      exact .of_property (hconvert (Slot.distinct_lookup hs key) h)
    rcases bind_eq_error_iff.mp h with h | ⟨_, -, h⟩
    · obtain ⟨before, x, after, hinput, -, -, h⟩ := undeclared_eq_error h
      have hx : x ∈ input := by
        rw [hinput]
        exact List.mem_append_right before List.mem_cons_self
      -- the loop has the value from the list; it is the one that a look-up finds
      have hlookup : input.lookup x.1 = some x.2 := Keyed.lookup_of_mem hs.1 hx
      rw [← hlookup] at h
      have hblames : (s.property (o.getD "") x.1).Blames (input.lookup x.1) m := by
        cases additional with
        | reject => exact Site.refuse_blames h
        | allow d => exact hconvert (Slot.distinct_lookup hs x.1) h
      exact .of_property hblames
    · cases h
  · exact Site.refuse_blames h

/-- **A mismatch quotes what stands at the end of its trail.** -/
theorem value_blames : ∀ {n : Nat} {o : Option String} {d : Descriptor} {s : Site} {slot : Slot},
    Slot.Distinct slot → w.value n o d s slot = .error (.mismatch m) → s.Blames slot m
  | 0, _, _, _, _, _, h => by cases h
  | n + 1, o, .ref name, s, slot, hs, h => by
    simp only [value] at h
    split at h
    · exact value_blames hs h
    · exact Site.refuse_blames h
  | n + 1, o, .union members, s, slot, hs, h => by
    simp only [value] at h
    rcases bind_eq_error_iff.mp h with h | ⟨a, -, h⟩
    · exact (firstAccepted_ne_mismatch members h).elim
    · cases a with
      | some a => cases h
      | none => exact Site.refuse_blames h
  | n + 1, o, .array item, s, slot, hs, h => by
    simp only [value] at h
    exact array_blames hs value_blames h
  | n + 1, o, .object properties additional, s, slot, hs, h => by
    simp only [value] at h
    exact object_blames hs value_blames h
  | n + 1, o, .any, s, slot, _, h | n + 1, o, .null, s, slot, _, h
  | n + 1, o, .never, s, slot, _, h | n + 1, o, .undefined, s, slot, _, h
  | n + 1, o, .date, s, slot, _, h | n + 1, o, .primitive _, s, slot, _, h
  | n + 1, o, .literal _, s, slot, _, h | n + 1, o, .enum _, s, slot, _, h =>
    value_leaf_blames (by exact trivial) h

end Walk

/-! ### From the trail to the pointer -/

namespace Json

theorem child?_key (key : String) (ms : List (String × Json)) :
    child? (Segment.key key).token (.object ms) = ms.lookup key := by
  rw [Segment.token, child?, String.ofList_toList]

theorem child?_index (i : Nat) (vs : List Json) :
    child? (Segment.index i).token (.array vs) = vs[i]? := by
  rw [Segment.token, child?, positionOf?_toDigits, Option.bind_some]

end Json

/-- What is quoted of a value is a part of it in words; or nothing is there, and the last
segment is a key that the object before it does not have. -/
theorem Slot.Quotes.descend {slot : Slot} {segments : List Segment} {text : String}
    (h : Slot.Quotes slot segments text) : ∀ {v : Json}, slot = some v →
      (∃ part, Json.descend? (segments.map Segment.token) v = some part ∧ part.compact = text) ∨
      text = "undefined" ∧ Json.descend? (segments.map Segment.token) v = none ∧
        ∃ before key members, segments = before ++ [.key key] ∧
          Json.descend? (before.map Segment.token) v = some (.object members) ∧
            members.lookup key = none := by
  induction h with
  | here slot =>
    rintro v rfl
    exact .inl ⟨v, rfl, rfl⟩
  | @item vs i part segments text hv _ ih =>
    rintro v ⟨⟩
    have hstep (keys : List (List Char)) :
        Json.descend? ((Segment.index i).token :: keys) (.array vs) = Json.descend? keys part := by
      rw [Json.descend?, Json.child?_index, hv, Option.bind_some]
    simp only [List.map_cons, hstep]
    rcases ih rfl with hfound | ⟨htext, hnone, before, key, members, rfl, howner, hkey⟩
    · exact .inl hfound
    · refine .inr ⟨htext, hnone, .index i :: before, key, members, rfl, ?_, hkey⟩
      rw [List.map_cons, hstep, howner]
  | @member ms key segments text h ih =>
    rintro v ⟨⟩
    cases hl : ms.lookup key with
    | none =>
      rw [hl] at h
      cases h
      refine .inr ⟨rfl, ?_, [], key, ms, rfl, rfl, hl⟩
      rw [List.map_cons, Json.descend?, Json.child?_key, hl, Option.bind_none]
    | some part =>
      have hstep (keys : List (List Char)) :
          Json.descend? ((Segment.key key).token :: keys) (.object ms) =
            Json.descend? keys part := by
        rw [Json.descend?, Json.child?_key, hl, Option.bind_some]
      simp only [List.map_cons, hstep]
      rcases ih hl with hfound | ⟨htext, hnone, before, last, members, rfl, howner, hkey⟩
      · exact .inl hfound
      · refine .inr ⟨htext, hnone, .key key :: before, last, members, rfl, ?_, hkey⟩
        rw [List.map_cons, hstep, howner]

/-- Whether a mismatch points at what it quotes: at a value of the document, or at a key
that an object of the document does not have. -/
inductive Mismatch.PointsInto (m : Mismatch) (doc : Json) : Prop
  | value {part : Json} (hselects : Json.pointer? m.path.text.toList doc = some part)
    (hactual : part.compact = m.actual)
  | missing {before : List Segment} {key : String} {members : List (String × Json)}
    (hactual : m.actual = "undefined") (hnothing : Json.pointer? m.path.text.toList doc = none)
    (hlast : m.path.segments = before ++ [.key key])
    (howner : Json.pointer? (Path.mk before).text.toList doc = some (.object members))
    (hkey : key ∉ Keyed.keys members)

namespace Engine

theorem run_mismatch_pointsInto {e : Engine} {doc : Json} {d : Descriptor} {direction : Direction}
    {m : Mismatch} (hdoc : doc.Distinct) (h : e.run doc d direction = .error (.mismatch m)) :
    m.PointsInto doc := by
  obtain ⟨n, hvalue⟩ := value_of_run_eq_mismatch h
  have hslot : Slot.Distinct (some doc) := hdoc
  obtain ⟨segments, hpath, hquotes⟩ := Walk.value_blames hslot hvalue
  simp only [Site.trail_root, List.reverse_nil, List.nil_append] at hpath
  subst hpath
  rcases hquotes.descend rfl with ⟨part, hselects, hactual⟩ |
    ⟨hactual, hnothing, before, key, members, hlast, howner, hkey⟩
  · exact .value ((Json.pointer?_text m.path doc).trans hselects) hactual
  · exact .missing hactual ((Json.pointer?_text m.path doc).trans hnothing) hlast
      ((Json.pointer?_text ⟨before⟩ doc).trans howner)
      (Keyed.lookup_eq_none_iff_notMem.mp hkey)

/-- **A mismatch points at what it quotes**, whether the document was converted by a type
of the table or by a descriptor outside it. -/
theorem mismatch_pointsInto (e : Engine) {doc : Json} (hdoc : doc.Distinct)
    (direction : Direction) (m : Mismatch) :
    (∀ root, e.convert doc root direction = .error (.mismatch m) → m.PointsInto doc) ∧
      ∀ d, e.transform doc d direction = .error (.mismatch m) → m.PointsInto doc := by
  constructor
  · intro root h
    unfold convert at h
    split at h
    · cases h
    · exact run_mismatch_pointsInto hdoc h
  · intro d h
    unfold transform at h
    split at h
    · cases h
    · exact run_mismatch_pointsInto hdoc h

/-- The engine of the one type `Odd`, whose keys look like parts of a pointer. -/
def odd : Engine :=
  .ofTable ⟨[("Odd", .object [⟨"a/b", "ab", .array (.object [⟨"~1", "", .primitive .string⟩,
    ⟨"0", "zero", .any⟩] .reject)⟩] .reject)]⟩

theorem mismatch_pointsInto_odd :
    let doc : Json := .object [("a/b", .array [.object [("~1", .string "x"), ("0", .null)],
      .object [("0", .array [])]])]
    let typed : Json := .array [.object [("ab", .array [.object [("", .string "x")],
      .object [("", .array [.bool true])]])]]
    let missing : Mismatch := ⟨"string", "undefined", "~1", "",
      ⟨[.key "a/b", .index 1, .key "~1"]⟩⟩
    let wrong : Mismatch := ⟨"string", "[true]", "", "",
      ⟨[.index 0, .key "ab", .index 1, .key ""]⟩⟩
    odd.convert doc "Odd" .decode = .error (.mismatch missing) ∧
      missing.path.text = "/a~1b/1/~01" ∧ missing.PointsInto doc ∧
    odd.transform typed (.array (.ref "Odd")) .encode = .error (.mismatch wrong) ∧
      wrong.path.text = "/0/ab/1/" ∧ wrong.PointsInto typed := by
  intro doc typed missing wrong
  have hdoc : doc.Distinct := by
    simp [doc]
  have htyped : typed.Distinct := by
    simp [typed]
  have hconvert : odd.convert doc "Odd" .decode = .error (.mismatch missing) := by cbv
  have htransform : odd.transform typed (.array (.ref "Odd")) .encode =
      .error (.mismatch wrong) := by cbv
  exact ⟨hconvert, rfl, (odd.mismatch_pointsInto hdoc .decode missing).1 "Odd" hconvert,
    htransform, rfl, (odd.mismatch_pointsInto htyped .encode wrong).2 _ htransform⟩

end Engine
end Wireform
