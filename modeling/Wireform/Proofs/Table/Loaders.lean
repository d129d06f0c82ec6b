/-
# Loading tables from texts

The loader of texts reads and judges one member after the other. Where the text is JSON, it
comes by the same members as the reader of documents, in the same order, so its definitions
are those of the document, or the first member that is no descriptor document is the same
(`Table.definitionsFrom_agree`). Only the position of such a member is known to it alone. So
if the text holds no key twice, the two loaders agree (`Table.ofText_agrees`).

Key definitions: `Table.SameFlaw`, `Table.Agree`.
Key theorems: `Table.definitionsFrom_agree`, `Table.ofText_agrees`.
-/
import Mathlib
import Wireform.Proofs.Json.Reading
import Wireform.Proofs.Json.Reorder
import Wireform.Proofs.Table.Reading

namespace Wireform
namespace Table

open Json.Reader (skipBlanks valueWith valueWith_of_brace valueWith_of_bracket
  valueWith_of_scalar ne_object_of_valueWith)

/-! ### Agreement -/

/-- What the loader of texts reports and what the loader of documents does: the same, but for
the position of what is malformed. -/
inductive SameFlaw : SchemaError → SchemaError → Prop
  | same {e} (h : ∀ path flaw position, e ≠ .malformed path flaw position) : SameFlaw e e
  | malformed {path flaw} (position : Position) :
    SameFlaw (.malformed path flaw (some position)) (.malformed path flaw none)

/-- The same result, or reports that agree. -/
inductive Agree {α : Type} : Except SchemaError α → Except SchemaError α → Prop
  | ok (a : α) : Agree (.ok a) (.ok a)
  | error {e e'} (h : SameFlaw e e') : Agree (.error e) (.error e')

theorem Agree.bind {α β : Type} {x y : Except SchemaError α} {f : α → Except SchemaError β}
    (h : Agree x y) (hf : ∀ a, Agree (f a) (f a)) : Agree (x >>= f) (y >>= f) := by
  cases h with
  | ok a => exact hf a
  | error h => exact .error h

theorem agree_build (definitions : List (String × Descriptor)) :
    Agree (build definitions) (build definitions) := by
  cases hbuild : build definitions with
  | ok table => exact .ok table
  | error e =>
    refine .error (.same fun path flaw position he => ?_)
    subst he
    exact build_ne_malformed hbuild

/-- The message of the one is that of the other, with the position behind it. -/
theorem text_malformed (path : List Step) (flaw : DocumentFlaw) (position : Position) :
    (SchemaError.malformed path flaw (some position)).text =
      (SchemaError.malformed path flaw none).text ++ position.text := by
  have hnone (message : String) : message ++ "" = message := String.append_empty
  show _ ++ position.text = _ ++ "" ++ position.text
  rw [hnone ("malformed descriptor table at " ++ Step.pathText path ++ ": " ++ flaw.text)]

/-! ### Members -/

section Members

variable (text : List Char) {inner : List Char → Except Fault (Json × List Char)}

/-- A member that is no document is reported as soon as it is read. -/
theorem definitionsFrom_of_none {fuel : ℕ} {s s₁ : List Char} {name : String} {v : Json}
    (hmember : Json.Reader.member inner s = .ok ((name, v), s₁))
    (hd : Descriptor.ofJson? v = none) :
    definitionsFrom text inner (fuel + 1) s =
      .error (malformedAt text [.key name] .notDescriptor (skipBrace s₁)) := by
  unfold definitionsFrom
  rw [hmember]
  dsimp only [reading, bind, Except.bind]
  rw [hd]

/-- After a member that is a document comes the next one, or the end. -/
theorem definitionsFrom_of_some {fuel : ℕ} {s s₁ s₂ : List Char} {name : String} {v : Json}
    {d : Descriptor} {more : Bool} (hmember : Json.Reader.member inner s = .ok ((name, v), s₁))
    (hd : Descriptor.ofJson? v = some d) (hnext : Json.Reader.nextMember s₁ = .ok (more, s₂)) :
    definitionsFrom text inner (fuel + 1) s =
      (if more then definitionsFrom text inner fuel s₂ else .ok []) >>= fun ds =>
        .ok ((name, d) :: ds) := by
  rw [definitionsFrom, hmember]
  dsimp only [reading, bind, Except.bind]
  rw [hd]
  dsimp only
  rw [hnext]
  cases more <;> rfl

/-- **The members of a text are judged as those of its document.** -/
theorem definitionsFrom_agree {fuel : ℕ} : ∀ {s ahead : List Char} {ms : List (String × Json)},
    Json.Reader.members inner fuel s = .ok (ms, ahead) →
      Agree (definitionsFrom text inner fuel s) (definitionsOf ms) := by
  induction fuel with
  | zero =>
    intro s ahead ms h
    cases h
  | succ fuel ih =>
    intro s ahead ms h
    obtain ⟨⟨⟨name, v⟩, s₁⟩, hmember, h⟩ := bind_eq_ok_iff.mp h
    obtain ⟨⟨more, s₂⟩, hnext, h⟩ := bind_eq_ok_iff.mp h
    obtain ⟨rest, rfl, hrest⟩ : ∃ rest, ms = (name, v) :: rest ∧
        Agree (if more then definitionsFrom text inner fuel s₂ else .ok [])
          (definitionsOf rest) := by
      cases more with
      | false =>
        cases h
        exact ⟨[], rfl, .ok []⟩
      | true =>
        obtain ⟨⟨rest, _⟩, hrest, h⟩ := bind_eq_ok_iff.mp h
        cases h
        exact ⟨rest, rfl, ih hrest⟩
    rw [definitionsOf]
    cases hd : Descriptor.ofJson? v with
    | none =>
      rw [definitionsFrom_of_none text hmember hd]
      exact .error (.malformed _)
    | some d =>
      rw [definitionsFrom_of_some text hmember hd hnext]
      exact hrest.bind fun ds => .ok _

/-- The definitions of an object that was opened. -/
theorem definitionsIn_agree {s ahead : List Char} {ms : List (String × Json)}
    (h : Json.Reader.object (Json.Reader.value (Json.nestingLimit - 1)) s = .ok (ms, ahead)) :
    Agree (definitionsIn text s) (definitionsOf ms) := by
  unfold Json.Reader.object at h
  unfold definitionsIn
  split at h
  · cases h
  · rename_i hblanks
    cases h
    rw [hblanks]
    exact .ok []
  · rename_i hend hbrace
    split
    · rename_i hblanks
      exact absurd hblanks (hbrace _)
    · rename_i hblanks
      exact absurd hblanks hend
    · exact definitionsFrom_agree text h

end Members

/-! ### The whole text -/

theorem ofText_agree {text : String} {tree : Json} (ht : Json.readTree text.toList = .ok tree) :
    Agree (ofText text) (ofJson tree) := by
  obtain ⟨⟨v, ahead⟩, hvalue, hrest⟩ := bind_eq_ok_iff.mp ht
  have htree : v = tree := by
    dsimp only at hrest
    split at hrest
    · cases hrest
      rfl
    · cases hrest
  subst htree
  have hvalue : valueWith (some (Json.Reader.value (Json.nestingLimit - 1))) text.toList =
      .ok (v, ahead) := hvalue
  unfold ofText
  dsimp only
  split
  · rename_i s hbrace
    rw [valueWith_of_brace hbrace] at hvalue
    obtain ⟨⟨ms, _⟩, hms, hv⟩ := bind_eq_ok_iff.mp hvalue
    cases hv
    exact (definitionsIn_agree text.toList hms).bind fun ds => agree_build (Keyed.ofList ds)
  · rename_i s hbracket
    rw [valueWith_of_bracket hbracket] at hvalue
    obtain ⟨⟨vs, _⟩, -, hv⟩ := bind_eq_ok_iff.mp hvalue
    cases hv
    exact .error (.malformed _)
  · rename_i hbrace hbracket
    have hread : valueWith none (skipBlanks text.toList) = .ok (v, ahead) := by
      rw [valueWith_of_scalar hbracket hbrace]
      exact hvalue
    rw [hread, ofJson_of_not_object (ne_object_of_valueWith hbrace hvalue)]
    exact .error (.malformed _)

/-- **The loaders agree.** For a text that is one JSON text without a key that is repeated in
an object, the loader of texts gives what the loader of documents gives for its document: the
same table, or the same that is wrong with it, but for the position that ends the message of
the first. -/
theorem ofText_agrees {text : String} {tree : Json} (ht : Json.readTree text.toList = .ok tree)
    (hd : tree.Distinct) : Json.parse? text = .ok tree ∧
      ((∃ table, ofText text = .ok table ∧ ofJson tree = .ok table) ∨
      (∃ e, (∀ path flaw position, e ≠ .malformed path flaw position) ∧
        ofText text = .error e ∧ ofJson tree = .error e) ∨
      ∃ path flaw position, ofText text = .error (.malformed path flaw (some position)) ∧
        ofJson tree = .error (.malformed path flaw none) ∧
        (SchemaError.malformed path flaw (some position)).text =
          (SchemaError.malformed path flaw none).text ++ position.text) := by
  constructor
  · rw [Json.parse?, ht]
    show Except.ok tree.merged = _
    rw [Json.merged_eq_self hd]
  · have hagree := ofText_agree ht
    generalize ofText text = x at hagree
    generalize ofJson tree = y at hagree
    cases hagree with
    | ok table => exact .inl ⟨table, rfl, rfl⟩
    | error h =>
      cases h with
      | same h => exact .inr (.inl ⟨_, h, rfl, rfl⟩)
      | malformed position =>
        exact .inr (.inr ⟨_, _, position, rfl, rfl, text_malformed _ _ position⟩)

/-- Days under another name are loaded alike, and that a list is no document is reported by the
loader of texts with its position. -/
theorem ofText_agrees_days :
    let days : String := "\x7b\"Day\": \"date\",\n \"Other\": \x7b\"ref\": \"Day\"\x7d\x7d"
    let daysTree : Json :=
      .object [("Day", .string "date"), ("Other", .object [("ref", .string "Day")])]
    let faulty : String := "\x7b\"Day\": \"date\",\n \"Other\": [] \x7d"
    let faultyTree : Json := .object [("Day", .string "date"), ("Other", .array [])]
    let table : Table := ⟨[("Day", .date), ("Other", .ref "Day")]⟩
    Json.readTree days.toList = .ok daysTree ∧ daysTree.Distinct ∧
      Json.readTree faulty.toList = .ok faultyTree ∧ faultyTree.Distinct ∧
      ofText days = .ok table ∧ ofJson daysTree = .ok table ∧
      ofText faulty = .error (.malformed [.key "Other"] .notDescriptor (some ⟨2, 14⟩)) ∧
      ofJson faultyTree = .error (.malformed [.key "Other"] .notDescriptor none) := by
  intro days daysTree faulty faultyTree table
  have hdays : Json.readTree days.toList = .ok daysTree := by cbv
  have hfaulty : Json.readTree faulty.toList = .ok faultyTree := by cbv
  have hdistinct : daysTree.Distinct := by
    simp [daysTree]
  have hdistinct' : faultyTree.Distinct := by
    simp [faultyTree]
  have hloaded : ofText days = .ok table := by cbv
  have hrefused : ofText faulty =
      .error (.malformed [.key "Other"] .notDescriptor (some ⟨2, 14⟩)) := by cbv
  refine ⟨hdays, hdistinct, hfaulty, hdistinct', hloaded, ?_, hrefused, ?_⟩
  · obtain ⟨-, hagree⟩ := ofText_agrees hdays hdistinct
    rw [hloaded] at hagree
    rcases hagree with ⟨_, h, hread⟩ | ⟨_, -, h, -⟩ | ⟨_, _, _, h, -, -⟩ <;> cases h
    exact hread
  · obtain ⟨-, hagree⟩ := ofText_agrees hfaulty hdistinct'
    rw [hrefused] at hagree
    rcases hagree with ⟨_, h, -⟩ | ⟨_, hne, h, -⟩ | ⟨_, _, _, h, hread, -⟩ <;> cases h
    · exact absurd rfl (hne _ _ _)
    · exact hread

end Table
end Wireform
