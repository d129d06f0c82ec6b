/-
# Reading tables

A table is read from an object whose members are descriptor documents. The members are read
in order, and the first that is no document is reported by its name
(`Table.definitionsOf_eq_error_iff`); if there is none, what comes of the table is what comes
of its definitions (`Table.ofJson_exact`), and that is never that something is malformed
(`Table.build_ne_malformed`).

Key definitions: `Descriptor.IsDocument`, `Table.Written`.
Key theorems: `Table.definitionsOf_eq_ok_iff`, `Table.definitionsOf_eq_error_iff`,
`Table.ofJson_exact`.
-/
import Mathlib
import Wireform.Proofs.Descriptor.Reading
import Wireform.Proofs.Table.Faults
import Wireform.Table.Document

namespace Wireform

/-- Some descriptor has the document. -/
def Descriptor.IsDocument (v : Json) : Prop := ∃ d, Document v d

namespace Table

open Descriptor (Document IsDocument)

/-- The members hold the documents of the definitions, in order. -/
def Written (members : List (String × Json)) (definitions : List (String × Descriptor)) : Prop :=
  List.Forall₂ (fun m e => e.1 = m.1 ∧ Document m.2 e.2) members definitions

theorem isDocument_iff {v : Json} : IsDocument v ↔ ∃ d, Descriptor.ofJson? v = some d :=
  exists_congr fun d => (Descriptor.ofJson?_eq_some_iff v d).symm

theorem not_isDocument_iff {v : Json} : ¬ IsDocument v ↔ Descriptor.ofJson? v = none := by
  rw [isDocument_iff, Option.eq_none_iff_forall_ne_some]
  exact not_exists

/-! ### Members -/

theorem definitionsOf_cons {name : String} {v : Json} {d : Descriptor}
    {rest : List (String × Json)} (h : Document v d) :
    definitionsOf ((name, v) :: rest) = (definitionsOf rest).map ((name, d) :: ·) := by
  rw [definitionsOf, (Descriptor.ofJson?_eq_some_iff v d).mpr h]
  show (definitionsOf rest >>= fun ds => .ok ((name, d) :: ds)) = _
  cases definitionsOf rest <;> rfl

theorem definitionsOf_of_written {members : List (String × Json)}
    {definitions : List (String × Descriptor)} (h : Written members definitions) :
    definitionsOf members = .ok definitions := by
  induction h with
  | nil => rfl
  | @cons m e ms es hme _ ih =>
    obtain ⟨name, v⟩ := m
    obtain ⟨rfl, hdocument⟩ := hme
    rw [definitionsOf_cons hdocument, ih]
    rfl

/-- The documents before one that is none are read, and it is reported. -/
theorem definitionsOf_of_not_isDocument {name : String} {w : Json} {after : List (String × Json)}
    (hw : ¬ IsDocument w) : ∀ {before : List (String × Json)},
    (∀ m ∈ before, IsDocument m.2) →
      definitionsOf (before ++ (name, w) :: after) =
        .error (.malformed [.key name] .notDescriptor none)
  | [], _ => by
    rw [List.nil_append, definitionsOf, not_isDocument_iff.mp hw]
  | m :: before, hbefore => by
    obtain ⟨⟨d, hd⟩, hrest⟩ := List.forall_mem_cons.mp hbefore
    rw [List.cons_append, definitionsOf_cons hd, definitionsOf_of_not_isDocument hw hrest]
    rfl

/-- Either all members are documents, or there is a first one that is none. -/
theorem written_or_first (members : List (String × Json)) :
    (∃ definitions, Written members definitions) ∨
      ∃ before name w after, members = before ++ (name, w) :: after ∧
        (∀ m ∈ before, IsDocument m.2) ∧ ¬ IsDocument w := by
  induction members with
  | nil => exact .inl ⟨[], .nil⟩
  | cons m rest ih =>
    obtain ⟨name, v⟩ := m
    by_cases hv : IsDocument v
    · obtain ⟨d, hd⟩ := hv
      rcases ih with ⟨ds, hds⟩ | ⟨before, name', w, after, rfl, hbefore, hw⟩
      · exact .inl ⟨(name, d) :: ds, .cons ⟨rfl, hd⟩ hds⟩
      · refine .inr ⟨(name, v) :: before, name', w, after, rfl, ?_, hw⟩
        exact List.forall_mem_cons.mpr ⟨⟨d, hd⟩, hbefore⟩
    · exact .inr ⟨[], name, v, rest, rfl, nofun, hv⟩

theorem Written.isDocument {members : List (String × Json)}
    {definitions : List (String × Descriptor)} (h : Written members definitions) :
    ∀ m ∈ members, IsDocument m.2 := by
  induction h with
  | nil => exact nofun
  | cons hme _ ih => exact List.forall_mem_cons.mpr ⟨⟨_, hme.2⟩, ih⟩

/-! ### The whole table -/

/-- What is wrong with definitions is not that they are malformed. -/
theorem build_ne_malformed {definitions : List (String × Descriptor)} {path : List Step}
    {flaw : DocumentFlaw} {position : Option Position} :
    build definitions ≠ .error (.malformed path flaw position) := by
  intro h
  by_cases hn : (Keyed.keys definitions).Nodup
  · obtain ⟨x, -, hx⟩ := (build_eq_error_iff_refusedFor hn).mp h
    rcases hx.defect with ⟨p, -, hdefect⟩ | ⟨-, -, hcycle⟩
    · cases hdefect
    · cases hcycle
  · obtain ⟨name, -, hname⟩ := build_of_not_nodup hn
    rw [h] at hname
    cases hname

theorem ofJson_of_written {members : List (String × Json)}
    {definitions : List (String × Descriptor)} (h : Written members definitions) :
    ofJson (.object members) = build (Keyed.ofList definitions) := by
  rw [ofJson, definitionsOf_of_written h]
  rfl

theorem ofJson_of_not_isDocument {before after : List (String × Json)} {name : String} {w : Json}
    (hbefore : ∀ m ∈ before, IsDocument m.2) (hw : ¬ IsDocument w) :
    ofJson (.object (before ++ (name, w) :: after)) =
      .error (.malformed [.key name] .notDescriptor none) := by
  rw [ofJson, definitionsOf_of_not_isDocument hw hbefore]
  rfl

theorem ofJson_of_not_object {v : Json} (h : ∀ members, v ≠ .object members) :
    ofJson v = .error (.malformed [] (.notObject (found v)) none) := by
  cases v with
  | object members => exact absurd rfl (h members)
  | null | bool _ | number _ | string _ | array _ => rfl

/-- **The documents of tables are exactly the objects of descriptor documents.** Anything else
is malformed, at the whole or at the first member that is no document; what is not malformed
is what comes of the definitions that the members hold. -/
theorem ofJson_exact (v : Json) :
    ((∃ path flaw position, ofJson v = .error (.malformed path flaw position)) ↔
      ¬ ∃ members, v = .object members ∧ ∀ m ∈ members, IsDocument m.2) ∧
    ((∀ members, v ≠ .object members) →
      ofJson v = .error (.malformed [] (.notObject (found v)) none) ∧ Step.pathText [] = ".") ∧
    (∀ before name w after, v = .object (before ++ (name, w) :: after) →
      (∀ m ∈ before, IsDocument m.2) → ¬ IsDocument w →
        ofJson v = .error (.malformed [.key name] .notDescriptor none) ∧
          Step.pathText [.key name] = name) ∧
    (∀ members definitions, v = .object members → Written members definitions →
      ofJson v = build (Keyed.ofList definitions)) := by
  have hpath (name : String) : Step.pathText [.key name] = name := by
    show "" ++ name ++ "" = name
    rw [String.empty_append, String.append_empty]
  refine ⟨?_, fun h => ⟨ofJson_of_not_object h, rfl⟩, ?_, ?_⟩
  · constructor
    · rintro ⟨path, flaw, position, h⟩ ⟨members, rfl, hall⟩
      rcases written_or_first members with ⟨ds, hds⟩ | ⟨before, name, w, after, rfl, -, hw⟩
      · rw [ofJson_of_written hds] at h
        exact build_ne_malformed h
      · exact hw (hall (name, w) (List.mem_append_right _ List.mem_cons_self))
    · intro h
      cases v with
      | object members =>
        rcases written_or_first members with ⟨ds, hds⟩ | ⟨before, name, w, after, rfl, hbefore, hw⟩
        · exact absurd ⟨members, rfl, hds.isDocument⟩ h
        · exact ⟨_, _, _, ofJson_of_not_isDocument hbefore hw⟩
      | null | bool _ | number _ | string _ | array _ => exact ⟨_, _, _, rfl⟩
  · rintro before name w after rfl hbefore hw
    exact ⟨ofJson_of_not_isDocument hbefore hw, hpath name⟩
  · rintro members definitions rfl h
    exact ofJson_of_written h

/-- A day and the day after, in several spellings. -/
def dayDocument : Json :=
  .object [("object", .object [("additional", .string "date"), ("properties", .array
    [.array [.string "d", .null, .string "date"],
     .object [("type", .object [("union", .array [.object [("null", .null)],
       .object [("ref", .string "Day")]])]), ("json", .string "next"), ("js", .string "after")]])])]

/-- A day and the day after. -/
def day : Descriptor :=
  .object [⟨"d", "d", .date⟩, ⟨"next", "after", .union [.null, .ref "Day"]⟩] (.allow .date)

theorem document_day : Document dayDocument day := by
  have hdate : Document (.string "date") .date := .intro (.name (by simp [Descriptor.simple]))
  have hnull : Document (.object [("null", .null)]) .null :=
    .intro (.lone (by simp [Descriptor.simple]))
  have hnext : Document (.object [("union", .array [.object [("null", .null)],
      .object [("ref", .string "Day")]])]) (.union [.null, .ref "Day"]) :=
    .intro (.union (.intro (.cons hnull (.cons (.intro .ref) .nil))))
  refine .intro (.object (.fields ⟨by decide, by decide⟩ (.present (.intro ?_))
    (.present (.allow hdate))))
  exact .cons (.items .same hdate)
    (.cons (.fields ⟨by decide, by decide⟩ rfl (.present .other) rfl hnext) .nil)

/-- A table of one day is read; a list is no table, and of two members that are no documents
the first is reported. -/
theorem ofJson_exact_day :
    ofJson (.object [("Day", dayDocument)]) = .ok ⟨[("Day", day)]⟩ ∧
      ofJson (.array []) = .error (.malformed [] (.notObject .sequence) none) ∧
      ofJson (.object [("Day", dayDocument), ("A", .object [("null", .bool true)]), ("B", .null)]) =
        .error (.malformed [.key "A"] .notDescriptor none) := by
  have hbuild : build (Keyed.ofList [("Day", day)]) = .ok ⟨[("Day", day)]⟩ := rfl
  have hread := (ofJson_exact (.object [("Day", dayDocument)])).2.2.2 _ [("Day", day)] rfl
    (.cons ⟨rfl, document_day⟩ .nil)
  have hlist := (ofJson_exact (.array [])).2.1 nofun
  have hbefore : ∀ m ∈ [("Day", dayDocument)], IsDocument m.2 :=
    List.forall_mem_singleton.mpr ⟨day, document_day⟩
  have hA : ¬ IsDocument (.object [("null", .bool true)]) := not_isDocument_iff.mpr (by cbv)
  have hfirst := (ofJson_exact (.object [("Day", dayDocument),
    ("A", .object [("null", .bool true)]), ("B", .null)])).2.2.1 [("Day", dayDocument)] "A" _
      [("B", .null)] rfl hbefore hA
  exact ⟨hread.trans hbuild, hlist.1, hfirst.1⟩

end Table
end Wireform
