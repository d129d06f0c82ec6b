/-
# Writing tables

Definitions are written as an object of the spellings of their descriptors, in order. If
their names are distinct, that object holds no key twice, and reading it gives what building
a table of the definitions gives: the same table, or the same that is wrong with it
(`Table.ofJson_spelled`).

Key definitions: `Table.SpelledOut`.
Key theorems: `Table.ofJson_spelled`.
-/
import Wireform.Proofs.Descriptor.Spelling
import Wireform.Proofs.Table.Reading

namespace Wireform
namespace Table

open Descriptor (Spelled)

/-- The members spell the definitions, in order. -/
def SpelledOut (definitions : List (String × Descriptor)) (members : List (String × Json)) : Prop :=
  List.Forall₂ (fun e m => m.1 = e.1 ∧ Spelled m.2 e.2) definitions members

section SpelledOut

variable {definitions : List (String × Descriptor)} {members : List (String × Json)}

/-- What is spelled out is written. -/
theorem SpelledOut.written (h : SpelledOut definitions members) : Written members definitions := by
  have hflip : List.Forall₂ (fun m e => m.1 = e.1 ∧ Spelled m.2 e.2) members definitions := h.flip
  exact hflip.imp fun m e hme => ⟨hme.1.symm, hme.2.document⟩

theorem SpelledOut.distinct (hn : (Keyed.keys definitions).Nodup)
    (h : SpelledOut definitions members) : Json.Distinct (.object members) := by
  refine ⟨?_, Json.distinctMembers_iff.mpr fun m hm => ?_⟩
  · rwa [keys_eq_of_forall₂ h]
  · obtain ⟨e, -, -, hspelled⟩ := exists_left_of_mem h hm
    exact hspelled.distinct

/-- Definitions can be spelled out, with nothing left out. -/
theorem exists_spelledOut (h : ∀ e ∈ definitions, e.2.DistinctCases) :
    ∃ members, SpelledOut definitions members := by
  refine ⟨definitions.map fun e => (e.1, e.2.fullDocument), ?_⟩
  refine List.forall₂_map_right_iff.mpr (List.forall₂_same.mpr fun e he => ?_)
  exact ⟨rfl, Descriptor.spelled_fullDocument (h e he)⟩

end SpelledOut

/-- **Definitions that are written are read back**, however they are spelled: the result is
that of building a table of them. And they can be spelled. -/
theorem ofJson_spelled {definitions : List (String × Descriptor)}
    (hn : (Keyed.keys definitions).Nodup) :
    (∀ members, SpelledOut definitions members →
      Json.Distinct (.object members) ∧ ofJson (.object members) = build definitions) ∧
    ((∀ e ∈ definitions, e.2.DistinctCases) → ∃ members, SpelledOut definitions members) := by
  refine ⟨fun members h => ⟨h.distinct hn, ?_⟩, exists_spelledOut⟩
  calc ofJson (.object members) = build (Keyed.ofList definitions) := ofJson_of_written h.written
    _ = build definitions := by rw [Keyed.ofList_eq_self hn]

/-- Letters, with tags of any kind. -/
def letters (sender : Descriptor) : List (String × Descriptor) :=
  [("Letter", .object [⟨"at", "at", .date⟩, ⟨"from", "sender", sender⟩] .reject),
    ("Tags", .map .any), ("Box", .map (.ref "Letter"))]

/-- Letters in writing, with little left to leave out. -/
def lettersDocument (sender : Json) : List (String × Json) :=
  [("Letter", .object [("object", .object [("properties", .array
      [.object [("json", .string "at"), ("type", .string "date")],
       .object [("json", .string "from"), ("js", .string "sender"), ("type", sender)]])])]),
    ("Tags", .object [("object", .object [("additional", .bool true)])]),
    ("Box", .object [("map", .object [("ref", .string "Letter")])])]

theorem spelledOut_letters {v : Json} {sender : Descriptor} (h : Spelled v sender) :
    SpelledOut (letters sender) (lettersDocument v) := by
  have hdate : Spelled (.string "date") .date := .intro (.name (by simp [Descriptor.simple]))
  have hat : Descriptor.PropertySpelling Spelled
      (.object [("json", .string "at"), ("type", .string "date")]) ⟨"at", "at", .date⟩ :=
    .intro (.refl _) .absent hdate
  have hfrom : Descriptor.PropertySpelling Spelled
      (.object [("json", .string "from"), ("js", .string "sender"), ("type", v)])
      ⟨"from", "sender", sender⟩ :=
    .intro (.cons _ (.swap _ _ _)) (.present rfl) h
  refine .cons ⟨rfl, .intro ?_⟩ (.cons ⟨rfl, .intro ?_⟩ (.cons ⟨rfl, .intro ?_⟩ .nil))
  · exact .object (.refl _) (.present (.intro (.cons hat (.cons hfrom .nil)))) .absent
  · exact .object (.refl _) .absent (.present .any)
  · exact .map (.intro .ref)

/-- Letters from anybody are read back, and so is that nobody defines who sends them. -/
theorem ofJson_spelled_letters :
    (Keyed.keys (letters .any)).Nodup ∧ (Keyed.keys (letters (.ref "Person"))).Nodup ∧
      SpelledOut (letters .any) (lettersDocument (.string "any")) ∧
      SpelledOut (letters (.ref "Person")) (lettersDocument (.object [("ref", .string "Person")])) ∧
      ofJson (.object (lettersDocument (.string "any"))) = .ok ⟨letters .any⟩ ∧
      ofJson (.object (lettersDocument (.object [("ref", .string "Person")]))) =
        .error (.unresolvedRef "Letter" "Person") := by
  have hn (sender : Descriptor) : (Keyed.keys (letters sender)).Nodup := by
    show ["Letter", "Tags", "Box"].Nodup
    decide
  have hany : SpelledOut (letters .any) (lettersDocument (.string "any")) :=
    spelledOut_letters (.intro (.name (by simp [Descriptor.simple])))
  have hperson : SpelledOut (letters (.ref "Person"))
      (lettersDocument (.object [("ref", .string "Person")])) := spelledOut_letters (.intro .ref)
  obtain ⟨hread, -⟩ := ofJson_spelled (hn .any)
  obtain ⟨hrefused, -⟩ := ofJson_spelled (hn (.ref "Person"))
  exact ⟨hn _, hn _, hany, hperson, (hread _ hany).2, (hrefused _ hperson).2⟩

end Table
end Wireform
