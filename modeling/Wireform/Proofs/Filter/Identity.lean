/-
# The filter that changes nothing

A filter does not work on documents: a document becomes a value, each value that comes out is
written, and what was written is read as a document again. Values are written with quotes of
their own, which escape other characters than those of documents; but the reader undoes either
of them (`Filter.Value.quoting_quote`). Apart from the quotes a value is written as the document
that it is the value of: integers have the same digits, and all other numbers keep their text
(`Filter.Value.text_ofJson`).

So the filter `.` gives each document that a text can hold back with its numbers read again: the
same keys in the same order, the same strings and the same integers up to the last of 64
unsigned bits, and doubles as their texts are read (`Filter.apply_self`).

Key theorems: `Filter.Value.text_ofJson`, `Filter.apply_self`.
-/
import Wireform.Filter.Run
import Wireform.Proofs.Json.OneLine

namespace Wireform
namespace Filter
namespace Value

open Json.Reader (Spelled Quoting spelled_byte quoting_flatMap)

/-! ### The text of a value -/

theorem spelled_escapeChar (c : Char) : Spelled c (escapeChar c) := by
  unfold escapeChar
  split_ifs with hself hline hreturn htab hcode
  · rcases hself with rfl | rfl <;> exact .inl ⟨_, rfl, fun _ => rfl⟩
  · exact .inl ⟨_, rfl, fun rest => by rw [hline]; rfl⟩
  · exact .inl ⟨_, rfl, fun rest => by rw [hreturn]; rfl⟩
  · exact .inl ⟨_, rfl, fun rest => by rw [htab]; rfl⟩
  · exact spelled_byte (by omega)
  · obtain ⟨hquote, hback⟩ := not_or.mp hself
    exact .inr ⟨rfl, hquote, hback, fun h => hcode (.inl h)⟩

/-- The reader undoes the quotes of values. -/
theorem quoting_quote : Quoting quote := quoting_flatMap spelled_escapeChar

theorem text_ofNumber (n : Number) : (ofNumber n).text = n.text := by
  cases n with
  | whole w =>
    unfold ofNumber
    dsimp only
    split_ifs
    · rfl
    · exact String.toList_ofList
  | double d => exact String.toList_ofList

mutual

/-- **A value is written as the document that it is the value of**, apart from the quotes. -/
theorem text_ofJson (level : ℕ) : ∀ v : Json,
    (ofJson v).text = Json.writeWith quote .compact level v
  | .null | .bool true | .bool false | .string _ | .array [] | .object [] => rfl
  | .number n => text_ofNumber n
  | .array (v :: vs) => by
    rw [ofJson, ofItems, text, text_ofJson (level + 1) v, itemsText_ofItems level vs]
    rfl
  | .object ((k, v) :: ms) => by
    rw [ofJson, ofMembers, text, text_ofJson (level + 1) v, membersText_ofMembers level ms,
      Json.writeWith, Layout.compact]
    simp only [List.nil_append, List.append_assoc, List.cons_append]

theorem itemsText_ofItems (level : ℕ) : ∀ vs : List Json,
    itemsText (ofItems vs) = Json.writeItemsWith quote .compact level vs
  | [] => rfl
  | v :: vs => by
    rw [ofItems, itemsText, text_ofJson (level + 1) v, itemsText_ofItems level vs]
    rfl

theorem membersText_ofMembers (level : ℕ) : ∀ ms : List (String × Json),
    membersText (ofMembers ms) = Json.writeMembersWith quote .compact level ms
  | [] => rfl
  | (k, v) :: ms => by
    rw [ofMembers, membersText, text_ofJson (level + 1) v, membersText_ofMembers level ms,
      Json.writeMembersWith, Layout.compact]
    simp only [List.nil_append, List.append_assoc, List.cons_append]

end

/-- The text of a value is read as the document that it is the value of. -/
theorem parse?_text {v : Json} (h : v.Fits) :
    Json.parse? (String.ofList (ofJson v).text) = .ok v.reread := by
  rw [text_ofJson 0 v]
  exact (Json.parse?_writeWith quoting_quote Json.blank_compact h.distinct).1 h.nesting

end Value

theorem ofText?_self : ofText? "." = .ok .self := rfl

/-- **The filter `.` gives a document back with its numbers read again.** -/
theorem apply_self {v : Json} (h : v.Fits) : apply "." v = .ok [v.reread] := by
  rw [apply, ofText?_self]
  show documents [.ok (.ofJson v)] = .ok [v.reread]
  rw [documents, Value.parse?_text h]
  rfl

end Filter
end Wireform
