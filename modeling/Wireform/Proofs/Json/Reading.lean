/-
# Steps of the reader

What the reader does with the front of a text. A bracket or a brace opens an array or an
object, if one more may be opened, and is too deep otherwise. An item is the last one if the
bracket is closed behind it, and is followed by the items behind the comma; the same holds of
the members of an object.

Key theorems: `Json.Reader.valueWith_of_brace`, `Json.Reader.items_last`,
`Json.Reader.items_more`, `Json.Reader.members_last`, `Json.Reader.members_more`.
-/
import Mathlib.Data.List.DropRight
import Mathlib.Tactic.SplitIfs
import Wireform.Json.Reader
import Wireform.Proofs.Sequence

namespace Wireform
namespace Json
namespace Reader

/-! ### Blanks -/

theorem skipBlanks_append {gap : List Char} (h : ∀ c ∈ gap, isBlank c = true) (s : List Char) :
    skipBlanks (gap ++ s) = skipBlanks s := List.dropWhile_append_of_pos h

theorem skipBlanks_cons {c : Char} (h : isBlank c = false) (s : List Char) :
    skipBlanks (c :: s) = c :: s := List.dropWhile_cons_of_neg (by rw [h]; decide)

theorem valueWith_skipBlanks {inner : Option (List Char → Except Fault (Front Json))}
    {s t : List Char} (h : skipBlanks s = skipBlanks t) :
    valueWith inner s = valueWith inner t := by
  unfold valueWith
  rw [h]

/-! ### Values -/

theorem valueWith_of_brace {inner : List Char → Except Fault (Front Json)}
    {s rest : List Char} (h : skipBlanks s = '\x7b' :: rest) : valueWith (some inner) s =
      object inner rest >>= fun r => .ok (.object r.1, r.2) := by
  unfold valueWith
  rw [h]
  rfl

theorem valueWith_of_bracket {inner : List Char → Except Fault (Front Json)}
    {s rest : List Char} (h : skipBlanks s = '[' :: rest) : valueWith (some inner) s =
      array inner rest >>= fun r => .ok (.array r.1, r.2) := by
  unfold valueWith
  rw [h]
  rfl

/-- Where neither an array nor an object is opened, it does not matter how deep they may
nest. -/
theorem valueWith_of_scalar {inner : Option (List Char → Except Fault (Front Json))}
    {s : List Char} (hbracket : ∀ rest, skipBlanks s ≠ '[' :: rest)
    (hbrace : ∀ rest, skipBlanks s ≠ '\x7b' :: rest) :
    valueWith none (skipBlanks s) = valueWith inner s := by
  have hskip : skipBlanks (skipBlanks s) = skipBlanks s := List.dropWhile_idempotent _ _
  unfold valueWith
  rw [hskip]
  generalize skipBlanks s = t at *
  split
  all_goals first | rfl | exact absurd rfl (hbracket _) | exact absurd rfl (hbrace _)

theorem eq_of_literal {v w : Json} {ahead : List Char} : ∀ {cs s : List Char},
    literal w cs s = .ok (v, ahead) → v = w
  | [], _, h => by
    cases h
    rfl
  | _ :: _, [], h => by cases h
  | c :: _, d :: _, h => by
    rw [literal] at h
    split_ifs at h
    · exact eq_of_literal h
    · cases h

/-- A value that does not start with a brace is no object. -/
theorem ne_object_of_valueWith {inner : Option (List Char → Except Fault (Front Json))}
    {s ahead : List Char} {v : Json} (hbrace : ∀ rest, skipBlanks s ≠ '\x7b' :: rest)
    (h : valueWith inner s = .ok (v, ahead)) : ∀ members, v ≠ .object members := by
  unfold valueWith at h
  split at h
  · cases h
  · obtain rfl := eq_of_literal h
    nofun
  · obtain rfl := eq_of_literal h
    nofun
  · obtain rfl := eq_of_literal h
    nofun
  · obtain ⟨_, -, h⟩ := bind_eq_ok_iff.mp h
    cases h
    nofun
  · obtain ⟨_, -, h⟩ := bind_eq_ok_iff.mp h
    cases h
    nofun
  · split at h
    · cases h
    · obtain ⟨_, -, h⟩ := bind_eq_ok_iff.mp h
      cases h
      nofun
  · exact absurd ‹_› (hbrace _)
  · split_ifs at h
    · obtain ⟨_, -, h⟩ := bind_eq_ok_iff.mp h
      cases h
      nofun
    · cases h

/-- An object is at the front exactly if a brace is, and the members behind it. -/
theorem valueWith_eq_object_iff {inner : List Char → Except Fault (Front Json)}
    {s ahead : List Char} {ms : List (String × Json)} :
    valueWith (some inner) s = .ok (.object ms, ahead) ↔
      ∃ rest, skipBlanks s = '\x7b' :: rest ∧ object inner rest = .ok (ms, ahead) := by
  constructor
  · intro h
    by_cases hbrace : ∃ rest, skipBlanks s = '\x7b' :: rest
    · obtain ⟨rest, hrest⟩ := hbrace
      rw [valueWith_of_brace hrest] at h
      obtain ⟨⟨ms, ahead'⟩, hms, hv⟩ := bind_eq_ok_iff.mp h
      cases hv
      exact ⟨rest, hrest, hms⟩
    · exact absurd rfl (ne_object_of_valueWith (not_exists.mp hbrace) h ms)
  · rintro ⟨rest, hrest, hms⟩
    rw [valueWith_of_brace hrest, hms]
    rfl

/-- Where nothing may be opened, a bracket or a brace is too deep. -/
theorem valueWith_none_of_opening {c : Char} (hc : c = '[' ∨ c = '\x7b') {s rest : List Char}
    (h : skipBlanks s = c :: rest) : valueWith none s = faultAt .tooDeep (c :: rest) := by
  unfold valueWith
  rw [h]
  rcases hc with rfl | rfl <;> rfl

section Loops

variable {inner : List Char → Except Fault (Front Json)} {fuel position : ℕ} {v : Json} {f : Fault}
  {s s' t u ahead : List Char} {c : Char}

/-! ### Items -/

theorem array_of_item (h : skipBlanks s = c :: t) (hc : c ≠ ']') :
    array inner s = items inner (c :: t).length 0 (c :: t) := by
  unfold array
  rw [h]
  split
  · rename_i heq
    cases heq
  · rename_i heq
    cases heq
    exact absurd rfl hc
  · rfl

theorem items_of_error (h : inner s = .error f) :
    items inner (fuel + 1) position s = .error (f.under (.index position)) := by
  rw [items, h]
  rfl

/-- Behind the last item the array is closed. -/
theorem items_last (h : inner s = .ok (v, s')) (hclose : skipBlanks s' = ']' :: ahead) :
    items inner (fuel + 1) position s = .ok ([v], ahead) := by
  rw [items, h]
  dsimp only [inside, bind, Except.bind]
  rw [hclose]
  rfl

/-- Behind another item there is a comma, and the next one. -/
theorem items_more (h : inner s = .ok (v, s')) (hcomma : skipBlanks s' = ',' :: t)
    (hnext : skipBlanks t = c :: u) (hc : c ≠ ']') :
    items inner (fuel + 1) position s =
      items inner fuel (position + 1) (c :: u) >>= fun r => .ok (v :: r.1, r.2) := by
  rw [items, h]
  dsimp only [inside, bind, Except.bind]
  simp only [hcomma, hnext]
  split
  · rename_i heq
    cases heq
  · rename_i heq
    cases heq
    exact absurd rfl hc
  · rfl

/-! ### Members -/

theorem object_of_member (h : skipBlanks s = c :: t) (hc : c ≠ '\x7d') :
    object inner s = members inner (c :: t).length (c :: t) := by
  unfold object
  rw [h]
  split
  · rename_i heq
    cases heq
  · rename_i heq
    cases heq
    exact absurd rfl hc
  · rfl

theorem nextMember_last (hclose : skipBlanks s = '\x7d' :: ahead) :
    nextMember s = .ok (false, ahead) := by
  unfold nextMember
  rw [hclose]
  rfl

theorem nextMember_more (hcomma : skipBlanks s = ',' :: t) (hnext : skipBlanks t = c :: u)
    (hc : c ≠ '\x7d') : nextMember s = .ok (true, c :: u) := by
  unfold nextMember
  simp only [hcomma, hnext]
  split
  · rename_i heq
    cases heq
  · rename_i heq
    cases heq
    exact absurd rfl hc
  · rfl

variable {m : String × Json}

theorem members_of_error (h : member inner s = .error f) :
    members inner (fuel + 1) s = .error f := by
  rw [members, h]
  rfl

/-- Behind the last member the object is closed. -/
theorem members_last (h : member inner s = .ok (m, s')) (hclose : skipBlanks s' = '\x7d' :: ahead) :
    members inner (fuel + 1) s = .ok ([m], ahead) := by
  rw [members, h]
  dsimp only [bind, Except.bind]
  rw [nextMember_last hclose]
  rfl

/-- Behind another member there is a comma, and the next one. -/
theorem members_more (h : member inner s = .ok (m, s')) (hcomma : skipBlanks s' = ',' :: t)
    (hnext : skipBlanks t = c :: u) (hc : c ≠ '\x7d') :
    members inner (fuel + 1) s =
      members inner fuel (c :: u) >>= fun r => .ok (m :: r.1, r.2) := by
  rw [members, h]
  dsimp only [bind, Except.bind]
  rw [nextMember_more hcomma hnext hc]
  rfl

end Loops

end Reader
end Json
end Wireform
