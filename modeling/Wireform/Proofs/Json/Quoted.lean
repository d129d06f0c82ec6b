/-
# Strings as they are written and read

A character inside quotes either stands for itself or is escaped, and the escape is read
as that character (`Json.Reader.Spelled`). Whoever escapes so is understood: the characters
between two quotes are read as they were meant, up to the closing quote
(`Json.Reader.string_flatMap`). Which characters are escaped besides those that have to be,
and which of their escapes is taken, is left to the writer (`Json.Reader.Quoting`).

Key definitions: `Json.Reader.Spelled`, `Json.Reader.Quoting`.
Key theorems: `Json.Reader.spelled_escapeChar`, `Json.Reader.string_flatMap`,
`Json.Reader.Quoting.valueWith`.
-/
import Mathlib
import Wireform.Json.Printer
import Wireform.Json.Reader

namespace Wireform
namespace Json
namespace Reader

open Text (hexValue?)

/-! ### One character -/

/-- Characters that are read as one inside quotes: an escape of it, or the character itself
where that may stand there. -/
def Spelled (c : Char) (cs : List Char) : Prop :=
  (∃ e, cs = '\\' :: e ∧ ∀ rest, escaped (e ++ rest) = .ok (c, rest)) ∨
    (cs = [c] ∧ c ≠ '"' ∧ c ≠ '\\' ∧ ¬ c.toNat < 32)

theorem hexValue?_hexDigit {n : ℕ} (hn : n < 16) : hexValue? (hexDigit n) = some n := by
  interval_cases n <;> rfl

theorem hexFour_byte {n : ℕ} (hn : n < 256) (rest : List Char) :
    hexFour ('0' :: '0' :: hexDigit (n / 16) :: hexDigit (n % 16) :: rest) = .ok (n, rest) := by
  have hzero : hexValue? '0' = some 0 := rfl
  rw [hexFour, hzero, hexValue?_hexDigit (show n / 16 < 16 by omega),
    hexValue?_hexDigit (show n % 16 < 16 by omega)]
  dsimp only
  rw [show ((0 * 16 + 0) * 16 + n / 16) * 16 + n % 16 = n by omega]

theorem escaped_byte {c : Char} (hc : c.toNat < 256) (rest : List Char) :
    escaped ('u' :: '0' :: '0' :: hexDigit (c.toNat / 16) :: hexDigit (c.toNat % 16) :: rest) =
      .ok (c, rest) := by
  show (hexFour _ >>= _) = _
  rw [hexFour_byte hc]
  show (if 0xDC00 ≤ c.toNat ∧ c.toNat ≤ 0xDFFF then faultAfter .loneSurrogate rest
    else if 0xD800 ≤ c.toNat ∧ c.toNat ≤ 0xDBFF then lowSurrogate c.toNat rest
    else .ok (Char.ofNat c.toNat, rest)) = _
  rw [if_neg (by omega), if_neg (by omega), Char.ofNat_toNat]

/-- A character may be escaped by its code point in two digits. -/
theorem spelled_byte {c : Char} (hc : c.toNat < 256) : Spelled c
    ['\\', 'u', '0', '0', hexDigit (c.toNat / 16), hexDigit (c.toNat % 16)] :=
  .inl ⟨_, rfl, escaped_byte hc⟩

/-- **A character inside quotes is escaped and read back, or stands for itself.** -/
theorem spelled_escapeChar (c : Char) : Spelled c (escapeChar c) := by
  have hcode {n : ℕ} (h : c.toNat = n) : Char.ofNat n = c := h ▸ Char.ofNat_toNat c
  unfold escapeChar
  split_ifs with hquote hback hline hreturn htab height htwelve hcontrol
  · exact .inl ⟨_, rfl, fun rest => by rw [hquote]; rfl⟩
  · exact .inl ⟨_, rfl, fun rest => by rw [hback]; rfl⟩
  · exact .inl ⟨_, rfl, fun rest => by rw [hline]; rfl⟩
  · exact .inl ⟨_, rfl, fun rest => by rw [hreturn]; rfl⟩
  · exact .inl ⟨_, rfl, fun rest => by rw [htab]; rfl⟩
  · exact .inl ⟨_, rfl, fun rest => by rw [← hcode height]; rfl⟩
  · exact .inl ⟨_, rfl, fun rest => by rw [← hcode htwelve]; rfl⟩
  · exact spelled_byte (by omega)
  · exact .inr ⟨rfl, hquote, hback, hcontrol⟩

/-! ### The characters up to the closing quote -/

section Escaping

variable {escape : Char → List Char} (hescape : ∀ c, Spelled c (escape c))
include hescape

theorem length_le_flatMap : ∀ cs : List Char, cs.length ≤ (cs.flatMap escape).length
  | [] => le_refl _
  | c :: cs => by
    have hpos : 0 < (escape c).length := by
      rcases hescape c with ⟨e, he, -⟩ | ⟨he, -⟩ <;> rw [he] <;> exact Nat.succ_pos _
    have hle := length_le_flatMap cs
    rw [List.flatMap_cons, List.length_cons, List.length_append]
    omega

theorem characters_flatMap (rest : List Char) : ∀ {cs : List Char} {fuel : ℕ}, cs.length < fuel →
    characters fuel (cs.flatMap escape ++ '"' :: rest) = .ok (cs, rest)
  | [], fuel + 1, _ => rfl
  | c :: cs, fuel + 1, h => by
    have ih : characters fuel (cs.flatMap escape ++ '"' :: rest) = .ok (cs, rest) :=
      characters_flatMap rest (by rw [List.length_cons] at h; omega)
    rw [List.flatMap_cons, List.append_assoc]
    rcases hescape c with ⟨e, he, hescaped⟩ | ⟨he, hquote, hback, hcontrol⟩
    · rw [he, List.cons_append, characters, if_neg (by decide), if_pos rfl, hescaped]
      dsimp only [bind, Except.bind]
      rw [ih]
    · rw [he, List.singleton_append, characters, if_neg hquote, if_neg hback, if_neg hcontrol, ih]
      rfl

/-- **A string is read as it was written**, up to the closing quote. -/
theorem string_flatMap (s : String) (rest : List Char) :
    string (s.toList.flatMap escape ++ '"' :: rest) = .ok (s, rest) := by
  have hle := length_le_flatMap hescape s.toList
  rw [string, characters_flatMap hescape rest (by rw [List.length_append]; omega)]
  dsimp only [bind, Except.bind]
  rw [String.ofList_toList]

end Escaping

/-! ### Ways to quote -/

/-- A way to put strings in quotes that the reader undoes. -/
structure Quoting (quoted : String → List Char) : Prop where
  read : ∀ s rest, ∃ t, quoted s ++ rest = '"' :: t ∧ string t = .ok (s, rest)

/-- To escape each character so that it is read back is a way to quote. -/
theorem quoting_flatMap {escape : Char → List Char} (hescape : ∀ c, Spelled c (escape c)) :
    Quoting fun s => '"' :: (s.toList.flatMap escape ++ ['"']) := by
  refine ⟨fun s rest => ⟨s.toList.flatMap escape ++ '"' :: rest, ?_, string_flatMap hescape s rest⟩⟩
  rw [List.cons_append, List.append_assoc]
  rfl

theorem escape_eq_flatMap : ∀ cs : List Char, escape cs = cs.flatMap escapeChar
  | [] => rfl
  | c :: cs => by rw [escape, escape_eq_flatMap cs, List.flatMap_cons]

theorem quoting_quote : Quoting quote := by
  have hquote : quote = fun s => '"' :: (s.toList.flatMap escapeChar ++ ['"']) :=
    funext fun s => by rw [quote, escape_eq_flatMap]
  rw [hquote]
  exact quoting_flatMap spelled_escapeChar

theorem Quoting.valueWith {quoted : String → List Char} (hq : Quoting quoted)
    {inner : Option (List Char → Except Fault (Front Json))} (s : String) (rest : List Char) :
    Reader.valueWith inner (quoted s ++ rest) = .ok (.string s, rest) := by
  obtain ⟨t, ht, hread⟩ := hq.read s rest
  rw [ht]
  show (string t >>= fun r => .ok (Json.string r.1, r.2)) = _
  rw [hread]
  rfl

end Reader
end Json
end Wireform
