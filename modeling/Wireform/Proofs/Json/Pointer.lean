/-
# The pointer of a path

The text of a path, read as a JSON pointer, leads where its segments lead: every
token is read back as the key or the position that was written. Slashes in keys do
not end a token, since they are escaped, and the two replacements that undo the
escaping do not disturb each other, since a tilde never stands alone in an escaped
key. Positions are written without leading zeros, so an array takes them as such;
a key made of digits is still a key, because an object takes every token as a key.

Key definitions: `Segment.token`.
Key theorems: `Json.tokenKey_escapeKey`, `Json.positionOf?_toDigits`,
`Json.pointer?_text`.
-/
import Wireform.Json.Pointer
import Wireform.Path
import Wireform.Proofs.Text.Digits

namespace Wireform

/-- The key that a segment spells inside a pointer. -/
def Segment.token : Segment → List Char
  | .key name => name.toList
  | .index position => Nat.toDigits 10 position

namespace Json

open Text (isDigit_of_mem_toDigits ofDigits_toDigits head?_toDigits_ne)

/-! ### Escaping -/

theorem replaceTilde_cons_of_ne {digit plain c : Char} (h : c ≠ '~') (cs : List Char) :
    replaceTilde digit plain (c :: cs) = c :: replaceTilde digit plain cs := by
  rw [replaceTilde]
  exact fun _ _ hc => (h hc).elim

/-- A key with its tildes still escaped, as the first replacement leaves it. -/
def escapedTildes : List Char → List Char
  | [] => []
  | c :: cs => if c = '~' then '~' :: '0' :: escapedTildes cs else c :: escapedTildes cs

theorem replaceTilde_escapeKey : ∀ key : List Char,
    replaceTilde '1' '/' (Path.escapeKey key) = escapedTildes key
  | [] => rfl
  | c :: cs => by
    have ih := replaceTilde_escapeKey cs
    rw [Path.escapeKey, Path.escapeChar, escapedTildes]
    by_cases htilde : c = '~'
    · rw [if_pos htilde, if_pos htilde, List.cons_append, List.cons_append, List.nil_append,
        replaceTilde, if_neg (by decide), replaceTilde_cons_of_ne (by decide), ih]
    · rw [if_neg htilde, if_neg htilde]
      by_cases hslash : c = '/'
      · rw [if_pos hslash, List.cons_append, List.cons_append, List.nil_append, replaceTilde,
          if_pos rfl, ih, hslash]
      · rw [if_neg hslash, List.singleton_append, replaceTilde_cons_of_ne htilde, ih]

theorem replaceTilde_escapedTildes : ∀ key : List Char,
    replaceTilde '0' '~' (escapedTildes key) = key
  | [] => rfl
  | c :: cs => by
    have ih := replaceTilde_escapedTildes cs
    rw [escapedTildes]
    by_cases htilde : c = '~'
    · rw [if_pos htilde, replaceTilde, if_pos rfl, ih, htilde]
    · rw [if_neg htilde, replaceTilde_cons_of_ne htilde, ih]

/-- **An escaped key is read back.** -/
theorem tokenKey_escapeKey (key : List Char) : tokenKey (Path.escapeKey key) = key := by
  rw [tokenKey, replaceTilde_escapeKey, replaceTilde_escapedTildes]

theorem tokenKey_eq_self : ∀ {token : List Char}, '~' ∉ token → tokenKey token = token := by
  have h : ∀ (digit plain : Char) (cs : List Char), '~' ∉ cs → replaceTilde digit plain cs = cs := by
    intro digit plain cs
    induction cs with
    | nil => intro _; rfl
    | cons c cs ih =>
      intro hc
      simp only [List.mem_cons, not_or] at hc
      rw [replaceTilde_cons_of_ne (Ne.symm hc.1), ih hc.2]
  intro token ht
  rw [tokenKey, h '1' '/' token ht, h '0' '~' token ht]

/-! ### Positions -/

/-- **A position in decimal is read back.** -/
theorem positionOf?_toDigits (n : Nat) : positionOf? (Nat.toDigits 10 n) = some n := by
  have hdigits : (Nat.toDigits 10 n).all Text.isDigit = true :=
    List.all_eq_true.mpr fun c hc => isDigit_of_mem_toDigits hc
  have hzero : (Nat.toDigits 10 n).head? = some '0' → (Nat.toDigits 10 n).length = 1 := by
    intro hhead
    rcases Nat.eq_zero_or_pos n with rfl | hpos
    · rfl
    · exact (head?_toDigits_ne hpos hhead).elim
  rw [positionOf?, if_neg, ofDigits_toDigits]
  rintro (hnil | hnot | ⟨hhead, hlength⟩)
  · exact Nat.toDigits_ne_nil hnil
  · rw [hdigits] at hnot
    cases hnot
  · exact hlength (hzero hhead)

/-! ### Tokens -/

theorem pointerTokens_of_notMem : ∀ {t : List Char}, '/' ∉ t → pointerTokens t = [t]
  | [], _ => rfl
  | c :: cs, h => by
    simp only [List.mem_cons, not_or] at h
    rw [pointerTokens, if_neg (Ne.symm h.1), pointerTokens_of_notMem h.2]

theorem pointerTokens_append : ∀ {t : List Char}, '/' ∉ t → ∀ rest : List Char,
    pointerTokens (t ++ '/' :: rest) = t :: pointerTokens rest
  | [], _, rest => by rw [List.nil_append, pointerTokens, if_pos rfl]
  | c :: cs, h, rest => by
    simp only [List.mem_cons, not_or] at h
    rw [List.cons_append, pointerTokens, if_neg (Ne.symm h.1), pointerTokens_append h.2]

theorem slash_notMem_escapeKey : ∀ key : List Char, '/' ∉ Path.escapeKey key
  | [] => by simp [Path.escapeKey]
  | c :: cs => by
    have ih := slash_notMem_escapeKey cs
    rw [Path.escapeKey, Path.escapeChar, List.mem_append, not_or]
    refine ⟨?_, ih⟩
    by_cases htilde : c = '~'
    · rw [if_pos htilde]
      decide
    · rw [if_neg htilde]
      by_cases hslash : c = '/'
      · rw [if_pos hslash]
        decide
      · rw [if_neg hslash, List.mem_singleton]
        exact Ne.symm hslash

theorem slash_notMem_segmentText : ∀ s : Segment, '/' ∉ Path.segmentText s
  | .key name => slash_notMem_escapeKey name.toList
  | .index n => fun h => by
    have hd := isDigit_of_mem_toDigits h
    revert hd
    decide

theorem tokenKey_segmentText : ∀ s : Segment, tokenKey (Path.segmentText s) = s.token
  | .key name => tokenKey_escapeKey name.toList
  | .index n => by
    refine tokenKey_eq_self fun h => ?_
    have hd := isDigit_of_mem_toDigits h
    revert hd
    decide

theorem pointerTokens_pointerText : ∀ (s : Segment) (rest : List Segment),
    pointerTokens (Path.segmentText s ++ Path.pointerText rest) =
      Path.segmentText s :: rest.map Path.segmentText
  | s, [] => by
    rw [Path.pointerText, List.append_nil, pointerTokens_of_notMem (slash_notMem_segmentText s)]
    rfl
  | s, s' :: rest => by
    rw [Path.pointerText, pointerTokens_append (slash_notMem_segmentText s),
      pointerTokens_pointerText s' rest, List.map_cons]

/-- **The pointer of a path leads along its segments.** -/
theorem pointer?_text (p : Path) (v : Json) :
    pointer? p.text.toList v = descend? (p.segments.map Segment.token) v := by
  obtain ⟨segments⟩ := p
  rw [Path.text, String.toList_ofList]
  cases segments with
  | nil => rfl
  | cons s rest =>
    have htokens : (pointerTokens (Path.segmentText s ++ Path.pointerText rest)).map tokenKey =
        (s :: rest).map Segment.token := by
      rw [pointerTokens_pointerText, ← List.map_cons, List.map_map]
      exact List.map_congr_left fun s _ => tokenKey_segmentText s
    rw [Path.pointerText, pointer?, htokens]

end Json
end Wireform
