/-
# Documents on one line

In the compact layout nothing stands between the tokens; numbers are spelled by digits and a
few marks, and the control characters of strings are escaped. So the text of a document
holds no control character, in particular nothing that ends a line
(`Json.noControl_compact`).

A document that was read nests as deep as a text may, and no deeper; neither the parts of a
document nor what it is converted to nest deeper. So what was read, converted and written on
a line is read from that line again, its numbers as their texts are read (`Json.parse?_compact`,
`Engine.fits_of_convert`).

Key definitions: `Json.NoControl`, `Json.Fits`.
Key theorems: `Json.noControl_compact`, `Json.isBlank_compact`, `Json.Fits.of_pointer?`,
`Json.parse?_compact`, `Engine.fits_of_convert`.
-/
import Wireform.Json.Pointer
import Wireform.Proofs.EncodedText
import Wireform.Proofs.Json.Nesting

namespace Wireform
namespace Json

/-! ### No control characters -/

/-- Whether a character is no control. -/
def isPlain (c : Char) : Bool := 32 ≤ c.toNat

/-- No character of a text is a control. -/
def NoControl (cs : List Char) : Prop := cs.all isPlain = true

theorem noControl_iff {cs : List Char} : NoControl cs ↔ ∀ c ∈ cs, isPlain c = true := List.all_eq_true

theorem noControl_cons {c : Char} {cs : List Char} :
    NoControl (c :: cs) ↔ isPlain c = true ∧ NoControl cs := by
  rw [NoControl, List.all_cons, Bool.and_eq_true]
  rfl

theorem noControl_append {as bs : List Char} :
    NoControl (as ++ bs) ↔ NoControl as ∧ NoControl bs := by
  rw [NoControl, List.all_append, Bool.and_eq_true]
  rfl

theorem NoControl.subset {as bs : List Char} (h : NoControl bs) (hsub : as ⊆ bs) : NoControl as :=
  noControl_iff.mpr fun c hc => noControl_iff.mp h c (hsub hc)

theorem noControl_of_isDigit {cs : List Char} (h : ∀ c ∈ cs, Text.isDigit c = true) :
    NoControl cs := by
  refine noControl_iff.mpr fun c hc => ?_
  have hdigit := h c hc
  simp only [Text.isDigit, Bool.and_eq_true, decide_eq_true_eq] at hdigit
  have hle : 48 ≤ c.toNat := hdigit.1
  exact decide_eq_true (by omega)

theorem noControl_toDigits (n : ℕ) : NoControl (Nat.toDigits 10 n) :=
  noControl_of_isDigit fun _ => Text.isDigit_of_mem_toDigits

/-! ### Strings -/

theorem isPlain_hexDigit {n : ℕ} (hn : n < 16) : isPlain (hexDigit n) = true := by
  interval_cases n <;> rfl

theorem noControl_escapeChar (c : Char) : NoControl (escapeChar c) := by
  unfold escapeChar
  split_ifs with _ _ _ _ _ _ _ hcontrol
  · exact rfl
  · exact rfl
  · exact rfl
  · exact rfl
  · exact rfl
  · exact rfl
  · exact rfl
  · have hhigh : isPlain (hexDigit (c.toNat / 16)) = true := isPlain_hexDigit (by omega)
    have hlow : isPlain (hexDigit (c.toNat % 16)) = true := isPlain_hexDigit (by omega)
    have hfront : NoControl ['\\', 'u', '0', '0'] := rfl
    have hdigits : NoControl [hexDigit (c.toNat / 16), hexDigit (c.toNat % 16)] :=
      noControl_cons.mpr ⟨hhigh, noControl_cons.mpr ⟨hlow, rfl⟩⟩
    exact noControl_append.mpr ⟨hfront, hdigits⟩
  · exact noControl_cons.mpr ⟨decide_eq_true (not_lt.mp hcontrol), rfl⟩

theorem noControl_escape : ∀ cs : List Char, NoControl (escape cs)
  | [] => rfl
  | c :: cs => noControl_append.mpr ⟨noControl_escapeChar c, noControl_escape cs⟩

theorem noControl_quote (s : String) : NoControl (quote s) :=
  noControl_cons.mpr ⟨rfl, noControl_append.mpr ⟨noControl_escape _, rfl⟩⟩

/-! ### Numbers -/

theorem noControl_digitText (c : Decimal) : NoControl c.digitText := noControl_toDigits _

theorem noControl_zeros (k : ℕ) : NoControl (List.replicate k '0') :=
  noControl_of_isDigit (Reader.isDigit_of_mem_zeros k)

theorem noControl_positional (c : Decimal) : NoControl c.positional := by
  have hdigits := noControl_digitText c
  unfold Decimal.positional
  dsimp only
  split_ifs
  · exact noControl_append.mpr ⟨noControl_append.mpr ⟨hdigits, noControl_zeros _⟩, rfl⟩
  · exact noControl_append.mpr ⟨hdigits.subset (List.take_subset _ _),
      noControl_cons.mpr ⟨rfl, hdigits.subset (List.drop_subset _ _)⟩⟩
  · exact noControl_cons.mpr ⟨rfl, noControl_cons.mpr ⟨rfl,
      noControl_append.mpr ⟨noControl_zeros _, hdigits⟩⟩⟩

theorem noControl_scientific (c : Decimal) : NoControl (c.scientific ['+']) := by
  have hdigits := noControl_digitText c
  unfold Decimal.scientific
  refine noControl_append.mpr ⟨noControl_append.mpr ⟨?point, ?mark⟩, noControl_toDigits _⟩
  case point =>
    generalize c.digitText = ds at hdigits
    rcases ds with _ | ⟨d, _ | ⟨e, ds⟩⟩
    · exact hdigits
    · exact hdigits
    · obtain ⟨hd, hrest⟩ := noControl_cons.mp hdigits
      exact noControl_cons.mpr ⟨hd, noControl_cons.mpr ⟨rfl, hrest⟩⟩
  case mark => split_ifs <;> rfl

theorem noControl_number (n : Number) : NoControl n.text := by
  cases n with
  | whole n =>
    rw [Number.text, Number.intText]
    split_ifs
    · exact noControl_cons.mpr ⟨rfl, noControl_toDigits _⟩
    · exact noControl_toDigits _
  | double d =>
    have hsign : NoControl d.signText := by
      unfold Double.signText
      split_ifs <;> rfl
    rw [Number.text, Double.write]
    split_ifs
    · exact noControl_append.mpr ⟨hsign, rfl⟩
    · exact noControl_append.mpr ⟨hsign, noControl_positional _⟩
    · exact noControl_append.mpr ⟨hsign, noControl_scientific _⟩

/-! ### Documents -/

theorem noControl_memberText (k : String) {text : List Char} (h : NoControl text) :
    NoControl (quote k ++ [':'] ++ text) :=
  noControl_append.mpr ⟨noControl_append.mpr ⟨noControl_quote k, rfl⟩, h⟩

mutual

theorem noControl_write (level : ℕ) : ∀ v : Json, NoControl (write .compact level v)
  | .null | .bool true | .bool false | .array [] | .object [] => rfl
  | .number n => noControl_number n
  | .string s => noControl_quote s
  | .array (v :: vs) =>
    noControl_cons.mpr ⟨rfl, noControl_append.mpr
      ⟨noControl_write (level + 1) v, noControl_writeItems level vs⟩⟩
  | .object ((k, v) :: rest) =>
    noControl_cons.mpr ⟨rfl, noControl_append.mpr
      ⟨noControl_memberText k (noControl_write (level + 1) v), noControl_writeMembers level rest⟩⟩

theorem noControl_writeItems (level : ℕ) : ∀ vs : List Json,
    NoControl (writeItems .compact level vs)
  | [] => rfl
  | v :: vs =>
    noControl_cons.mpr ⟨rfl, noControl_append.mpr
      ⟨noControl_write (level + 1) v, noControl_writeItems level vs⟩⟩

theorem noControl_writeMembers (level : ℕ) : ∀ ms : List (String × Json),
    NoControl (writeMembers .compact level ms)
  | [] => rfl
  | (k, v) :: rest =>
    noControl_cons.mpr ⟨rfl, noControl_append.mpr
      ⟨noControl_memberText k (noControl_write (level + 1) v), noControl_writeMembers level rest⟩⟩

end

/-- **The text of a document on one line holds no control character.** -/
theorem noControl_compact (v : Json) : NoControl v.compact.toList := by
  rw [compact, String.toList_ofList]
  exact noControl_write 0 v

/-- A document is never written as a blank line. -/
theorem isBlank_compact (v : Json) : Text.isBlank v.compact.toList = false := by
  obtain ⟨c, t, hwrite, hc, -⟩ := Reader.exists_write_cons .compact 0 v
  rw [compact, String.toList_ofList, hwrite, Text.isBlank, List.all_cons, hc]
  rfl

/-! ### Reading a line again -/

/-- A document that a text can hold: no key stands twice, and it nests as deep as a text may. -/
structure Fits (v : Json) : Prop where
  distinct : v.Distinct
  nesting : v.nesting ≤ nestingLimit

theorem fits_of_parse? {text : String} {v : Json} (h : parse? text = .ok v) : v.Fits :=
  ⟨distinct_of_parse? h, nesting_le_of_parse? h⟩

/-- A part of a document fits a text if the document does. -/
theorem Fits.of_child? {key : List Char} {v part : Json} (h : v.Fits)
    (hpart : child? key v = some part) : part.Fits := by
  cases v with
  | array items =>
    obtain ⟨i, -, hi⟩ := Option.bind_eq_some_iff.mp hpart
    have hmem : part ∈ items := List.mem_of_getElem? hi
    have hle : part.nesting < (array items).nesting :=
      Nat.lt_succ_of_le (nesting_le_of_mem_items hmem)
    exact ⟨h.distinct.of_mem_items hmem, hle.le.trans h.nesting⟩
  | object members =>
    have hmem : (String.ofList key, part) ∈ members := Keyed.mem_of_lookup hpart
    have hle : part.nesting < (object members).nesting :=
      Nat.lt_succ_of_le (nesting_le_of_mem_members hmem)
    exact ⟨h.distinct.of_mem_members hmem, hle.le.trans h.nesting⟩
  | _ => cases hpart

theorem Fits.of_descend? : ∀ {keys : List (List Char)} {v part : Json}, v.Fits →
    descend? keys v = some part → part.Fits
  | [], v, part, h, hpart => Option.some.inj hpart ▸ h
  | key :: keys, v, part, h, hpart => by
    obtain ⟨child, hchild, hrest⟩ := Option.bind_eq_some_iff.mp hpart
    exact (h.of_child? hchild).of_descend? hrest

/-- What a pointer selects in a document fits a text if the document does. -/
theorem Fits.of_pointer? {pointer : List Char} {v part : Json} (h : v.Fits)
    (hpart : pointer? pointer v = some part) : part.Fits := by
  unfold pointer? at hpart
  split at hpart
  · exact Option.some.inj hpart ▸ h
  · exact h.of_descend? hpart
  · cases hpart

theorem blank_compact : Layout.compact.Blank :=
  ⟨fun _ => List.forall_mem_nil _, List.forall_mem_nil _⟩

/-- **A document that was written on a line is read from it**, its numbers as their texts are
read. -/
theorem parse?_compact {v : Json} (h : v.Fits) : parse? v.compact = .ok v.reread :=
  (parse?_write blank_compact h.distinct).1 h.nesting

end Json

namespace Engine

/-- What was converted can be written as what it was converted from. -/
theorem fits_of_convert {e : Engine} (hs : e.table.Sound) {v out : Json} {root : String}
    {direction : Direction} (hv : v.Fits) (h : e.convert v root direction = .ok out) : out.Fits :=
  ⟨distinct_of_convert hs hv.distinct h, (nesting_out_le hs h).trans hv.nesting⟩

end Engine
end Wireform
