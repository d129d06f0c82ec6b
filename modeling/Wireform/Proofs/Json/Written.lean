/-
# Documents as they are written and read

A document that was written in a layout of blanks is read again: each value is taken off the
front of the text as it was written, its numbers as their texts are read, and what stood behind
it is ahead. That takes that arrays and objects do not nest deeper than the reader goes; if they
do, the reader stops where they are too deep (`Json.Reader.value_writeWith`). Nothing of it
depends on how the strings are put in quotes, as long as the reader undoes it.

So the text of a document that holds no key twice and nests 127 deep at most is read as that
document but for its doubles, and the text of one that nests deeper is refused
(`Json.parse?_writeWith`).

Key definitions: `Layout.Blank`, `Json.writeWith`, `Json.Reader.Gives`.
Key theorems: `Json.Reader.items_writeWith`, `Json.Reader.members_writeWith`,
`Json.Reader.value_writeWith`, `Json.parse?_writeWith`, `Json.parse?_write`.
-/
import Wireform.Proofs.Json.Quoted
import Wireform.Proofs.Json.Reading
import Wireform.Proofs.Json.Reread

namespace Wireform

/-- Nothing but blanks stands between the tokens. -/
structure Layout.Blank (layout : Layout) : Prop where
  gap : ∀ level, ∀ c ∈ layout.gap level, Json.Reader.isBlank c = true
  afterColon : ∀ c ∈ layout.afterColon, Json.Reader.isBlank c = true

theorem Layout.blank_pretty : Layout.pretty.Blank := by
  constructor
  · intro level c hc
    rcases List.mem_cons.mp hc with rfl | hc
    · rfl
    · rw [List.eq_of_mem_replicate hc]
      rfl
  · intro c hc
    rw [List.mem_singleton.mp hc]
    rfl

namespace Json

/-! ### Writing with other quotes -/

mutual

/-- The text of a document in a layout, at a level, its strings quoted in a given way. -/
def writeWith (quoted : String → List Char) (layout : Layout) (level : ℕ) : Json → List Char
  | .null => ['n', 'u', 'l', 'l']
  | .bool true => ['t', 'r', 'u', 'e']
  | .bool false => ['f', 'a', 'l', 's', 'e']
  | .number n => n.text
  | .string s => quoted s
  | .array [] => ['[', ']']
  | .array (v :: vs) =>
    '[' :: (layout.gap (level + 1) ++ writeWith quoted layout (level + 1) v ++
      writeItemsWith quoted layout level vs)
  | .object [] => ['\x7b', '\x7d']
  | .object ((k, v) :: rest) =>
    '\x7b' :: (layout.gap (level + 1) ++ quoted k ++ ':' :: layout.afterColon ++
      writeWith quoted layout (level + 1) v ++ writeMembersWith quoted layout level rest)

/-- The items after the first, each behind a comma, and the closing bracket. -/
def writeItemsWith (quoted : String → List Char) (layout : Layout) (level : ℕ) :
    List Json → List Char
  | [] => layout.gap level ++ [']']
  | v :: vs =>
    ',' :: (layout.gap (level + 1) ++ writeWith quoted layout (level + 1) v ++
      writeItemsWith quoted layout level vs)

/-- The members after the first, each behind a comma, and the closing brace. -/
def writeMembersWith (quoted : String → List Char) (layout : Layout) (level : ℕ) :
    List (String × Json) → List Char
  | [] => layout.gap level ++ ['\x7d']
  | (k, v) :: rest =>
    ',' :: (layout.gap (level + 1) ++ quoted k ++ ':' :: layout.afterColon ++
      writeWith quoted layout (level + 1) v ++ writeMembersWith quoted layout level rest)

end

mutual

theorem write_eq_writeWith (layout : Layout) (level : ℕ) : ∀ v : Json,
    write layout level v = writeWith quote layout level v
  | .null | .bool true | .bool false | .number _ | .string _ | .array [] | .object [] => rfl
  | .array (v :: vs) => by
    rw [write, writeWith, write_eq_writeWith layout (level + 1) v,
      writeItems_eq_writeItemsWith layout level vs]
  | .object ((k, v) :: ms) => by
    rw [write, writeWith, write_eq_writeWith layout (level + 1) v,
      writeMembers_eq_writeMembersWith layout level ms]

theorem writeItems_eq_writeItemsWith (layout : Layout) (level : ℕ) : ∀ vs : List Json,
    writeItems layout level vs = writeItemsWith quote layout level vs
  | [] => rfl
  | v :: vs => by
    rw [writeItems, writeItemsWith, write_eq_writeWith layout (level + 1) v,
      writeItems_eq_writeItemsWith layout level vs]

theorem writeMembers_eq_writeMembersWith (layout : Layout) (level : ℕ) :
    ∀ ms : List (String × Json),
      writeMembers layout level ms = writeMembersWith quote layout level ms
  | [] => rfl
  | (k, v) :: ms => by
    rw [writeMembers, writeMembersWith, write_eq_writeWith layout (level + 1) v,
      writeMembers_eq_writeMembersWith layout level ms]

end

namespace Reader

variable {q : String → List Char} {layout : Layout} {level depth fuel position : ℕ}
  {rest : List Char}

/-! ### What stands at the front -/

/-- A document does not start with a blank or a closing bracket. -/
theorem exists_writeWith_cons (hq : Quoting q) (layout : Layout) (level : ℕ) (v : Json) :
    ∃ c t, writeWith q layout level v = c :: t ∧ isSpace c = false ∧ c ≠ ']' := by
  have hplain {c : Char} {s : List Char} (hc : isSpace c = false ∧ c ≠ ']') :
      ∃ c' t, c :: s = c' :: t ∧ isSpace c' = false ∧ c' ≠ ']' := ⟨c, s, rfl, hc⟩
  cases v with
  | null => exact hplain (by decide)
  | bool b => cases b <;> exact hplain (by decide)
  | string s =>
    obtain ⟨t, ht, -⟩ := hq.read s []
    rw [writeWith, ← List.append_nil (q s), ht]
    exact hplain (by decide)
  | array vs => cases vs <;> exact hplain (by decide)
  | object ms => cases ms <;> exact hplain (by decide)
  | number n =>
    obtain ⟨negative, body, htext, hspells⟩ := Number.exists_spells n
    obtain ⟨c, t, rfl, hc⟩ := hspells.exists_cons
    rw [writeWith, htext]
    cases negative with
    | true => exact hplain (by decide)
    | false => exact hplain ⟨Text.isSpace_of_isDigit hc, fun h => absurd hc (h ▸ by decide)⟩

theorem exists_write_cons (layout : Layout) (level : ℕ) (v : Json) :
    ∃ c t, write layout level v = c :: t ∧ isSpace c = false ∧ c ≠ ']' :=
  write_eq_writeWith layout level v ▸ exists_writeWith_cons quoting_quote layout level v

theorem stops_of_blank {gap : List Char} (hgap : ∀ c ∈ gap, isBlank c = true) {c : Char}
    (hc : continues c = false) : Stops (gap ++ c :: rest) := by
  cases gap with
  | nil => exact hc
  | cons b gap =>
    have hb := hgap b List.mem_cons_self
    simp only [isBlank, Bool.or_eq_true, beq_iff_eq] at hb
    rcases hb with ((rfl | rfl) | rfl) | rfl <;> rfl

section Layout

variable (hl : layout.Blank)
include hl

theorem stops_writeItemsWith (vs : List Json) :
    Stops (writeItemsWith q layout level vs ++ rest) := by
  cases vs with
  | nil =>
    rw [writeItemsWith, List.append_assoc]
    exact stops_of_blank (hl.gap level) rfl
  | cons v vs => rfl

theorem stops_writeMembersWith (ms : List (String × Json)) :
    Stops (writeMembersWith q layout level ms ++ rest) := by
  cases ms with
  | nil =>
    rw [writeMembersWith, List.append_assoc]
    exact stops_of_blank (hl.gap level) rfl
  | cons m ms => rfl

end Layout

/-! ### Reading what is not too deep -/

/-- A value is read, or it is found to be too deep, as it fits the depth or not. -/
def Gives {α : Type} (fits : Prop) (a : α) (rest : List Char) (x : Except Fault (Front α)) : Prop :=
  (fits ∧ x = .ok (a, rest)) ∨ (¬ fits ∧ ∃ f, x = .error f ∧ f.flaw = .tooDeep)

section Gives

variable {α β : Type} {fits fits' : Prop} {a : α} {b : β} {x : Except Fault (Front α)}

theorem Gives.ok (h : fits) (hx : x = .ok (a, rest)) : Gives fits a rest x := .inl ⟨h, hx⟩

theorem Gives.congr (h : Gives fits a rest x) (hiff : fits' ↔ fits) : Gives fits' a rest x := by
  rwa [Gives, hiff]

theorem Gives.inside (h : Gives fits a rest x) (step : Step) :
    Gives fits a rest (Reader.inside step x) := by
  rcases h with ⟨hfits, rfl⟩ | ⟨hfits, f, rfl, hf⟩
  · exact .inl ⟨hfits, rfl⟩
  · exact .inr ⟨hfits, f.under step, rfl, hf⟩

theorem Gives.map (h : Gives fits a rest x) (g : α → β) :
    Gives fits (g a) rest (x >>= fun r => .ok (g r.1, r.2)) := by
  rcases h with ⟨hfits, rfl⟩ | ⟨hfits, f, rfl, hf⟩
  · exact .inl ⟨hfits, rfl⟩
  · exact .inr ⟨hfits, f, rfl, hf⟩

end Gives

section Layout

variable (hq : Quoting q) (hl : layout.Blank)
  {inner : List Char → Except Fault (Front Json)}

/-- A member as it is written, with what is behind it. -/
def memberText (q : String → List Char) (layout : Layout) (level : ℕ) (k : String) (v : Json)
    (rest : List Char) : List Char :=
  q k ++ ':' :: (layout.afterColon ++ (writeWith q layout level v ++ rest))

include hq in
theorem exists_memberText_cons (layout : Layout) (level : ℕ) (k : String) (v : Json)
    (rest : List Char) : ∃ t, memberText q layout level k v rest = '"' :: t := by
  obtain ⟨t, ht, -⟩ := hq.read k (':' :: (layout.afterColon ++
    (writeWith q layout level v ++ rest)))
  exact ⟨t, ht⟩

theorem writeMembersWith_cons (q : String → List Char) (layout : Layout) (level : ℕ) (k : String)
    (v : Json) (ms : List (String × Json)) (rest : List Char) :
    writeMembersWith q layout level ((k, v) :: ms) ++ rest = ',' :: (layout.gap (level + 1) ++
      memberText q layout (level + 1) k v (writeMembersWith q layout level ms ++ rest)) := by
  simp only [writeMembersWith, memberText, List.cons_append, List.append_assoc]

theorem length_lt_writeItemsWith (q : String → List Char) (layout : Layout) (level : ℕ)
    (vs : List Json) : vs.length < (writeItemsWith q layout level vs).length := by
  induction vs with
  | nil => simp [writeItemsWith]
  | cons v vs ih =>
    simp only [writeItemsWith, List.length_cons, List.length_append]
    omega

theorem length_lt_writeMembersWith (q : String → List Char) (layout : Layout) (level : ℕ)
    (ms : List (String × Json)) : ms.length < (writeMembersWith q layout level ms).length := by
  induction ms with
  | nil => simp [writeMembersWith]
  | cons m ms ih =>
    simp only [writeMembersWith, List.length_cons, List.length_append]
    omega

/-- A reader of what was written in a layout and fits a depth. -/
structure ReadsWritten (q : String → List Char) (layout : Layout) (depth : ℕ)
    (inner : List Char → Except Fault (Front Json)) : Prop where
  skip : ∀ gap s, (∀ c ∈ gap, isBlank c = true) → inner (gap ++ s) = inner s
  gives : ∀ v level rest, Stops rest →
    Gives (v.nesting ≤ depth) v.reread rest (inner (writeWith q layout level v ++ rest))

include hq hl

/-- Behind a gap a value is ahead, and no closing bracket. -/
theorem skipBlanks_gap_writeWith (v : Json) (rest : List Char) : ∃ c t,
    skipBlanks (layout.gap level ++ (writeWith q layout level v ++ rest)) = c :: t ∧ c ≠ ']' ∧
      writeWith q layout level v ++ rest = c :: t := by
  obtain ⟨c, t, hw, hspace, hc⟩ := exists_writeWith_cons hq layout level v
  refine ⟨c, t ++ rest, ?_, hc, by rw [hw]; rfl⟩
  rw [skipBlanks_append (hl.gap level), hw]
  exact skipBlanks_cons (isBlank_eq_false hspace) _

/-- **Items are read as they were written**, if the reader reads each of them. -/
theorem items_writeWith (hinner : ReadsWritten q layout depth inner) : ∀ {vs : List Json} {v : Json}
    {fuel position : ℕ}, vs.length < fuel →
      Gives (nestingItems (v :: vs) ≤ depth) (rereadItems (v :: vs)) rest
      (items inner fuel position
        (writeWith q layout (level + 1) v ++ (writeItemsWith q layout level vs ++ rest)))
  | vs, v, fuel + 1, position, hfuel => by
    have hv := hinner.gives v (level + 1) (writeItemsWith q layout level vs ++ rest)
      (stops_writeItemsWith hl vs)
    rcases hv with ⟨hfits, hread⟩ | ⟨hfits, f, hread, hf⟩
    · cases vs with
      | nil =>
        refine .ok (by simpa using hfits) (items_last hread ?_)
        rw [writeItemsWith, List.append_assoc, skipBlanks_append (hl.gap level)]
        rfl
      | cons w vs =>
        have ih : Gives (nestingItems (w :: vs) ≤ depth) (rereadItems (w :: vs)) rest (items inner fuel
            (position + 1) (writeWith q layout (level + 1) w ++
              (writeItemsWith q layout level vs ++ rest))) :=
          items_writeWith hinner (Nat.lt_of_succ_lt_succ hfuel)
        have hcomma : skipBlanks (writeItemsWith q layout level (w :: vs) ++ rest) = ',' ::
            (layout.gap (level + 1) ++ (writeWith q layout (level + 1) w ++
              (writeItemsWith q layout level vs ++ rest))) := by
          rw [writeItemsWith, List.cons_append, List.append_assoc, List.append_assoc]
          rfl
        obtain ⟨c, t, hnext, hc, hw⟩ :=
          skipBlanks_gap_writeWith hq hl w (writeItemsWith q layout level vs ++ rest)
        rw [items_more hread hcomma hnext hc, ← hw]
        refine (ih.map (v.reread :: ·)).congr ?_
        rw [nestingItems, max_le_iff, and_iff_right hfits]
    · rw [items_of_error hread]
      exact .inr ⟨fun h => hfits (le_trans (le_max_left _ _) h), _, rfl, hf⟩

/-- A member is read as it was written, if the reader reads its value. -/
theorem member_writeWith (hinner : ReadsWritten q layout depth inner) (k : String) (v : Json)
    (hrest : Stops rest) :
    Gives (v.nesting ≤ depth) (k, v.reread) rest
      (member inner (memberText q layout level k v rest)) := by
  obtain ⟨t, ht, hread⟩ := hq.read k (':' :: (layout.afterColon ++
    (writeWith q layout level v ++ rest)))
  rw [memberText, ht]
  show Gives _ _ _ (inside .unnamed (string _) >>= _)
  rw [hread]
  show Gives _ _ _ (inside (.key k) (inner _) >>= fun r => .ok ((k, r.1), r.2))
  rw [hinner.skip _ _ hl.afterColon]
  exact ((hinner.gives v level rest hrest).inside (.key k)).map fun v => (k, v)

/-- **Members are read as they were written**, if the reader reads the value of each. -/
theorem members_writeWith (hinner : ReadsWritten q layout depth inner) :
    ∀ {ms : List (String × Json)} {k : String} {v : Json} {fuel : ℕ}, ms.length < fuel →
      Gives (nestingMembers ((k, v) :: ms) ≤ depth) (rereadMembers ((k, v) :: ms)) rest (members inner fuel
        (memberText q layout (level + 1) k v (writeMembersWith q layout level ms ++ rest)))
  | ms, k, v, fuel + 1, hfuel => by
    rcases member_writeWith hq hl hinner k v (stops_writeMembersWith hl ms) with
      ⟨hfits, hread⟩ | ⟨hfits, f, hread, hf⟩
    · cases ms with
      | nil =>
        refine .ok (by simpa using hfits) (members_last hread ?_)
        rw [writeMembersWith, List.append_assoc, skipBlanks_append (hl.gap level)]
        rfl
      | cons m ms =>
        obtain ⟨k', w⟩ := m
        have ih : Gives (nestingMembers ((k', w) :: ms) ≤ depth) (rereadMembers ((k', w) :: ms)) rest
            (members inner fuel
              (memberText q layout (level + 1) k' w
                (writeMembersWith q layout level ms ++ rest))) :=
          members_writeWith hinner (Nat.lt_of_succ_lt_succ hfuel)
        have hcomma : skipBlanks (writeMembersWith q layout level ((k', w) :: ms) ++ rest) = ',' ::
            (layout.gap (level + 1) ++ memberText q layout (level + 1) k' w
              (writeMembersWith q layout level ms ++ rest)) := by
          rw [writeMembersWith_cons]
          rfl
        obtain ⟨t, ht⟩ := exists_memberText_cons hq layout (level + 1) k' w
          (writeMembersWith q layout level ms ++ rest)
        rw [ht] at hcomma ih
        have hnext : skipBlanks (layout.gap (level + 1) ++ '"' :: t) = '"' :: t := by
          rw [skipBlanks_append (hl.gap _)]
          rfl
        rw [members_more hread hcomma hnext (by decide)]
        refine (ih.map ((k, v.reread) :: ·)).congr ?_
        rw [nestingMembers, max_le_iff, and_iff_right hfits]
    · rw [members_of_error hread]
      exact .inr ⟨fun h => hfits (le_trans (le_max_left _ _) h), _, rfl, hf⟩

/-! ### Values -/

/-- An array is read as it was written, if the reader reads its items. -/
theorem array_writeWith (hinner : ReadsWritten q layout depth inner) (vs : List Json) :
    Gives (nesting (.array vs) ≤ depth + 1) (reread (.array vs)) rest
      (valueWith (some inner) (writeWith q layout level (.array vs) ++ rest)) := by
  cases vs with
  | nil => exact .ok (Nat.succ_le_succ (Nat.zero_le depth)) rfl
  | cons v vs =>
    have htext : writeWith q layout level (.array (v :: vs)) ++ rest = '[' ::
        (layout.gap (level + 1) ++ (writeWith q layout (level + 1) v ++
          (writeItemsWith q layout level vs ++ rest))) := by
      simp only [writeWith, List.cons_append, List.append_assoc]
    obtain ⟨c, t, hnext, hc, hw⟩ :=
      skipBlanks_gap_writeWith hq hl v (writeItemsWith q layout level vs ++ rest)
    have hlength : vs.length < (writeWith q layout (level + 1) v ++
        (writeItemsWith q layout level vs ++ rest)).length := by
      have hlt := length_lt_writeItemsWith q layout level vs
      rw [List.length_append, List.length_append]
      omega
    rw [htext, valueWith_of_bracket rfl, array_of_item hnext hc, ← hw]
    refine ((items_writeWith hq hl hinner hlength).map Json.array).congr ?_
    rw [nesting, Nat.succ_le_succ_iff]

/-- An object is read as it was written, if the reader reads its values. -/
theorem object_writeWith (hinner : ReadsWritten q layout depth inner) (ms : List (String × Json)) :
    Gives (nesting (.object ms) ≤ depth + 1) (reread (.object ms)) rest
      (valueWith (some inner) (writeWith q layout level (.object ms) ++ rest)) := by
  cases ms with
  | nil => exact .ok (Nat.succ_le_succ (Nat.zero_le depth)) rfl
  | cons m ms =>
    obtain ⟨k, v⟩ := m
    have htext : writeWith q layout level (.object ((k, v) :: ms)) ++ rest =
        '\x7b' :: (layout.gap (level + 1) ++
          memberText q layout (level + 1) k v (writeMembersWith q layout level ms ++ rest)) := by
      simp only [writeWith, memberText, List.cons_append, List.append_assoc]
    obtain ⟨t, ht⟩ := exists_memberText_cons hq layout (level + 1) k v
      (writeMembersWith q layout level ms ++ rest)
    have hnext : skipBlanks (layout.gap (level + 1) ++ '"' :: t) = '"' :: t := by
      rw [skipBlanks_append (hl.gap _)]
      rfl
    have hlength : ms.length < (memberText q layout (level + 1) k v
        (writeMembersWith q layout level ms ++ rest)).length := by
      have hlt := length_lt_writeMembersWith q layout level ms
      simp only [memberText, List.length_append, List.length_cons]
      omega
    rw [htext, valueWith_of_brace rfl, ht, object_of_member hnext (by decide), ← ht]
    refine ((members_writeWith hq hl hinner hlength).map Json.object).congr ?_
    rw [nesting, Nat.succ_le_succ_iff]

end Layout

/-- Nothing is opened in a scalar. -/
theorem scalar_writeWith {inner : Option (List Char → Except Fault (Front Json))} {v : Json}
    (hq : Quoting q) (hv : v.nesting = 0) (h : Stops rest) :
    valueWith inner (writeWith q layout level v ++ rest) = .ok (v.reread, rest) := by
  cases v with
  | null => rfl
  | bool b => cases b <;> rfl
  | string s => exact hq.valueWith s rest
  | number n =>
    obtain ⟨negative, body, htext, hspells⟩ := Number.exists_spells n
    rw [writeWith, htext]
    exact valueWith_of_spells hspells h
  | array vs => cases hv
  | object ms => cases hv

theorem exists_opening {v : Json} (hv : v.nesting ≠ 0) (q : String → List Char)
    (layout : Layout) (level : ℕ) (rest : List Char) : ∃ c t, (c = '[' ∨ c = '\x7b') ∧
      skipBlanks (writeWith q layout level v ++ rest) = c :: t := by
  cases v with
  | array vs => cases vs <;> exact ⟨'[', _, .inl rfl, rfl⟩
  | object ms => cases ms <;> exact ⟨'\x7b', _, .inr rfl, rfl⟩
  | _ => exact absurd rfl hv

/-- **A value is read as it was written**, if it fits the depth, and is too deep otherwise. The
induction is on the depth: each level reads the values inside with the reader below. -/
theorem value_writeWith (hq : Quoting q) (hl : layout.Blank) :
    ∀ depth, ReadsWritten q layout depth (value depth) := by
  intro depth
  induction depth with
  | zero =>
    refine ⟨fun gap s h => valueWith_skipBlanks (skipBlanks_append h s), fun v level rest h => ?_⟩
    by_cases hv : v.nesting = 0
    · exact .ok hv.le (scalar_writeWith hq hv h)
    · obtain ⟨c, t, hc, hopening⟩ := exists_opening hv q layout level rest
      have hread : value 0 (writeWith q layout level v ++ rest) = _ :=
        valueWith_none_of_opening hc hopening
      rw [hread]
      exact .inr ⟨fun hle => hv (Nat.le_zero.mp hle), _, rfl, rfl⟩
  | succ depth ih =>
    refine ⟨fun gap s h => valueWith_skipBlanks (skipBlanks_append h s), fun v level rest h => ?_⟩
    cases v with
    | array vs => exact array_writeWith hq hl ih vs
    | object ms => exact object_writeWith hq hl ih ms
    | _ => exact .ok (Nat.zero_le _) (scalar_writeWith hq rfl h)

end Reader

open Reader

/-- **What was written is read again**, its numbers as their texts are read, if no key stands
twice and arrays and objects nest as deep as a text may, and is refused as too deep otherwise. -/
theorem parse?_writeWith {q : String → List Char} {layout : Layout} (hq : Quoting q)
    (hl : layout.Blank) {v : Json} (hv : v.Distinct) :
    (v.nesting ≤ nestingLimit → parse? (String.ofList (writeWith q layout 0 v)) = .ok v.reread) ∧
      (nestingLimit < v.nesting → ∃ position,
        parse? (String.ofList (writeWith q layout 0 v)) = .error ⟨.tooDeep, position⟩) := by
  have hgives := (value_writeWith hq hl nestingLimit).gives v 0 [] rfl
  rw [List.append_nil] at hgives
  rw [parse?, String.toList_ofList]
  constructor
  · intro hle
    obtain ⟨-, hread⟩ := hgives.resolve_right fun h => h.1 hle
    have htree : readTree (writeWith q layout 0 v) = .ok v.reread := by
      rw [readTree, hread]
      rfl
    rw [htree]
    dsimp only
    rw [merged_eq_self hv.reread]
  · intro hlt
    obtain ⟨-, f, hread, hflaw⟩ := hgives.resolve_left fun h => not_lt.mpr h.1 hlt
    have htree : readTree (writeWith q layout 0 v) = .error f := by
      rw [readTree, hread]
      rfl
    refine ⟨f.position (writeWith q layout 0 v), ?_⟩
    rw [htree, ← hflaw]

/-- So it is with the quotes that documents are written with. -/
theorem parse?_write {layout : Layout} (hl : layout.Blank) {v : Json} (hv : v.Distinct) :
    (v.nesting ≤ nestingLimit → parse? (String.ofList (write layout 0 v)) = .ok v.reread) ∧
      (nestingLimit < v.nesting → ∃ position,
        parse? (String.ofList (write layout 0 v)) = .error ⟨.tooDeep, position⟩) :=
  write_eq_writeWith layout 0 v ▸ parse?_writeWith quoting_quote hl hv

end Json
end Wireform
