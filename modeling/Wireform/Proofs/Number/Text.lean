/-
# Numbers as they are written and read

The text of a number is taken off the front of a text as one number, wherever a number ends
there (`Number.exists_spells`). That is the number itself for an integer
(`Number.reread_whole`) and for the two zeros. Any other double, in positional or in scientific
form, is read as what is collected of the decimal that was written. That is a double again
(`Number.exists_reread_double`), but the one that was written only if rounding digits and power
of ten by themselves leads back to it.

Key definitions: `Json.Reader.Stops`, `Json.Reader.Leading`, `Json.Reader.Spells`,
`Number.reread`.
Key theorems: `Json.Reader.number_positional`, `Json.Reader.number_scientific`,
`Number.exists_spells`, `Json.Reader.valueWith_of_spells`.
-/
import Wireform.Json.Reader
import Wireform.Proofs.Json.Reading
import Wireform.Proofs.Number.Reading

namespace Wireform
namespace Json
namespace Reader

open Text (isDigit digitValue ofDigits splitSign)

/-! ### Where a number ends -/

/-- Whether a character may continue a number. -/
def continues (c : Char) : Bool := isDigit c || c == '.' || c == 'e' || c == 'E'

/-- No number goes on at the front of a text. -/
def Stops (s : List Char) : Prop := s.head?.any continues = false

variable {rest : List Char}

theorem Stops.head? {c : Char} (h : Stops rest) (hc : rest.head? = some c) :
    isDigit c = false ∧ c ≠ '.' ∧ c ≠ 'e' ∧ c ≠ 'E' := by
  rw [Stops, hc, Option.any_some] at h
  simpa [continues, and_assoc] using h

theorem Stops.isDigit (h : Stops rest) : rest.head?.any isDigit = false := by
  cases hc : rest.head? with
  | none => rfl
  | some c => exact (h.head? hc).1

/-! ### Fraction and exponent -/

theorem fraction_none (h : rest.head? ≠ some '.') : fraction rest = .ok (none, rest) := by
  unfold fraction
  split
  · exact absurd rfl h
  · rfl

theorem fraction_some {places : List Char} (hne : places ≠ []) (hd : ∀ c ∈ places, isDigit c = true)
    (hrest : rest.head?.any isDigit = false) :
    fraction ('.' :: (places ++ rest)) = .ok (some places, rest) := by
  rw [fraction, Text.takeWhile_isDigit hd hrest, Text.dropWhile_isDigit hd hrest,
    if_neg (by simpa using hne)]

theorem exponent_absent (h : Stops rest) : exponent rest = .ok (.absent, rest) := by
  cases rest with
  | nil => rfl
  | cons c rest =>
    obtain ⟨-, -, he, hE⟩ := h.head? rfl
    rw [exponent, if_neg (by simp [he, hE])]

theorem le_foldl_digits : ∀ (ds : List Char) (n : ℕ),
    n ≤ ds.foldl (fun n c => 10 * n + digitValue c) n
  | [], n => le_refl n
  | c :: ds, n => le_trans (by omega) (le_foldl_digits ds (10 * n + digitValue c))

/-- Digits that do not pass the limit at their end do not pass it on the way. -/
theorem pastLimit_eq_none (hrest : rest.head?.any isDigit = false) : ∀ {ds : List Char} {n : ℕ},
    (∀ c ∈ ds, isDigit c = true) →
      ds.foldl (fun n c => 10 * n + digitValue c) n ≤ exponentLimit →
        pastLimit n (ds ++ rest) = none
  | [], n, _, _ => by
    cases rest with
    | nil => rfl
    | cons c rest =>
      have hc : isDigit c = false := hrest
      rw [List.nil_append, pastLimit, if_neg (by rw [hc]; decide)]
  | c :: ds, n, hd, hle => by
    have hn : 10 * n + digitValue c ≤ exponentLimit := le_trans (le_foldl_digits ds _) hle
    rw [List.cons_append, pastLimit, if_pos (hd c List.mem_cons_self), if_neg (not_lt.mpr hn)]
    exact pastLimit_eq_none hrest (fun d h => hd d (List.mem_cons_of_mem c h)) hle

theorem exponent_digits {s ds : List Char} {negative : Bool}
    (hs : splitSign s = (negative, ds ++ rest)) (hne : ds ≠ []) (hd : ∀ c ∈ ds, isDigit c = true)
    (hle : ofDigits ds ≤ exponentLimit) (hrest : rest.head?.any isDigit = false) :
    exponent ('e' :: s) =
      .ok (.counted (if negative then -(ofDigits ds : ℤ) else ofDigits ds), rest) := by
  have hpast : pastLimit 0 (ds ++ rest) = none := pastLimit_eq_none hrest hd hle
  rw [exponent, if_pos (.inl rfl), hs]
  dsimp only
  rw [Text.takeWhile_isDigit hd hrest, Text.dropWhile_isDigit hd hrest, hpast,
    if_neg (by simpa using hne)]

/-! ### Whole, fraction and exponent together -/

/-- Digits that may stand before the point: one at least, and no zero before another. -/
structure Leading (whole : List Char) : Prop where
  digits : ∀ c ∈ whole, isDigit c = true
  ne_nil : whole ≠ []
  zero : whole.head? = some '0' → whole = ['0']

theorem isDigit_of_mem_zero : ∀ c ∈ ['0'], isDigit c = true := List.forall_mem_singleton.mpr rfl

theorem leading_zero : Leading ['0'] :=
  ⟨isDigit_of_mem_zero, List.cons_ne_nil _ _, fun _ => rfl⟩

theorem Leading.of_head? {whole : List Char} (hd : ∀ c ∈ whole, isDigit c = true)
    (hne : whole ≠ []) (hzero : whole.head? ≠ some '0') : Leading whole :=
  ⟨hd, hne, fun h => absurd h hzero⟩

theorem leading_toDigits (n : ℕ) : Leading (Nat.toDigits 10 n) := by
  rcases Nat.eq_zero_or_pos n with rfl | hn
  · exact leading_zero
  · exact .of_head? (fun _ => Text.isDigit_of_mem_toDigits) Nat.toDigits_ne_nil
      (Text.head?_toDigits_ne hn)

section Parts

variable {negative : Bool} {whole s s' ahead : List Char} {places : Option (List Char)}

/-- What the reader of a number checks and takes off the front, where digits are in front. -/
theorem Leading.exists_cons (h : Leading whole) (hs : s.head?.any isDigit = false) :
    ∃ c t, whole ++ s = c :: t ∧ isDigit c = true ∧ (c == '0' && t.head?.any isDigit) = false ∧
      (c :: t).takeWhile isDigit = whole ∧ (c :: t).dropWhile isDigit = s := by
  have htake := Text.takeWhile_isDigit h.digits hs
  have hdrop := Text.dropWhile_isDigit h.digits hs
  cases whole with
  | nil => exact absurd rfl h.ne_nil
  | cons c t =>
    refine ⟨c, t ++ s, rfl, h.digits c List.mem_cons_self, ?_, htake, hdrop⟩
    by_cases hc : c = '0'
    · subst hc
      have ht : t = [] := List.cons.inj (h.zero rfl) |>.2
      rw [ht, List.nil_append, hs, Bool.and_false]
    · rw [beq_eq_false_iff_ne.mpr hc, Bool.false_and]

/-- Digits that are followed by neither point nor exponent are an integer. -/
theorem number_integer (h : Leading whole) (hs : s.head?.any isDigit = false)
    (hfraction : fraction s = .ok (none, s')) (hpower : exponent s' = .ok (.absent, ahead)) :
    number negative (whole ++ s) = integer negative whole ahead := by
  obtain ⟨c, t, hcons, hc, hzero, htake, hdrop⟩ := h.exists_cons hs
  rw [hcons]
  simp only [number, hc, hzero, htake, hdrop, hfraction, hpower, bind, Except.bind]
  rfl

/-- Digits on both sides of a point are a decimal. -/
theorem number_point {ps : List Char} (h : Leading whole) (hs : s.head?.any isDigit = false)
    (hfraction : fraction s = .ok (some ps, s')) (hpower : exponent s' = .ok (.absent, ahead)) :
    number negative (whole ++ s) = double negative (.collected whole ps) ahead := by
  obtain ⟨c, t, hcons, hc, hzero, htake, hdrop⟩ := h.exists_cons hs
  rw [hcons]
  simp only [number, hc, hzero, htake, hdrop, hfraction, hpower, bind, Except.bind]
  rfl

/-- Digits with an exponent are a decimal, with or without a point. -/
theorem number_power {e : ℤ} (h : Leading whole) (hs : s.head?.any isDigit = false)
    (hfraction : fraction s = .ok (places, s')) (hpower : exponent s' = .ok (.counted e, ahead)) :
    number negative (whole ++ s) = double negative { Decimal.collected whole (places.getD []) with
      exponent := (Decimal.collected whole (places.getD [])).exponent + e } ahead := by
  obtain ⟨c, t, hcons, hc, hzero, htake, hdrop⟩ := h.exists_cons hs
  rw [hcons]
  simp only [number, hc, hzero, htake, hdrop, hfraction, hpower, bind, Except.bind]
  cases places <;> rfl

end Parts

/-! ### Integers -/

theorem whole_ofInt? (n : Whole) : Whole.ofInt? n.val = some n := by
  rw [Whole.ofInt?, dif_pos ⟨n.val_ge, n.val_lt⟩]

theorem integer_val {n : Whole} (negative : Bool) (hnegative : negative = decide (n.val < 0)) :
    integer negative (Nat.toDigits 10 n.val.natAbs) rest = .ok (.whole n, rest) := by
  have hval : (if negative then -(n.val.natAbs : ℤ) else n.val.natAbs) = n.val := by
    by_cases h : n.val < 0
    · rw [hnegative, if_pos (decide_eq_true h)]
      omega
    · rw [hnegative, if_neg (by rw [decide_eq_false h]; decide)]
      omega
  have hzero : ¬ (negative = true ∧ n.val.natAbs = 0) := by
    rintro ⟨hn, h0⟩
    have h := of_decide_eq_true (hnegative ▸ hn)
    omega
  rw [integer, Text.ofDigits_toDigits, if_neg hzero, hval, whole_ofInt?]

theorem number_toDigits {negative : Bool} (n : ℕ) (h : Stops rest) :
    number negative (Nat.toDigits 10 n ++ rest) = integer negative (Nat.toDigits 10 n) rest := by
  have hpoint : rest.head? ≠ some '.' := fun hc => (h.head? hc).2.1 rfl
  exact number_integer (leading_toDigits n) h.isDigit (fraction_none hpoint) (exponent_absent h)

/-! ### Decimals -/

section Decimals

variable {negative : Bool} {c : Decimal}

/-- The value of a decimal with the point moved to the left. -/
theorem amount_shift (c : Decimal) (k : ℕ) :
    Decimal.amount ⟨10 ^ k * c.digits, c.exponent - k⟩ = c.amount := by
  rw [Decimal.amount, Decimal.amount]
  dsimp only
  push_cast
  rw [zpow_sub₀ (by norm_num), zpow_natCast, mul_comm ((10 : ℚ) ^ k), mul_assoc,
    mul_div_cancel₀ _ (by positivity)]

theorem isDigit_of_mem_zeros (k : ℕ) : ∀ d ∈ List.replicate k '0', isDigit d = true := by
  intro d hmem
  rw [List.eq_of_mem_replicate hmem]
  rfl

theorem isDigit_of_mem_digitText (c : Decimal) : ∀ d ∈ c.digitText, isDigit d = true :=
  fun _ => Text.isDigit_of_mem_toDigits

/-- Digits that can be counted by 64 bits. -/
theorem ofDigits_lt_of_length {ds : List Char} (hd : ∀ c ∈ ds, isDigit c = true)
    (hlength : ds.length ≤ 19) : ofDigits ds < 2 ^ 64 :=
  calc ofDigits ds < 10 ^ ds.length := Text.ofDigits_lt hd
    _ ≤ 10 ^ 19 := Nat.pow_le_pow_right (by decide) hlength
    _ ≤ 2 ^ 64 := by decide

/-- Behind its sign a text is read as what is collected of a decimal. -/
def Collected (negative : Bool) (body : List Char) (c : Decimal) : Prop :=
  ∃ p, c.Collects p ∧ ∀ rest, Stops rest → number negative (body ++ rest) = double negative p rest

/-- Digits on both sides of a point are collected, with as many places as digits below. -/
theorem collected_places {whole ps : List Char} (hw : Leading whole) (hps : ps ≠ [])
    (hd : ∀ d ∈ ps, isDigit d = true) (hlength : whole.length ≤ 19) :
    Collected negative (whole ++ '.' :: ps) ⟨ofDigits (whole ++ ps), -ps.length⟩ := by
  have hcollects := Decimal.collects_collected ps 0 (ofDigits_lt_of_length hw.digits hlength)
  rw [zero_sub, add_zero] at hcollects
  refine ⟨_, hcollects, fun rest h => ?_⟩
  rw [List.append_assoc]
  exact number_point hw rfl (fraction_some hps hd h.isDigit) (exponent_absent h)

/-- All digits stand above the point, behind them zeros, and one zero below. -/
theorem collected_zeros_behind (hc : c.digits ≠ 0) {k : ℕ} (hk : c.exponent = k)
    (hlength : c.digitText.length + k ≤ 19) :
    Collected negative (c.digitText ++ List.replicate k '0' ++ '.' :: ['0'])
      ⟨10 ^ (k + 1) * c.digits, c.exponent - (k + 1 : ℕ)⟩ := by
  have hne : c.digitText ≠ [] := Nat.toDigits_ne_nil
  have hwhole : Leading (c.digitText ++ List.replicate k '0') := by
    refine .of_head? (List.forall_mem_append.mpr
      ⟨isDigit_of_mem_digitText c, isDigit_of_mem_zeros k⟩) (by simp [hne]) ?_
    rw [List.head?_append_of_ne_nil _ hne]
    exact Text.head?_toDigits_ne (Nat.pos_of_ne_zero hc)
  have hdigits : ofDigits (c.digitText ++ List.replicate k '0' ++ ['0']) =
      10 ^ (k + 1) * c.digits := by
    rw [List.append_assoc, ← List.replicate_succ', Text.ofDigits_append_zeros,
      Decimal.digitText, Text.ofDigits_toDigits]
  have hplaces : -((['0'].length : ℕ) : ℤ) = c.exponent - (k + 1 : ℕ) := by
    rw [hk, List.length_singleton]
    omega
  rw [← hdigits, ← hplaces]
  exact collected_places hwhole (List.cons_ne_nil _ _) isDigit_of_mem_zero (by simpa using hlength)

/-- The point stands among the digits. -/
theorem collected_point_among (hc : c.digits ≠ 0) {k : ℕ} (hk : -c.exponent = k) (hpos : 0 < k)
    (hlt : k < c.digitText.length) (hlength : c.digitText.length - k ≤ 19) :
    Collected negative (c.digitText.take (c.digitText.length - k) ++
        '.' :: c.digitText.drop (c.digitText.length - k)) c := by
  have hd := isDigit_of_mem_digitText c
  have hwhole : Leading (c.digitText.take (c.digitText.length - k)) := by
    refine .of_head? (fun d hmem => hd d (List.mem_of_mem_take hmem)) ?_ ?_
    · rw [Ne, List.take_eq_nil_iff]
      exact not_or.mpr ⟨by omega, Nat.toDigits_ne_nil⟩
    · rw [List.head?_take, if_neg (by omega)]
      exact Text.head?_toDigits_ne (Nat.pos_of_ne_zero hc)
  have hcount : (c.digitText.drop (c.digitText.length - k)).length = k := by
    rw [List.length_drop]
    omega
  have hplaces : c.digitText.drop (c.digitText.length - k) ≠ [] := by
    rw [← List.length_pos_iff, hcount]
    exact hpos
  have hcollected : Collected negative _ _ := collected_places hwhole hplaces
    (fun d hmem => hd d (List.mem_of_mem_drop hmem)) (by rw [List.length_take]; omega)
  rwa [List.take_append_drop, hcount, ← hk, neg_neg, Decimal.digitText,
    Text.ofDigits_toDigits] at hcollected

/-- One zero stands above the point, and zeros between the point and the digits. -/
theorem collected_zeros_between {k : ℕ} (hk : -c.exponent = k) (hle : c.digitText.length ≤ k) :
    Collected negative (['0'] ++ '.' :: (List.replicate (k - c.digitText.length) '0' ++
        c.digitText)) c := by
  have hne : c.digitText ≠ [] := Nat.toDigits_ne_nil
  have hdigits : ofDigits (['0'] ++ (List.replicate (k - c.digitText.length) '0' ++
      c.digitText)) = c.digits := by
    rw [← List.append_assoc, List.singleton_append, ← List.replicate_succ,
      Text.ofDigits_zeros_append, Decimal.digitText, Text.ofDigits_toDigits]
  have hcount : (List.replicate (k - c.digitText.length) '0' ++ c.digitText).length = k := by
    rw [List.length_append, List.length_replicate]
    omega
  have hplaces : ∀ d ∈ List.replicate (k - c.digitText.length) '0' ++ c.digitText,
      isDigit d = true :=
    List.forall_mem_append.mpr ⟨isDigit_of_mem_zeros _, isDigit_of_mem_digitText c⟩
  have hcollected : Collected negative _ _ :=
    collected_places leading_zero (by simp [hne]) hplaces (by decide)
  rwa [hdigits, hcount, ← hk, neg_neg] at hcollected

/-- **A decimal in positional form is read as what is collected of it**, be it with zeros
behind. -/
theorem number_positional (hc : c.digits ≠ 0) (hleading : c.leading ≤ 18) :
    ∃ e : Decimal, e.amount = c.amount ∧ Collected negative c.positional e := by
  have hlength : (c.digitText.length : ℤ) + c.exponent ≤ 19 := by
    unfold Decimal.leading at hleading
    omega
  unfold Decimal.positional
  dsimp only
  split
  · rename_i he
    obtain ⟨k, hk⟩ := Int.eq_ofNat_of_zero_le he
    rw [show c.exponent.toNat = k by omega]
    exact ⟨_, amount_shift c (k + 1), collected_zeros_behind hc hk (by omega)⟩
  · rename_i he
    obtain ⟨k, hk⟩ := Int.eq_ofNat_of_zero_le (show 0 ≤ -c.exponent by omega)
    rw [hk, Int.toNat_natCast]
    split
    · rename_i hlt
      exact ⟨c, rfl, collected_point_among hc hk (by omega) hlt (by omega)⟩
    · rename_i hge
      exact ⟨c, rfl, collected_zeros_between hk (by omega)⟩

/-- The sign before an exponent is written and read. -/
theorem splitSign_mark {plus ds : List Char} (hplus : plus = [] ∨ plus = ['+'])
    (hd : ds.head?.any isDigit = true) : splitSign (plus ++ ds) = (false, ds) := by
  rcases hplus with rfl | rfl
  · cases ds with
    | nil => cases hd
    | cons c ds =>
      have hc : isDigit c = true := hd
      unfold splitSign
      split
      · rename_i heq
        rw [(List.cons.inj heq).1] at hc
        exact absurd hc (by decide)
      · rename_i heq
        rw [(List.cons.inj heq).1] at hc
        exact absurd hc (by decide)
      · rfl
  · rfl

/-- The exponent of the scientific form is read, whatever its sign. -/
theorem exponent_written {plus : List Char} (hplus : plus = [] ∨ plus = ['+']) {e : ℤ}
    (he : e.natAbs ≤ exponentLimit) (h : Stops rest) :
    exponent ((if e < 0 then ['e', '-'] else 'e' :: plus) ++ Nat.toDigits 10 e.natAbs ++ rest) =
      .ok (.counted e, rest) := by
  have hvalue := Text.ofDigits_toDigits e.natAbs
  have hread {s : List Char} {b : Bool}
      (hs : splitSign s = (b, Nat.toDigits 10 e.natAbs ++ rest)) :=
    exponent_digits hs Nat.toDigits_ne_nil (fun _ => Text.isDigit_of_mem_toDigits)
      (hvalue.le.trans he) h.isDigit
  rw [hvalue] at hread
  split
  · rename_i hneg
    refine (hread (b := true) rfl).trans ?_
    rw [if_pos rfl, show -(e.natAbs : ℤ) = e by omega]
  · rename_i hneg
    have hfirst : (Nat.toDigits 10 e.natAbs ++ rest).head?.any isDigit = true := by
      obtain ⟨d, ds, hcons⟩ := List.exists_cons_of_ne_nil
        (Nat.toDigits_ne_nil (b := 10) (n := e.natAbs))
      have hmem : d ∈ Nat.toDigits 10 e.natAbs := hcons ▸ List.mem_cons_self
      rw [hcons]
      exact Text.isDigit_of_mem_toDigits hmem
    rw [List.cons_append, List.cons_append, List.append_assoc]
    refine (hread (b := false) (splitSign_mark hplus hfirst)).trans ?_
    rw [if_neg (by decide), show (e.natAbs : ℤ) = e by omega]

/-- **A decimal in scientific form is read as what is collected of it.** -/
theorem number_scientific {plus : List Char} (hplus : plus = [] ∨ plus = ['+'])
    (hc : c.digits ≠ 0) (hleading : c.leading.natAbs ≤ exponentLimit) :
    Collected negative (c.scientific plus) c := by
  have hd := isDigit_of_mem_digitText c
  have hhead : c.digitText.head? ≠ some '0' := Text.head?_toDigits_ne (Nat.pos_of_ne_zero hc)
  have hvalue : ofDigits c.digitText = c.digits := Text.ofDigits_toDigits c.digits
  have hne : c.digitText ≠ [] := Nat.toDigits_ne_nil
  have hshift : c.leading - ((c.digitText.length : ℤ) - 1) = c.exponent := by
    unfold Decimal.leading
    omega
  have hmark : ∀ rest, ∃ mark, (if c.leading < 0 then ['e', '-'] else 'e' :: plus) ++
      Nat.toDigits 10 c.leading.natAbs ++ rest = 'e' :: mark := by
    intro rest
    split <;> exact ⟨_, rfl⟩
  unfold Decimal.scientific
  dsimp only
  -- a point stands behind the first digit only where there is a second one
  generalize c.digitText = text at hd hhead hvalue hne hshift
  obtain _ | ⟨d, ds⟩ := text
  · exact absurd rfl hne
  have hwhole : Leading [d] :=
    .of_head? (by simpa using hd d List.mem_cons_self) (List.cons_ne_nil _ _) (by simpa using hhead)
  have hcollects := Decimal.collects_collected ds c.leading
    (ofDigits_lt_of_length hwhole.digits (by simp))
  have hexact : c.leading - (ds.length : ℤ) = c.exponent := by
    rw [← hshift, List.length_cons]
    push_cast
    ring
  rw [List.singleton_append, hvalue, hexact] at hcollects
  refine ⟨_, hcollects, fun rest h => ?_⟩
  have hpower := exponent_written hplus hleading h
  obtain ⟨mark, hmark⟩ := hmark rest
  rw [List.append_assoc, List.append_assoc, ← List.append_assoc _ _ rest, hmark]
  rw [hmark] at hpower
  cases ds with
  | nil =>
    refine (number_power hwhole rfl (fraction_none (by simp)) hpower).trans ?_
    rw [Option.getD_none]
  | cons d' ds =>
    have hplaces : fraction ('.' :: (d' :: ds ++ 'e' :: mark)) =
        .ok (some (d' :: ds), 'e' :: mark) :=
      fraction_some (List.cons_ne_nil d' ds) (fun x hx => hd x (List.mem_cons_of_mem d hx)) rfl
    refine (number_power hwhole rfl hplaces hpower).trans ?_
    rw [Option.getD_some]

end Decimals

/-! ### Numbers -/

/-- Behind its sign a number is taken off the front as it was written. -/
def Spells (negative : Bool) (body : List Char) (n : Number) : Prop :=
  ∀ rest, Stops rest → number negative (body ++ rest) = .ok (n, rest)

theorem Spells.exists_cons {negative : Bool} {body : List Char} {n : Number}
    (h : Spells negative body n) : ∃ c t, body = c :: t ∧ isDigit c = true := by
  have hread := h [] rfl
  rw [List.append_nil] at hread
  cases body with
  | nil => cases hread
  | cons c t =>
    refine ⟨c, t, rfl, ?_⟩
    by_contra hc
    rw [number, if_pos (by simpa using hc)] at hread
    cases hread

theorem spells_whole (n : Whole) :
    Spells (decide (n.val < 0)) (Nat.toDigits 10 n.val.natAbs) (.whole n) := by
  intro rest h
  rw [number_toDigits _ h, integer_val _ rfl]

/-- What is collected of a decimal and read as a double is read behind the sign. -/
theorem spells_double {negative : Bool} {body : List Char} {p : Decimal} {d : Double}
    (hread : ∀ rest, Stops rest → number negative (body ++ rest) = double negative p rest)
    (hd : Double.ofSpelled? negative p = some d) : Spells negative body (.double d) := by
  intro rest h
  rw [hread rest h, double, hd]

/-- Digits on both sides of a point are read as the double that is made of them. -/
theorem spells_point {negative : Bool} {whole places : List Char} {d : Double}
    (hwhole : Leading whole) (hne : places ≠ []) (hplaces : ∀ c ∈ places, isDigit c = true)
    (hd : Double.ofSpelled? negative (.collected whole places) = some d) :
    Spells negative (whole ++ '.' :: places) (.double d) := by
  refine spells_double (fun rest h => ?_) hd
  have hfraction : fraction ('.' :: (places ++ rest)) = .ok (some places, rest) :=
    fraction_some hne hplaces h.isDigit
  rw [List.append_assoc, List.cons_append]
  exact number_point hwhole rfl hfraction (exponent_absent h)

theorem spells_zero (negative : Bool) :
    Spells negative ['0', '.', '0'] (.double (.zero negative)) :=
  spells_point leading_zero (List.cons_ne_nil _ _) isDigit_of_mem_zero
    (by cases negative <;> decide)

/-- A decimal whose first digit is not far above the point is read as a double. -/
theorem exists_ofSpelled?_of_leading (negative : Bool) {c e p : Decimal} (hc : c.digits ≠ 0)
    (hleading : c.leading ≤ 18) (he : e.amount = c.amount) (hp : e.Collects p) :
    ∃ d, Double.ofSpelled? negative p = some d := by
  refine Double.exists_ofSpelled? negative hp.digits_lt ?_
  have hmagnitude := (Decimal.magnitude_amount hc).lt
  have hpow : (10 : ℚ) ^ ((Double.digitCount c.digits : ℤ) + c.exponent) ≤ 10 ^ (19 : ℤ) := by
    refine zpow_le_zpow_right₀ (by norm_num) ?_
    have heq : c.leading = (Double.digitCount c.digits : ℤ) + c.exponent - 1 := rfl
    omega
  have hamount : p.amount ≤ 10 ^ 19 :=
    calc p.amount ≤ e.amount := hp.amount_le
      _ = c.amount := he
      _ ≤ 10 ^ (19 : ℤ) := hmagnitude.le.trans hpow
      _ = 10 ^ 19 := zpow_natCast 10 19
  calc p.amount * (1 + 1 / 2 ^ 53) ^ 2
      ≤ 10 ^ 19 * (1 + 1 / 2 ^ 53) ^ 2 := mul_le_mul_of_nonneg_right hamount (by positivity)
    _ < 2 ^ 65 := by norm_num
    _ < Double.limit := Double.two_pow_lt_limit (by decide)

/-- **A double is read as a double**, in every style that writes no or a plus sign and no long
rows of zeros. -/
theorem exists_spells_double {style : DecimalStyle} (hplus : style.plus = [] ∨ style.plus = ['+'])
    (hgreatest : style.greatest ≤ 18) (d : Double) :
    ∃ body d', d.write style = d.signText ++ body ∧ Spells d.negative body (.double d') := by
  unfold Double.write
  dsimp only
  cases hd : d.isZero with
  | true => exact ⟨['0', '.', '0'], _, if_pos rfl, spells_zero d.negative⟩
  | false =>
    obtain ⟨hdigits, hge, hle⟩ := Double.readsBack_bounds hd (Double.readsBack_shortest hd)
    rw [if_neg (by decide)]
    split
    · rename_i hpositional
      have hleading : d.shortest.leading ≤ 18 := hpositional.2.trans hgreatest
      obtain ⟨e, he, p, hp, hread⟩ : ∃ e : Decimal, e.amount = d.shortest.amount ∧
        Collected d.negative d.shortest.positional e := number_positional hdigits hleading
      obtain ⟨d', hd'⟩ := exists_ofSpelled?_of_leading d.negative hdigits hleading he hp
      exact ⟨_, d', rfl, spells_double hread hd'⟩
    · have hleading : d.shortest.leading.natAbs ≤ exponentLimit := by
        have heq : d.shortest.leading =
            (Double.digitCount d.shortest.digits : ℤ) + d.shortest.exponent - 1 := rfl
        unfold exponentLimit
        omega
      obtain ⟨p, hp, hread⟩ : Collected d.negative (d.shortest.scientific style.plus) d.shortest :=
        number_scientific hplus hdigits hleading
      obtain ⟨d', hd'⟩ := Double.exists_ofSpelled?_shortest hd hp
      exact ⟨_, d', rfl, spells_double hread hd'⟩

/-- The blanks between tokens are blanks of a text. -/
theorem isBlank_eq_false {c : Char} (hc : isSpace c = false) : isBlank c = false := by
  by_contra h
  simp only [isBlank, Bool.not_eq_false, Bool.or_eq_true, beq_iff_eq] at h
  rcases h with ((rfl | rfl) | rfl) | rfl <;> exact absurd hc (by decide)

/-- A digit is the front of a number. -/
theorem valueWith_of_isDigit {inner : Option (List Char → Except Fault (Front Json))} {c : Char}
    {t : List Char} (hc : isDigit c = true) :
    valueWith inner (c :: t) =
      number false (c :: t) >>= fun (n, ahead) => .ok (.number n, ahead) := by
  unfold valueWith
  rw [skipBlanks_cons (isBlank_eq_false (Text.isSpace_of_isDigit hc))]
  split
  case h_9 =>
    rename_i heq
    cases heq
    rw [if_pos hc]
  all_goals
    rename_i heq
    cases heq
    try exact absurd hc (by decide)

/-- **A number is read where it was written**, if nothing ahead goes on with it. -/
theorem valueWith_of_spells {inner : Option (List Char → Except Fault (Front Json))}
    {negative : Bool} {body : List Char} {n : Number} (hspells : Spells negative body n)
    (h : Stops rest) :
    valueWith inner ((if negative then ['-'] else []) ++ body ++ rest) = .ok (.number n, rest) := by
  have hread := hspells rest h
  cases negative with
  | true =>
    show (number true (body ++ rest) >>= fun (n, ahead) => .ok (Json.number n, ahead)) = _
    rw [hread]
    rfl
  | false =>
    obtain ⟨c, t, rfl, hc⟩ := hspells.exists_cons
    show valueWith inner (c :: (t ++ rest)) = _
    rw [valueWith_of_isDigit hc]
    have hread : number false (c :: (t ++ rest)) = .ok (n, rest) := hread
    rw [hread]
    rfl

end Reader
end Json

namespace Number

open Json.Reader

/-- The number that the text of a number is read as. -/
def reread (n : Number) : Number :=
  match Json.parse? (String.ofList n.text) with
  | .ok (.number m) => m
  | _ => n

theorem parse?_of_spells {negative : Bool} {body : List Char} {n : Number}
    (h : Spells negative body n) :
    Json.parse? (String.ofList ((if negative then ['-'] else []) ++ body)) = .ok (.number n) := by
  have hread : Json.Reader.value Json.nestingLimit
      ((if negative then ['-'] else []) ++ body) = .ok (.number n, []) := by
    rw [← List.append_nil (_ ++ body)]
    exact valueWith_of_spells h rfl
  rw [Json.parse?, String.toList_ofList, Json.readTree, hread]
  rfl

theorem reread_of_spells {n m : Number} {negative : Bool} {body : List Char}
    (htext : n.text = (if negative then ['-'] else []) ++ body) (h : Spells negative body m) :
    n.reread = m := by
  rw [reread, htext, parse?_of_spells h]

theorem text_whole (n : Whole) : text (.whole n) =
    (if decide (n.val < 0) then ['-'] else []) ++ Nat.toDigits 10 n.val.natAbs := by
  by_cases hn : n.val < 0
  · rw [text, intText, if_pos hn, if_pos (decide_eq_true hn)]
    rfl
  · rw [text, intText, if_neg hn, if_neg (by simpa using hn)]
    rfl

/-- **An integer is read again.** -/
@[simp] theorem reread_whole (n : Whole) : reread (.whole n) = .whole n :=
  reread_of_spells (text_whole n) (spells_whole n)

/-- A zero is read again, with its sign. -/
@[simp] theorem reread_zero (negative : Bool) :
    reread (.double (.zero negative)) = .double (.zero negative) := by
  refine reread_of_spells ?_ (spells_zero negative)
  cases negative <;> rfl

/-- **A double is read as a double**, wherever no number goes on. -/
theorem exists_reread_double (d : Double) : ∃ body d', text (.double d) = d.signText ++ body ∧
    reread (.double d) = .double d' ∧ Spells d.negative body (.double d') := by
  obtain ⟨body, d', htext, hspells⟩ :=
    @exists_spells_double style (.inr rfl) (by decide) d
  exact ⟨body, d', htext, reread_of_spells htext hspells, hspells⟩

/-- **A number is taken off the front of a text as the number that it is read as by itself.** -/
theorem exists_spells (n : Number) : ∃ negative body,
    n.text = (if negative then ['-'] else []) ++ body ∧ Spells negative body n.reread := by
  cases n with
  | whole n => exact ⟨_, _, text_whole n, (reread_whole n).symm ▸ spells_whole n⟩
  | double d =>
    obtain ⟨body, d', htext, hreread, hspells⟩ := exists_reread_double d
    exact ⟨d.negative, body, htext, hreread.symm ▸ hspells⟩

end Number
end Wireform
