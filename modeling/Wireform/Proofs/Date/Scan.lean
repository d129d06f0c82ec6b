/-
# Parts of a date that are read back

A scanner takes a padded number off the front of a text as it was written. The digits
of a fraction count up to the ninth, so what they are worth in nanoseconds is rounded
down.

Key theorems: `Scan.number_padded`, `Scan.nanoseconds_append`, `Scan.counted_eq`,
`Scan.clockOffset_padded`.
-/
import Wireform.Date.Scan
import Wireform.Proofs.Text.Digits

namespace Wireform

/-! ### Blanks at the ends -/

namespace Text

theorem trimStart_of_head? {s : List Char} (h : s.head?.any isSpace = false) : trimStart s = s := by
  cases s with
  | nil => rfl
  | cons c s =>
    have hc : isSpace c = false := h
    rw [trimStart, List.dropWhile_cons_of_neg (by rw [hc]; decide)]

theorem trimStart_digits {ds rest : List Char} (hne : ds ≠ []) (hd : ∀ c ∈ ds, isDigit c = true) :
    trimStart (ds ++ rest) = ds ++ rest := by
  obtain ⟨c, ds, rfl⟩ := List.exists_cons_of_ne_nil hne
  exact trimStart_of_head? (isSpace_of_isDigit (hd c List.mem_cons_self))

theorem trimStart_padded (width n : ℕ) (rest : List Char) :
    trimStart (padded width n ++ rest) = padded width n ++ rest :=
  trimStart_digits (padded_ne_nil width n) fun _ h => isDigit_of_mem_padded h

/-- A text that ends with digits does not end with a blank. -/
theorem any_isSpace_getLast?_digits {s ds : List Char} (hne : ds ≠ [])
    (hd : ∀ c ∈ ds, isDigit c = true) : (s ++ ds).getLast?.any isSpace = false := by
  rw [List.getLast?_append_of_ne_nil _ hne, List.getLast?_eq_some_getLast hne]
  exact isSpace_of_isDigit (hd _ (List.getLast_mem hne))

/-- A text without a blank at either end is left as it is. -/
theorem trim_eq_self {s : List Char} (hhead : s.head?.any isSpace = false)
    (hlast : s.getLast?.any isSpace = false) : trim s = s := by
  rw [trim, trimStart_of_head? hhead, trimStart_of_head? (by rwa [List.head?_reverse]),
    List.reverse_reverse]

end Text

namespace Scan

open Text

/-! ### Numbers -/

theorem char_cons (c : Char) (s : List Char) : char c (c :: s) = some s := if_pos rfl

/-- A row of digits is read to its end, or as far as digits are taken. -/
theorem number_append {min max : ℕ} {ds rest : List Char} (hd : ∀ c ∈ ds, isDigit c = true)
    (hmin : min ≤ ds.length) (hmax : ds.length ≤ max)
    (hend : ds.length = max ∨ rest.head?.any isDigit = false) :
    number min max (ds ++ rest) = some (ofDigits ds, rest) := by
  have hrest : (rest.take (max - ds.length)).head?.any isDigit = false := by
    rcases hend with hlen | hend
    · rw [hlen, Nat.sub_self, List.take_zero]
      rfl
    · cases rest with
      | nil => rw [List.take_nil]; rfl
      | cons c rest =>
        cases max - ds.length with
        | zero => rfl
        | succ k => exact hend
  have hds : ((ds ++ rest).take max).takeWhile isDigit = ds := by
    rw [List.take_append, List.take_of_length_le hmax, takeWhile_isDigit hd hrest]
  unfold number
  simp only [hds]
  rw [if_neg (by omega), List.drop_left]

theorem number_padded {min width n : ℕ} (rest : List Char) (hmin : min ≤ width)
    (hwidth : 0 < width) (hn : n < 10 ^ width) :
    number min width (padded width n ++ rest) = some (n, rest) := by
  have hlen := length_padded hwidth hn
  rw [number_append (fun _ h => isDigit_of_mem_padded h) (hmin.trans_eq hlen.symm) hlen.le
    (.inl hlen), ofDigits_padded]

/-- There is no number where no digit stands. -/
theorem number_eq_none {min max : ℕ} {s : List Char} (hmin : 0 < min)
    (h : s.head?.any isDigit = false) : number min max s = none := by
  have hds : (s.take max).takeWhile isDigit = [] := by
    cases s with
    | nil => rw [List.take_nil, List.takeWhile_nil]
    | cons c s =>
      have hc : isDigit c = false := h
      cases max with
      | zero => rfl
      | succ max =>
        rw [List.take_succ_cons, List.takeWhile_cons_of_neg (by rw [hc]; decide)]
  unfold number
  simp only [hds]
  exact if_pos hmin

/-! ### Fractions -/

/-- The digits of a fraction that count, filled up to nine. -/
def counted (ds : List Char) : List Char := ds.take 9 ++ List.replicate (9 - ds.length) '0'

theorem nanoseconds_append {ds rest : List Char} (hne : ds ≠ []) (hd : ∀ c ∈ ds, isDigit c = true)
    (hrest : rest.head?.any isDigit = false) :
    nanoseconds (ds ++ rest) = some (ofDigits (counted ds), rest) := by
  have hds : (ds ++ rest).takeWhile isDigit = ds := takeWhile_isDigit hd hrest
  unfold nanoseconds
  simp only [hds, counted]
  rw [if_neg (by simpa using hne), List.drop_left]

/-- **The digits that count are the fraction in billionths, rounded down.** -/
theorem counted_eq {ds : List Char} (hd : ∀ c ∈ ds, isDigit c = true) :
    ofDigits (counted ds) = ofDigits ds * 10 ^ 9 / 10 ^ ds.length := by
  unfold counted
  rw [ofDigits_append_zeros]
  rcases Nat.le_total ds.length 9 with hle | hle
  · rw [List.take_of_length_le hle]
    obtain ⟨k, hk⟩ := Nat.exists_eq_add_of_le hle
    have hsub : 9 - ds.length = k := by omega
    rw [hsub, hk, Nat.pow_add, ← Nat.mul_assoc, Nat.mul_right_comm,
      Nat.mul_div_cancel _ (Nat.pow_pos (by decide)), Nat.mul_comm]
  · rw [Nat.sub_eq_zero_of_le hle, Nat.pow_zero, Nat.one_mul]
    have hlen : ds.length = 9 + (ds.drop 9).length := by
      rw [List.length_drop]
      omega
    have hrest : ofDigits (ds.drop 9) < 10 ^ (ds.drop 9).length :=
      ofDigits_lt fun c hc => hd c (List.mem_of_mem_drop hc)
    have hsplit := ofDigits_append (ds.take 9) (ds.drop 9)
    rw [List.take_append_drop] at hsplit
    rw [hlen, Nat.pow_add, Nat.mul_comm (10 ^ 9) (10 ^ _), Nat.mul_div_mul_right _ _ (by decide),
      hsplit, Nat.mul_add_div (Nat.pow_pos (by decide)), Nat.div_eq_of_lt hrest, Nat.add_zero]

theorem counted_lt {ds : List Char} (hd : ∀ c ∈ ds, isDigit c = true) :
    ofDigits (counted ds) < 1000000000 := by
  rw [counted_eq hd]
  have hlt := ofDigits_lt hd
  exact Nat.div_lt_of_lt_mul (Nat.mul_lt_mul_of_pos_right hlt (by decide))

/-! ### Offsets -/

theorem clockOffset_padded {hour minute : ℕ} (rest : List Char) (hhour : hour < 100)
    (hminute : minute < 60) :
    clockOffset (char ':') (padded 2 hour ++ ':' :: (padded 2 minute ++ rest)) =
      some (((60 * hour + minute : ℕ) : ℤ), rest) := by
  have hhours : number 2 2 (padded 2 hour ++ ':' :: (padded 2 minute ++ rest)) =
      some (hour, ':' :: (padded 2 minute ++ rest)) :=
    number_padded _ (le_refl 2) (by decide) hhour
  have hminutes : number 2 2 (padded 2 minute ++ rest) = some (minute, rest) :=
    number_padded _ (le_refl 2) (by decide) (by omega)
  unfold clockOffset
  rw [hhours]
  dsimp only [bind, Option.bind]
  rw [char_cons]
  dsimp only
  rw [hminutes]
  exact if_pos hminute

end Scan
end Wireform
