/-
# Documents read again

What was written is read with every number that its own text is read as (`Json.reread`): keys,
strings and integers stay, and a double may become another one near it. Where each double of a
document is read as the nearest to what its text spells (`Json.ReadsNearest`), the document is
what it was.

Key definitions: `Json.reread`, `Number.ReadsNearest`, `Json.ReadsNearest`.
Key theorems: `Json.Distinct.reread`, `Json.ReadsNearest.reread_eq`.
-/
import Wireform.Proofs.Json.Reorder
import Wireform.Proofs.Number.Text

namespace Wireform

namespace Number

/-- The text of a number is read correctly rounded: that of a double as the double nearest to
what it spells. -/
def ReadsNearest : Number → Prop
  | .whole _ => True
  | .double d => ∃ d' : Double, reread (.double d) = .double d' ∧ Double.Nearest d.spelled d'

@[simp] theorem readsNearest_whole (n : Whole) : ReadsNearest (.whole n) := trivial

@[simp] theorem readsNearest_zero (negative : Bool) :
    ReadsNearest (.double (.zero negative)) := by
  refine ⟨_, reread_zero negative, ?_⟩
  have hdigits : (Double.zero negative).shortest.digits = 0 := by
    cases negative <;> decide +kernel
  have hspelled : (Double.zero negative).spelled = 0 := by
    simp [Double.spelled, Decimal.amount, hdigits]
  rw [hspelled]
  exact Double.nearest_zero negative

/-- **A number whose text is read correctly rounded is read again.** -/
theorem ReadsNearest.reread_eq {n : Number} (h : n.ReadsNearest) : n.reread = n := by
  cases n with
  | whole n => exact reread_whole n
  | double d =>
    cases hd : d.isZero with
    | true => rw [Double.eq_zero_of_isZero hd, reread_zero]
    | false =>
      obtain ⟨d', hread, hnearest⟩ := h
      have hvalue : d'.value = d.value := hnearest.value_eq (Double.nearest_spelled hd)
      rw [hread, Double.eq_of_value_eq hd hvalue]

end Number

namespace Json

mutual

/-- The document with every number as its text is read. -/
@[simp] def reread : Json → Json
  | .number n => .number n.reread
  | .array items => .array (rereadItems items)
  | .object members => .object (rereadMembers members)
  | v => v

/-- The items with every number as its text is read. -/
@[simp] def rereadItems : List Json → List Json
  | [] => []
  | v :: vs => reread v :: rereadItems vs

/-- The members with every number as its text is read. -/
@[simp] def rereadMembers : List (String × Json) → List (String × Json)
  | [] => []
  | (k, v) :: rest => (k, reread v) :: rereadMembers rest

end

@[simp] theorem keys_rereadMembers (ms : List (String × Json)) :
    Keyed.keys (rereadMembers ms) = Keyed.keys ms := by
  induction ms with
  | nil => rfl
  | cons m rest ih => simp [ih]

mutual

/-- No key stands twice in what is read again if none stands twice in what was written. -/
theorem Distinct.reread : ∀ {v : Json}, v.Distinct → v.reread.Distinct
  | .null, _ | .bool _, _ | .string _, _ | .number _, _ => trivial
  | .array _, h => distinctItems_reread h
  | .object ms, h => ⟨(keys_rereadMembers ms).symm ▸ h.1, distinctMembers_reread h.2⟩

theorem distinctItems_reread : ∀ {vs : List Json}, DistinctItems vs →
    DistinctItems (rereadItems vs)
  | [], _ => trivial
  | _ :: _, h => ⟨h.1.reread, distinctItems_reread h.2⟩

theorem distinctMembers_reread : ∀ {ms : List (String × Json)}, DistinctMembers ms →
    DistinctMembers (rereadMembers ms)
  | [], _ => trivial
  | _ :: _, h => ⟨h.1.reread, distinctMembers_reread h.2⟩

end

/-! ### Numbers that come back -/

mutual

/-- The numbers in a document. -/
@[simp] def numbers : Json → List Number
  | .number n => [n]
  | .array items => numbersOfItems items
  | .object members => numbersOfMembers members
  | _ => []

/-- The numbers in items. -/
@[simp] def numbersOfItems : List Json → List Number
  | [] => []
  | v :: vs => numbers v ++ numbersOfItems vs

/-- The numbers in the values of members. -/
@[simp] def numbersOfMembers : List (String × Json) → List Number
  | [] => []
  | (_, v) :: rest => numbers v ++ numbersOfMembers rest

end

mutual

theorem reread_eq_self : ∀ {v : Json}, (∀ n ∈ v.numbers, n.reread = n) → v.reread = v
  | .null, _ | .bool _, _ | .string _, _ => rfl
  | .number n, h => congrArg Json.number (h n List.mem_cons_self)
  | .array _, h => congrArg Json.array (rereadItems_eq_self h)
  | .object _, h => congrArg Json.object (rereadMembers_eq_self h)

theorem rereadItems_eq_self : ∀ {vs : List Json}, (∀ n ∈ numbersOfItems vs, n.reread = n) →
    rereadItems vs = vs
  | [], _ => rfl
  | _ :: _, h => by
    obtain ⟨hv, hvs⟩ := List.forall_mem_append.mp h
    rw [rereadItems, reread_eq_self hv, rereadItems_eq_self hvs]

theorem rereadMembers_eq_self : ∀ {ms : List (String × Json)},
    (∀ n ∈ numbersOfMembers ms, n.reread = n) → rereadMembers ms = ms
  | [], _ => rfl
  | (_, _) :: _, h => by
    obtain ⟨hv, hrest⟩ := List.forall_mem_append.mp h
    rw [rereadMembers, reread_eq_self hv, rereadMembers_eq_self hrest]

end

/-- All numbers of a document are read correctly rounded. -/
def ReadsNearest (v : Json) : Prop := ∀ n ∈ v.numbers, n.ReadsNearest

/-- **A document whose numbers are read correctly rounded is read again as it was.** -/
theorem ReadsNearest.reread_eq {v : Json} (h : v.ReadsNearest) : v.reread = v :=
  reread_eq_self fun n hn => (h n hn).reread_eq

end Json
end Wireform
