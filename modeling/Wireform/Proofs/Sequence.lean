/-
# Computations and lists in step

A sequence of computations succeeds if each does on the result of the one before, and fails
in the first that does not.

Two lists correspond if they are equally long and what stands at the same place is related
(`List.Forall₂`). They are one list of related pairs then (`exists_rows`), so what is in the
one has something related to it in the other.

Key theorems: `bind_eq_ok_iff`, `bind_eq_error_iff`, `exists_rows`, `exists_right_of_mem`,
`exists_left_of_mem`, `rel_getElem?`, `forall₂_of_mem`, `forall₂_replace`,
`mapM_eq_some_iff`, `mapM_id_eq_ok_iff`, `mapM_id_eq_error`.
-/
import Mathlib.Data.List.Forall2

namespace Wireform

/-! ### Computations in sequence -/

/-- Two computations in sequence succeed if the first does and the second does on its result. -/
theorem bind_eq_ok_iff {ε α β : Type} {x : Except ε α} {f : α → Except ε β} {b : β} :
    x >>= f = .ok b ↔ ∃ a, x = .ok a ∧ f a = .ok b := by
  rcases x with e | a
  · constructor
    · intro h; cases h
    · rintro ⟨_, h, -⟩; cases h
  · constructor
    · intro h; exact ⟨a, rfl, h⟩
    · rintro ⟨_, h, h'⟩; cases h; exact h'

/-- A sequence fails in its first computation or in the second, on the result of the first. -/
theorem bind_eq_error_iff {ε α β : Type} {x : Except ε α} {f : α → Except ε β} {e : ε} :
    x >>= f = .error e ↔ x = .error e ∨ ∃ a, x = .ok a ∧ f a = .error e := by
  rcases x with e' | a
  · constructor
    · intro h; cases h; exact .inl rfl
    · rintro (h | ⟨_, h, -⟩) <;> cases h
      rfl
  · constructor
    · intro h; exact .inr ⟨a, rfl, h⟩
    · rintro (h | ⟨_, h, h'⟩) <;> cases h
      exact h'

/-- Two checks in sequence succeed if both do. -/
theorem seq_eq_ok_iff {ε : Type} {x y : Except ε Unit} :
    (x >>= fun _ => y) = .ok () ↔ x = .ok () ∧ y = .ok () := by
  rw [bind_eq_ok_iff]
  constructor
  · rintro ⟨⟨⟩, hx, hy⟩
    exact ⟨hx, hy⟩
  · rintro ⟨hx, hy⟩
    exact ⟨(), hx, hy⟩

/-- Of two checks in sequence the second is made if the first succeeds. -/
theorem seq_eq_error_iff {ε : Type} {x y : Except ε Unit} {e : ε} :
    (x >>= fun _ => y) = .error e ↔ x = .error e ∨ x = .ok () ∧ y = .error e := by
  rw [bind_eq_error_iff]
  refine or_congr_right ?_
  constructor
  · rintro ⟨⟨⟩, hx, hy⟩
    exact ⟨hx, hy⟩
  · rintro ⟨hx, hy⟩
    exact ⟨(), hx, hy⟩

/-! ### Lists that correspond -/

section Corresponding

variable {α β : Type} {R S : α → β → Prop} {as : List α} {bs : List β}

/-- Two lists that correspond, as one list of pairs. -/
theorem exists_rows (h : List.Forall₂ R as bs) :
    ∃ rows : List (α × β), rows.map (·.1) = as ∧ rows.map (·.2) = bs ∧ ∀ r ∈ rows, R r.1 r.2 := by
  induction h with
  | nil => exact ⟨[], rfl, rfl, by simp⟩
  | @cons a b _ _ hab _ ih =>
    obtain ⟨rows, rfl, rfl, hrows⟩ := ih
    exact ⟨(a, b) :: rows, rfl, rfl, List.forall_mem_cons.mpr ⟨hab, hrows⟩⟩

theorem exists_right_of_mem (h : List.Forall₂ R as bs) {a : α} (ha : a ∈ as) :
    ∃ b ∈ bs, R a b := by
  obtain ⟨rows, rfl, rfl, hrows⟩ := exists_rows h
  obtain ⟨r, hr, rfl⟩ := List.mem_map.mp ha
  exact ⟨r.2, List.mem_map_of_mem hr, hrows r hr⟩

theorem exists_left_of_mem (h : List.Forall₂ R as bs) {b : β} (hb : b ∈ bs) :
    ∃ a ∈ as, R a b := by
  obtain ⟨rows, rfl, rfl, hrows⟩ := exists_rows h
  obtain ⟨r, hr, rfl⟩ := List.mem_map.mp hb
  exact ⟨r.1, List.mem_map_of_mem hr, hrows r hr⟩

/-- Lists that correspond do so at each position. -/
theorem rel_getElem? : ∀ {as : List α} {bs : List β}, List.Forall₂ R as bs →
    ∀ i : Nat, Option.Rel R as[i]? bs[i]?
  | [], _, .nil, _ => .none
  | _ :: _, _ :: _, .cons h _, 0 => .some h
  | _ :: _, _ :: _, .cons _ hrest, i + 1 => rel_getElem? hrest i

/-- What follows from a relation for the members of a list holds of lists that correspond. -/
theorem forall₂_of_mem (h : ∀ a ∈ as, ∀ b, R a b → S a b) (hab : List.Forall₂ R as bs) :
    List.Forall₂ S as bs :=
  ((List.forall₂_and_left _ _).mpr ⟨fun _ ha => ha, hab⟩).imp fun a b hr => h a hr.1 b hr.2

end Corresponding

/-- Lists that differ in one place correspond, if that place does and a thing to itself. -/
theorem forall₂_replace {α : Type} {R : α → α → Prop} (hR : ∀ a, R a a) {a b : α} (h : R a b)
    (before after : List α) : List.Forall₂ R (before ++ a :: after) (before ++ b :: after) :=
  List.rel_append (List.forall₂_same.mpr fun x _ => hR x)
    (.cons h (List.forall₂_same.mpr fun x _ => hR x))

/-! ### Computations over a list -/

section Lists

variable {ε α β : Type}

/-- A function that may have no value has one everywhere on a list, or not on some member. -/
theorem mapM_eq_some_iff {f : α → Option β} : ∀ {as : List α} {bs : List β},
    as.mapM f = some bs ↔ List.Forall₂ (fun a b => f a = some b) as bs
  | [], bs => by
    rw [List.mapM_nil, List.forall₂_nil_left_iff, eq_comm]
    exact Option.some_inj
  | a :: as, bs => by
    rw [List.mapM_cons, List.forall₂_cons_left_iff]
    simp only [bind, pure, Option.bind_eq_some_iff, Option.some_inj, mapM_eq_some_iff]
    constructor
    · rintro ⟨b, hb, bs, hbs, rfl⟩
      exact ⟨b, bs, hb, hbs, rfl⟩
    · rintro ⟨b, bs, hb, hbs, rfl⟩
      exact ⟨b, hb, bs, hbs, rfl⟩

theorem mapM_eq_none_iff {f : α → Option β} : ∀ {as : List α},
    as.mapM f = none ↔ ∃ a ∈ as, f a = none
  | [] => by
    rw [List.mapM_nil]
    simp
  | a :: as => by
    rw [List.mapM_cons, List.exists_mem_cons_iff, ← mapM_eq_none_iff]
    cases f a with
    | none => exact iff_of_true rfl (.inl rfl)
    | some b => cases as.mapM f <;> simp

/-- Results of which none is an error are all there. -/
theorem mapM_id_eq_ok_iff : ∀ {rs : List (Except ε α)} {as : List α},
    rs.mapM id = .ok as ↔ rs = as.map .ok
  | [], as => by
    constructor
    · intro h
      cases h
      rfl
    · intro h
      rw [List.map_eq_nil_iff.mp h.symm]
      rfl
  | r :: rs, as => by
    rw [List.mapM_cons, eq_comm (a := r :: rs), List.map_eq_cons_iff, bind_eq_ok_iff]
    constructor
    · rintro ⟨a, rfl, h⟩
      obtain ⟨as, has, h⟩ := bind_eq_ok_iff.mp h
      cases h
      exact ⟨a, as, rfl, rfl, (mapM_id_eq_ok_iff.mp has).symm⟩
    · rintro ⟨a, as, rfl, rfl, has⟩
      exact ⟨a, rfl, bind_eq_ok_iff.mpr ⟨as, mapM_id_eq_ok_iff.mpr has.symm, rfl⟩⟩

/-- Of results the first error is told. -/
theorem mapM_id_eq_error : ∀ {rs : List (Except ε α)} {e : ε}, rs.mapM id = .error e →
    ∃ (as : List α) (rest : List (Except ε α)), rs = as.map .ok ++ .error e :: rest
  | [], _, h => by cases h
  | .error e :: rs, _, h => by
    cases h
    exact ⟨[], rs, rfl⟩
  | .ok a :: rs, e, h => by
    rw [List.mapM_cons] at h
    rcases bind_eq_error_iff.mp h with h | ⟨_, ha, h⟩
    · cases h
    · rcases bind_eq_error_iff.mp h with h | ⟨_, -, h⟩
      · obtain ⟨as, rest, rfl⟩ := mapM_id_eq_error h
        exact ⟨a :: as, rest, rfl⟩
      · cases h

end Lists

end Wireform
