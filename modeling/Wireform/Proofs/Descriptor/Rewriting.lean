/-
# Rewriting descriptors

A rule says which descriptor may take the place of which. It may be applied to a descriptor
that stands anywhere inside another one (`Descriptor.Within`); what is around the place is
then the same but for that part.

The rules that matter here make a descriptor simpler (`Descriptor.Simplification`): members
of a union in a union become members of the outer one, members that accept nothing go, and
so does a member that is equal to an earlier one. Closed objects may also be written as
objects whose undeclared keys must match nothing, or back (`Descriptor.Toggle`); that does
not show in the words of a descriptor (`Descriptor.name_toggled`).

Key definitions: `Descriptor.Within`, `Descriptor.Equal`, `Descriptor.Toggle`,
`Descriptor.Simplification`.
Key theorems: `Descriptor.Within.rule_or_congruent`, `Descriptor.Equal.congruent_or_enum`,
`Descriptor.name_toggled`.
-/
import Wireform.Descriptor.Basic
import Wireform.Proofs.Sequence
import Wireform.Proofs.Descriptor.Related
import Mathlib.Logic.Relation

namespace Wireform
namespace Descriptor

/-! ### Rules and places -/

/-- One descriptor is the other with a rule applied once, somewhere inside it. -/
inductive Within (Rule : Descriptor → Descriptor → Prop) : Descriptor → Descriptor → Prop
  | here {d d'} (h : Rule d d') : Within Rule d d'
  | member {before d d' after} (h : Within Rule d d') :
    Within Rule (.union (before ++ d :: after)) (.union (before ++ d' :: after))
  | item {d d'} (h : Within Rule d d') : Within Rule (.array d) (.array d')
  | property {before wire typed d d' after additional} (h : Within Rule d d') :
    Within Rule (.object (before ++ ⟨wire, typed, d⟩ :: after) additional)
      (.object (before ++ ⟨wire, typed, d'⟩ :: after) additional)
  | additional {properties d d'} (h : Within Rule d d') :
    Within Rule (.object properties (.allow d)) (.object properties (.allow d'))

section Within

variable {Rule Rule' : Descriptor → Descriptor → Prop} {d d' : Descriptor}

theorem Within.mono (hrule : ∀ d d', Rule d d' → Rule' d d') (h : Within Rule d d') :
    Within Rule' d d' := by
  induction h with
  | here h => exact .here (hrule _ _ h)
  | member _ ih => exact .member ih
  | item _ ih => exact .item ih
  | property _ ih => exact .property ih
  | additional _ ih => exact .additional ih

/-- The rule was applied to the descriptor itself or in a part of it. -/
theorem Within.rule_or_congruent (h : Within Rule d d') :
    Rule d d' ∨ Congruent (Relation.ReflGen (Within Rule)) d d' := by
  cases h with
  | here h => exact .inl h
  | member h => exact .inr (.union (forall₂_replace (fun _ => .refl) (.single h) _ _))
  | item h => exact .inr (.array (.single h))
  | @property _ _ _ _ _ _ additional h =>
    have hadditional : Additional.Related (Relation.ReflGen (Within Rule)) additional additional := by
      cases additional with
      | reject => exact .reject
      | allow d => exact .allow .refl
    refine .inr (.object (forall₂_replace (fun _ => ⟨rfl, rfl, .refl⟩) ?_ _ _) hadditional)
    exact ⟨rfl, rfl, .single h⟩
  | additional h =>
    exact .inr (.object (List.forall₂_same.mpr fun _ _ => ⟨rfl, rfl, .refl⟩) (.allow (.single h)))

end Within

/-! ### Equal descriptors -/

/-- Structural equality, either way round. (On documents that hold a key twice equality goes
one way only.) -/
def Equal (d d' : Descriptor) : Prop := same d d' = true ∧ same d' d = true

theorem forall₂_equal_of_sameMembers : ∀ {ds ds' : List Descriptor}, sameMembers ds ds' = true →
    sameMembers ds' ds = true → List.Forall₂ Equal ds ds'
  | [], [], _, _ => .nil
  | d :: ds, d' :: ds', h, h' => by
    rw [sameMembers, Bool.and_eq_true] at h h'
    exact .cons ⟨h.1, h'.1⟩ (forall₂_equal_of_sameMembers h.2 h'.2)
  | [], _ :: _, h, _ => by simp [sameMembers] at h
  | _ :: _, [], h, _ => by simp [sameMembers] at h

theorem forall₂_equal_of_sameProperties : ∀ {ps ps' : List (Property Descriptor)},
    sameProperties ps ps' = true → sameProperties ps' ps = true →
      List.Forall₂ (Property.Related Equal) ps ps'
  | [], [], _, _ => .nil
  | ⟨wire, typed, d⟩ :: ps, ⟨wire', typed', d'⟩ :: ps', h, h' => by
    simp only [sameProperties, Bool.and_eq_true, beq_iff_eq] at h h'
    obtain ⟨⟨⟨hwire, htyped⟩, hd⟩, hrest⟩ := h
    obtain ⟨⟨-, hd'⟩, hrest'⟩ := h'
    exact .cons ⟨hwire.symm, htyped.symm, hd, hd'⟩ (forall₂_equal_of_sameProperties hrest hrest')
  | [], _ :: _, h, _ => by simp [sameProperties] at h
  | _ :: _, [], h, _ => by simp [sameProperties] at h

theorem related_equal_of_sameAdditional {x x' : Additional Descriptor}
    (h : sameAdditional x x' = true) (h' : sameAdditional x' x = true) :
    Additional.Related Equal x x' := by
  cases x with
  | reject =>
    cases x' with
    | reject => exact .reject
    | allow d' => simp [sameAdditional] at h
  | allow d =>
    cases x' with
    | reject => simp [sameAdditional] at h
    | allow d' =>
      rw [sameAdditional] at h h'
      exact .allow ⟨h, h'⟩

/-- Equal descriptors are the same but for their parts, which are equal, or they are enums
with equal cases. -/
theorem Equal.congruent_or_enum {d d' : Descriptor} (h : Equal d d') : Congruent Equal d d' ∨
    ∃ cases cases', d = .enum cases ∧ d' = .enum cases' ∧
      Json.sameItems cases cases' = true ∧ Json.sameItems cases' cases = true := by
  obtain ⟨h, h'⟩ := h
  cases d with
  | enum cases =>
    cases d' <;> simp [same] at h h'
    exact .inr ⟨_, _, rfl, rfl, h, h'⟩
  | union members =>
    cases d' <;> simp [same] at h h'
    exact .inl (.union (forall₂_equal_of_sameMembers h h'))
  | array item =>
    cases d' <;> simp [same] at h h'
    exact .inl (.array ⟨h, h'⟩)
  | object properties additional =>
    cases d' <;> simp [same] at h h'
    exact .inl (.object (forall₂_equal_of_sameProperties h.1 h'.1)
      (related_equal_of_sameAdditional h.2 h'.2))
  | ref name =>
    cases d' <;> simp [same] at h
    exact .inl (h ▸ .ref name)
  | primitive kind =>
    cases d' <;> simp [same] at h
    exact .inl (h ▸ .leaf trivial)
  | literal text =>
    cases d' <;> simp [same] at h
    exact .inl (h ▸ .leaf trivial)
  | any | null | never | undefined | date =>
    cases d' <;> simp [same] at h
    exact .inl (.leaf trivial)

/-! ### Simplifications -/

/-- Undeclared keys are refused, or are allowed as nothing at all. -/
inductive Toggle : Descriptor → Descriptor → Prop
  | allow {properties} : Toggle (.object properties .reject) (.object properties (.allow .never))
  | reject {properties} : Toggle (.object properties (.allow .never)) (.object properties .reject)

/-- The second descriptor says the same in a simpler way. -/
inductive Simplification : Descriptor → Descriptor → Prop
  | splice {before inner after} :
    Simplification (.union (before ++ .union inner :: after)) (.union (before ++ inner ++ after))
  | never {before after} :
    Simplification (.union (before ++ .never :: after)) (.union (before ++ after))
  | literal {before text after} :
    Simplification (.union (before ++ .literal text :: after)) (.union (before ++ after))
  | repeated {before earlier d after} (hmem : earlier ∈ before) (h : Equal earlier d) :
    Simplification (.union (before ++ d :: after)) (.union (before ++ after))
  | toggle {d d'} (h : Toggle d d') : Simplification d d'

/-- What was simplified is a union or an object. -/
theorem Simplification.shape {d d' : Descriptor} (h : Simplification d d') :
    (∃ members, d' = .union members) ∨
      ∃ properties additional, d' = .object properties additional := by
  cases h with
  | splice | never | literal | repeated _ _ => exact .inl ⟨_, rfl⟩
  | toggle h =>
    cases h with
    | allow | reject => exact .inr ⟨_, _, rfl⟩

/-! ### Words -/

theorem memberNames_append (ds es : List Descriptor) :
    memberNames (ds ++ es) = memberNames ds ++ memberNames es := by
  induction ds with
  | nil => rfl
  | cons d ds ih => exact congrArg (name d :: ·) ih

theorem Within.ne_undefined {d d' : Descriptor} (h : Within Toggle d d') :
    d ≠ .undefined ∧ d' ≠ .undefined := by
  cases h with
  | here h =>
    cases h with
    | allow | reject => exact ⟨nofun, nofun⟩
  | member _ | item _ | property _ | additional _ => exact ⟨nofun, nofun⟩

/-- **Whether undeclared keys are refused or must match nothing does not show in words.** -/
theorem name_toggled {d d' : Descriptor} (h : Within Toggle d d') : name d' = name d := by
  induction h with
  | here h =>
    cases h with
    | allow | reject => rfl
  | item _ _ => rfl
  | property _ _ => rfl
  | additional _ _ => rfl
  | @member before d d' after h ih =>
    obtain ⟨hd, hd'⟩ := h.ne_undefined
    have hnames : memberNames (before ++ d' :: after) = memberNames (before ++ d :: after) := by
      rw [memberNames_append, memberNames_append, memberNames, memberNames, ih]
    by_cases hoptional : before = [.undefined] ∧ after = []
    · obtain ⟨rfl, rfl⟩ := hoptional
      show name (.union [.undefined, d']) = name (.union [.undefined, d])
      rw [name, name, ih]
    · -- neither union is an optional: the part that differs is not its first member
      have hchoice : ∀ e : Descriptor, e ≠ .undefined → ∀ inner,
          before ++ e :: after ≠ [.undefined, inner] := by
        intro e he inner heq
        cases before with
        | nil => exact he (List.cons.inj heq).1
        | cons first before =>
          obtain ⟨rfl, hrest⟩ := List.cons.inj heq
          cases before with
          | nil => exact hoptional ⟨rfl, (List.cons.inj hrest).2⟩
          | cons second before => simp at hrest
      rw [name_union (hchoice d' hd'), name_union (hchoice d hd), hnames]

end Descriptor
end Wireform
