/-
# Descriptors that correspond

A relation between descriptors carries over to properties with the same keys, to what is
asked of additional keys, and to descriptors that are the same but for the descriptors in
them (`Descriptor.Congruent`). Properties that correspond have the same index.

A rule says what may take the place of a descriptor, where it is known which descriptors may
take the places of its parts. Applied in any number of places, also to the parts of what it
was applied to, it makes a relation between descriptors that every descriptor around the places
keeps (`Descriptor.Throughout`).

Key definitions: `Property.Related`, `Additional.Related`, `Descriptor.Congruent`,
`Descriptor.Throughout`.
Key theorems: `PropertyIndex.ofProperties_of_related`,
`Descriptor.Throughout.congruent_or_rule`, `Descriptor.Throughout.symm`.
-/
import Wireform.Descriptor.Index
import Mathlib.Data.List.Forall2
import Mathlib.Order.Monotone.Defs

namespace Wireform

/-- Two properties with the same keys, whose types are related. -/
def Property.Related (R : Descriptor → Descriptor → Prop) (p p' : Property Descriptor) : Prop :=
  p'.wireKey = p.wireKey ∧ p'.typedKey = p.typedKey ∧ R p.descriptor p'.descriptor

namespace Property

variable {R S : Descriptor → Descriptor → Prop} {p p' : Property Descriptor}

theorem Related.refl (hR : ∀ d, R d d) (p : Property Descriptor) : Related R p p :=
  ⟨rfl, rfl, hR p.descriptor⟩

theorem Related.mono (hRS : ∀ d d', R d d' → S d d') (h : Related R p p') : Related S p p' :=
  ⟨h.1, h.2.1, hRS _ _ h.2.2⟩

theorem Related.flip (hRS : ∀ d d', R d d' → S d' d) (h : Related R p p') : Related S p' p :=
  ⟨h.1.symm, h.2.1.symm, hRS _ _ h.2.2⟩

theorem Related.inputKey (h : Related R p p') (direction : Direction) :
    direction.inputKey p' = direction.inputKey p := by
  cases direction with
  | decode => exact h.1
  | encode => exact h.2.1

theorem Related.outputKey (h : Related R p p') (direction : Direction) :
    direction.outputKey p' = direction.outputKey p := by
  cases direction with
  | decode => exact h.2.1
  | encode => exact h.1

/-- Properties that correspond are declared under the same keys. -/
theorem map_inputKey_of_related {ps ps' : List (Property Descriptor)}
    (h : List.Forall₂ (Related R) ps ps') (direction : Direction) :
    ps'.map direction.inputKey = ps.map direction.inputKey := by
  induction h with
  | nil => rfl
  | cons hp _ ih => rw [List.map_cons, List.map_cons, hp.inputKey direction, ih]

end Property

/-- Additional keys are refused by both, or allowed by both as related descriptors. -/
inductive Additional.Related (R : Descriptor → Descriptor → Prop) :
    Additional Descriptor → Additional Descriptor → Prop
  | reject : Related R .reject .reject
  | allow {d d'} (h : R d d') : Related R (.allow d) (.allow d')

namespace Additional

variable {R S : Descriptor → Descriptor → Prop} {x x' : Additional Descriptor}

theorem Related.refl (hR : ∀ d, R d d) : ∀ x : Additional Descriptor, Related R x x
  | .reject => .reject
  | .allow d => .allow (hR d)

theorem Related.mono (hRS : ∀ d d', R d d' → S d d') (h : Related R x x') : Related S x x' := by
  cases h with
  | reject => exact .reject
  | allow h => exact .allow (hRS _ _ h)

theorem Related.flip (hRS : ∀ d d', R d d' → S d' d) (h : Related R x x') : Related S x' x := by
  cases h with
  | reject => exact .reject
  | allow h => exact .allow (hRS _ _ h)

theorem Related.exists_allow (h : Related R x x') {d : Descriptor} (hx : x = .allow d) :
    ∃ d', x' = .allow d' ∧ R d d' := by
  cases h with
  | reject => cases hx
  | allow h =>
    cases hx
    exact ⟨_, rfl, h⟩

end Additional

namespace PropertyIndex

variable {R : Descriptor → Descriptor → Prop}

theorem entriesFrom_of_related {ps ps' : List (Property Descriptor)}
    (h : List.Forall₂ (Property.Related R) ps ps') (direction : Direction) (position : Nat) :
    entriesFrom direction position ps' = entriesFrom direction position ps := by
  induction h generalizing position with
  | nil => rfl
  | cons hp _ ih =>
    rw [entriesFrom, entriesFrom, hp.inputKey direction, hp.outputKey direction, ih]

/-- Properties that correspond have the same index. -/
theorem ofProperties_of_related {ps ps' : List (Property Descriptor)}
    (h : List.Forall₂ (Property.Related R) ps ps') (direction : Direction) :
    ofProperties ps' direction = ofProperties ps direction := by
  rw [ofProperties, ofProperties, entriesFrom_of_related h]

end PropertyIndex

/-- Whether a descriptor is no name and has no descriptor in it. -/
def Walk.IsLeaf : Descriptor → Prop
  | .ref _ | .union _ | .array _ | .object _ _ => False
  | _ => True

namespace Descriptor

/-- The same descriptor, but for those in it, which are related. -/
inductive Congruent (R : Descriptor → Descriptor → Prop) : Descriptor → Descriptor → Prop
  | leaf {d} (hd : Walk.IsLeaf d) : Congruent R d d
  | ref (name : String) : Congruent R (.ref name) (.ref name)
  | union {members members'} (h : List.Forall₂ R members members') :
    Congruent R (.union members) (.union members')
  | array {item item'} (h : R item item') : Congruent R (.array item) (.array item')
  | object {properties properties' additional additional'}
    (hp : List.Forall₂ (Property.Related R) properties properties')
    (hx : Additional.Related R additional additional') :
    Congruent R (.object properties additional) (.object properties' additional')

section Congruent

variable {R S : Descriptor → Descriptor → Prop} {d d' : Descriptor}

theorem Congruent.mono (hRS : ∀ d d', R d d' → S d d') (h : Congruent R d d') :
    Congruent S d d' := by
  cases h with
  | leaf hd => exact .leaf hd
  | ref name => exact .ref name
  | union h => exact .union (h.imp hRS)
  | array h => exact .array (hRS _ _ h)
  | object hp hx => exact .object (hp.imp fun _ _ h => h.mono hRS) (hx.mono hRS)

theorem Congruent.flip (hRS : ∀ d d', R d d' → S d' d) (h : Congruent R d d') :
    Congruent S d' d := by
  cases h with
  | leaf hd => exact .leaf hd
  | ref name => exact .ref name
  | union h => exact .union (h.imp hRS).flip
  | array h => exact .array (hRS _ _ h)
  | object hp hx => exact .object (hp.imp fun _ _ h => h.flip hRS).flip (hx.flip hRS)

/-- Where descriptors are related to themselves, they are congruent to themselves. -/
theorem Congruent.refl (hR : ∀ d, R d d) : ∀ d, Congruent R d d
  | .ref name => .ref name
  | .union _ => .union (List.forall₂_same.mpr fun m _ => hR m)
  | .array item => .array (hR item)
  | .object _ additional =>
    .object (List.forall₂_same.mpr fun p _ => .refl hR p) (.refl hR additional)
  | .any | .null | .never | .undefined | .date | .primitive _ | .literal _ | .enum _ =>
    .leaf trivial

end Congruent

/-! ### Rules that are applied throughout a descriptor -/

/-- The second descriptor is the first one with a rule applied in any number of places. At each
place the parts may differ in turn, whether or not the rule is applied there; they are related
by some `R` that relates nothing else, and the rule may ask of its parts what it likes. -/
inductive Throughout (Rule : (Descriptor → Descriptor → Prop) → Descriptor → Descriptor → Prop) :
    Descriptor → Descriptor → Prop
  | same (d : Descriptor) : Throughout Rule d d
  | parts {R : Descriptor → Descriptor → Prop} {d d'} (h : Congruent R d d')
    (hR : ∀ e e', R e e' → Throughout Rule e e') : Throughout Rule d d'
  | rule {R : Descriptor → Descriptor → Prop} {d d'} (h : Rule R d d')
    (hR : ∀ e e', R e e' → Throughout Rule e e') : Throughout Rule d d'

namespace Throughout

variable {Rule Rule' : (Descriptor → Descriptor → Prop) → Descriptor → Descriptor → Prop}
  {d d' : Descriptor}

theorem of_congruent (h : Congruent (Throughout Rule) d d') : Throughout Rule d d' :=
  .parts h fun _ _ h => h

theorem of_rule (h : Rule (Throughout Rule) d d') : Throughout Rule d d' := .rule h fun _ _ h => h

/-- The parts of a descriptor were rewritten, or the rule was applied to it. -/
theorem congruent_or_rule (hmono : Monotone Rule) (h : Throughout Rule d d') :
    Congruent (Throughout Rule) d d' ∨ Rule (Throughout Rule) d d' := by
  cases h with
  | same => exact .inl (.refl .same d)
  | parts h hR => exact .inl (h.mono hR)
  | rule h hR => exact .inr (hmono hR d d' h)

/-- What a rule gives, a rule that is applicable more often gives, too. -/
theorem imp (hrule : ∀ R d d', Rule R d d' → Rule' R d d') (h : Throughout Rule d d') :
    Throughout Rule' d d' := by
  induction h with
  | same d => exact .same d
  | parts h _ ih => exact .parts (h.mono ih) fun _ _ h => h
  | rule h hR ih => exact .rule (hrule _ _ _ h) ih

/-- **A rule that can be undone can be undone throughout a descriptor.** -/
theorem symm (hrule : ∀ {R S : Descriptor → Descriptor → Prop}, (∀ d d', R d d' → S d' d) →
    ∀ {d d'}, Rule R d d' → Rule S d' d) (h : Throughout Rule d d') : Throughout Rule d' d := by
  induction h with
  | same d => exact .same d
  | parts h _ ih => exact .of_congruent (h.flip ih)
  | rule h _ ih => exact .of_rule (hrule ih h)

end Throughout

end Descriptor
end Wireform
