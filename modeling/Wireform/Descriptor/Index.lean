/-
# Directions and property indexes

Decoding reads wire keys and writes typed keys; encoding does the reverse. An
index lists for one direction every input key once, in the order in which the
keys are first declared, with the output key and the position of the property
that was declared last under it.

Key definitions: `Direction`, `PropertyIndex`, `PropertyIndex.ofProperties`.
-/
import Wireform.Descriptor.Basic

namespace Wireform

/-- Which of the two forms is read. -/
inductive Direction where
  /-- From the wire form to the typed form. -/
  | decode
  /-- From the typed form to the wire form. -/
  | encode
deriving DecidableEq

namespace Direction

/-- The way back. -/
def flip : Direction → Direction
  | .decode => .encode
  | .encode => .decode

/-- The key under which a property is read. -/
def inputKey {δ : Type} : Direction → Property δ → String
  | .decode, p => p.wireKey
  | .encode, p => p.typedKey

/-- The key under which a property is written. -/
def outputKey {δ : Type} : Direction → Property δ → String
  | .decode, p => p.typedKey
  | .encode, p => p.wireKey

variable {δ : Type} (p : Property δ)

@[simp] theorem inputKey_flip (direction : Direction) :
    direction.flip.inputKey p = direction.outputKey p := by
  cases direction <;> rfl

@[simp] theorem outputKey_flip (direction : Direction) :
    direction.flip.outputKey p = direction.inputKey p := by
  cases direction <;> rfl

end Direction

/-- What an index holds for an input key. -/
structure IndexEntry where
  outputKey : String
  /-- The position of the property among the declared ones. -/
  position : Nat
deriving DecidableEq

/-- Input keys with their entries, in declaration order. -/
structure PropertyIndex where
  entries : List (String × IndexEntry)

namespace PropertyIndex

variable {δ : Type}

/-- The entries of properties that stand from `position` on. -/
@[simp] def entriesFrom (direction : Direction) : Nat → List (Property δ) → List (String × IndexEntry)
  | _, [] => []
  | position, p :: rest =>
    (direction.inputKey p, ⟨direction.outputKey p, position⟩) ::
      entriesFrom direction (position + 1) rest

/-- The input keys of the entries are those of the properties. -/
@[simp] theorem keys_entriesFrom (direction : Direction) : ∀ (position : Nat)
    (ps : List (Property δ)),
    Keyed.keys (entriesFrom direction position ps) = ps.map direction.inputKey
  | _, [] => rfl
  | position, p :: ps => by
    rw [entriesFrom, Keyed.keys_cons, keys_entriesFrom direction (position + 1) ps]
    rfl

/-- The index of declared properties in a direction. -/
def ofProperties (properties : List (Property δ)) (direction : Direction) : PropertyIndex :=
  ⟨Keyed.ofList (entriesFrom direction 0 properties)⟩

/-- The entry of an input key. -/
def get? (index : PropertyIndex) (key : String) : Option IndexEntry := index.entries.lookup key

/-- Whether a key is an input key. -/
def contains (index : PropertyIndex) (key : String) : Bool := Keyed.has index.entries key

end PropertyIndex
end Wireform
