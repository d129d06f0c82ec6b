/-
# Descriptors

A descriptor says what a value must look like and, for objects, how its keys are
renamed between the wire form and the typed form. Descriptors refer to each other
by name, so a set of them may be declared in any order and may be recursive.

The words of a descriptor stand in messages and listings. A union of a missing property
and one other descriptor reads as an optional one.

Key definitions: `Descriptor`, `Property`, `Additional`, `Kind`, `Descriptor.size`,
`Descriptor.name`.
-/
import Wireform.Json.Printer

namespace Wireform

/-- The kind of a scalar that is checked and left as it is. -/
inductive Kind where
  | string
  | number
  | boolean
deriving DecidableEq

namespace Kind

/-- All kinds. -/
def all : List Kind := [.string, .number, .boolean]

/-- The name of a kind. -/
def name : Kind → String
  | .string => "string"
  | .number => "number"
  | .boolean => "boolean"

/-- Whether a value is of a kind; no kind is coerced into another. -/
def admits : Kind → Json → Bool
  | .string, .string _ => true
  | .number, .number _ => true
  | .boolean, .bool _ => true
  | _, _ => false

end Kind

/-- A declared property of an object: its key in the wire form, its key in the
typed form, and what its value must look like. -/
structure Property (δ : Type) where
  wireKey : String
  typedKey : String
  descriptor : δ

/-- What becomes of keys that an object shape does not declare. -/
inductive Additional (δ : Type) where
  | reject
  | allow (descriptor : δ)

/-- What a value must look like. -/
inductive Descriptor where
  | primitive (kind : Kind)
  /-- Anything, a missing property included. -/
  | any
  /-- Exactly `null`. -/
  | null
  /-- Nothing at all. -/
  | never
  /-- Only a missing property. -/
  | undefined
  /-- `null`, or a string that holds a date. -/
  | date
  /-- Nothing; only puts an expectation into words. -/
  | literal (text : String)
  /-- What the table defines under the name. -/
  | ref (name : String)
  /-- The first member that accepts the value. -/
  | union (members : List Descriptor)
  /-- One of the listed values. -/
  | enum (cases : List Json)
  | array (item : Descriptor)
  | object (properties : List (Property Descriptor)) (additional : Additional Descriptor)

instance : Inhabited Descriptor := ⟨.any⟩

namespace Descriptor

/-- An `inner` or a missing property. -/
def optional (inner : Descriptor) : Descriptor := .union [.undefined, inner]

/-- An object without declared properties whose every value is a `value`. -/
def map (value : Descriptor) : Descriptor := .object [] (.allow value)

mutual

/-- How many descriptors stand in a descriptor, itself included. -/
def size : Descriptor → Nat
  | .union members => sizeMembers members + 1
  | .array item => size item + 1
  | .object properties additional => sizeProperties properties + sizeAdditional additional + 1
  | _ => 1

/-- The sizes of the members together. -/
def sizeMembers : List Descriptor → Nat
  | [] => 0
  | d :: ds => size d + sizeMembers ds

/-- The sizes of the property types together. -/
def sizeProperties : List (Property Descriptor) → Nat
  | [] => 0
  | ⟨_, _, d⟩ :: ps => size d + sizeProperties ps

/-- The size of the descriptor of additional keys. -/
def sizeAdditional : Additional Descriptor → Nat
  | .reject => 0
  | .allow d => size d

end

mutual

/-- Structural equality; cases of an enum are equal as documents. -/
def same : Descriptor → Descriptor → Bool
  | .primitive a, .primitive b => a == b
  | .any, .any => true
  | .null, .null => true
  | .never, .never => true
  | .undefined, .undefined => true
  | .date, .date => true
  | .literal a, .literal b => a == b
  | .ref a, .ref b => a == b
  | .union a, .union b => sameMembers a b
  | .enum a, .enum b => Json.sameItems a b
  | .array a, .array b => same a b
  | .object a x, .object b y => sameProperties a b && sameAdditional x y
  | _, _ => false

/-- Structural equality, member by member. -/
def sameMembers : List Descriptor → List Descriptor → Bool
  | [], [] => true
  | a :: as, b :: bs => same a b && sameMembers as bs
  | _, _ => false

/-- Structural equality, property by property. -/
def sameProperties : List (Property Descriptor) → List (Property Descriptor) → Bool
  | [], [] => true
  | ⟨w, t, a⟩ :: ps, q :: qs =>
    w == q.wireKey && t == q.typedKey && same a q.descriptor && sameProperties ps qs
  | _, _ => false

/-- Structural equality of what additional keys must look like. -/
def sameAdditional : Additional Descriptor → Additional Descriptor → Bool
  | .reject, .reject => true
  | .allow a, .allow b => same a b
  | _, _ => false

end

/-- Whether a value is the case of an enum: two numbers by their value, so `1` is
`1.0`, anything else as documents. -/
def isCase : Json → Json → Bool
  | .number a, .number b => a.same b
  | a, b => a.same b

end Descriptor

/-! ### Descriptors in words -/

namespace Descriptor

/-- The case of an enum in words: a string as it is, anything else as JSON. -/
def caseName : Json → String
  | .string s => s
  | v => v.compact

/-- A choice in words. -/
def oneOf (names : List String) : String := "one of [" ++ ", ".intercalate names ++ "]"

mutual

/-- A descriptor in words. -/
def name : Descriptor → String
  | .primitive kind => kind.name
  | .any => "any"
  | .null => "null"
  | .never => "never"
  | .undefined => "undefined"
  | .date => "Date"
  | .literal text => text
  | .ref target => target
  | .union [.undefined, inner] => "an optional " ++ name inner
  | .union members => oneOf (memberNames members)
  | .enum cases => oneOf (cases.map caseName)
  | .array _ => "array"
  | .object _ _ => "object"

/-- The members of a union in words. -/
def memberNames : List Descriptor → List String
  | [] => []
  | d :: ds => name d :: memberNames ds

end

/-- A union that is no optional is a choice in words. -/
theorem name_union {members : List Descriptor} (h : ∀ inner, members ≠ [.undefined, inner]) :
    name (.union members) = oneOf (memberNames members) := by
  rw [name]
  exact fun inner he => h inner he

end Descriptor

end Wireform
