/-
# JSON documents

A document as a tree. The members of an object stand in the order in which they
were written; a tree that comes straight from a text may hold a key twice, and
`Json.merged` gives each key once, in its first place and with its last value.

Key definitions: `Json`, `Json.merged`, `Json.nesting`, `Json.same`.
-/
import Wireform.Keyed
import Wireform.Number.Basic

namespace Wireform

/-- A JSON document. -/
inductive Json where
  | null
  | bool (value : Bool)
  | number (value : Number)
  | string (value : String)
  | array (items : List Json)
  | object (members : List (String × Json))

instance : Inhabited Json := ⟨.null⟩

namespace Json

mutual

/-- Every object with each key once, in its first place and with its last value. -/
def merged : Json → Json
  | .array items => .array (mergedItems items)
  | .object members => .object (Keyed.ofList (mergedMembers members))
  | .null => .null
  | .bool b => .bool b
  | .number n => .number n
  | .string s => .string s

/-- The items of an array, each merged. -/
def mergedItems : List Json → List Json
  | [] => []
  | v :: vs => merged v :: mergedItems vs

/-- The members of an object with their values merged. -/
def mergedMembers : List (String × Json) → List (String × Json)
  | [] => []
  | (k, v) :: rest => (k, merged v) :: mergedMembers rest

end

mutual

/-- How deep arrays and objects nest: 0 for a scalar, one more than the deepest
child for an array or an object. -/
@[simp] def nesting : Json → Nat
  | .array items => nestingItems items + 1
  | .object members => nestingMembers members + 1
  | _ => 0

/-- The greatest nesting among the items. -/
@[simp] def nestingItems : List Json → Nat
  | [] => 0
  | v :: vs => max (nesting v) (nestingItems vs)

/-- The greatest nesting among the values of the members. -/
@[simp] def nestingMembers : List (String × Json) → Nat
  | [] => 0
  | (_, v) :: rest => max (nesting v) (nestingMembers rest)

end

mutual

/-- Equality of documents: the order of the keys carries no meaning, and numbers
are equal as they are spelled (`1` is not `1.0`). -/
def same : Json → Json → Bool
  | .null, .null => true
  | .bool a, .bool b => a == b
  | .number a, .number b => a.equal b
  | .string a, .string b => a == b
  | .array a, .array b => sameItems a b
  | .object a, .object b => a.length == b.length && sameMembers a b
  | _, _ => false

/-- Equality of arrays, item by item. -/
def sameItems : List Json → List Json → Bool
  | [], [] => true
  | a :: as, b :: bs => same a b && sameItems as bs
  | _, _ => false

/-- Whether each of the members stands with an equal value in the other object. -/
def sameMembers : List (String × Json) → List (String × Json) → Bool
  | [], _ => true
  | (k, v) :: rest, other =>
    (match other.lookup k with
      | some w => same v w
      | none => false) && sameMembers rest other

end

end Json
end Wireform
