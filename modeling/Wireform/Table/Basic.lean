/-
# Tables of descriptors

A table gives names to descriptors, in the order in which they were defined. It
is checked once, when it is built: names are defined once, every name that occurs
is defined, no object shape declares a key twice, and no chain of definitions
that are directly another name goes on without end. Of several faults the first
in definition order is reported, and inside a definition what occurs in it comes
before the chain that starts there.

Key definitions: `Table`, `Table.build`, `Table.checkDescriptor`, `Table.chainLasts`.
-/
import Wireform.Table.SchemaError

namespace Wireform

/-- Named descriptors in the order of their definition. -/
structure Table where
  definitions : List (String × Descriptor)

namespace Table

/-- What a name stands for. -/
def get? (table : Table) (name : String) : Option Descriptor := table.definitions.lookup name

/-- What a name stands for, or that it is not defined. -/
def resolve (table : Table) (name : String) : Except SchemaError Descriptor :=
  match table.get? name with
  | some d => .ok d
  | none => .error (.unknownType name)

/-- The defined names, in order. -/
def names (table : Table) : List String := Keyed.keys table.definitions

/-- How many types are defined. -/
def size (table : Table) : Nat := table.definitions.length

/-- How many descriptors stand in the definitions together. -/
def weight (table : Table) : Nat := table.definitions.foldr (fun e rest => e.2.size + rest) 0

/-! ### Checks -/

/-- The first key of one form that the properties declare a second time. -/
def checkKeys (owner : String) (side : Side) (keys : List String) : Except SchemaError Unit :=
  match Keyed.firstRepeated [] keys with
  | some key => .error (.duplicateKey owner key side)
  | none => .ok ()

mutual

/-- Checks names and keys in a descriptor that belongs to `owner`. -/
def checkDescriptor (table : Table) (owner : String) : Descriptor → Except SchemaError Unit
  | .ref target =>
    if (table.get? target).isSome then .ok () else .error (.unresolvedRef owner target)
  | .union members => checkMembers table owner members
  | .array item => checkDescriptor table owner item
  | .object properties additional => do
    checkKeys owner .wire (properties.map (·.wireKey))
    checkKeys owner .typed (properties.map (·.typedKey))
    checkProperties table owner properties
    checkAdditional table owner additional
  | _ => .ok ()

/-- Checks the members of a union, in order. -/
def checkMembers (table : Table) (owner : String) : List Descriptor → Except SchemaError Unit
  | [] => .ok ()
  | d :: ds => do
    checkDescriptor table owner d
    checkMembers table owner ds

/-- Checks the types of properties, in order. -/
def checkProperties (table : Table) (owner : String) :
    List (Property Descriptor) → Except SchemaError Unit
  | [] => .ok ()
  | ⟨_, _, d⟩ :: ps => do
    checkDescriptor table owner d
    checkProperties table owner ps

/-- Checks the descriptor of additional keys. -/
def checkAdditional (table : Table) (owner : String) :
    Additional Descriptor → Except SchemaError Unit
  | .reject => .ok ()
  | .allow d => checkDescriptor table owner d

end

/-- Whether the chain of definitions that are directly another name goes on for
so many steps from a name. -/
def chainLasts (table : Table) : Nat → String → Bool
  | 0, _ => true
  | steps + 1, name =>
    match table.get? name with
    | some (.ref next) => chainLasts table steps next
    | _ => false

/-- Refuses a chain with more steps than there are types: it never ends. -/
def checkChain (table : Table) (name : String) : Except SchemaError Unit :=
  if chainLasts table (table.size + 1) name then .error (.refCycle name) else .ok ()

/-- Checks definitions in order. -/
def checkDefinitions (table : Table) : List (String × Descriptor) → Except SchemaError Unit
  | [] => .ok ()
  | (name, d) :: rest => do
    checkDescriptor table name d
    checkChain table name
    checkDefinitions table rest

/-- Checks a descriptor that lives outside the table but names types of it. -/
def checkExternal (table : Table) (d : Descriptor) : Except SchemaError Unit :=
  checkDescriptor table "<inline>" d

/-- The table of definitions, if nothing is wrong with them. -/
def build (definitions : List (String × Descriptor)) : Except SchemaError Table :=
  match Keyed.firstRepeated [] (Keyed.keys definitions) with
  | some name => .error (.duplicateType name)
  | none => do
    checkDefinitions ⟨definitions⟩ definitions
    .ok ⟨definitions⟩

end Table
end Wireform
