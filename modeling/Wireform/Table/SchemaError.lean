/-
# What can be wrong with a table

A table is checked before any document is seen. What a check finds is a value of
`SchemaError`; the wording is in `SchemaError.text`.

Key definitions: `SchemaError`, `DocumentFlaw`, `SchemaError.text`.
-/
import Wireform.Descriptor.Basic
import Wireform.Json.Fault
import Wireform.Text.Quoted

namespace Wireform

/-- One of the two forms of a document. -/
inductive Side where
  | wire
  | typed
deriving DecidableEq

/-- The name of a form. -/
def Side.name : Side → String
  | .wire => "wire"
  | .typed => "typed"

/-- What stands where an object was expected. -/
inductive Found where
  | null
  | boolean (value : Bool)
  | number (value : Number)
  | string (text : String)
  | sequence

/-- The wording of what was found. -/
def Found.text : Found → String
  | .null => "null"
  | .boolean true => "boolean `true`"
  | .boolean false => "boolean `false`"
  | .number (.whole n) => "integer `" ++ String.ofList (Number.whole n).text ++ "`"
  | .number (.double d) => "floating point `" ++ String.ofList (Number.double d).text ++ "`"
  | .string s => "string " ++ Text.quoted s
  | .sequence => "sequence"

/-- What can be wrong with a table that is written in JSON. -/
inductive DocumentFlaw where
  /-- The text is not JSON. -/
  | notJson (flaw : Flaw)
  /-- The table is not an object. -/
  | notObject (found : Found)
  /-- A member is not a descriptor document. -/
  | notDescriptor

/-- The wording of a flaw in a table that is written in JSON. -/
def DocumentFlaw.text : DocumentFlaw → String
  | .notJson flaw => flaw.text
  | .notObject found => "invalid type: " ++ found.text ++ ", expected a map"
  | .notDescriptor => "data did not match any variant of untagged enum DescriptorDef"

/-- What can be wrong with a table, or with the name of a type. -/
inductive SchemaError where
  /-- A definition names a type that is not defined. -/
  | unresolvedRef (owner target : String)
  /-- An object shape declares a key of one form twice. -/
  | duplicateKey (owner key : String) (side : Side)
  /-- A name is defined twice. -/
  | duplicateType (name : String)
  /-- The definitions that are directly another name go on without end. -/
  | refCycle (name : String)
  /-- A name that was asked for is not defined. -/
  | unknownType (name : String)
  /-- The JSON form is faulty; a text has the position of the fault. -/
  | malformed (path : List Step) (flaw : DocumentFlaw) (position : Option Position)
  /-- The file of a table could not be read. -/
  | unreadable (file cause : String)

/-- The wording of a schema error. -/
def SchemaError.text : SchemaError → String
  | .unresolvedRef owner target =>
    "type " ++ Text.quoted owner ++ " references undefined type " ++ Text.quoted target
  | .duplicateKey owner key side =>
    "type " ++ Text.quoted owner ++ " declares the " ++ side.name ++ " key " ++ Text.quoted key ++
      " more than once"
  | .duplicateType name => "type " ++ Text.quoted name ++ " is defined more than once"
  | .refCycle name =>
    "type " ++ Text.quoted name ++ " is an alias cycle that never reaches a concrete descriptor"
  | .unknownType name => "unknown type " ++ Text.quoted name
  | .malformed path flaw position =>
    "malformed descriptor table at " ++ Step.pathText path ++ ": " ++ flaw.text ++
      (position.map Position.text).getD ""
  | .unreadable file cause => "failed to read descriptor table " ++ file ++ ": " ++ cause

end Wireform
