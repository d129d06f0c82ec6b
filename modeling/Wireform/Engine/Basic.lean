/-
# The engine

An engine is a table with a limit on nesting. It decodes documents from their wire
form to their typed form and encodes them back, from a type of the table or from a
descriptor that lives outside it.

Inside one level of a document a walk passes each descriptor of the table at most
once, unless definitions only lead to each other; the number of steps that an
engine grants is the number of levels times the number of descriptors. A walk that
takes more never ends. Such a conversion has no result and no message either, so it
stands apart from the complaints that a conversion can end with.

Key definitions: `Engine`, `Engine.convert`, `Engine.transform`, `Engine.decodeText`,
`Engine.encodeToText`, `Complaint`, `Failure`.
-/
import Wireform.Engine.Walk
import Wireform.Json.Reader

namespace Wireform

/-- What is wrong with what a conversion was given. -/
inductive Complaint where
  /-- The document does not match. -/
  | mismatch (m : Mismatch)
  /-- The type or the descriptor is at fault. -/
  | schema (e : SchemaError)
  /-- The text is not JSON. -/
  | notJson (f : SyntaxFault)

/-- The wording of a complaint. -/
def Complaint.text : Complaint → String
  | .mismatch m => m.text
  | .schema e => e.text
  | .notJson f => "invalid JSON text: " ++ f.text

/-- How a conversion comes to no result: it ends with a complaint, or it does not end. -/
inductive Failure where
  | complaint (c : Complaint)
  /-- The definitions only lead to each other. -/
  | endless

/-- The failure of a document that does not match. -/
@[match_pattern]
abbrev Failure.mismatch (m : Mismatch) : Failure := .complaint (.mismatch m)

/-- The failure of a type or a descriptor. -/
@[match_pattern]
abbrev Failure.schema (e : SchemaError) : Failure := .complaint (.schema e)

/-- The failure of a text that is not JSON. -/
@[match_pattern]
abbrev Failure.notJson (f : SyntaxFault) : Failure := .complaint (.notJson f)

/-- A table with a limit on nesting. -/
structure Engine where
  table : Table
  /-- How deep arrays and objects of a document may nest. -/
  maxDepth : Nat

namespace Engine

/-- The limit on nesting where none is asked for. -/
def defaultMaxDepth : Nat := 256

/-- An engine with the default limit. -/
def ofTable (table : Table) : Engine := ⟨table, defaultMaxDepth⟩

/-- The steps that a walk of a document is granted. -/
def steps (table : Table) (v : Json) (d : Descriptor) : Nat :=
  (v.nesting + 2) * (table.weight + d.size + 1)

/-- Walks a document against a descriptor. -/
def run (e : Engine) (v : Json) (d : Descriptor) (direction : Direction) : Except Failure Json :=
  let w : Walk := ⟨e.table, direction, e.maxDepth⟩
  match w.value (steps e.table v d) none d .root (some v) with
  | .ok slot => .ok (slot.getD .null)
  | .error (.mismatch m) => .error (.mismatch m)
  | .error .endless => .error .endless

/-- Converts a document of the type `root`. The walk enters through the name, so
mismatches at the top speak of it. -/
def convert (e : Engine) (v : Json) (root : String) (direction : Direction) :
    Except Failure Json :=
  match e.table.resolve root with
  | .error err => .error (.schema err)
  | .ok _ => e.run v (.ref root) direction

/-- From the wire form to the typed form. -/
def decode (e : Engine) (v : Json) (root : String) : Except Failure Json :=
  e.convert v root .decode

/-- From the typed form to the wire form. -/
def encode (e : Engine) (v : Json) (root : String) : Except Failure Json :=
  e.convert v root .encode

/-- Converts a document against a descriptor outside the table, whose names must be
types of the table. -/
def transform (e : Engine) (v : Json) (d : Descriptor) (direction : Direction) :
    Except Failure Json :=
  match e.table.checkExternal d with
  | .error err => .error (.schema err)
  | .ok _ => e.run v d direction

/-- Reads a text and decodes its document. -/
def decodeText (e : Engine) (text root : String) : Except Failure Json :=
  match Json.parse? text with
  | .error f => .error (.notJson f)
  | .ok v => e.decode v root

/-- Encodes a document and writes it with one element a line. -/
def encodeToText (e : Engine) (v : Json) (root : String) : Except Failure String :=
  match e.encode v root with
  | .error err => .error err
  | .ok w => .ok w.pretty

/-- A document converted back and forth, at most `times` times: the direction and
the result of each conversion. A result is the next document, the direction turns
around each time, and a failure is the last entry. -/
def trace (e : Engine) (root : String) :
    Nat → Json → Direction → List (Direction × Except Failure Json)
  | 0, _, _ => []
  | times + 1, v, direction =>
    match e.convert v root direction with
    | .ok w => (direction, .ok w) :: trace e root times w direction.flip
    | .error err => [(direction, .error err)]

end Engine
end Wireform
