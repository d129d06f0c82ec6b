/-
# Tables written in JSON

A table is an object whose members are descriptor documents. A name that stands
twice keeps its first place and takes the last document, but every document must
be valid. The first faulty member is reported.

From a text, members are read and judged one after the other, so a document that
is no descriptor is reported before a fault further on, and what follows the
closing brace is not read. The position of such a report lies after the value,
the blanks behind it and a closing brace, if one comes next.

Key definitions: `Table.ofText`, `Table.ofJson`.
-/
import Wireform.Descriptor.Document
import Wireform.Json.Reader
import Wireform.Table.Basic

namespace Wireform
namespace Table

/-- What stands where an object was expected. -/
def found : Json → Found
  | .null => .null
  | .bool b => .boolean b
  | .number n => .number n
  | .string s => .string s
  | .array _ => .sequence
  | .object _ => .sequence

/-! ### From a document -/

/-- The definitions of members that are all descriptor documents. -/
def definitionsOf : List (String × Json) → Except SchemaError (List (String × Descriptor))
  | [] => .ok []
  | (name, v) :: rest =>
    match Descriptor.ofJson? v with
    | none => .error (.malformed [.key name] .notDescriptor none)
    | some d => do
      let ds ← definitionsOf rest
      .ok ((name, d) :: ds)

/-- The table of a document. -/
def ofJson : Json → Except SchemaError Table
  | .object members => do
    let ds ← definitionsOf members
    build (Keyed.ofList ds)
  | v => .error (.malformed [] (.notObject (found v)) none)

/-! ### From a text -/

/-- The error of a flaw after which `ahead` was unread. -/
def malformedAt (text : List Char) (path : List Step) (flaw : DocumentFlaw) (ahead : List Char) :
    SchemaError :=
  .malformed path flaw (some (Position.locate text (byteCount text - byteCount ahead)))

/-- The error of a fault in the JSON of a table. -/
def ofFault (text : List Char) (f : Fault) : SchemaError :=
  .malformed f.trail (.notJson f.flaw) (some (f.position text))

/-- The result of a reader, its fault as a schema error. -/
def reading {α : Type} (text : List Char) : Except Fault α → Except SchemaError α
  | .ok a => .ok a
  | .error f => .error (ofFault text f)

/-- What is ahead after blanks and a closing brace. -/
def skipBrace (s : List Char) : List Char :=
  match Json.Reader.skipBlanks s with
  | '\x7d' :: ahead => ahead
  | s => s

/-- The definitions of a text from a member on, to the closing brace. -/
def definitionsFrom (text : List Char) (inner : List Char → Except Fault (Json × List Char)) :
    Nat → List Char → Except SchemaError (List (String × Descriptor))
  | 0, s => .error (malformedAt text [.unnamed] (.notJson .endOfObject) s)
  | fuel + 1, s => do
    let ((name, v), s) ← reading text (Json.Reader.member inner s)
    match Descriptor.ofJson? v with
    | none => .error (malformedAt text [.key name] .notDescriptor (skipBrace s))
    | some d => do
      let (more, s) ← reading text (Json.Reader.nextMember s)
      if more then do
        let ds ← definitionsFrom text inner fuel s
        .ok ((name, d) :: ds)
      else .ok [(name, d)]

/-- The definitions of a text after its opening brace. -/
def definitionsIn (text s : List Char) : Except SchemaError (List (String × Descriptor)) :=
  match Json.Reader.skipBlanks s with
  | '\x7d' :: _ => .ok []
  | [] => .error (malformedAt text [.unnamed] (.notJson .endOfObject) [])
  | s => definitionsFrom text (Json.Reader.value (Json.nestingLimit - 1)) s.length s

/-- The table of a text. -/
def ofText (source : String) : Except SchemaError Table :=
  let text := source.toList
  match Json.Reader.skipBlanks text with
  | '\x7b' :: s => do
    let ds ← definitionsIn text s
    build (Keyed.ofList ds)
  | '[' :: s => .error (malformedAt text [] (.notObject .sequence) ('[' :: s))
  | s => do
    let (v, ahead) ← reading text (Json.Reader.valueWith none s)
    .error (malformedAt text [] (.notObject (found v)) ahead)

end Table
end Wireform
