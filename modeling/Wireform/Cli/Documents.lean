/-
# Documents of a run

The texts that a run reads hold one document each, or one document a line. A
document is then narrowed to the part that a pointer selects, and a filter may make
any number of documents of it. Each keeps the name of its source, with the line and
the number of the filter's result.

A run may be given any language of filters. What it reports are its faults; a filter or
a conversion that does not end leaves nothing to report.

Key definitions: `FilterLanguage`, `Document`, `Fault`, `Halt`, `textLines`, `documentsOf`,
`convertAll`, `render`.
-/
import Wireform.Cli.Arguments
import Wireform.Files.Host
import Wireform.Files.Pattern
import Wireform.Json.Pointer

namespace Wireform
namespace Cli

/-- What the filters of a language make of a document: documents, or the wording of what is
wrong with the filter; `none` if it does not end. -/
abbrev FilterLanguage := String → Json → Option (Except String (List Json))

/-- A document and where it came from. -/
structure Document where
  source : String
  value : Json

/-- Why a run failed. -/
inductive Fault where
  | schema (e : SchemaError)
  | pattern (f : PatternFault)
  | noMatch (input : String)
  | unreadable (label : String) (f : FileFault)
  | unreadableInput (f : FileFault)
  | notJson (label : String) (f : SyntaxFault)
  | lineNotJson (label : String) (f : SyntaxFault)
  | selectsNothing (pointer label : String)
  | filter (label cause : String)
  /-- The first document that does not convert. -/
  | conversion (label root : String) (c : Complaint)
  | notCreated (path : String) (f : FileFault)
  | notWritten (path : String) (f : FileFault)

/-- Where a document does not match, unless it is the document itself. -/
def whereText : Complaint → String
  | .mismatch m => if m.path.isRoot then "" else " at " ++ m.path.text
  | _ => ""

/-- The wording of a fault: what was done, then what went wrong. -/
def Fault.text : Fault → String
  | .schema (.unreadable file cause) => (SchemaError.unreadable file cause).text ++ ": " ++ cause
  | .schema e => e.text
  | .pattern f => f.text
  | .noMatch input => "glob pattern matched no files: " ++ input
  | .unreadable label f => "Failed to read source file (" ++ label ++ "): " ++ f.text
  | .unreadableInput f => "Failed to read stdin: " ++ f.text
  | .notJson label f => "Failed to parse JSON source file (" ++ label ++ "): " ++ f.text
  | .lineNotJson label f => "Failed to parse NDJSON line (" ++ label ++ "): " ++ f.text
  | .selectsNothing pointer label =>
    "JSON pointer " ++ pointer ++ " selects nothing in " ++ label
  | .filter label cause =>
    "Failed to apply jq expression to source file (" ++ label ++ "): " ++ cause
  | .conversion label root c =>
    label ++ whereText c ++ " does not match " ++ root ++ ": " ++ c.text
  | .notCreated path f => "Failed to create " ++ path ++ ": " ++ f.text
  | .notWritten path f => "Failed to write " ++ path ++ ": " ++ f.text

/-- How a run comes to no result: it ends with a fault, or it does not end. -/
inductive Halt where
  | fault (f : Fault)
  | endless

/-! ### Reading -/

/-- The lines of a text, without the line feed that ends each and a carriage return
before it. -/
def textLines : List Char → List (List Char)
  | [] => []
  | '\n' :: cs => [] :: textLines cs
  | '\r' :: '\n' :: cs => [] :: textLines cs
  | c :: cs =>
    match textLines cs with
    | [] => [[c]]
    | l :: ls => (c :: l) :: ls

/-- The results of a filter as documents, numbered from `position` on. -/
def numbered (source : String) : Nat → List Json → List Document
  | _, [] => []
  | position, v :: vs =>
    ⟨source ++ "#" ++ toString position, v⟩ :: numbered source (position + 1) vs

section Select

variable (filters : FilterLanguage) (o : ConvertOptions)

/-- The documents that pointer and filter make of one. -/
def select (source : String) (v : Json) : Except Halt (List Document) := do
  let v ← match o.pointer with
    | none => .ok v
    | some p =>
      match Json.pointer? p.toList v with
      | some w => .ok w
      | none => .error (.fault (.selectsNothing p source))
  match o.filter with
  | none => .ok [⟨source, v⟩]
  | some filter =>
    match filters filter v with
    | none => .error .endless
    | some (.ok vs) => .ok (numbered source 0 vs)
    | some (.error cause) => .error (.fault (.filter source cause))

/-- The documents of lines, the first of which has the given number; blank lines hold none. -/
def lineDocuments (label : String) : Nat → List (List Char) → Except Halt (List Document)
  | _, [] => .ok []
  | number, line :: lines =>
    if Text.isBlank line then lineDocuments label (number + 1) lines
    else do
      let source := label ++ ":" ++ toString number
      let v ← match Json.parse? (String.ofList line) with
        | .ok v => .ok v
        | .error f => .error (.fault (.lineNotJson source f))
      let ds ← select filters o source v
      let rest ← lineDocuments label (number + 1) lines
      .ok (ds ++ rest)

/-- The documents of a text. -/
def documentsOf (label text : String) : Except Halt (List Document) :=
  if o.ndjson then lineDocuments filters o label 1 (textLines text.toList)
  else
    match Json.parse? text with
    | .ok v => select filters o label v
    | .error f => .error (.fault (.notJson label f))

end Select

/-! ### Converting -/

/-- A document converted, or the fault that tells why it does not convert; `none` if its
conversion does not end. -/
def convertOne (e : Engine) (root : String) (direction : Direction) (d : Document) :
    Option (Except Fault Json) :=
  match e.convert d.value root direction with
  | .ok v => some (.ok v)
  | .error (.complaint c) => some (.error (.conversion d.source root c))
  | .error .endless => none

/-- Documents converted in order, or the first one that does not convert. All of them are
converted before any result is looked at, so one conversion that does not end keeps the
others from being told. -/
def convertAll (e : Engine) (root : String) (direction : Direction) (docs : List Document) :
    Except Halt (List Json) :=
  match docs.mapM (convertOne e root direction) with
  | some results => (results.mapM id).mapError .fault
  | none => .error .endless

/-- Converted documents as one text: a line each, or one document as it is and
several as one array. -/
def render (ndjson : Bool) (vs : List Json) : String :=
  if ndjson then "\n".intercalate (vs.map Json.compact)
  else
    match vs with
    | [v] => v.pretty
    | vs => (Json.array vs).pretty

end Cli
end Wireform
