/-
# Runs

A run reads the table, looks up the root, finds all inputs, reads them, converts
every document, and only then writes the result to one place: a file or standard
output. Whatever fails on the way ends the run with a message and exit code 1. A run
in which a filter or a conversion does not end has no report.

Key definitions: `Report`, `load`, `convert`, `check`, `reported`, `invoke`.
-/
import Wireform.Cli.Documents
import Wireform.Files.Glob
import Wireform.Table.Document

namespace Wireform
namespace Cli

variable {m : Type → Type} [Monad m]

/-- What a run leaves behind besides files. -/
structure Report where
  code : Nat
  output : String
  errors : String
deriving DecidableEq

/-- Where a text is read from. -/
inductive Source where
  | standardInput
  | file (path : String)

/-- The table in a file. -/
def loadTable (host : Host m) (schema : String) : m (Except Fault Table) := do
  match ← host.readText schema with
  | .error f => return .error (.schema (.unreadable schema f.text))
  | .ok text =>
    match Table.ofText text with
    | .error e => return .error (.schema e)
    | .ok table => return .ok table

/-- The sources that one input stands for. -/
def sourcesOf (host : Host m) (input : String) : m (Except Fault (List Source)) := do
  if input = "-" then return .ok [.standardInput]
  else if Pattern.isPattern input.toList then
    match ← Glob.expand host input with
    | .error f => return .error (.pattern f)
    | .ok [] => return .error (.noMatch input)
    | .ok paths => return .ok (paths.map .file)
  else return .ok [.file input]

/-- The sources that all inputs stand for, in order. -/
def allSources (host : Host m) : List String → m (Except Fault (List Source))
  | [] => return .ok []
  | input :: inputs => do
    match ← sourcesOf host input with
    | .error f => return .error f
    | .ok sources =>
      match ← allSources host inputs with
      | .error f => return .error f
      | .ok rest => return .ok (sources ++ rest)

/-- The name of a source in messages, and its text. -/
def readSource (host : Host m) : Source → m (Except Fault (String × String))
  | .standardInput => do
    match ← host.readInputText with
    | .error f => return .error (.unreadableInput f)
    | .ok text => return .ok ("<stdin>", text)
  | .file path => do
    match ← host.readText path with
    | .error f => return .error (.unreadable path f)
    | .ok text => return .ok (path, text)

/-- The documents of all sources, in order. -/
def loadAll (filters : FilterLanguage) (host : Host m) (o : ConvertOptions) :
    List Source → m (Except Halt (List Document))
  | [] => return .ok []
  | source :: sources => do
    match ← readSource host source with
    | .error f => return .error (.fault f)
    | .ok (label, text) =>
      match documentsOf filters o label text with
      | .error halt => return .error halt
      | .ok docs =>
        match ← loadAll filters host o sources with
        | .error halt => return .error halt
        | .ok rest => return .ok (docs ++ rest)

/-- The engine of a conversion and the documents that it is to convert, in order. -/
def load (filters : FilterLanguage) (host : Host m) (o : ConvertOptions) :
    m (Except Halt (Engine × List Document)) := do
  match ← loadTable host o.schema with
  | .error f => return .error (.fault f)
  | .ok table =>
    match table.resolve o.root with
    | .error e => return .error (.fault (.schema e))
    | .ok _ =>
      match ← allSources host o.inputs with
      | .error f => return .error (.fault f)
      | .ok sources =>
        match ← loadAll filters host o sources with
        | .error halt => return .error halt
        | .ok docs => return .ok (⟨table, o.maxDepth⟩, docs)

/-- Creates a directory with those above it that are not there. -/
def createAll (host : Host m) : Nat → String → m (Except FileFault Unit)
  | 0, _ => return .ok ()
  | fuel + 1, path => do
    if path = "" then return .ok ()
    else
      match ← host.createDirectory path with
      | .ok _ => return .ok ()
      | .error .notFound =>
        match FilePath.parent? path with
        | none => return .error .notFound
        | some above =>
          match ← createAll host fuel above with
          | .error f => return .error f
          | .ok _ =>
            match ← host.createDirectory path with
            | .ok _ => return .ok ()
            | .error f => if ← host.isDirectory path then return .ok () else return .error f
      | .error f => if ← host.isDirectory path then return .ok () else return .error f

/-- Creates the directory that a path lies in. -/
def createAbove (host : Host m) (path : String) : m (Except Fault Unit) := do
  match FilePath.parent? path with
  | none => return .ok ()
  | some above =>
    match ← createAll host (above.length + 1) above with
    | .error f => return .error (.notCreated above f)
    | .ok _ => return .ok ()

/-- Writes a text to a file, after its directory was created, or else reports it as
output on a line of its own. -/
def deliver (host : Host m) (out : Option String) (text : String) : m (Except Fault Report) := do
  match out with
  | none => return .ok ⟨0, text ++ "\n", ""⟩
  | some path =>
    match ← createAbove host path with
    | .error f => return .error f
    | .ok _ =>
      match ← host.writeFile path text with
      | .error f => return .error (.notWritten path f)
      | .ok _ => return .ok ⟨0, "", ""⟩

/-- What comes of the documents of a conversion: a dry run only counts them, any other
delivers them. -/
def finish (host : Host m) (o : ConvertOptions) (vs : List Json) : m (Except Fault Report) :=
  if o.dryRun then
    return .ok ⟨0, "", "ok: " ++ toString vs.length ++ " documents match " ++ o.root ++ "\n"⟩
  else deliver host o.out (render o.ndjson vs)

/-- Converts loaded documents, and finishes with all of them. -/
def conclude (host : Host m) (direction : Direction) (o : ConvertOptions) :
    Except Halt (Engine × List Document) → m (Except Halt Report)
  | .error halt => return .error halt
  | .ok (e, docs) => do
    match convertAll e o.root direction docs with
    | .error halt => return .error halt
    | .ok vs => return (← finish host o vs).mapError .fault

/-- Converts documents and delivers the result. -/
def convert (filters : FilterLanguage) (host : Host m) (direction : Direction)
    (o : ConvertOptions) : m (Except Halt Report) := do
  conclude host direction o (← load filters host o)

/-- Lists the types of a table. -/
def check (host : Host m) (schema : String) : m (Except Fault Report) := do
  match ← loadTable host schema with
  | .error f => return .error f
  | .ok table =>
    let listing := table.definitions.map fun e => e.1 ++ " " ++ e.2.name ++ "\n"
    return .ok ⟨0, String.join listing,
      "ok: " ++ toString table.size ++ " types in " ++ schema ++ "\n"⟩

/-- How the program is used. -/
def usage : String :=
  "Usage: json-cast <decode|encode|check> [OPTIONS]\n"

/-- Runs a command. -/
def run (filters : FilterLanguage) (host : Host m) : Command → m (Except Halt Report)
  | .version => return .ok ⟨0, "json-cast 0.1.0\n", ""⟩
  | .help => return .ok ⟨0, usage, ""⟩
  | .check schema _ => return (← check host schema).mapError .fault
  | .convert direction o => convert filters host direction o

/-- The report of a run; there is none of a run that does not end. -/
def reported : Except Halt Report → Option Report
  | .ok report => some report
  | .error (.fault f) => some ⟨1, "", "error: " ++ f.text ++ "\n"⟩
  | .error .endless => none

/-- Runs the command of a list of arguments. -/
def invoke (filters : FilterLanguage) (host : Host m) (args : List String) :
    m (Option Report) := do
  match Command.ofArguments? args with
  | none => return some ⟨2, "", usage⟩
  | some command => return reported (← run filters host command)

end Cli
end Wireform
