/-
# Arguments of the command line

Options come in any order: `--name value`, `--name=value`, `-n value`, `-nvalue` or
`-n=value`. A value that stands alone does not start with a hyphen, except for the
hyphen itself. Every option is given at most once, but `--input` may be repeated
and takes all values up to the next option. What is not understood makes the whole
line unusable.

Key definitions: `Command`, `ConvertOptions`, `Command.ofArguments?`.
-/
import Wireform.Descriptor.Index
import Wireform.Engine.Basic

namespace Wireform
namespace Cli

/-- What a conversion is asked for. -/
structure ConvertOptions where
  schema : String
  maxDepth : Nat
  /-- One document a line. -/
  ndjson : Bool
  /-- Selects a part of each document. -/
  pointer : Option String
  /-- Makes new documents of each document. -/
  filter : Option String
  /-- Paths, patterns, and `-` for standard input. -/
  inputs : List String
  root : String
  /-- Standard output if absent. -/
  out : Option String
  dryRun : Bool

/-- What a command line asks for. -/
inductive Command where
  | convert (direction : Direction) (options : ConvertOptions)
  | check (schema : String) (maxDepth : Nat)
  | version
  | help

/-- An option by its name. -/
inductive OptionName where
  | schema
  | maxDepth
  | ndjson
  | pointer
  | filter
  | input
  | root
  | out
  | dryRun
  | help
deriving DecidableEq

namespace OptionName

/-- The option of a long name. -/
def ofLong? (name : String) : Option OptionName :=
  match name with
  | "schema" => some .schema
  | "max-depth" => some .maxDepth
  | "ndjson" => some .ndjson
  | "json-pointer" => some .pointer
  | "jq-expr" => some .filter
  | "input" => some .input
  | "root" => some .root
  | "out" => some .out
  | "dry-run" => some .dryRun
  | "help" => some .help
  | _ => none

/-- The option of a letter. -/
def ofShort? (c : Char) : Option OptionName :=
  match c with
  | 's' => some .schema
  | 'i' => some .input
  | 'o' => some .out
  | 'h' => some .help
  | _ => none

/-- Whether an option takes a value. -/
def takesValue : OptionName → Bool
  | .ndjson => false
  | .dryRun => false
  | .help => false
  | _ => true

/-- Whether a check of a table knows an option. -/
def ofCheck : OptionName → Bool
  | .schema => true
  | .maxDepth => true
  | .help => true
  | _ => false

end OptionName

/-- The options that were given so far. -/
structure Draft where
  schema : Option String
  maxDepth : Option Nat
  ndjson : Bool
  pointer : Option String
  filter : Option String
  inputs : List String
  root : Option String
  out : Option String
  dryRun : Bool

/-- No options. -/
def Draft.empty : Draft := ⟨none, none, false, none, none, [], none, none, false⟩

/-- A natural below `2 ^ 64` in decimal, with a plus sign or without. -/
def natural? (text : String) : Option Nat :=
  let digits := match text.toList with
    | '+' :: cs => cs
    | cs => cs
  let n := Text.ofDigits digits
  if digits.isEmpty ∨ !digits.all Text.isDigit ∨ 0x10000000000000000 ≤ n then none else some n

/-- A value for an option that has none yet. -/
def fresh {α : Type} (old : Option α) (new : α) : Option (Option α) :=
  match old with
  | none => some (some new)
  | some _ => none

/-- The options with one more; `none` if it was given before or its value is unusable. -/
def Draft.add (d : Draft) (name : OptionName) (values : List String) : Option Draft :=
  match name, values with
  | .schema, [v] => if v = "" then none else (fresh d.schema v).map fun x => { d with schema := x }
  | .maxDepth, [v] => do
    let n ← natural? v
    let x ← fresh d.maxDepth n
    some { d with maxDepth := x }
  | .ndjson, [] => if d.ndjson then none else some { d with ndjson := true }
  | .pointer, [v] => (fresh d.pointer v).map fun x => { d with pointer := x }
  | .filter, [v] => (fresh d.filter v).map fun x => { d with filter := x }
  | .input, v :: vs => some { d with inputs := d.inputs ++ v :: vs }
  | .root, [v] => (fresh d.root v).map fun x => { d with root := x }
  | .out, [v] => if v = "" then none else (fresh d.out v).map fun x => { d with out := x }
  | .dryRun, [] => if d.dryRun then none else some { d with dryRun := true }
  | _, _ => none

/-- Options read so far, and the one that may take the next value with the values it has. -/
structure Scan where
  draft : Draft
  pending : Option (OptionName × List String)

/-- How a list of arguments ends early. -/
inductive Stop where
  | unusable
  | help

/-- The options with the pending one. -/
def Scan.close (s : Scan) : Except Stop Draft :=
  match s.pending with
  | none => .ok s.draft
  | some (name, values) =>
    match s.draft.add name values with
    | some d => .ok d
    | none => .error .unusable

/-- A value that stands alone. -/
def Scan.takeValue (s : Scan) (v : String) : Except Stop Scan :=
  match s.pending with
  | none => .error .unusable
  | some (name, values) =>
    if name = .input ∨ values = [] then .ok { s with pending := some (name, values ++ [v]) }
    else .error .unusable

/-- An option with the value attached to it, if there is one. -/
def Scan.takeOption (s : Scan) (name : OptionName) (attached : Option String) :
    Except Stop Scan := do
  let d ← s.close
  match attached with
  | some v =>
    if name.takesValue then
      match d.add name [v] with
      | some d => .ok ⟨d, none⟩
      | none => .error .unusable
    else .error .unusable
  | none =>
    if name = .help then .error .help
    else if name.takesValue then .ok ⟨d, some (name, [])⟩
    else
      match d.add name [] with
      | some d => .ok ⟨d, none⟩
      | none => .error .unusable

/-- A long option, without its hyphens. -/
def Scan.takeLong (s : Scan) (known : OptionName → Bool) (text : List Char) : Except Stop Scan :=
  let name := String.ofList (text.takeWhile (· ≠ '='))
  let attached := match text.dropWhile (· ≠ '=') with
    | _ :: value => some (String.ofList value)
    | [] => none
  match OptionName.ofLong? name with
  | some name => if known name then s.takeOption name attached else .error .unusable
  | none => .error .unusable

/-- A short option, without its hyphen. -/
def Scan.takeShort (s : Scan) (known : OptionName → Bool) (c : Char) (rest : List Char) :
    Except Stop Scan :=
  match OptionName.ofShort? c with
  | some name =>
    if !known name then .error .unusable
    else if name.takesValue then
      s.takeOption name (match rest with
        | [] => none
        | '=' :: value => some (String.ofList value)
        | value => some (String.ofList value))
    else s.takeOption name none
  | none => .error .unusable

/-- Reads arguments one after the other. -/
def Scan.run (known : OptionName → Bool) : Scan → List String → Except Stop Draft
  | s, [] => s.close
  | s, arg :: args =>
    match arg.toList with
    | ['-', '-'] => if args.isEmpty then s.close else .error .unusable
    | '-' :: '-' :: text => do
      let s ← s.takeLong known text
      Scan.run known s args
    | '-' :: c :: rest => do
      let s ← s.takeShort known c rest
      Scan.run known s args
    | _ => do
      let s ← s.takeValue arg
      Scan.run known s args

/-- The conversion that options ask for, if the required ones are there. -/
def Draft.convert? (d : Draft) : Option ConvertOptions := do
  let schema ← d.schema
  let root ← d.root
  if d.inputs = [] then none
  else
    some ⟨schema, d.maxDepth.getD Engine.defaultMaxDepth, d.ndjson, d.pointer, d.filter, d.inputs,
      root, d.out, d.dryRun⟩

/-- A conversion with its options. -/
def convertCommand (direction : Direction) (args : List String) : Option Command :=
  match Scan.run (fun _ => true) ⟨.empty, none⟩ args with
  | .ok d => d.convert?.map (.convert direction)
  | .error .help => some .help
  | .error .unusable => none

/-- A check of a table with its options. -/
def checkCommand (args : List String) : Option Command :=
  match Scan.run OptionName.ofCheck ⟨.empty, none⟩ args with
  | .ok d => d.schema.map fun schema => .check schema (d.maxDepth.getD Engine.defaultMaxDepth)
  | .error .help => some .help
  | .error .unusable => none

/-- The command of a list of arguments, if it is usable. -/
def Command.ofArguments? : List String → Option Command
  | [] => none
  | "decode" :: args => convertCommand .decode args
  | "encode" :: args => convertCommand .encode args
  | "check" :: args => checkCommand args
  | "help" :: _ => some .help
  | arg :: _ =>
    if arg = "--version" ∨ arg.startsWith "-V" then some .version
    else if arg = "--help" ∨ arg.startsWith "-h" then some .help
    else none

end Cli
end Wireform
