/-
# The program

Runs the command of the arguments against the files of this machine. What the run
decides is decided elsewhere; here its host is made of files and streams, and its
report is printed.

Key definitions: `machine`, `main`.
-/
import Wireform.Cli.Run
import Wireform.Filter.Run

namespace Wireform

/-- The number of an error of the system, which some calls give with a minus sign. -/
def errorNumber (code : UInt32) : Nat :=
  if code.toNat < 0x80000000 then code.toNat else 0x100000000 - code.toNat

/-- The fault that an error of the system stands for. -/
def systemFault : IO.Error → FileFault
  | .noFileOrDirectory _ _ _ => .notFound
  | .noSuchThing _ _ _ => .notFound
  | .alreadyExists _ _ _ => .alreadyExists
  | .inappropriateType _ code details =>
    match errorNumber code with
    | 20 => .notDirectory
    | 21 => .isDirectory
    | _ => .other details
  | .permissionDenied _ code _ =>
    .other ("Permission denied (os error " ++ toString (errorNumber code) ++ ")")
  | e => .other (toString e)

/-- An action with its error as a fault. -/
def attempt {α : Type} (action : IO α) : IO (Except FileFault α) := do
  try
    return .ok (← action)
  catch e =>
    return .error (systemFault e)

/-- What a stream still holds. -/
partial def readRest (stream : IO.FS.Stream) (read : ByteArray) : IO ByteArray := do
  let chunk ← stream.read 65536
  if chunk.isEmpty then return read else readRest stream (read ++ chunk)

/-- The files and streams of this machine. -/
def machine : Host IO where
  readFile path := attempt (IO.FS.readBinFile path)
  readInput := do attempt (readRest (← IO.getStdin) ByteArray.empty)
  pathExists path := do ((← IO.currentDir) / path).pathExists
  isDirectory path := do ((← IO.currentDir) / path).isDir
  listDirectory path := do
    match ← attempt ((← IO.currentDir) / path).readDir with
    | .ok entries => return entries.toList.map fun entry => entry.fileName
    | .error _ => return []
  createDirectory path := attempt (IO.FS.createDir path)
  writeFile path text := attempt (IO.FS.writeFile path text)

end Wireform

/-- Runs the command of the arguments and ends with its exit code. A run that does not end
has nothing to print and is broken off. -/
def main (args : List String) : IO UInt32 := do
  match ← Wireform.Cli.invoke Wireform.Filter.language Wireform.machine args with
  | some report =>
    IO.print report.output
    IO.eprint report.errors
    return report.code.toUInt32
  | none => return 134
