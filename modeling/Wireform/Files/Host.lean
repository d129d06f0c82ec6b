/-
# Files from the outside

What a run asks of its surroundings: files, directories and standard input, in
any monad. A run against real files and a run against a tree of files in memory
are the same program with another host.

Paths are written with slashes. A blank component and a component `.` mean nothing,
except for a `.` at the very front, which is kept in the text of a parent.

Key definitions: `FilePath.components`, `FilePath.parent?`, `FilePath.join`, `FileFault`,
`Host`, `Host.readText`.
-/

namespace Wireform

/-! ### Paths -/

namespace FilePath

/-- The components of a path, with those that mean nothing. -/
def components (path : String) : List String :=
  (path.toList.splitOn '/').map String.ofList

/-- Whether a path starts at the root of all files. -/
def isAbsolute (path : String) : Bool := path.startsWith "/"

/-- A component that leads nowhere. -/
def isIdle (component : String) : Bool := component == "" || component == "."

/-- Components, last first, without those at the end of the path that mean nothing. -/
def dropIdle : List String → List String
  | [] => []
  | [c] => if c = "" then [] else [c]
  | c :: cs => if isIdle c then dropIdle cs else c :: cs

/-- The path of the directory that a path lies in; none for the root. -/
def parent? (path : String) : Option String :=
  match dropIdle (components path).reverse with
  | [] => none
  | _ :: above =>
    let text := "/".intercalate (dropIdle above).reverse
    some (if text = "" ∧ isAbsolute path then "/" else text)

/-- The path without slashes at its end. -/
def withoutSlashes (path : String) : String :=
  String.ofList (path.toList.reverse.dropWhile (· == '/')).reverse

/-- A path below another one. -/
def join (path component : String) : String :=
  if path = "" ∨ path.endsWith "/" then path ++ component else path ++ "/" ++ component

end FilePath

/-! ### Hosts -/

/-- Why a file or a directory could not be used. -/
inductive FileFault where
  | notFound
  | notDirectory
  | isDirectory
  | alreadyExists
  | notText
  | other (text : String)
deriving DecidableEq

/-- The wording of a file fault. -/
def FileFault.text : FileFault → String
  | .notFound => "No such file or directory (os error 2)"
  | .notDirectory => "Not a directory (os error 20)"
  | .isDirectory => "Is a directory (os error 21)"
  | .alreadyExists => "File exists (os error 17)"
  | .notText => "stream did not contain valid UTF-8"
  | .other text => text

/-- What a run asks of its surroundings. -/
structure Host (m : Type → Type) where
  readFile : String → m (Except FileFault ByteArray)
  /-- What is left of standard input. -/
  readInput : m (Except FileFault ByteArray)
  pathExists : String → m Bool
  isDirectory : String → m Bool
  /-- The names in a directory, in any order; none if it is no directory. -/
  listDirectory : String → m (List String)
  /-- Creates a directory whose parent exists. -/
  createDirectory : String → m (Except FileFault Unit)
  writeFile : String → String → m (Except FileFault Unit)

/-- The text of bytes that are UTF-8. -/
def decodeText : Except FileFault ByteArray → Except FileFault String
  | .error f => .error f
  | .ok bytes =>
    match String.fromUTF8? bytes with
    | some text => .ok text
    | none => .error .notText

namespace Host

variable {m : Type → Type} [Monad m]

/-- The text of a file. -/
def readText (host : Host m) (path : String) : m (Except FileFault String) := do
  return decodeText (← host.readFile path)

/-- The text that is left of standard input. -/
def readInputText (host : Host m) : m (Except FileFault String) := do
  return decodeText (← host.readInput)

end Host
end Wireform
