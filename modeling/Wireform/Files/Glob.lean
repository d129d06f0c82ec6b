/-
# Files that match a pattern

A pattern with slashes is matched component by component from the working
directory on. A component whose characters all stand for themselves is followed
without reading the directory; any other is compared with the names in it, in
order. `**` stands for the directory itself and every directory below it. Names
that start with a dot are matched like others; `.` and `..` only by a component
that starts with a dot.

The directories below a `**` may run in a circle on real disks; the search goes
down no further than a path can be long.

Key definitions: `Glob.expand`.
-/
import Wireform.Files.Host
import Wireform.Files.Pattern

namespace Wireform
namespace Glob

variable {m : Type → Type} [Monad m]

/-- The results for each element in turn, one after the other. -/
def concatMapM {α β : Type} (f : α → m (List β)) : List α → m (List β)
  | [] => pure []
  | a :: as => do
    let bs ← f a
    let rest ← concatMapM f as
    pure (bs ++ rest)

/-- The path of a name in a directory; names in the working directory stand alone. -/
def below (directory name : String) : String :=
  if directory = "." then name else FilePath.join directory name

/-- The last component of a path, against which patterns are compared. -/
def lastName (path : String) : List Char := ((FilePath.components path).getLast?.getD "").toList

/-- The directory entries `.` and `..` that a pattern with a leading dot admits, the
last one first. -/
def dotEntries (p : Pattern) : List String :=
  if p.head? = some (.char '.') then
    ["..", "."].filter fun name => p.admits name.toList
  else []

/-- The patterns after those that lead through directories. -/
def afterRecursion : List Pattern → List Pattern
  | [] => []
  | p :: ps => if Pattern.isRecursive p then afterRecursion ps else p :: ps

/-- Whether a path may be a result: with a slash at the pattern's end, only if it is
a directory. -/
def result (host : Host m) (directoriesOnly : Bool) (path : String) : m (List String) := do
  if directoriesOnly then
    if ← host.isDirectory path then pure [path] else pure []
  else pure [path]

/-- The paths below `directory` that match the patterns, in order. -/
def fill (host : Host m) (directoriesOnly : Bool) :
    Nat → List Pattern → String → m (List String)
  | 0, _, _ => pure []
  | _ + 1, [], directory => result host directoriesOnly directory
  | fuel + 1, p :: ps, directory => do
    let onward (path : String) : m (List String) :=
      fill host directoriesOnly fuel ps path
    match Pattern.literal? p with
    | some cs => do
      let name := String.ofList cs
      let path := below directory name
      let found ← if name = "." ∨ name = ".." then host.isDirectory directory
        else host.pathExists path
      if found then onward path else pure []
    | none => do
      if !(← host.isDirectory directory) then return []
      let names := (← host.listDirectory directory).mergeSort fun a b => decide (a ≤ b)
      let dots ← concatMapM (fun name => onward (FilePath.join directory name)) (dotEntries p)
      let others ← concatMapM (fun name => do
        let path := below directory name
        let matching (q : Pattern) (qs : List Pattern) : m (List String) :=
          if q.admits (lastName path) then
            match qs with
            | [] => result host directoriesOnly path
            | _ => fill host directoriesOnly fuel qs path
          else pure []
        if Pattern.isRecursive p then do
          let inside ← host.isDirectory path
          let here ← match afterRecursion ps with
            | [] => pure (if inside then [path] else [])
            | q :: qs => matching q qs
          let deeper ← if inside then
              fill host directoriesOnly fuel (p :: afterRecursion ps) path
            else pure []
          pure (here ++ deeper)
        else matching p ps) names
      pure (dots ++ others)

/-- The pieces of a text that end in a slash or at its end. -/
def componentsOf (text : List Char) : List (List Char) :=
  match (FilePath.components (String.ofList text)).map String.toList with
  | [] => []
  | cs => if cs.getLast? = some [] then cs.dropLast else cs

/-- The pattern of each component, or the first fault. -/
def patternsOf : List (List Char) → Except PatternFault (List Pattern)
  | [] => .ok []
  | c :: cs => do
    let p ← Pattern.ofText? c
    let ps ← patternsOf cs
    .ok (p :: ps)

/-- The greatest length of a path. -/
def pathLimit : Nat := 4096

/-- The paths that match a pattern, in order, or its fault. -/
def expand (host : Host m) (pattern : String) : m (Except PatternFault (List String)) := do
  let text := pattern.toList
  match Pattern.ofText? text with
  | .error f => return .error f
  | .ok _ =>
    let absolute := FilePath.isAbsolute pattern
    match patternsOf (componentsOf (if absolute then text.drop 1 else text)) with
    | .error f => return .error f
    | .ok ps =>
      let found ← fill host (pattern.endsWith "/") (ps.length + pathLimit) ps
        (if absolute then "/" else ".")
      return .ok found

end Glob
end Wireform
