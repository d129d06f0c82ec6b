/-
# A tree of files in memory

Files and directories below one root, with a working directory and standard input. A
node is found under its components from the root. Paths that do not start at the root
start at the working directory. The root is always there, and it lies in itself.

Key definitions: `FileTree`, `FileTree.locate`, `FileTree.host`.
-/
import Wireform.Files.Host

namespace Wireform

/-- A file with its bytes, or a directory. -/
inductive FileNode where
  | file (bytes : ByteArray)
  | directory

/-- The nodes below the root, the place of the working directory, and what is left of
standard input. -/
structure FileTree where
  working : List String
  nodes : List (List String × FileNode)
  input : ByteArray

namespace FileTree

/-- The node at a place. -/
def node? (tree : FileTree) (place : List String) : Option FileNode :=
  if place = [] then some .directory else tree.nodes.lookup place

/-- Writes a node at a place; a node that is there already is replaced. -/
def putNode : List (List String × FileNode) → List String → FileNode →
    List (List String × FileNode)
  | [], place, node => [(place, node)]
  | (p, n) :: rest, place, node =>
    if p = place then (p, node) :: rest else (p, n) :: putNode rest place node

/-- The tree with a node at a place. -/
def put (tree : FileTree) (place : List String) (node : FileNode) : FileTree :=
  { tree with nodes := putNode tree.nodes place node }

/-- The place that components lead to from a directory. All but the last must be
directories that are there; `..` leads to the directory above. -/
def walk (tree : FileTree) : List String → List String → Except FileFault (List String)
  | place, [] => .ok place
  | place, c :: rest =>
    match tree.node? place with
    | none => .error .notFound
    | some (.file _) => .error .notDirectory
    | some .directory =>
      if FilePath.isIdle c then walk tree place rest
      else if c = ".." then walk tree place.dropLast rest
      else walk tree (place ++ [c]) rest

/-- The place of a path. -/
def locate (tree : FileTree) (path : String) : Except FileFault (List String) :=
  if path = "" then .error .notFound
  else walk tree (if FilePath.isAbsolute path then [] else tree.working) (FilePath.components path)

/-- What is at a path. -/
def find (tree : FileTree) (path : String) : Except FileFault FileNode :=
  match tree.locate path with
  | .error f => .error f
  | .ok place =>
    match tree.node? place with
    | none => .error .notFound
    | some n => .ok n

/-- The bytes of a file. -/
def read (tree : FileTree) (path : String) : Except FileFault ByteArray :=
  match tree.find path with
  | .error f => .error f
  | .ok .directory => .error .isDirectory
  | .ok (.file bytes) => .ok bytes

/-- Whether a path leads to a directory. -/
def isDirectory (tree : FileTree) (path : String) : Bool :=
  match tree.find path with
  | .ok .directory => true
  | _ => false

/-- Whether there is anything at a path. -/
def pathExists (tree : FileTree) (path : String) : Bool :=
  match tree.find path with
  | .ok _ => true
  | _ => false

/-- The names in a directory. -/
def list (tree : FileTree) (path : String) : List String :=
  match tree.locate path with
  | .error _ => []
  | .ok place => tree.nodes.filterMap fun e =>
      if e.1.dropLast = place then e.1.getLast? else none

/-- The tree with a new directory at a path. -/
def makeDirectory (tree : FileTree) (path : String) : Except FileFault FileTree :=
  match tree.locate path with
  | .error f => .error f
  | .ok place =>
    match tree.node? place with
    | none => .ok (tree.put place .directory)
    | some _ => .error .alreadyExists

/-- The tree with a file at a path; a path that ends in a slash is no place for one. -/
def write (tree : FileTree) (path text : String) : Except FileFault FileTree :=
  match tree.locate (FilePath.withoutSlashes path) with
  | .error f => .error f
  | .ok place =>
    match tree.node? place with
    | some .directory => .error .isDirectory
    | _ =>
      if path.endsWith "/" then .error .isDirectory
      else .ok (tree.put place (.file text.toUTF8))

/-- Goes on with a changed tree, or leaves it as it is. -/
def update (change : Except FileFault FileTree) : StateM FileTree (Except FileFault Unit) :=
  match change with
  | .error f => pure (.error f)
  | .ok tree => do
    set tree
    pure (.ok ())

/-- A run against a tree in memory. Standard input can be read once. -/
def host : Host (StateM FileTree) where
  readFile path := do return (← get).read path
  readInput := do
    let tree ← get
    set { tree with input := ByteArray.empty }
    return .ok tree.input
  pathExists path := do return (← get).pathExists path
  isDirectory path := do return (← get).isDirectory path
  listDirectory path := do return (← get).list path
  createDirectory path := do update ((← get).makeDirectory path)
  writeFile path text := do update ((← get).write path text)

/-- The tree with the directories that components lead through from a place. -/
def putDirectories : FileTree → List String → List String → FileTree
  | tree, _, [] => tree
  | tree, place, c :: rest => putDirectories (tree.put (place ++ [c]) .directory) (place ++ [c]) rest

/-- The tree of files below a working directory; the directories they lie in are there
too. -/
def ofFiles (working : List String) (files : List (String × ByteArray)) (input : ByteArray) :
    FileTree :=
  files.foldl (fun tree file =>
      let components := FilePath.components file.1
      (tree.putDirectories working components.dropLast).put (working ++ components)
        (.file file.2))
    (putDirectories ⟨working, [], input⟩ [] working)

end FileTree
end Wireform
