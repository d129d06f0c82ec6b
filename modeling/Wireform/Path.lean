/-
# Paths and mismatches

A path leads from the root of a document to a value inside it. Its text is a
JSON pointer: every segment behind a slash, with `~` written `~0` and `/`
written `~1` in keys.

A mismatch is the one thing that can be wrong with a document: a value was not
what its descriptor asks for.

Key definitions: `Segment`, `Path`, `Path.text`, `Mismatch`, `Mismatch.text`.
-/

namespace Wireform

/-- One step from a value into a part of it. -/
inductive Segment where
  | key (name : String)
  | index (position : Nat)
deriving DecidableEq

/-- The segments from the root of a document to a value inside it. -/
structure Path where
  segments : List Segment
deriving DecidableEq

namespace Path

/-- The path of the document itself. -/
def root : Path := ⟨[]⟩

/-- Whether the path leads nowhere but to the document itself. -/
def isRoot (p : Path) : Bool := p.segments.isEmpty

/-- A character of a key inside a pointer. -/
def escapeChar (c : Char) : List Char :=
  if c = '~' then ['~', '0'] else if c = '/' then ['~', '1'] else [c]

/-- The characters of a key, escaped one by one. -/
def escapeKey : List Char → List Char
  | [] => []
  | c :: cs => escapeChar c ++ escapeKey cs

/-- The text of a segment, without its slash. -/
def segmentText : Segment → List Char
  | .key name => escapeKey name.toList
  | .index position => Nat.toDigits 10 position

/-- The segments, each behind a slash. -/
def pointerText : List Segment → List Char
  | [] => []
  | s :: rest => '/' :: (segmentText s ++ pointerText rest)

/-- The JSON pointer of a path. -/
def text (p : Path) : String := String.ofList (pointerText p.segments)

end Path

/-- A value that is not what its descriptor asks for. The key and the owner are
empty at the root, inside arrays and inside the members of a union. -/
structure Mismatch where
  /-- The descriptor in words. -/
  expected : String
  /-- The compact text of the value, or `undefined` for a missing property. -/
  actual : String
  /-- The property that was being converted. -/
  key : String
  /-- The type that owns the property. -/
  owner : String
  path : Path
deriving DecidableEq

/-- The wording of a mismatch; a key or owner that is not known is left out. -/
def Mismatch.text (m : Mismatch) : String :=
  "Invalid value" ++
    (if m.key = "" then "" else " for key \"" ++ m.key ++ "\"") ++
    (if m.owner = "" then "" else " on " ++ m.owner) ++
    ". Expected " ++ m.expected ++ " but got " ++ m.actual

end Wireform
