/-
# Faults in a JSON text

Reading a text stops at its first fault. A fault says what is wrong, how much of
the text was still ahead, and by which steps the place is reached inside the
document. Its position is a line and a column, counted in bytes: the column is
the number of bytes since the last line break that were read when the fault was
found. Faults seen by looking at the next character count that character's first
byte as read.

Key definitions: `Flaw`, `Step`, `Fault`, `Position.locate`, `SyntaxFault`.
-/

namespace Wireform

/-- What can be wrong with a JSON text. -/
inductive Flaw where
  | endOfValue
  | endOfList
  | endOfObject
  | endOfString
  | expectedValue
  | expectedColon
  | expectedListEnd
  | expectedObjectEnd
  | expectedIdent
  | trailingComma
  | trailingCharacters
  | keyNotString
  | invalidNumber
  | numberOutOfRange
  | invalidEscape
  | controlCharacter
  | loneSurrogate
  | brokenSurrogate
  | tooDeep
deriving DecidableEq

/-- The wording of a flaw. -/
def Flaw.text : Flaw → String
  | .endOfValue => "EOF while parsing a value"
  | .endOfList => "EOF while parsing a list"
  | .endOfObject => "EOF while parsing an object"
  | .endOfString => "EOF while parsing a string"
  | .expectedValue => "expected value"
  | .expectedColon => "expected `:`"
  | .expectedListEnd => "expected `,` or `]`"
  | .expectedObjectEnd => "expected `,` or `\x7d`"
  | .expectedIdent => "expected ident"
  | .trailingComma => "trailing comma"
  | .trailingCharacters => "trailing characters"
  | .keyNotString => "key must be a string"
  | .invalidNumber => "invalid number"
  | .numberOutOfRange => "number out of range"
  | .invalidEscape => "invalid escape"
  | .controlCharacter => "control character (\\u0000-\\u001F) found while parsing a string"
  | .loneSurrogate => "lone leading surrogate in hex escape"
  | .brokenSurrogate => "unexpected end of hex escape"
  | .tooDeep => "recursion limit exceeded"

/-- One step from a document into a part of it. -/
inductive Step where
  | key (name : String)
  | index (position : Nat)
  /-- A member whose key was not read. -/
  | unnamed
deriving DecidableEq

/-- The steps as one text: `A.enum[0]`, with `.` for no step and `?` for a member
whose key was not read. -/
def Step.pathText : List Step → String
  | [] => "."
  | steps => go true steps
where
  /-- Joins the steps; a dot stands before every name but the first. -/
  go : Bool → List Step → String
    | _, [] => ""
    | first, .key name :: rest => (if first then "" else ".") ++ name ++ go false rest
    | first, .unnamed :: rest => (if first then "" else ".") ++ "?" ++ go false rest
    | _, .index position :: rest => "[" ++ toString position ++ "]" ++ go false rest

/-- A place in a text: a line, counted from 1, and the bytes read on it. -/
structure Position where
  line : Nat
  column : Nat
deriving DecidableEq

/-- The position as it ends a message. -/
def Position.text (p : Position) : String :=
  " at line " ++ toString p.line ++ " column " ++ toString p.column

/-- How many bytes a text takes. -/
def byteCount : List Char → Nat
  | [] => 0
  | c :: cs => c.utf8Size + byteCount cs

/-- The position after `bytes` bytes of a text, starting at `p`. -/
def Position.advance : List Char → Nat → Position → Position
  | [], _, p => p
  | c :: cs, bytes, p =>
    if bytes = 0 then p
    else if c = '\n' then advance cs (bytes - 1) ⟨p.line + 1, 0⟩
    else advance cs (bytes - c.utf8Size) ⟨p.line, p.column + min bytes c.utf8Size⟩

/-- The position after `bytes` bytes of a text. -/
def Position.locate (text : List Char) (bytes : Nat) : Position := advance text bytes ⟨1, 0⟩

/-- A fault met while reading: `ahead` was unread, and `beyond` bytes of it are
counted as read. -/
structure Fault where
  flaw : Flaw
  ahead : List Char
  beyond : Nat
  /-- From the outermost step to the innermost. -/
  trail : List Step

namespace Fault

/-- The same fault, seen from the enclosing array or object. -/
def under (step : Step) (f : Fault) : Fault := { f with trail := step :: f.trail }

/-- Where the fault was found in the text that was read. -/
def position (text : List Char) (f : Fault) : Position :=
  Position.locate text (byteCount text - byteCount f.ahead + f.beyond)

end Fault

/-- A fault with its position: what a reader of whole texts reports. -/
structure SyntaxFault where
  flaw : Flaw
  position : Position
deriving DecidableEq

/-- The wording of a fault with its position. -/
def SyntaxFault.text (f : SyntaxFault) : String := f.flaw.text ++ f.position.text

end Wireform
