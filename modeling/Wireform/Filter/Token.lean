/-
# Tokens of filters

A filter text is cut into words, variables, numbers and symbols. What stands
between brackets is one token that holds the tokens inside it, and so is a quoted
string with the filters inside it; both keep the text in which they were written.
A bracket or quote that stays open and a character that starts no token are
faults, each with the text that was ahead.

Key definitions: `Filter.Token`, `Filter.LexFault`, `Filter.Token.ofText?`.
-/
import Wireform.Text.Basic
import Wireform.Text.Quoted

namespace Wireform
namespace Filter

mutual

/-- A token of a filter. -/
inductive Token where
  | word (name : String)
  /-- A name behind a dollar sign, which is part of it. -/
  | variable_ (name : String)
  | number (text : String)
  | symbol (text : String)
  /-- What stands behind an opening bracket, with the closing one as last symbol. -/
  | block (opening : Char) (inner : List Token) (source : String)
  | quoted (pieces : List Piece) (source : String)

/-- A part of a quoted string. -/
inductive Piece where
  /-- Characters, escapes resolved. -/
  | text (s : String)
  /-- A filter, to its closing bracket. -/
  | insert (inner : List Token)

end

/-- A token as it was written. -/
def Token.text : Token → String
  | .word name => name
  | .variable_ name => name
  | .number text => text
  | .symbol text => text
  | .block _ _ source => source
  | .quoted _ source => source

/-- What was missing when a text could not be cut into tokens. -/
inductive LexNeed where
  | digit
  | name
  /-- The end of what an opening character began. -/
  | delimiter (opening : Char)
  | escape
  | unicode
  | token
deriving DecidableEq

/-- What was missing, and the text ahead. -/
structure LexFault where
  need : LexNeed
  ahead : List Char
deriving DecidableEq

/-- The wording of what was missing. -/
def LexNeed.text : LexNeed → String
  | .digit => "Digit"
  | .name => "Ident"
  | .delimiter c => "Delim(" ++ Text.quoted (String.singleton c) ++ ")"
  | .escape => "Escape"
  | .unicode => "Unicode"
  | .token => "Token"

/-- The wording of a fault. -/
def LexFault.text (f : LexFault) : String :=
  "(" ++ f.need.text ++ ", " ++ Text.quoted (String.ofList f.ahead) ++ ")"

/-- What was cut off a text, the text ahead, and the faults met on the way. -/
structure Lexed (α : Type) where
  items : List α
  ahead : List Char
  faults : List LexFault

/-- Items and faults in front of others. -/
def Lexed.cons {α : Type} (items : List α) (faults : List LexFault) (l : Lexed α) : Lexed α :=
  ⟨items ++ l.items, l.ahead, faults ++ l.faults⟩

namespace Token

/-- The first character of a name. -/
def startsName (c : Char) : Bool := c.isAlpha || c == '_'

/-- A later character of a name. -/
def inName (c : Char) : Bool := c.isAlphanum || c == '_'

/-- A later character of an operator. -/
def inOperator (c : Char) : Bool := ['|', '=', '!', '<', '>', '+', '*', '/', '%'].contains c

/-- The first character of an operator; a minus sign behind another one starts anew. -/
def startsOperator (c : Char) : Bool := c == '-' || inOperator c

/-- Blanks, and comments from a hash to the end of the line. -/
def skipSpace : Nat → List Char → List Char
  | 0, s => s
  | fuel + 1, s =>
    match Text.trimStart s with
    | '#' :: s => skipSpace fuel (s.dropWhile (· ≠ '\n'))
    | s => s

/-- What is ahead of digits, or that there are none. -/
def someDigits (s : List Char) : List Char × List LexFault :=
  match s with
  | c :: _ => if Text.isDigit c then (s.dropWhile Text.isDigit, []) else (s, [⟨.digit, s⟩])
  | [] => (s, [⟨.digit, s⟩])

/-- What is ahead of a number. -/
def afterNumber (s : List Char) : List Char × List LexFault :=
  let s := s.dropWhile Text.isDigit
  let (s, faults) := match s with
    | '.' :: s => someDigits s
    | s => (s, [])
  match s with
  | c :: t =>
    if c = 'e' ∨ c = 'E' then
      let (s, more) := someDigits (Text.splitSign t).2
      (s, faults ++ more)
    else (s, faults)
  | [] => (s, faults)

/-- The character of an escape by its letter. -/
def simpleEscape? (c : Char) : Option Char :=
  if c = '\\' ∨ c = '/' ∨ c = '"' then some c
  else if c = 'b' then some (Char.ofNat 8)
  else if c = 'f' then some (Char.ofNat 12)
  else if c = 'n' then some '\n'
  else if c = 'r' then some '\r'
  else if c = 't' then some '\t'
  else none

/-- The character of an escape by the four hexadecimal digits of its code point, with
what is ahead; or the place where a digit is missing, or where digits stand that
are no character. -/
def unicodeEscape (s : List Char) : Except (List Char) (Char × List Char) :=
  let values := ((s.take 4).map Text.hexValue?).takeWhile Option.isSome
  let n := values.foldl (fun n v => 16 * n + v.getD 0) 0
  if values.length < 4 then .error (s.drop values.length)
  else if n.isValidChar then .ok (Char.ofNat n, s.drop 4)
  else .error s

/-- The bracket that closes what an opening bracket began. -/
def closing (c : Char) : Char := if c = '(' then ')' else if c = '[' then ']' else '\x7d'

/-- The text between two places, the second of which lies further on. -/
def between (s ahead : List Char) : String := String.ofList (s.take (s.length - ahead.length))

mutual

/-- The tokens of a text up to a character that starts none. -/
def lex : Nat → List Char → Lexed Token
  | 0, s => ⟨[], s, []⟩
  | fuel + 1, s =>
    match skipSpace (s.length + 1) s with
    | [] => ⟨[], [], []⟩
    | c :: s =>
      if startsName c then
        let name := c :: s.takeWhile inName
        (lex fuel (s.dropWhile inName)).cons [.word (String.ofList name)] []
      else if c = '$' then
        if s.head?.any startsName then
          let name := c :: s.takeWhile inName
          (lex fuel (s.dropWhile inName)).cons [.variable_ (String.ofList name)] []
        else (lex fuel s).cons [.variable_ "$"] [⟨.name, s⟩]
      else if Text.isDigit c then
        let (ahead, faults) := afterNumber (c :: s)
        (lex fuel ahead).cons [.number (between (c :: s) ahead)] faults
      else if startsOperator c then
        let text := c :: s.takeWhile inOperator
        (lex fuel (s.dropWhile inOperator)).cons [.symbol (String.ofList text)] []
      else if c = '.' then
        match s with
        | d :: t =>
          if d = '.' then (lex fuel t).cons [.symbol ".."] []
          else if startsName d then
            let text := '.' :: d :: t.takeWhile inName
            (lex fuel (t.dropWhile inName)).cons [.symbol (String.ofList text)] []
          else (lex fuel s).cons [.symbol "."] []
        | [] => (lex fuel s).cons [.symbol "."] []
      else if c = ':' ∨ c = ';' ∨ c = ',' ∨ c = '?' then
        (lex fuel s).cons [.symbol (String.singleton c)] []
      else if c = '"' then
        let body := lexString fuel s
        (lex fuel body.ahead).cons [.quoted body.items (between (c :: s) body.ahead)] body.faults
      else if c = '(' ∨ c = '[' ∨ c = '\x7b' then
        let body := lexBlock fuel c s
        (lex fuel body.ahead).cons [.block c body.items (between (c :: s) body.ahead)] body.faults
      else ⟨[], c :: s, []⟩

/-- The tokens behind an opening bracket, with the closing one. -/
def lexBlock : Nat → Char → List Char → Lexed Token
  | 0, _, s => ⟨[], s, []⟩
  | fuel + 1, opening, s =>
    let inner := lex fuel s
    match skipSpace (inner.ahead.length + 1) inner.ahead with
    | [] => ⟨inner.items, [], inner.faults ++ [⟨.delimiter opening, []⟩]⟩
    | d :: t =>
      if d = closing opening then
        ⟨inner.items ++ [.symbol (String.singleton d)], t, inner.faults⟩
      else ⟨inner.items, d :: t, inner.faults ++ [⟨.delimiter opening, d :: t⟩]⟩

/-- The parts of a string after its opening quote. -/
def lexString : Nat → List Char → Lexed Piece
  | 0, s => ⟨[], s, []⟩
  | fuel + 1, s =>
    let plain := s.takeWhile fun c => c ≠ '\\' ∧ c ≠ '"'
    let here := if plain.isEmpty then [] else [Piece.text (String.ofList plain)]
    match s.drop plain.length with
    | '"' :: s => ⟨here, s, []⟩
    | '\\' :: s =>
      match s with
      | [] => (lexString fuel []).cons here [⟨.escape, []⟩]
      | c :: t =>
        if c = '(' then
          let body := lexBlock fuel c t
          (lexString fuel body.ahead).cons (here ++ [.insert body.items]) body.faults
        else if c = 'u' then
          match unicodeEscape t with
          | .ok (d, u) => (lexString fuel u).cons (here ++ [.text (String.singleton d)]) []
          | .error u => (lexString fuel u).cons here [⟨.unicode, u⟩]
        else
          match simpleEscape? c with
          | some d => (lexString fuel t).cons (here ++ [.text (String.singleton d)]) []
          | none => (lexString fuel s).cons here [⟨.escape, s⟩]
    | s => ⟨here, s, [⟨.delimiter '"', s⟩]⟩

end

/-- The tokens of a filter text, or the faults in it. -/
def ofText? (text : String) : Except (List LexFault) (List Token) :=
  let s := text.toList
  let l := lex (2 * s.length + 2) s
  let ahead := skipSpace (l.ahead.length + 1) l.ahead
  let faults := if ahead.isEmpty then l.faults else l.faults ++ [⟨.token, ahead⟩]
  if faults.isEmpty then .ok l.items else .error faults

end Token
end Filter
end Wireform
