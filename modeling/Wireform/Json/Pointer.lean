/-
# JSON pointers

A pointer is empty, for the document itself, or a list of tokens, each behind a
slash; `~1` stands for a slash and `~0` for a tilde. A token names a member of an
object, or an item of an array by its position in decimal without leading zeros.

Key definitions: `Json.child?`, `Json.descend?`, `Json.pointer?`.
-/
import Wireform.Json.Basic
import Wireform.Text.Basic

namespace Wireform
namespace Json

/-- The pieces of a text between slashes. -/
def pointerTokens : List Char → List (List Char)
  | [] => [[]]
  | c :: cs =>
    if c = '/' then [] :: pointerTokens cs
    else
      match pointerTokens cs with
      | [] => [[c]]
      | t :: ts => (c :: t) :: ts

/-- Replaces a tilde with a given digit by a character, from left to right. -/
def replaceTilde (digit by_ : Char) : List Char → List Char
  | '~' :: d :: cs =>
    if d = digit then by_ :: replaceTilde digit by_ cs else '~' :: replaceTilde digit by_ (d :: cs)
  | c :: cs => c :: replaceTilde digit by_ cs
  | [] => []

/-- The key that a token spells. -/
def tokenKey (token : List Char) : List Char := replaceTilde '0' '~' (replaceTilde '1' '/' token)

/-- The position that a key spells, if it is a decimal without leading zeros. -/
def positionOf? (key : List Char) : Option Nat :=
  if key = [] ∨ !key.all Text.isDigit ∨ (key.head? = some '0' ∧ key.length ≠ 1) then none
  else some (Text.ofDigits key)

/-- The part of a value that a key names. -/
def child? (key : List Char) : Json → Option Json
  | .object members => members.lookup (String.ofList key)
  | .array items => (positionOf? key).bind fun i => items[i]?
  | _ => none

/-- The part of a value that keys lead to, one after the other. -/
def descend? : List (List Char) → Json → Option Json
  | [], v => some v
  | key :: keys, v => (child? key v).bind (descend? keys)

/-- The part of a value that a pointer selects. -/
def pointer? (pointer : List Char) (v : Json) : Option Json :=
  match pointer with
  | [] => some v
  | '/' :: rest => descend? ((pointerTokens rest).map tokenKey) v
  | _ => none

end Json
end Wireform
