/-
# Values of filters

Filters work on values of their own: integers that fit 64 signed bits, binary64
numbers that arithmetic gave, and all other numbers with the text in which they
were written. Values are ordered across kinds: `null`, then booleans, numbers, strings,
arrays and objects.

Key definitions: `Filter.Value`, `Filter.Value.ofJson`, `Filter.Value.text`,
`Filter.Value.detailText`, `Filter.Value.compare`.
-/
import Wireform.Json.Printer
import Wireform.Number.Floating
import Wireform.Text.Quoted

namespace Wireform
namespace Filter

/-- A value of a filter. -/
inductive Value where
  | null
  | bool (b : Bool)
  | int (n : Int)
  /-- A number in the text in which it was written. -/
  | written (text : String)
  /-- A number that arithmetic gave. -/
  | floating (x : Floating)
  | string (s : String)
  | array (items : List Value)
  | object (members : List (String × Value))

instance : Inhabited Value := ⟨.null⟩

namespace Value

/-- Whether an integer fits 64 signed bits. -/
def fits (n : Int) : Bool := -0x8000000000000000 ≤ n && n < 0x8000000000000000

/-- The value of a number: an integer if it is one and fits. -/
def ofNumber (n : Number) : Value :=
  match n with
  | .whole w => if fits w.val then .int w.val else .written (String.ofList n.text)
  | .double _ => .written (String.ofList n.text)

mutual

/-- The value of a document. -/
def ofJson : Json → Value
  | .null => .null
  | .bool b => .bool b
  | .number n => ofNumber n
  | .string s => .string s
  | .array vs => .array (ofItems vs)
  | .object ms => .object (ofMembers ms)

/-- The values of documents. -/
def ofItems : List Json → List Value
  | [] => []
  | v :: vs => ofJson v :: ofItems vs

/-- Members with the values of their documents. -/
def ofMembers : List (String × Json) → List (String × Value)
  | [] => []
  | (k, v) :: ms => (k, ofJson v) :: ofMembers ms

end

/-! ### Texts -/

/-- Numbers that arithmetic gave are positional when the first digit stands for a power
of ten in `-4 … 15`, scientific otherwise. -/
def style : DecimalStyle := ⟨-4, 15, []⟩

/-- The text in JSON of a number that arithmetic gave; one that is not finite has none. -/
def floatingText : Floating → List Char
  | .finite d => d.write style
  | _ => "null".toList

/-- A character inside a quoted string: quotes, backslashes, the three common controls
by a letter, and other controls by their code point. -/
def escapeChar (c : Char) : List Char :=
  if c = '"' ∨ c = '\\' then ['\\', c]
  else if c = '\n' then ['\\', 'n']
  else if c = '\r' then ['\\', 'r']
  else if c = '\t' then ['\\', 't']
  else if c.toNat < 32 ∨ c.toNat = 127 then
    ['\\', 'u', '0', '0', Json.hexDigit (c.toNat / 16), Json.hexDigit (c.toNat % 16)]
  else [c]

/-- A string in quotes. -/
def quote (s : String) : List Char := '"' :: (s.toList.flatMap escapeChar ++ ['"'])

mutual

/-- The text of a value in JSON, without blanks. -/
def text : Value → List Char
  | .null => "null".toList
  | .bool true => "true".toList
  | .bool false => "false".toList
  | .int n => Number.intText n
  | .written s => s.toList
  | .floating x => floatingText x
  | .string s => quote s
  | .array [] => ['[', ']']
  | .array (v :: vs) => '[' :: (text v ++ itemsText vs)
  | .object [] => ['\x7b', '\x7d']
  | .object ((k, v) :: ms) => '\x7b' :: (quote k ++ ':' :: text v ++ membersText ms)

/-- The items after the first, each behind a comma, and the closing bracket. -/
def itemsText : List Value → List Char
  | [] => [']']
  | v :: vs => ',' :: (text v ++ itemsText vs)

/-- The members after the first, each behind a comma, and the closing brace. -/
def membersText : List (String × Value) → List Char
  | [] => ['\x7d']
  | (k, v) :: ms => ',' :: (quote k ++ ':' :: text v ++ membersText ms)

end

mutual

/-- The text of a value with the kind of each part, as it stands in error messages. -/
def detailText : Value → String
  | .null => "Null"
  | .bool true => "Bool(true)"
  | .bool false => "Bool(false)"
  | .int n => "Int(" ++ String.ofList (Number.intText n) ++ ")"
  | .written s => "Num(" ++ Text.quoted s ++ ")"
  | .floating x => "Float(" ++ String.ofList (x.text style) ++ ")"
  | .string s => "Str(" ++ Text.quoted s ++ ")"
  | .array vs => "Arr([" ++ ", ".intercalate (detailItems vs) ++ "])"
  | .object ms => "Obj(\x7b" ++ ", ".intercalate (detailMembers ms) ++ "\x7d)"

/-- The items of an array with their kinds. -/
def detailItems : List Value → List String
  | [] => []
  | v :: vs => detailText v :: detailItems vs

/-- The members of an object with the kinds of their values. -/
def detailMembers : List (String × Value) → List String
  | [] => []
  | (k, v) :: ms => (Text.quoted k ++ ": " ++ detailText v) :: detailMembers ms

end

/-- Text as it is joined into a string: a string as it is, anything else as JSON. -/
def shown : Value → String
  | .string s => s
  | v => String.ofList v.text

/-! ### Numbers -/

/-- The binary64 number of a number; nothing for other values. -/
def number? : Value → Option Floating
  | .int n => some (.ofInt n)
  | .written s => some (.ofDecimalText s.toList)
  | .floating x => some x
  | _ => none

/-- Whether a value is neither `null` nor `false`. -/
def truthy : Value → Bool
  | .null => false
  | .bool b => b
  | _ => true

/-! ### Order -/

/-- The place of a kind in the order of kinds. -/
def rank : Value → Nat
  | .null => 0
  | .bool _ => 1
  | .int _ => 2
  | .written _ => 2
  | .floating _ => 2
  | .string _ => 3
  | .array _ => 4
  | .object _ => 5

/-- Inserts a member into members that are sorted by key. -/
def insertSorted (k : String) (v : Value) : List (String × Value) → List (String × Value)
  | [] => [(k, v)]
  | (l, w) :: ms => if k ≤ l then (k, v) :: (l, w) :: ms else (l, w) :: insertSorted k v ms

/-- The members of an object in the order of their keys. -/
def sortedMembers : List (String × Value) → List (String × Value)
  | [] => []
  | (k, v) :: ms => insertSorted k v (sortedMembers ms)

/-- The order of two lists of keys. -/
def compareKeys : List String → List String → Ordering
  | [], [] => .eq
  | [], _ :: _ => .lt
  | _ :: _, [] => .gt
  | a :: as, b :: bs => (compareOfLessAndEq a b).then (compareKeys as bs)

/-- The order of two values that nest at most so deep. -/
def compareWithin : Nat → Value → Value → Ordering
  | 0, _, _ => .eq
  | depth + 1, a, b =>
    match a, b with
    | .bool a, .bool b => compareOfLessAndEq a.toNat b.toNat
    | .int a, .int b => compareOfLessAndEq a b
    | .string a, .string b => compareOfLessAndEq a b
    | .array as, .array bs => lists (compareWithin depth) as bs
    | .object as, .object bs =>
      let as := sortedMembers as
      let bs := sortedMembers bs
      (compareKeys (as.map (·.1)) (bs.map (·.1))).then
        (lists (compareWithin depth) (as.map (·.2)) (bs.map (·.2)))
    | a, b =>
      match a.number?, b.number? with
      | some x, some y => x.compare y
      | _, _ => compareOfLessAndEq a.rank b.rank
where
  /-- The order of two lists, element by element. -/
  lists (cmp : Value → Value → Ordering) : List Value → List Value → Ordering
    | [], [] => .eq
    | [], _ :: _ => .lt
    | _ :: _, [] => .gt
    | a :: as, b :: bs => (cmp a b).then (lists cmp as bs)

mutual

/-- How deep arrays and objects nest. -/
def nesting : Value → Nat
  | .array vs => nestingItems vs + 1
  | .object ms => nestingMembers ms + 1
  | _ => 0

/-- The greatest nesting among the items. -/
def nestingItems : List Value → Nat
  | [] => 0
  | v :: vs => max (nesting v) (nestingItems vs)

/-- The greatest nesting among the values of the members. -/
def nestingMembers : List (String × Value) → Nat
  | [] => 0
  | (_, v) :: ms => max (nesting v) (nestingMembers ms)

end

/-- The order of two values. -/
def compare (a b : Value) : Ordering := compareWithin (a.nesting + 1) a b

end Value
end Filter
end Wireform
