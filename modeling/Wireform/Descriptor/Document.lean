/-
# Descriptors written in JSON

A descriptor document is the name of a simple descriptor, as a string or as an
object with that one key and the value `null`, or an object with one tag:

  "string" "number" "boolean" "any" "null" "never" "undefined" "date"
  ref: name            literal: text
  union: documents     enum: any values
  array: document      map: document
  object: properties and additional

The body of an object is an object with the optional keys `properties` and
`additional`, or an array of at most these two in order. A property is an object
with the keys `json`, `js` and `type`, or the array of these three; `js` may be
`null`, and without it the key is the same in both forms. Additional keys are
refused by `false`, allowed by `true`, or must match a document.

The reader takes trees that hold a key twice, and refuses them where the keys
have a meaning.

Key definitions: `Descriptor.ofJson?`, `Descriptor.named?`.
-/
import Wireform.Descriptor.Basic

namespace Wireform
namespace Descriptor

/-- The simple descriptor of a name. -/
def named? (name : String) : Option Descriptor :=
  if name = "string" then some (.primitive .string)
  else if name = "number" then some (.primitive .number)
  else if name = "boolean" then some (.primitive .boolean)
  else if name = "any" then some .any
  else if name = "null" then some .null
  else if name = "never" then some .never
  else if name = "undefined" then some .undefined
  else if name = "date" then some .date
  else none

/-- The tags of descriptor documents. -/
inductive Tag where
  | ref
  | literal
  | union
  | enum
  | array
  | map
  | object
deriving DecidableEq

/-- The tag that a key spells. -/
def Tag.ofKey? (key : String) : Option Tag :=
  if key = "ref" then some .ref
  else if key = "literal" then some .literal
  else if key = "union" then some .union
  else if key = "enum" then some .enum
  else if key = "array" then some .array
  else if key = "map" then some .map
  else if key = "object" then some .object
  else none

/-- What is known of a property while its fields are read. -/
structure PropertyFields where
  json : Option String
  js : Option (Option String)
  type : Option Descriptor

/-- The property of fields that are complete. -/
def PropertyFields.property? (fields : PropertyFields) : Option (Property Descriptor) :=
  match fields.json, fields.type with
  | some key, some d => some ⟨key, (fields.js.getD none).getD key, d⟩
  | _, _ => none

/-- What is known of an object shape while its fields are read. -/
structure BodyFields where
  properties : Option (List (Property Descriptor))
  additional : Option (Additional Descriptor)

/-- The shape of fields: without properties there are none, and without a word on
additional keys they are refused. -/
def BodyFields.descriptor (fields : BodyFields) : Descriptor :=
  .object (fields.properties.getD []) (fields.additional.getD .reject)

/-- What a value says of additional keys; the descriptor is that of the value, if it is a
document. -/
def additional? (v : Json) (d : Option Descriptor) : Option (Additional Descriptor) :=
  match v with
  | .bool false => some .reject
  | .bool true => some (.allow .any)
  | _ => d.map .allow

/-- A typed key: a string, or `null` for none. -/
def typedKey? : Json → Option (Option String)
  | .null => some none
  | .string s => some (some s)
  | _ => none

mutual

/-- The descriptor of a document. -/
def ofJson? : Json → Option Descriptor
  | .string name => named? name
  | .object [(key, v)] =>
    match Tag.ofKey? key, v with
    | none, .null => named? key
    | some .ref, .string target => some (.ref target)
    | some .literal, .string text => some (.literal text)
    | some .union, .array members => (ofItems? members).map .union
    | some .enum, .array cases => some (.enum (Json.mergedItems cases))
    | some .array, item => (ofJson? item).map .array
    | some .map, value => (ofJson? value).map .map
    | some .object, .object fields => (bodyFields? fields).map BodyFields.descriptor
    | some .object, .array entries => (bodyItems? entries).map BodyFields.descriptor
    | _, _ => none
  | _ => none

/-- The descriptors of documents. -/
def ofItems? : List Json → Option (List Descriptor)
  | [] => some []
  | v :: vs =>
    match ofJson? v, ofItems? vs with
    | some d, some ds => some (d :: ds)
    | _, _ => none

/-- The fields of an object body, each at most once. -/
def bodyFields? : List (String × Json) → Option BodyFields
  | [] => some ⟨none, none⟩
  | (key, v) :: rest =>
    match bodyFields? rest with
    | none => none
    | some fields =>
      if key = "properties" ∧ fields.properties.isNone then
        (propertyList? v).map fun ps => { fields with properties := some ps }
      else if key = "additional" ∧ fields.additional.isNone then
        (additional? v (ofJson? v)).map fun x => { fields with additional := some x }
      else none

/-- The fields of an object body by their position. -/
def bodyItems? : List Json → Option BodyFields
  | [] => some ⟨none, none⟩
  | [v] => (propertyList? v).map fun ps => ⟨some ps, none⟩
  | [v, w] =>
    match propertyList? v, additional? w (ofJson? w) with
    | some ps, some x => some ⟨some ps, some x⟩
    | _, _ => none
  | _ => none

/-- The properties of an object body, as an array. -/
def propertyList? : Json → Option (List (Property Descriptor))
  | .array entries => properties? entries
  | _ => none

/-- The properties of documents. -/
def properties? : List Json → Option (List (Property Descriptor))
  | [] => some []
  | .object fields :: rest =>
    match (propertyFields? fields).bind PropertyFields.property?, properties? rest with
    | some p, some ps => some (p :: ps)
    | _, _ => none
  | .array [.string key, js, type] :: rest =>
    match typedKey? js, ofJson? type, properties? rest with
    | some js, some d, some ps => some (⟨key, js.getD key, d⟩ :: ps)
    | _, _, _ => none
  | _ :: _ => none

/-- The fields of a property, each at most once. -/
def propertyFields? : List (String × Json) → Option PropertyFields
  | [] => some ⟨none, none, none⟩
  | (key, v) :: rest =>
    match propertyFields? rest with
    | none => none
    | some fields =>
      if key = "json" ∧ fields.json.isNone then
        match v with
        | .string s => some { fields with json := some s }
        | _ => none
      else if key = "js" ∧ fields.js.isNone then
        (typedKey? v).map fun js => { fields with js := some js }
      else if key = "type" ∧ fields.type.isNone then
        (ofJson? v).map fun d => { fields with type := some d }
      else none

end

end Descriptor
end Wireform
