/-
# Walking a value against a descriptor

One walk serves both directions: they differ only in the property index that an
object shape hands out. A property that is absent from its object is walked as a
missing slot, not as `null`; `any` and `undefined` accept a missing slot and
leave it missing, everything else refuses it.

A refusal is a mismatch. Only unions look at one and go on to their next member;
every other level hands it straight up, so the first mismatch that a walk comes to
ends it.

The walk follows names and union members without entering the value, so a set of
definitions that only lead to each other would keep it going for ever. It
therefore counts its steps; a walk that uses all of them ends as `endless`.

Key definitions: `Slot`, `Site`, `Refusal`, `Walk`, `Walk.value`.
-/
import Wireform.Date.Forms
import Wireform.Descriptor.Index
import Wireform.Descriptor.Basic
import Wireform.Path
import Wireform.Table.Basic

namespace Wireform

/-- A present value, or a missing property. -/
abbrev Slot := Option Json

/-- The text of a slot in a mismatch. -/
def Slot.text : Slot → String
  | some v => v.compact
  | none => "undefined"

/-- Where the walk is: the key and its owner as mismatches report them, the
segments back to the root (the nearest first), and the containers around. -/
structure Site where
  key : String
  owner : String
  trail : List Segment
  depth : Nat

namespace Site

/-- The root of a document. -/
def root : Site := ⟨"", "", [], 0⟩

/-- Inside a union: members see neither the key nor its owner. -/
def member (site : Site) : Site := { site with key := "", owner := "" }

/-- An item of the array at a site. -/
def item (site : Site) (position : Nat) : Site :=
  ⟨"", "", .index position :: site.trail, site.depth + 1⟩

/-- A property of the object at a site. -/
def property (site : Site) (owner key : String) : Site :=
  ⟨key, owner, .key key :: site.trail, site.depth + 1⟩

/-- The path of a site. -/
def path (site : Site) : Path := ⟨site.trail.reverse⟩

section Fields

variable (site : Site) (position : Nat) (owner key : String)

@[simp] theorem trail_root : root.trail = [] := rfl

@[simp] theorem trail_item : (site.item position).trail = .index position :: site.trail := rfl

@[simp] theorem depth_item : (site.item position).depth = site.depth + 1 := rfl

@[simp] theorem trail_property : (site.property owner key).trail = .key key :: site.trail := rfl

@[simp] theorem depth_property : (site.property owner key).depth = site.depth + 1 := rfl

@[simp] theorem segments_path : site.path.segments = site.trail.reverse := rfl

end Fields

end Site

/-- Why a walk ended without a result. -/
inductive Refusal where
  | mismatch (m : Mismatch)
  /-- The definitions only lead to each other. -/
  | endless

/-- The mismatch of a slot at a site. -/
def Site.mismatch (site : Site) (expected : String) (slot : Slot) : Mismatch :=
  ⟨expected, slot.text, site.key, site.owner, site.path⟩

/-- The refusal of a slot at a site. -/
def Site.refuse {α : Type} (site : Site) (expected : String) (slot : Slot) : Except Refusal α :=
  .error (.mismatch (site.mismatch expected slot))

/-- What stays the same during a walk. -/
structure Walk where
  table : Table
  direction : Direction
  /-- How deep arrays and objects may nest. -/
  maxDepth : Nat

namespace Walk

/-- Refuses a container that lies too deep. -/
def enter (w : Walk) (slot : Slot) (site : Site) : Except Refusal Unit :=
  if site.depth < w.maxDepth then .ok ()
  else site.refuse ("a value nested at most " ++ toString w.maxDepth ++ " levels deep") slot

/-! ### Leaves -/

/-- A scalar of a kind. -/
def primitive (kind : Kind) (slot : Slot) (site : Site) : Except Refusal Slot :=
  match slot with
  | some v => if kind.admits v then .ok (some v) else site.refuse kind.name slot
  | none => site.refuse kind.name slot

/-- Exactly `null`. -/
def null (slot : Slot) (site : Site) : Except Refusal Slot :=
  match slot with
  | some .null => .ok (some .null)
  | _ => site.refuse (Descriptor.name .null) slot

/-- Only a missing slot. -/
def undefined (slot : Slot) (site : Site) : Except Refusal Slot :=
  match slot with
  | none => .ok none
  | some _ => site.refuse (Descriptor.name .undefined) slot

/-- `null`, or a date, which is written in canonical form; a number is no date. -/
def date (slot : Slot) (site : Site) : Except Refusal Slot :=
  match slot with
  | some .null => .ok (some .null)
  | some (.string s) =>
    match Date.normalize? s with
    | some canonical => .ok (some (.string canonical))
    | none => site.refuse (Descriptor.name .date) slot
  | _ => site.refuse (Descriptor.name .date) slot

/-- One of the listed values; the value is kept as it is spelled. -/
def enum (cases : List Json) (slot : Slot) (site : Site) : Except Refusal Slot :=
  match slot with
  | some v =>
    if cases.any (Descriptor.isCase · v) then .ok (some v)
    else site.refuse (Descriptor.name (.enum cases)) slot
  | none => site.refuse (Descriptor.name (.enum cases)) slot

/-! ### Loops over members, items and keys -/

/-- The result of the first member that accepts; `none` if all refuse. -/
def firstAccepted (convert : Descriptor → Except Refusal Slot) :
    List Descriptor → Except Refusal (Option Slot)
  | [] => .ok none
  | d :: ds =>
    match convert d with
    | .ok slot => .ok (some slot)
    | .error .endless => .error .endless
    | .error (.mismatch _) => firstAccepted convert ds

/-- The items of an array from `position` on, converted in order. -/
def items (convert : Nat → Json → Except Refusal Slot) :
    Nat → List Json → Except Refusal (List Json)
  | _, [] => .ok []
  | position, v :: vs => do
    let slot ← convert position v
    let rest ← items convert (position + 1) vs
    .ok (slot.getD .null :: rest)

/-- Writes a converted slot under a key; a missing one writes nothing. -/
@[simp] def putSlot (out : List (String × Json)) (key : String) : Slot → List (String × Json)
  | some v => Keyed.put out key v
  | none => out

/-- The declared properties in the order of an index, converted and written onto `out`. -/
def declared (convert : String → Descriptor → Slot → Except Refusal Slot)
    (properties : List (Property Descriptor)) (input : List (String × Json)) :
    List (String × IndexEntry) → List (String × Json) → Except Refusal (List (String × Json))
  | [], out => .ok out
  | (key, entry) :: rest, out =>
    match properties[entry.position]? with
    | some p => do
      let slot ← convert key p.descriptor (input.lookup key)
      declared convert properties input rest (putSlot out entry.outputKey slot)
    | none => declared convert properties input rest out

/-- The undeclared members in input order, converted and written onto `out`. -/
def undeclared (convert : String → Json → Except Refusal Slot) (index : PropertyIndex) :
    List (String × Json) → List (String × Json) → Except Refusal (List (String × Json))
  | [], out => .ok out
  | (key, v) :: rest, out =>
    if index.contains key then undeclared convert index rest out
    else do
      let slot ← convert key v
      undeclared convert index rest (putSlot out key slot)

/-! ### The walk -/

/-- An array whose items are converted by `convert`. -/
def array (w : Walk) (convert : Site → Slot → Except Refusal Slot) (slot : Slot) (site : Site) :
    Except Refusal Slot :=
  match slot with
  | some (.array vs) => do
    w.enter slot site
    let out ← items (fun position v => convert (site.item position) (some v)) 0 vs
    .ok (some (.array out))
  | _ => site.refuse "array" slot

/-- An object whose values are converted by `convert`; `owner` is the name by which
its shape was reached, if there is one. -/
def object (w : Walk) (convert : Descriptor → Site → Slot → Except Refusal Slot)
    (properties : List (Property Descriptor)) (additional : Additional Descriptor)
    (owner : Option String) (slot : Slot) (site : Site) : Except Refusal Slot :=
  match slot with
  | some (.object input) => do
    w.enter slot site
    let index := PropertyIndex.ofProperties properties w.direction
    let child (key : String) := site.property (owner.getD "") key
    let out ← declared (fun key d slot => convert d (child key) slot) properties input
      index.entries []
    let out ← undeclared (fun key v =>
      match additional with
      | .reject => (child key).refuse (Descriptor.name .never) (some v)
      | .allow d => convert d (child key) (some v)) index input out
    .ok (some (.object out))
  | _ => site.refuse (owner.getD "object") slot

/-- Converts a slot in at most `steps` nested steps. `owner` is the name by which
the descriptor was reached, if it was reached directly by one. -/
def value (w : Walk) : Nat → Option String → Descriptor → Site → Slot → Except Refusal Slot
  | 0, _, _, _, _ => .error .endless
  | steps + 1, owner, d, site, slot =>
    match d with
    | .any => .ok slot
    | .null => null slot site
    | .never => site.refuse (Descriptor.name .never) slot
    | .undefined => undefined slot site
    | .date => date slot site
    | .primitive kind => primitive kind slot site
    | .literal text => site.refuse text slot
    | .enum cases => enum cases slot site
    | .ref name =>
      match w.table.get? name with
      | some d => value w steps (some name) d site slot
      | none => site.refuse name slot
    | .union members => do
      match ← firstAccepted (fun d => value w steps none d site.member slot) members with
      | some slot => .ok slot
      | none => site.refuse (Descriptor.name (.union members)) slot
    | .array item => array w (fun site slot => value w steps none item site slot) slot site
    | .object properties additional =>
      object w (fun d site slot => value w steps none d site slot) properties additional owner
        slot site

end Walk
end Wireform
