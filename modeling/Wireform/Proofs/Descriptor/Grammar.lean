/-
# The grammar of descriptor documents

What a document of a descriptor looks like, given what its parts look like
(`Descriptor.Form`), and the documents that are of such a form all the way down
(`Descriptor.Document`). The parts of a document are smaller documents, so a form is still
one if something else is asked of its parts that holds of smaller documents
(`Descriptor.Form.mono`).

Key definitions: `Descriptor.Form`, `Descriptor.Document`.
Key theorems: `Descriptor.Form.mono`, `Descriptor.document_iff`.
-/
import Wireform.Descriptor.Document
import Wireform.Proofs.Keyed

namespace Wireform
namespace Descriptor

/-! ### Forms -/

/-- The simple descriptors and their names. -/
def simple : List (String × Descriptor) :=
  [("string", .primitive .string), ("number", .primitive .number), ("boolean", .primitive .boolean),
    ("any", .any), ("null", .null), ("never", .never), ("undefined", .undefined), ("date", .date)]

/-- The fields of an object: no other names than these, and none twice. -/
structure Only (allowed : List String) (fields : List (String × Json)) : Prop where
  nodup : (Keyed.keys fields).Nodup
  subset : Keyed.keys fields ⊆ allowed

/-- A field may be left out, and stands for something then. -/
inductive OrElse {α : Type} (Form : Json → α → Prop) (absent : α) : Option Json → α → Prop
  | absent : OrElse Form absent none absent
  | present {v a} (h : Form v a) : OrElse Form absent (some v) a

/-- The forms of a typed key: `null` stands for the wire key. -/
inductive KeyForm (key : String) : Json → String → Prop
  | same : KeyForm key .null key
  | other {typed} : KeyForm key (.string typed) typed

/-- An array of forms. -/
inductive ListForm {α : Type} (Form : Json → α → Prop) : Json → List α → Prop
  | intro {vs as} (h : List.Forall₂ Form vs as) : ListForm Form (.array vs) as

section Forms

-- the documents of the parts
variable (Part : Json → Descriptor → Prop)

/-- The forms of a property. -/
inductive PropertyForm : Json → Property Descriptor → Prop
  | fields {fields key typed v d} (honly : Only ["json", "js", "type"] fields)
      (hjson : fields.lookup "json" = some (.string key))
      (hjs : OrElse (KeyForm key) key (fields.lookup "js") typed)
      (htype : fields.lookup "type" = some v) (h : Part v d) :
    PropertyForm (.object fields) ⟨key, typed, d⟩
  | items {key js typed v d} (hjs : KeyForm key js typed) (h : Part v d) :
    PropertyForm (.array [.string key, js, v]) ⟨key, typed, d⟩

/-- The forms of what additional keys must look like. -/
inductive AdditionalForm : Json → Additional Descriptor → Prop
  | reject : AdditionalForm (.bool false) .reject
  | any : AdditionalForm (.bool true) (.allow .any)
  | allow {v d} (h : Part v d) : AdditionalForm v (.allow d)

/-- The forms of the body of an object shape: the items of an array are its first fields. -/
inductive BodyForm : Json → Descriptor → Prop
  | fields {fields ps x} (honly : Only ["properties", "additional"] fields)
      (hproperties : OrElse (ListForm (PropertyForm Part)) [] (fields.lookup "properties") ps)
      (hadditional : OrElse (AdditionalForm Part) .reject (fields.lookup "additional") x) :
    BodyForm (.object fields) (.object ps x)
  | items {properties additional ps x} (hfirst : additional ≠ none → properties ≠ none)
      (hproperties : OrElse (ListForm (PropertyForm Part)) [] properties ps)
      (hadditional : OrElse (AdditionalForm Part) .reject additional x) :
    BodyForm (.array (properties.toList ++ additional.toList)) (.object ps x)

/-- The forms of a descriptor document. -/
inductive Form : Json → Descriptor → Prop
  | name {name d} (h : (name, d) ∈ simple) : Form (.string name) d
  | lone {name d} (h : (name, d) ∈ simple) : Form (.object [(name, .null)]) d
  | ref {target} : Form (.object [("ref", .string target)]) (.ref target)
  | literal {text} : Form (.object [("literal", .string text)]) (.literal text)
  | union {v ds} (h : ListForm Part v ds) : Form (.object [("union", v)]) (.union ds)
  | enum {cases} : Form (.object [("enum", .array cases)]) (.enum (Json.mergedItems cases))
  | array {v d} (h : Part v d) : Form (.object [("array", v)]) (.array d)
  | map {v d} (h : Part v d) : Form (.object [("map", v)]) (.map d)
  | object {v d} (h : BodyForm Part v d) : Form (.object [("object", v)]) d

end Forms

/-- The documents of a descriptor. -/
inductive Document : Json → Descriptor → Prop
  | intro {v d} (h : Form Document v d) : Document v d

/-! ### Forms of smaller documents -/

theorem sizeOf_member_lt {fields : List (String × Json)} {key : String} {v : Json}
    (h : (key, v) ∈ fields) : sizeOf v < sizeOf (Json.object fields) := by
  have hmem := List.sizeOf_lt_of_mem h
  simp only [Prod.mk.sizeOf_spec] at hmem
  simp only [Json.object.sizeOf_spec]
  omega

theorem sizeOf_lookup_lt {fields : List (String × Json)} {key : String} {v : Json}
    (h : fields.lookup key = some v) : sizeOf v < sizeOf (Json.object fields) :=
  sizeOf_member_lt (Keyed.mem_of_lookup h)

theorem sizeOf_item_lt {items : List Json} {v : Json} (h : v ∈ items) :
    sizeOf v < sizeOf (Json.array items) := by
  have hmem := List.sizeOf_lt_of_mem h
  simp only [Json.array.sizeOf_spec]
  omega

section Mono

variable {P Q : Json → Descriptor → Prop}

theorem OrElse.mono {α : Type} {F G : Json → α → Prop} {absent x : α} {v? : Option Json}
    (hFG : ∀ w, v? = some w → ∀ x, F w x → G w x) (h : OrElse F absent v? x) :
    OrElse G absent v? x := by
  cases h with
  | absent => exact .absent
  | present h => exact .present (hFG _ rfl _ h)

theorem ListForm.mono {α : Type} {F G : Json → α → Prop} {v : Json} {as : List α}
    (hFG : ∀ w, sizeOf w < sizeOf v → ∀ a, F w a → G w a) (h : ListForm F v as) :
    ListForm G v as := by
  cases h with
  | intro h => exact .intro (forall₂_of_mem (fun w hw => hFG w (sizeOf_item_lt hw)) h)

theorem PropertyForm.mono {v : Json} {p : Property Descriptor}
    (hPQ : ∀ w, sizeOf w < sizeOf v → ∀ d, P w d → Q w d) (h : PropertyForm P v p) :
    PropertyForm Q v p := by
  cases h with
  | fields honly hjson hjs htype h =>
    exact .fields honly hjson hjs htype (hPQ _ (sizeOf_lookup_lt htype) _ h)
  | items hjs h => exact .items hjs (hPQ _ (sizeOf_item_lt (by simp)) _ h)

theorem AdditionalForm.mono {v : Json} {x : Additional Descriptor}
    (hPQ : ∀ d, P v d → Q v d) (h : AdditionalForm P v x) : AdditionalForm Q v x := by
  cases h with
  | reject => exact .reject
  | any => exact .any
  | allow h => exact .allow (hPQ _ h)

theorem BodyForm.mono {v : Json} {d : Descriptor}
    (hPQ : ∀ w, sizeOf w < sizeOf v → ∀ d, P w d → Q w d) (h : BodyForm P v d) :
    BodyForm Q v d := by
  have hlist {w : Json} (hw : sizeOf w < sizeOf v) (ps) (h : ListForm (PropertyForm P) w ps) :
      ListForm (PropertyForm Q) w ps :=
    h.mono fun u hu _ hp => hp.mono fun t ht => hPQ t (by omega)
  cases h with
  | fields honly hproperties hadditional =>
    exact .fields honly (hproperties.mono fun w hw => hlist (sizeOf_lookup_lt hw))
      (hadditional.mono fun w hw _ => AdditionalForm.mono (hPQ w (sizeOf_lookup_lt hw)))
  | items hfirst hproperties hadditional =>
    exact .items hfirst (hproperties.mono fun w hw => hlist (sizeOf_item_lt (by simp [hw])))
      (hadditional.mono fun w hw _ => AdditionalForm.mono (hPQ w (sizeOf_item_lt (by simp [hw]))))

/-- **A form of smaller documents** is one of what those documents are, too. -/
theorem Form.mono {v : Json} {d : Descriptor}
    (hPQ : ∀ w, sizeOf w < sizeOf v → ∀ d, P w d → Q w d) (h : Form P v d) : Form Q v d := by
  have hvalue (key : String) (w : Json) : sizeOf w < sizeOf (Json.object [(key, w)]) :=
    sizeOf_lookup_lt List.lookup_cons_self
  cases h with
  | name h => exact .name h
  | lone h => exact .lone h
  | ref => exact .ref
  | literal => exact .literal
  | union h => exact .union (h.mono fun u hu => hPQ u (Nat.lt_trans hu (hvalue _ _)))
  | enum => exact .enum
  | array h => exact .array (hPQ _ (hvalue _ _) _ h)
  | map h => exact .map (hPQ _ (hvalue _ _) _ h)
  | object h => exact .object (h.mono fun u hu => hPQ u (Nat.lt_trans hu (hvalue _ _)))

end Mono

theorem document_iff {v : Json} {d : Descriptor} : Document v d ↔ Form Document v d :=
  ⟨fun h => by cases h with | intro h => exact h, .intro⟩

end Descriptor
end Wireform
