/-
# Writing descriptors

How a descriptor is spelled as a document (`Descriptor.Spelled`): a simple one by its name,
another one under its tag. A typed key may be left out where it equals the wire key, and so
may a list without properties and the word that additional keys are refused; fields stand in
any order. A shape without properties that allows other keys is spelled as a map or as an
object, and where it allows anything, by `true` or by the document of anything.

Every spelling is a document of the grammar (`Descriptor.Spelled.document`), and every
descriptor has a spelling, as long as the cases of its enums hold no key twice
(`Descriptor.spelled_fullDocument`).

Key definitions: `Descriptor.Spelled`, `Descriptor.fullDocument`, `Descriptor.DistinctCases`.
Key theorems: `Descriptor.Spelled.document`, `Descriptor.spelled_fullDocument`.
-/
import Wireform.Proofs.Descriptor.Grammar
import Wireform.Proofs.Json.Reorder
import Wireform.Proofs.Table.Reach

namespace Wireform
namespace Descriptor

/-- A field that is there or is left out. -/
def field (key : String) (v : Option Json) : List (String × Json) := v.toList.map (key, ·)

section Spellings

-- the spellings of the parts
variable (Part : Json → Descriptor → Prop)

/-- The spellings of a property. -/
inductive PropertySpelling : Json → Property Descriptor → Prop
  | intro {fields key typed js v d}
      (hfields : fields.Perm (("json", .string key) :: ("type", v) :: field "js" js))
      (hjs : OrElse (fun w typed => w = .string typed) key js typed) (h : Part v d) :
    PropertySpelling (.object fields) ⟨key, typed, d⟩

/-- The spellings of a descriptor. -/
inductive Spelling : Json → Descriptor → Prop
  | name {name d} (h : (name, d) ∈ simple) : Spelling (.string name) d
  | ref {target} : Spelling (.object [("ref", .string target)]) (.ref target)
  | literal {text} : Spelling (.object [("literal", .string text)]) (.literal text)
  | union {v ds} (h : ListForm Part v ds) : Spelling (.object [("union", v)]) (.union ds)
  | enum {cases} (h : Json.DistinctItems cases) :
    Spelling (.object [("enum", .array cases)]) (.enum cases)
  | array {v d} (h : Part v d) : Spelling (.object [("array", v)]) (.array d)
  | map {v d} (h : Part v d) : Spelling (.object [("map", v)]) (.map d)
  | object {fields properties additional ps x}
      (hfields : fields.Perm (field "properties" properties ++ field "additional" additional))
      (hproperties : OrElse (ListForm (PropertySpelling Part)) [] properties ps)
      (hadditional : OrElse (AdditionalForm Part) .reject additional x) :
    Spelling (.object [("object", .object fields)]) (.object ps x)

end Spellings

/-- The documents in which a descriptor is written. -/
inductive Spelled : Json → Descriptor → Prop
  | intro {v d} (h : Spelling Spelled v d) : Spelled v d

/-! ### What is written is a document -/

theorem Only.of_perm {allowed : List String} {fields fields' : List (String × Json)}
    (h : Only allowed fields) (hperm : fields'.Perm fields) : Only allowed fields' where
  nodup := (hperm.map _).nodup_iff.mpr h.nodup
  subset := fun _ hkey => h.subset ((hperm.map _).mem_iff.mp hkey)

theorem only_propertyFields (key v : Json) (js : Option Json) :
    Only ["json", "js", "type"] (("json", key) :: ("type", v) :: field "js" js) := by
  cases js <;> exact ⟨by simp [field], by simp [field]⟩

theorem only_bodyFields (properties additional : Option Json) : Only ["properties", "additional"]
    (field "properties" properties ++ field "additional" additional) := by
  cases properties <;> cases additional <;>
    exact ⟨by simp [field], by simp [field]⟩

section Forms

variable {P : Json → Descriptor → Prop}

theorem PropertySpelling.form {v : Json} {p : Property Descriptor} (h : PropertySpelling P v p) :
    PropertyForm P v p := by
  cases h with
  | @intro fields key typed js v d hfields hjs h =>
    have honly := only_propertyFields (.string key) v js
    have hlookup := Keyed.lookup_eq_of_perm honly.nodup hfields.symm
    refine .fields (v := v) (honly.of_perm hfields) ?_ ?_ ?_ h
    · rw [hlookup]
      rfl
    · rw [hlookup]
      cases hjs with
      | absent => exact .absent
      | present h =>
        subst h
        exact .present .other
    · rw [hlookup]
      rfl

theorem Spelling.form {v : Json} {d : Descriptor} (h : Spelling P v d) : Form P v d := by
  cases h with
  | name h => exact .name h
  | ref => exact .ref
  | literal => exact .literal
  | union h => exact .union h
  | @enum cases h =>
    have henum : Form P (.object [("enum", .array cases)]) (.enum (Json.mergedItems cases)) := .enum
    rwa [Json.mergedItems_eq_self h] at henum
  | array h => exact .array h
  | map h => exact .map h
  | @object fields properties additional ps x hfields hproperties hadditional =>
    have honly := only_bodyFields properties additional
    have hlookup := Keyed.lookup_eq_of_perm honly.nodup hfields.symm
    have hfirst : fields.lookup "properties" = properties := by
      rw [hlookup]
      cases properties <;> cases additional <;> rfl
    have hsecond : fields.lookup "additional" = additional := by
      rw [hlookup]
      cases properties <;> cases additional <;> rfl
    refine .object (.fields (honly.of_perm hfields) ?_ ?_)
    · rw [hfirst]
      exact hproperties.mono fun w _ _ => ListForm.mono fun _ _ _ => PropertySpelling.form
    · rwa [hsecond]

end Forms

/-- **A spelling of a descriptor is a document of it.** -/
theorem Spelled.document {v : Json} {d : Descriptor} (h : Spelled v d) : Document v d := by
  have ih (w : Json) (_ : sizeOf w < sizeOf v) (d : Descriptor) (h : Spelled w d) :
      Document w d := h.document
  cases h with
  | intro h => exact .intro (h.form.mono ih)
termination_by v

/-! ### No key is written twice -/

theorem distinct_object {allowed : List String} {fields fields' : List (String × Json)}
    (h : Only allowed fields) (hperm : fields'.Perm fields) (hv : ∀ m ∈ fields, m.2.Distinct) :
    Json.Distinct (.object fields') := by
  refine ⟨(h.of_perm hperm).nodup, Json.distinctMembers_iff.mpr fun m hm => ?_⟩
  exact hv m (hperm.mem_iff.mp hm)

theorem distinct_singleton {key : String} {v : Json} (h : v.Distinct) :
    Json.Distinct (.object [(key, v)]) := ⟨List.nodup_singleton key, h, trivial⟩

section Distinct

variable {P : Json → Descriptor → Prop}

theorem ListForm.distinct {α : Type} {F : Json → α → Prop} {v : Json} {as : List α}
    (hF : ∀ w, sizeOf w < sizeOf v → ∀ a, F w a → w.Distinct) (h : ListForm F v as) :
    v.Distinct := by
  cases h with
  | intro h =>
    refine Json.distinctItems_iff.mpr fun w hw => ?_
    obtain ⟨a, -, ha⟩ := exists_right_of_mem h hw
    exact hF w (sizeOf_item_lt hw) a ha

theorem PropertySpelling.distinct {v : Json} {p : Property Descriptor}
    (hP : ∀ w, sizeOf w < sizeOf v → ∀ d, P w d → w.Distinct) (h : PropertySpelling P v p) :
    v.Distinct := by
  cases h with
  | @intro fields key typed js v d hfields hjs h =>
    have hv : sizeOf v < sizeOf (Json.object fields) :=
      sizeOf_member_lt (hfields.mem_iff.mpr (List.mem_cons_of_mem _ List.mem_cons_self))
    refine distinct_object (only_propertyFields _ _ _) hfields ?_
    simp only [List.forall_mem_cons]
    refine ⟨trivial, hP v hv d h, fun m hm => ?_⟩
    cases hjs with
    | absent => cases hm
    | present h =>
      subst h
      obtain rfl := List.mem_singleton.mp hm
      trivial

theorem AdditionalForm.distinct {v : Json} {x : Additional Descriptor}
    (hP : ∀ d, P v d → v.Distinct) (h : AdditionalForm P v x) : v.Distinct := by
  cases h with
  | reject | any => trivial
  | allow h => exact hP _ h

theorem Spelling.distinct {v : Json} {d : Descriptor}
    (hP : ∀ w, sizeOf w < sizeOf v → ∀ d, P w d → w.Distinct) (h : Spelling P v d) :
    v.Distinct := by
  have hvalue (key : String) (w : Json) : sizeOf w < sizeOf (Json.object [(key, w)]) :=
    sizeOf_member_lt List.mem_cons_self
  cases h with
  | name h => trivial
  | ref | literal => exact distinct_singleton trivial
  | union h => exact distinct_singleton (h.distinct fun w hw => hP w (Nat.lt_trans hw (hvalue _ _)))
  | enum h => exact distinct_singleton h
  | array h | map h => exact distinct_singleton (hP _ (hvalue _ _) _ h)
  | @object fields properties additional ps x hfields hproperties hadditional =>
    have hsmall {key : String} {w : Json} (hw : (key, w) ∈ fields) :
        sizeOf w < sizeOf (Json.object [("object", .object fields)]) :=
      Nat.lt_trans (sizeOf_member_lt hw) (hvalue _ _)
    have hmem {m : String × Json} (hm : m ∈ field "properties" properties ∨
        m ∈ field "additional" additional) : m ∈ fields :=
      hfields.mem_iff.mpr (List.mem_append.mpr hm)
    refine distinct_singleton (distinct_object (only_bodyFields _ _) hfields ?_)
    intro m hm
    rcases List.mem_append.mp hm with hm | hm
    · cases hproperties with
      | absent => cases hm
      | present h =>
        have hw := hsmall (hmem (.inl List.mem_cons_self))
        obtain rfl := List.mem_singleton.mp hm
        refine ListForm.distinct (fun u hu p hp => hp.distinct fun t ht => hP t ?_) h
        exact Nat.lt_trans ht (Nat.lt_trans hu hw)
    · cases hadditional with
      | absent => cases hm
      | present h =>
        have hw := hsmall (hmem (.inr List.mem_cons_self))
        obtain rfl := List.mem_singleton.mp hm
        exact h.distinct (hP _ hw)

/-- A spelling of a descriptor holds no key twice. -/
theorem Spelled.distinct {v : Json} {d : Descriptor} (h : Spelled v d) : v.Distinct := by
  have ih (w : Json) (_ : sizeOf w < sizeOf v) (d : Descriptor) (h : Spelled w d) : w.Distinct :=
    h.distinct
  cases h with
  | intro h => exact Spelling.distinct ih h
termination_by v

end Distinct

/-! ### Every descriptor can be written -/

/-- The cases of enums in the descriptor hold no key twice. -/
def DistinctCases (d : Descriptor) : Prop :=
  ∀ cases, .enum cases ∈ d.parts → Json.DistinctItems cases

mutual

/-- The document of a descriptor with nothing left out. -/
def fullDocument : Descriptor → Json
  | .primitive kind => .string kind.name
  | .any => .string "any"
  | .null => .string "null"
  | .never => .string "never"
  | .undefined => .string "undefined"
  | .date => .string "date"
  | .literal text => .object [("literal", .string text)]
  | .ref target => .object [("ref", .string target)]
  | .union members => .object [("union", .array (fullDocuments members))]
  | .enum cases => .object [("enum", .array cases)]
  | .array item => .object [("array", fullDocument item)]
  | .object properties additional =>
    .object [("object", .object [("properties", .array (fullProperties properties)),
      ("additional", fullAdditional additional)])]

/-- The documents of members. -/
def fullDocuments : List Descriptor → List Json
  | [] => []
  | d :: ds => fullDocument d :: fullDocuments ds

/-- The documents of properties. -/
def fullProperties : List (Property Descriptor) → List Json
  | [] => []
  | ⟨wire, typed, d⟩ :: ps =>
    .object [("json", .string wire), ("type", fullDocument d), ("js", .string typed)] ::
      fullProperties ps

/-- The document of what additional keys must look like. -/
def fullAdditional : Additional Descriptor → Json
  | .reject => .bool false
  | .allow d => fullDocument d

end

mutual

/-- **Every descriptor has a spelling.** -/
theorem spelled_fullDocument : ∀ {d : Descriptor}, d.DistinctCases → Spelled (fullDocument d) d
  | .primitive kind, _ => .intro (.name (by cases kind <;> simp [simple, Kind.name]))
  | .any, _ | .null, _ | .never, _ | .undefined, _ | .date, _ => .intro (.name (by simp [simple]))
  | .literal _, _ => .intro .literal
  | .ref _, _ => .intro .ref
  | .enum cases, h => .intro (.enum (h cases (mem_parts_self _)))
  | .array item, h => by
    have hitem : item.DistinctCases := fun cases hc => h cases (List.mem_cons_of_mem _ hc)
    exact .intro (.array (spelled_fullDocument hitem))
  | .union members, h => by
    have hmembers (d) (hd : d ∈ members) : d.DistinctCases := fun cases hc =>
      h cases (List.mem_cons_of_mem _ (parts_subset_of_member hd hc))
    exact .intro (.union (.intro (spelled_fullDocuments hmembers)))
  | .object properties additional, h => by
    have hproperties (p) (hp : p ∈ properties) : p.descriptor.DistinctCases := fun cases hc =>
      h cases (List.mem_cons_of_mem _ (List.mem_append_left _ (parts_subset_of_property hp hc)))
    have hadditional (d) (hd : additional = .allow d) : d.DistinctCases := fun cases hc =>
      h cases (List.mem_cons_of_mem _ (List.mem_append_right _ (by rwa [hd])))
    exact .intro (.object (.refl _) (.present (.intro (spelled_fullProperties hproperties)))
      (.present (spelled_fullAdditional hadditional)))

theorem spelled_fullDocuments : ∀ {ds : List Descriptor}, (∀ d ∈ ds, d.DistinctCases) →
    List.Forall₂ Spelled (fullDocuments ds) ds
  | [], _ => .nil
  | _ :: _, h => by
    obtain ⟨hd, hrest⟩ := List.forall_mem_cons.mp h
    exact .cons (spelled_fullDocument hd) (spelled_fullDocuments hrest)

theorem spelled_fullProperties : ∀ {ps : List (Property Descriptor)},
    (∀ p ∈ ps, p.descriptor.DistinctCases) →
      List.Forall₂ (PropertySpelling Spelled) (fullProperties ps) ps
  | [], _ => .nil
  | ⟨_, _, _⟩ :: _, h => by
    obtain ⟨hp, hrest⟩ := List.forall_mem_cons.mp h
    exact .cons (.intro (.refl _) (.present rfl) (spelled_fullDocument hp))
      (spelled_fullProperties hrest)

theorem spelled_fullAdditional : ∀ {x : Additional Descriptor},
    (∀ d, x = .allow d → d.DistinctCases) → AdditionalForm Spelled (fullAdditional x) x
  | .reject, _ => .reject
  | .allow d, h => .allow (spelled_fullDocument (h d rfl))

end

end Descriptor
end Wireform
