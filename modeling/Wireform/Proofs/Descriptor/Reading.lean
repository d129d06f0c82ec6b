/-
# Reading descriptor documents

The reader of documents tries one form after the other, and reads the fields of an object
from the last to the first, each at most once. So it reads a property or a body from fields
in any order (`Descriptor.propertyFields?_eq_some_iff`, `Descriptor.bodyFields?_eq_some_iff`),
and a document just when it is of one of the forms of the grammar with parts that the reader
reads (`Descriptor.reads_iff`). Since the parts are smaller, it reads exactly the documents
of the grammar (`Descriptor.ofJson?_eq_some_iff`).

Key definitions: `Descriptor.Reads`.
Key theorems: `Descriptor.reads_iff`, `Descriptor.ofJson?_eq_some_iff`.
-/
import Wireform.Proofs.Descriptor.Grammar

namespace Wireform
namespace Descriptor

/-! ### Names and tags -/

theorem named?_eq_some_iff {name : String} {d : Descriptor} :
    named? name = some d ↔ (name, d) ∈ simple := by
  have hlookup : named? name = simple.lookup name := by
    simp only [named?, simple, Keyed.lookup_cons, List.lookup_nil]
  have hnodup : (Keyed.keys simple).Nodup := by decide
  rw [hlookup]
  exact ⟨Keyed.mem_of_lookup, Keyed.lookup_of_mem hnodup⟩

/-- No simple name is a tag. -/
theorem ofKey?_of_mem_simple {name : String} {d : Descriptor} (h : (name, d) ∈ simple) :
    Tag.ofKey? name = none := by
  have hall : ∀ key ∈ Keyed.keys simple, Tag.ofKey? key = none := by decide
  exact hall name (List.mem_map_of_mem h)

/-- The key of a tag. -/
def Tag.key : Tag → String
  | .ref => "ref"
  | .literal => "literal"
  | .union => "union"
  | .enum => "enum"
  | .array => "array"
  | .map => "map"
  | .object => "object"

theorem Tag.eq_key {key : String} {tag : Tag} (h : ofKey? key = some tag) : key = tag.key := by
  unfold ofKey? at h
  split_ifs at h <;> cases h <;> assumption

/-! ### Fields -/

theorem only_nil (allowed : List String) : Only allowed [] where
  nodup := List.nodup_nil
  subset := List.nil_subset _

theorem only_cons_iff {allowed : List String} {key : String} {v : Json}
    {rest : List (String × Json)} : Only allowed ((key, v) :: rest) ↔
      key ∈ allowed ∧ rest.lookup key = none ∧ Only allowed rest := by
  rw [Keyed.lookup_eq_none_iff_notMem]
  constructor
  · intro h
    obtain ⟨hnotMem, hnodup⟩ := List.nodup_cons.mp h.nodup
    obtain ⟨hmem, hsubset⟩ := List.cons_subset.mp h.subset
    exact ⟨hmem, hnotMem, hnodup, hsubset⟩
  · intro ⟨hmem, hnotMem, h⟩
    exact ⟨List.nodup_cons.mpr ⟨hnotMem, h.nodup⟩, List.cons_subset.mpr ⟨hmem, h.subset⟩⟩

theorem eq_none_of_rel {α β : Type} {R : α → β → Prop} {a : Option α} (h : Option.Rel R a none) :
    a = none := by
  cases h
  rfl

theorem exists_of_rel_some_right {α β : Type} {R : α → β → Prop} {a : Option α} {x : β}
    (h : Option.Rel R a (some x)) : ∃ y, a = some y ∧ R y x := by
  cases h with
  | some h => exact ⟨_, rfl, h⟩

theorem exists_of_rel_some {α β : Type} {R : α → β → Prop} {a : α} {b : Option β}
    (h : Option.Rel R (some a) b) : ∃ x, b = some x ∧ R a x := by
  cases h with
  | some h => exact ⟨_, rfl, h⟩

/-- One more field of a property is one that was not yet read. -/
theorem propertyFields?_cons_eq_some_iff {key : String} {v : Json} {rest : List (String × Json)}
    {f : PropertyFields} : propertyFields? ((key, v) :: rest) = some f ↔
      ∃ g, propertyFields? rest = some g ∧
        ((key = "json" ∧ g.json = none ∧ ∃ s, v = .string s ∧ { g with json := some s } = f) ∨
        (key = "js" ∧ g.js = none ∧ ∃ js, typedKey? v = some js ∧ { g with js := some js } = f) ∨
        (key = "type" ∧ g.type = none ∧
          ∃ d, ofJson? v = some d ∧ { g with type := some d } = f)) := by
  rw [propertyFields?]
  cases propertyFields? rest with
  | none => simp
  | some g =>
    simp only [Option.isNone_iff_eq_none, Option.some.injEq, exists_eq_left']
    split_ifs with hjson hjs htype
    · obtain ⟨rfl, hnone⟩ := hjson
      cases v <;> simp [hnone]
    · obtain ⟨rfl, hnone⟩ := hjs
      simp [hnone]
    · obtain ⟨rfl, hnone⟩ := htype
      simp [hnone]
    · simp only [false_iff]
      rintro (⟨rfl, h, -⟩ | ⟨rfl, h, -⟩ | ⟨rfl, h, -⟩)
      · exact hjson ⟨rfl, h⟩
      · exact hjs ⟨rfl, h⟩
      · exact htype ⟨rfl, h⟩

/-- The fields of a property are read wherever they stand. -/
theorem propertyFields?_eq_some_iff : ∀ {fields : List (String × Json)} {f : PropertyFields},
    propertyFields? fields = some f ↔ Only ["json", "js", "type"] fields ∧
      Option.Rel (fun v s => v = .string s) (fields.lookup "json") f.json ∧
      Option.Rel (fun v js => typedKey? v = some js) (fields.lookup "js") f.js ∧
      Option.Rel (fun v d => ofJson? v = some d) (fields.lookup "type") f.type
  | [], ⟨json, js, type⟩ => by
    simp only [propertyFields?, Option.some.injEq, PropertyFields.mk.injEq, List.lookup_nil,
      only_nil, true_and]
    constructor
    · rintro ⟨rfl, rfl, rfl⟩
      exact ⟨.none, .none, .none⟩
    · intro ⟨hjson, hjs, htype⟩
      cases hjson
      cases hjs
      cases htype
      exact ⟨rfl, rfl, rfl⟩
  | (key, v) :: rest, f => by
    rw [propertyFields?_cons_eq_some_iff, only_cons_iff]
    constructor
    · rintro ⟨g, hg, h⟩
      obtain ⟨honly, hjson, hjs, htype⟩ := propertyFields?_eq_some_iff.mp hg
      rcases h with ⟨rfl, hnone, s, hv, rfl⟩ | ⟨rfl, hnone, js, hv, rfl⟩ | ⟨rfl, hnone, d, hv, rfl⟩
      · have hfirst := eq_none_of_rel (hnone ▸ hjson)
        simpa [Keyed.lookup_cons, hfirst, honly] using ⟨hv, hjs, htype⟩
      · have hfirst := eq_none_of_rel (hnone ▸ hjs)
        simpa [Keyed.lookup_cons, hfirst, honly] using ⟨hjson, hv, htype⟩
      · have hfirst := eq_none_of_rel (hnone ▸ htype)
        simpa [Keyed.lookup_cons, hfirst, honly] using ⟨hjson, hjs, hv⟩
    · rintro ⟨⟨hkey, hnone, honly⟩, hjson, hjs, htype⟩
      simp only [List.mem_cons, List.not_mem_nil, or_false] at hkey
      obtain ⟨json, js, type⟩ := f
      rcases hkey with rfl | rfl | rfl
      · simp only [Keyed.lookup_cons, String.reduceEq, reduceIte] at hjson hjs htype
        obtain ⟨s, rfl, hv⟩ := exists_of_rel_some hjson
        exact ⟨⟨none, js, type⟩, propertyFields?_eq_some_iff.mpr
          ⟨honly, hnone ▸ .none, hjs, htype⟩, .inl ⟨rfl, rfl, s, hv, rfl⟩⟩
      · simp only [Keyed.lookup_cons, String.reduceEq, reduceIte] at hjson hjs htype
        obtain ⟨o, rfl, hv⟩ := exists_of_rel_some hjs
        exact ⟨⟨json, none, type⟩, propertyFields?_eq_some_iff.mpr
          ⟨honly, hjson, hnone ▸ .none, htype⟩, .inr (.inl ⟨rfl, rfl, o, hv, rfl⟩)⟩
      · simp only [Keyed.lookup_cons, String.reduceEq, reduceIte] at hjson hjs htype
        obtain ⟨d, rfl, hv⟩ := exists_of_rel_some htype
        exact ⟨⟨json, js, none⟩, propertyFields?_eq_some_iff.mpr
          ⟨honly, hjson, hjs, hnone ▸ .none⟩, .inr (.inr ⟨rfl, rfl, d, hv, rfl⟩)⟩

/-! ### What the reader reads -/

/-- The reader reads a document as a descriptor. -/
def Reads (v : Json) (d : Descriptor) : Prop := ofJson? v = some d

theorem ofItems?_eq_some_iff : ∀ {vs : List Json} {ds : List Descriptor},
    ofItems? vs = some ds ↔ List.Forall₂ Reads vs ds
  | [], ds => by
    rw [ofItems?, Option.some.injEq, List.forall₂_nil_left_iff, eq_comm]
  | v :: vs, ds => by
    rw [ofItems?, List.forall₂_cons_left_iff]
    constructor
    · intro h
      split at h
      · rename_i d ds' hd hds
        obtain rfl := Option.some.inj h
        exact ⟨d, ds', hd, ofItems?_eq_some_iff.mp hds, rfl⟩
      · cases h
    · rintro ⟨d, ds', hd, hds, rfl⟩
      rw [show ofJson? v = some d from hd, ofItems?_eq_some_iff.mpr hds]

theorem keyForm_iff {key typed : String} {v : Json} :
    KeyForm key v typed ↔ ∃ js, typedKey? v = some js ∧ js.getD key = typed := by
  constructor
  · intro h
    cases h with
    | same => exact ⟨none, rfl, rfl⟩
    | other => exact ⟨some typed, rfl, rfl⟩
  · rintro ⟨js, hjs, rfl⟩
    unfold typedKey? at hjs
    split at hjs
    · obtain rfl := Option.some.inj hjs
      exact .same
    · obtain rfl := Option.some.inj hjs
      exact .other
    · cases hjs

theorem orElse_keyForm_iff {key typed : String} {js? : Option Json} :
    OrElse (KeyForm key) key js? typed ↔ ∃ js,
      Option.Rel (fun v js => typedKey? v = some js) js? js ∧ (js.getD none).getD key = typed := by
  constructor
  · intro h
    cases h with
    | absent => exact ⟨none, .none, rfl⟩
    | present h =>
      obtain ⟨js, hv, htyped⟩ := keyForm_iff.mp h
      exact ⟨some js, .some hv, htyped⟩
  · rintro ⟨js, hjs, rfl⟩
    cases hjs with
    | none => exact .absent
    | some hv => exact .present (keyForm_iff.mpr ⟨_, hv, rfl⟩)

theorem propertyForm_object_iff {fields : List (String × Json)} {p : Property Descriptor} :
    PropertyForm Reads (.object fields) p ↔
      (propertyFields? fields).bind PropertyFields.property? = some p := by
  rw [Option.bind_eq_some_iff]
  constructor
  · intro h
    cases h with
    | @fields _ key _ _ d honly hjson hjs htype h =>
      obtain ⟨js, hread, rfl⟩ := orElse_keyForm_iff.mp hjs
      exact ⟨⟨some key, js, some d⟩, propertyFields?_eq_some_iff.mpr
        ⟨honly, hjson ▸ .some rfl, hread, htype ▸ .some h⟩, rfl⟩
  · rintro ⟨⟨json, js, type⟩, hf, hp⟩
    obtain ⟨honly, hjson, hjs, htype⟩ := propertyFields?_eq_some_iff.mp hf
    cases json with
    | none => cases hp
    | some key =>
      cases type with
      | none => cases hp
      | some d =>
        cases hp
        obtain ⟨_, hjson, rfl⟩ := exists_of_rel_some_right hjson
        obtain ⟨v, htype, h⟩ := exists_of_rel_some_right htype
        exact .fields honly hjson (orElse_keyForm_iff.mpr ⟨js, hjs, rfl⟩) htype h

theorem properties?_cons_eq_some_iff {v : Json} {rest : List Json}
    {ps : List (Property Descriptor)} : properties? (v :: rest) = some ps ↔
      ∃ p ps', PropertyForm Reads v p ∧ properties? rest = some ps' ∧ ps = p :: ps' := by
  constructor
  · intro h
    unfold properties? at h
    split at h
    · cases ‹_ = []›
    · rename_i fields rest' heq
      cases heq
      split at h
      · rename_i p ps' hp hps
        cases h
        exact ⟨p, ps', propertyForm_object_iff.mpr hp, hps, rfl⟩
      · cases h
    · rename_i key js type rest' heq
      cases heq
      split at h
      · rename_i js' d ps' hjs hd hps
        cases h
        exact ⟨_, ps', .items (keyForm_iff.mpr ⟨js', hjs, rfl⟩) hd, hps, rfl⟩
      · cases h
    · cases h
  · rintro ⟨p, ps', hp, hps, rfl⟩
    cases v with
    | object fields => rw [properties?, propertyForm_object_iff.mp hp, hps]
    | array items =>
      cases hp with
      | items hjs h =>
        obtain ⟨js', hread, rfl⟩ := keyForm_iff.mp hjs
        rw [properties?, hread, show ofJson? _ = some _ from h, hps]
    | null | bool _ | number _ | string _ => cases hp

theorem properties?_eq_some_iff : ∀ {vs : List Json} {ps : List (Property Descriptor)},
    properties? vs = some ps ↔ List.Forall₂ (PropertyForm Reads) vs ps
  | [], ps => by
    rw [properties?, Option.some.injEq, List.forall₂_nil_left_iff, eq_comm]
  | v :: vs, ps => by
    rw [properties?_cons_eq_some_iff, List.forall₂_cons_left_iff]
    simp only [properties?_eq_some_iff]

theorem listForm_iff {v : Json} {ps : List (Property Descriptor)} :
    ListForm (PropertyForm Reads) v ps ↔ propertyList? v = some ps := by
  constructor
  · intro h
    cases h with
    | intro h => exact properties?_eq_some_iff.mpr h
  · intro h
    unfold propertyList? at h
    split at h
    · exact .intro (properties?_eq_some_iff.mp h)
    · cases h

theorem additionalForm_iff {v : Json} {x : Additional Descriptor} :
    AdditionalForm Reads v x ↔ additional? v (ofJson? v) = some x := by
  constructor
  · intro h
    cases h with
    | reject | any => rfl
    | @allow _ d h =>
      have hbool : ∀ b, v ≠ .bool b := by
        rintro b rfl
        exact absurd h (by rw [Reads, ofJson?] <;> nofun)
      unfold additional?
      split
      · exact absurd rfl (hbool false)
      · exact absurd rfl (hbool true)
      · rw [show ofJson? v = some d from h, Option.map_some]
  · intro h
    unfold additional? at h
    split at h
    · cases h
      exact .reject
    · cases h
      exact .any
    · obtain ⟨d, hd, rfl⟩ := Option.map_eq_some_iff.mp h
      exact .allow hd

/-- One more field of a body is one that was not yet read. -/
theorem bodyFields?_cons_eq_some_iff {key : String} {v : Json} {rest : List (String × Json)}
    {f : BodyFields} : bodyFields? ((key, v) :: rest) = some f ↔
      ∃ g, bodyFields? rest = some g ∧
        ((key = "properties" ∧ g.properties = none ∧
          ∃ ps, ListForm (PropertyForm Reads) v ps ∧ { g with properties := some ps } = f) ∨
        (key = "additional" ∧ g.additional = none ∧
          ∃ x, AdditionalForm Reads v x ∧ { g with additional := some x } = f)) := by
  rw [bodyFields?]
  cases bodyFields? rest with
  | none => simp
  | some g =>
    simp only [Option.isNone_iff_eq_none, Option.some.injEq, exists_eq_left', listForm_iff,
      additionalForm_iff]
    split_ifs with hproperties hadditional
    · obtain ⟨rfl, hnone⟩ := hproperties
      simp [hnone]
    · obtain ⟨rfl, hnone⟩ := hadditional
      simp [hnone]
    · simp only [false_iff]
      rintro (⟨rfl, h, -⟩ | ⟨rfl, h, -⟩)
      · exact hproperties ⟨rfl, h⟩
      · exact hadditional ⟨rfl, h⟩

/-- The fields of a body are read wherever they stand. -/
theorem bodyFields?_eq_some_iff : ∀ {fields : List (String × Json)} {f : BodyFields},
    bodyFields? fields = some f ↔ Only ["properties", "additional"] fields ∧
      Option.Rel (ListForm (PropertyForm Reads)) (fields.lookup "properties") f.properties ∧
      Option.Rel (AdditionalForm Reads) (fields.lookup "additional") f.additional
  | [], ⟨properties, additional⟩ => by
    simp only [bodyFields?, Option.some.injEq, BodyFields.mk.injEq, List.lookup_nil, only_nil,
      true_and]
    constructor
    · rintro ⟨rfl, rfl⟩
      exact ⟨.none, .none⟩
    · intro ⟨hproperties, hadditional⟩
      cases hproperties
      cases hadditional
      exact ⟨rfl, rfl⟩
  | (key, v) :: rest, f => by
    rw [bodyFields?_cons_eq_some_iff, only_cons_iff]
    constructor
    · rintro ⟨g, hg, h⟩
      obtain ⟨honly, hproperties, hadditional⟩ := bodyFields?_eq_some_iff.mp hg
      rcases h with ⟨rfl, hnone, ps, hv, rfl⟩ | ⟨rfl, hnone, x, hv, rfl⟩
      · have hfirst := eq_none_of_rel (hnone ▸ hproperties)
        simpa [Keyed.lookup_cons, hfirst, honly] using ⟨hv, hadditional⟩
      · have hfirst := eq_none_of_rel (hnone ▸ hadditional)
        simpa [Keyed.lookup_cons, hfirst, honly] using ⟨hproperties, hv⟩
    · rintro ⟨⟨hkey, hnone, honly⟩, hproperties, hadditional⟩
      simp only [List.mem_cons, List.not_mem_nil, or_false] at hkey
      obtain ⟨properties, additional⟩ := f
      rcases hkey with rfl | rfl
      · simp only [Keyed.lookup_cons, String.reduceEq, reduceIte] at hproperties hadditional
        obtain ⟨ps, rfl, hv⟩ := exists_of_rel_some hproperties
        exact ⟨⟨none, additional⟩, bodyFields?_eq_some_iff.mpr ⟨honly, hnone ▸ .none, hadditional⟩,
          .inl ⟨rfl, rfl, ps, hv, rfl⟩⟩
      · simp only [Keyed.lookup_cons, String.reduceEq, reduceIte] at hproperties hadditional
        obtain ⟨x, rfl, hv⟩ := exists_of_rel_some hadditional
        exact ⟨⟨properties, none⟩, bodyFields?_eq_some_iff.mpr ⟨honly, hproperties, hnone ▸ .none⟩,
          .inr ⟨rfl, rfl, x, hv, rfl⟩⟩

/-- The items of a body are its first fields. -/
theorem bodyItems?_eq_some_iff {items : List Json} {f : BodyFields} :
    bodyItems? items = some f ↔ ∃ properties additional,
      items = properties.toList ++ additional.toList ∧ (additional ≠ none → properties ≠ none) ∧
      Option.Rel (ListForm (PropertyForm Reads)) properties f.properties ∧
      Option.Rel (AdditionalForm Reads) additional f.additional := by
  constructor
  · intro h
    unfold bodyItems? at h
    split at h
    · cases h
      exact ⟨none, none, rfl, nofun, .none, .none⟩
    · rename_i v
      obtain ⟨ps, hps, rfl⟩ := Option.map_eq_some_iff.mp h
      exact ⟨some v, none, rfl, nofun, .some (listForm_iff.mpr hps), .none⟩
    · rename_i v w
      split at h
      · rename_i ps x hps hx
        cases h
        exact ⟨some v, some w, rfl, nofun, .some (listForm_iff.mpr hps),
          .some (additionalForm_iff.mpr hx)⟩
      · cases h
    · cases h
  · rintro ⟨properties, additional, rfl, hfirst, hproperties, hadditional⟩
    obtain ⟨ps?, x?⟩ := f
    cases hproperties with
    | none =>
      cases hadditional with
      | none => rfl
      | some _ => exact absurd rfl (hfirst nofun)
    | some hps =>
      cases hadditional with
      | none =>
        rw [Option.toList_some, Option.toList_none, List.append_nil, bodyItems?,
          listForm_iff.mp hps, Option.map_some]
      | some hx =>
        rw [Option.toList_some, Option.toList_some, List.singleton_append, bodyItems?,
          listForm_iff.mp hps, additionalForm_iff.mp hx]

theorem orElse_iff {α : Type} {F : Json → α → Prop} {absent x : α} {v? : Option Json} :
    OrElse F absent v? x ↔ ∃ x?, Option.Rel F v? x? ∧ x?.getD absent = x := by
  constructor
  · intro h
    cases h with
    | absent => exact ⟨none, .none, rfl⟩
    | present h => exact ⟨some x, .some h, rfl⟩
  · rintro ⟨x?, h, rfl⟩
    cases h with
    | none => exact .absent
    | some h => exact .present h

theorem bodyForm_object_iff {fields : List (String × Json)} {d : Descriptor} :
    BodyForm Reads (.object fields) d ↔
      (bodyFields? fields).map BodyFields.descriptor = some d := by
  rw [Option.map_eq_some_iff]
  constructor
  · intro h
    cases h with
    | fields honly hproperties hadditional =>
      obtain ⟨ps?, hps, rfl⟩ := orElse_iff.mp hproperties
      obtain ⟨x?, hx, rfl⟩ := orElse_iff.mp hadditional
      exact ⟨⟨ps?, x?⟩, bodyFields?_eq_some_iff.mpr ⟨honly, hps, hx⟩, rfl⟩
  · rintro ⟨f, hf, rfl⟩
    obtain ⟨honly, hps, hx⟩ := bodyFields?_eq_some_iff.mp hf
    exact .fields honly (orElse_iff.mpr ⟨_, hps, rfl⟩) (orElse_iff.mpr ⟨_, hx, rfl⟩)

theorem bodyForm_array_iff {items : List Json} {d : Descriptor} :
    BodyForm Reads (.array items) d ↔
      (bodyItems? items).map BodyFields.descriptor = some d := by
  rw [Option.map_eq_some_iff]
  constructor
  · intro h
    cases h with
    | @items properties additional _ _ hfirst hproperties hadditional =>
      obtain ⟨ps?, hps, rfl⟩ := orElse_iff.mp hproperties
      obtain ⟨x?, hx, rfl⟩ := orElse_iff.mp hadditional
      exact ⟨⟨ps?, x?⟩, bodyItems?_eq_some_iff.mpr
        ⟨properties, additional, rfl, hfirst, hps, hx⟩, rfl⟩
  · rintro ⟨f, hf, rfl⟩
    obtain ⟨properties, additional, rfl, hfirst, hps, hx⟩ := bodyItems?_eq_some_iff.mp hf
    exact .items hfirst (orElse_iff.mpr ⟨_, hps, rfl⟩) (orElse_iff.mpr ⟨_, hx, rfl⟩)

/-- What the reader reads is of one of the forms. -/
theorem Reads.form {v : Json} {d : Descriptor} (h : Reads v d) : Form Reads v d := by
  unfold Reads ofJson? at h
  -- in the order of the reader: a name, an object with a name, and then one tag after the other
  split at h
  · exact .name (named?_eq_some_iff.mp h)
  · rename_i key v
    split at h
    · exact .lone (named?_eq_some_iff.mp h)
    · rename_i target htag
      cases h
      obtain rfl := Tag.eq_key htag
      exact .ref
    · rename_i text htag
      cases h
      obtain rfl := Tag.eq_key htag
      exact .literal
    · rename_i members htag
      obtain ⟨ds, hds, rfl⟩ := Option.map_eq_some_iff.mp h
      obtain rfl := Tag.eq_key htag
      exact .union (.intro (ofItems?_eq_some_iff.mp hds))
    · rename_i cases' htag
      cases h
      obtain rfl := Tag.eq_key htag
      exact .enum
    · rename_i htag
      obtain ⟨item, hitem, rfl⟩ := Option.map_eq_some_iff.mp h
      obtain rfl := Tag.eq_key htag
      exact .array hitem
    · rename_i htag
      obtain ⟨value, hvalue, rfl⟩ := Option.map_eq_some_iff.mp h
      obtain rfl := Tag.eq_key htag
      exact .map hvalue
    · rename_i fields htag
      obtain rfl := Tag.eq_key htag
      exact .object (bodyForm_object_iff.mpr h)
    · rename_i items htag
      obtain rfl := Tag.eq_key htag
      exact .object (bodyForm_array_iff.mpr h)
    · cases h
  · cases h

/-- The reader reads what is of one of the forms. -/
theorem reads_of_form {v : Json} {d : Descriptor} (h : Form Reads v d) : Reads v d := by
  unfold Reads
  cases h with
  | name h => rw [ofJson?, named?_eq_some_iff.mpr h]
  | lone h =>
    unfold ofJson?
    rw [ofKey?_of_mem_simple h]
    exact named?_eq_some_iff.mpr h
  | ref | literal | enum =>
    unfold ofJson?
    rfl
  | union h =>
    cases h with
    | intro h =>
      unfold ofJson?
      rw [show Tag.ofKey? "union" = some .union from rfl]
      exact Option.map_eq_some_iff.mpr ⟨_, ofItems?_eq_some_iff.mpr h, rfl⟩
  | array h =>
    unfold ofJson?
    rw [show Tag.ofKey? "array" = some .array from rfl]
    exact Option.map_eq_some_iff.mpr ⟨_, h, rfl⟩
  | map h =>
    unfold ofJson?
    rw [show Tag.ofKey? "map" = some .map from rfl]
    exact Option.map_eq_some_iff.mpr ⟨_, h, rfl⟩
  | @object v _ h =>
    unfold ofJson?
    rw [show Tag.ofKey? "object" = some .object from rfl]
    cases v with
    | object fields => exact bodyForm_object_iff.mp h
    | array items => exact bodyForm_array_iff.mp h
    | null | bool _ | number _ | string _ => cases h

/-- **One step of the reader**: it reads the documents of the forms of a descriptor whose parts
are documents that it reads. -/
theorem reads_iff {v : Json} {d : Descriptor} : Reads v d ↔ Form Reads v d :=
  ⟨Reads.form, reads_of_form⟩

/-! ### Documents -/

/-- **The reader accepts exactly the documents of the grammar**, each as its descriptor. -/
theorem ofJson?_eq_some_iff (v : Json) (d : Descriptor) : ofJson? v = some d ↔ Document v d := by
  have ih (w : Json) (_ : sizeOf w < sizeOf v) (d : Descriptor) : Reads w d ↔ Document w d :=
    ofJson?_eq_some_iff w d
  change Reads v d ↔ Document v d
  rw [reads_iff, document_iff]
  exact ⟨Form.mono fun w hw d => (ih w hw d).mp, Form.mono fun w hw d => (ih w hw d).mpr⟩
termination_by v

end Descriptor
end Wireform
