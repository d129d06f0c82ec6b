/-
# What a conversion leaves unchanged

A conversion renames keys and writes out dates, and that is all it changes
(`Walk.Carried`). A leaf that accepts a value leaves it as it is, a number with its
spelling and whatever an `any` lets through; an array is carried item by item; and a
member of a converted object is what became of one member of the object, under the same
key or under the other key of a declared property. Of the members of a union that
refused nothing is left.

No value is made up: a walk of a value gives a value and a walk of a missing property
gives none (`Walk.isSome_eq_of_value`), so `null` never has to stand in.

Key definitions: `Walk.Carried`, `Walk.CarriedMember`.
Key theorems: `Walk.carried_of_accepts`, `Engine.convert_carried`.
-/
import Mathlib
import Wireform.Proofs.Walk.Course

namespace Wireform
namespace Walk

mutual

/-- What a value becomes that a descriptor accepts at a depth. Which leaf or shape is
applied in the end is a matter of the course of the walk. -/
inductive Carried (w : Walk) : Descriptor → Nat → Json → Json → Prop
  /-- A leaf leaves the value as it is, and all that is in it. -/
  | kept {d leaf depth v} (hcomes : w.ComesTo ⟨d, depth, some v⟩ ⟨leaf, depth, some v⟩)
    (hleaf : IsLeaf leaf) : Carried w d depth v v
  | date {d depth text canonical}
    (hcomes : w.ComesTo ⟨d, depth, some (.string text)⟩ ⟨.date, depth, some (.string text)⟩)
    (h : Date.normalize? text = some canonical) :
    Carried w d depth (.string text) (.string canonical)
  | array {d item depth vs outs}
    (hcomes : w.ComesTo ⟨d, depth, some (.array vs)⟩ ⟨.array item, depth, some (.array vs)⟩)
    (hlength : outs.length = vs.length)
    (h : ∀ (i : Nat) v out, vs[i]? = some v → outs[i]? = some out →
      Carried w item (depth + 1) v out) :
    Carried w d depth (.array vs) (.array outs)
  | object {d properties additional depth input out}
    (hcomes : w.ComesTo ⟨d, depth, some (.object input)⟩
      ⟨.object properties additional, depth, some (.object input)⟩)
    (h : ∀ m ∈ out, CarriedMember w properties additional (depth + 1) input m) :
    Carried w d depth (.object input) (.object out)

/-- A member of a converted object, where it comes from, and what its value was. -/
inductive CarriedMember (w : Walk) : List (Property Descriptor) → Additional Descriptor → Nat →
    List (String × Json) → String × Json → Prop
  | declared {properties additional depth input p v out} (hp : p ∈ properties)
    (hv : (w.direction.inputKey p, v) ∈ input) (h : Carried w p.descriptor depth v out) :
    CarriedMember w properties additional depth input (w.direction.outputKey p, out)
  | extra {properties d depth input key v out} (hv : (key, v) ∈ input)
    (hkey : key ∉ properties.map w.direction.inputKey) (h : Carried w d depth v out) :
    CarriedMember w properties (.allow d) depth input (key, out)

end

section Carried

variable {w : Walk} {d d' : Descriptor} {depth : Nat} {v out : Json}

/-- What is carried at the next place of the course is carried at this one. -/
theorem Carried.of_turnsTo (ht : w.TurnsTo ⟨d, depth, some v⟩ ⟨d', depth, some v⟩)
    (h : w.Carried d' depth v out) : w.Carried d depth v out := by
  cases h with
  | kept hcomes hleaf => exact .kept (.head ht hcomes) hleaf
  | date hcomes h => exact .date (.head ht hcomes) h
  | array hcomes hlength h => exact .array (.head ht hcomes) hlength h
  | object hcomes h => exact .object (.head ht hcomes) h

theorem rel_carried_of_turnsTo {slot result : Slot}
    (ht : w.TurnsTo ⟨d, depth, slot⟩ ⟨d', depth, slot⟩)
    (h : Option.Rel (w.Carried d' depth) slot result) :
    Option.Rel (w.Carried d depth) slot result := by
  cases h with
  | none => exact .none
  | some h => exact .some (h.of_turnsTo ht)

theorem Takes.rel_carried {slot result : Slot} (hd : IsLeaf d) (h : Takes d slot result) :
    Option.Rel (w.Carried d depth) slot result := by
  cases h with
  | any =>
    cases slot with
    | none => exact .none
    | some v => exact .some (.kept .refl hd)
  | undefined => exact .none
  | null | primitive _ | enum _ | noDate => exact .some (.kept .refl hd)
  | date h => exact .some (.date .refl h)

/-- Items are carried place by place. -/
theorem carried_of_forall₂ {item : Descriptor} {vs outs : List Json}
    (h : List.Forall₂ (w.Carried item depth) vs outs) :
    outs.length = vs.length ∧ ∀ (i : Nat) v out, vs[i]? = some v → outs[i]? = some out →
      w.Carried item depth v out := by
  refine ⟨h.length_eq.symm, fun i v out hv hout => ?_⟩
  obtain ⟨hi, rfl⟩ := List.getElem?_eq_some_iff.mp hv
  obtain ⟨hi', rfl⟩ := List.getElem?_eq_some_iff.mp hout
  exact h.get hi hi'

/-- Members of a result are carried from members of the object. -/
theorem carriedMember_of_converts {properties : List (Property Descriptor)}
    {additional : Additional Descriptor} {input members : List (String × Json)}
    (h : Converts w.direction properties additional
      (fun d slot result => Option.Rel (w.Carried d depth) slot result) input members) :
    ∀ m ∈ members, w.CarriedMember properties additional depth input m := by
  rintro ⟨key, out⟩ hm
  rcases h.mem hm with ⟨p, hp, rfl, hc⟩ | ⟨⟨_, v⟩, hx, rfl, d, rfl, hc⟩
  · -- a result that is present comes from a property that is present
    generalize hl : input.lookup (w.direction.inputKey p) = slot at hc
    cases hc with
    | some hc => exact .declared hp (Keyed.mem_of_lookup hl) hc
  · obtain ⟨hmem, hkey⟩ := List.mem_filter.mp hx
    cases hc with
    | some hc => exact .extra hmem (of_decide_eq_true hkey) hc

/-- **What is accepted is carried**, and what is missing stays missing. -/
theorem rel_carried_of_accepts (hs : w.table.Sound) (hd : w.table.Checked d) {slot result : Slot}
    (h : w.Accepts d depth slot result) : Option.Rel (w.Carried d depth) slot result := by
  refine Accepts.induct hs
    (motive := fun d depth slot result => Option.Rel (w.Carried d depth) slot result)
    ?leaf ?ref ?union ?array ?object hd h
  case leaf =>
    intro d depth slot result hleaf htakes
    exact htakes.rel_carried hleaf
  case ref =>
    intro name d depth slot result hget ih
    exact rel_carried_of_turnsTo (.ref hget) ih
  case union =>
    intro before d after depth slot result hb ha ih
    exact rel_carried_of_turnsTo (.member hb ha) ih
  case array =>
    intro item depth vs outs _ ih
    have hitems : List.Forall₂ (w.Carried item (depth + 1)) vs outs := ih.imp fun v out h => by
      cases h with
      | some h => exact h
    obtain ⟨hlength, hcarried⟩ := carried_of_forall₂ hitems
    exact .some (.array .refl hlength hcarried)
  case object =>
    intro properties additional depth input members _ _ ih
    exact .some (.object .refl (carriedMember_of_converts ih))

theorem carried_of_accepts (hs : w.table.Sound) (hd : w.table.Checked d)
    (h : w.Accepts d depth (some v) (some out)) : w.Carried d depth v out := by
  cases rel_carried_of_accepts hs hd h with
  | some h => exact h

/-- A walk gives a value for a value, and none for a missing property. -/
theorem isSome_eq_of_value {n : Nat} {owner : Option String} {site : Site} {slot result : Slot}
    (h : w.value n owner d site slot = .ok result) : result.isSome = slot.isSome :=
  isSome_eq_of_kind (value_kind h)

end Carried

end Walk

namespace Engine

/-- **A conversion changes nothing but keys and dates.** -/
theorem convert_carried {definitions : List (String × Descriptor)} {table : Table}
    (ht : Table.build definitions = .ok table) {maxDepth : Nat} {v out : Json} {root : String}
    {direction : Direction}
    (h : (⟨table, maxDepth⟩ : Engine).convert v root direction = .ok out) :
    Slot.kind (some out) = Slot.kind (some v) ∧
      (⟨table, direction, maxDepth⟩ : Walk).Carried (.ref root) 0 v out ∧
      ∀ n owner d site slot result,
        (⟨table, direction, maxDepth⟩ : Walk).value n owner d site slot = .ok result →
          result.isSome = slot.isSome := by
  have hs : table.Sound := Table.build_sound ht
  obtain ⟨d, -, hchecked, ha⟩ := accepts_of_convert (e := ⟨table, maxDepth⟩) hs h
  refine ⟨ha.kind, Walk.carried_of_accepts hs hchecked ha, ?_⟩
  exact fun n owner d site slot result hvalue => Walk.isSome_eq_of_value hvalue

/-- The engine of rows with a count, a day, further rows, and something that may be missing. -/
def rows : Engine :=
  .ofTable ⟨[("Row", .object [⟨"n", "count", .enum [.number (.whole ⟨0, by decide, by decide⟩)]⟩,
    ⟨"d", "day", .union [.date, .any]⟩, ⟨"xs", "rows", .array (.union [.null, .ref "Row"])⟩,
    ⟨"gone", "gone", .optional .null⟩] (.allow .any))]⟩

/-- The count 0 is kept as `0.0`, and nothing stands in for what is missing. -/
theorem convert_carried_rows :
    let nought : Json := .number (.double (.zero false))
    let v : Json := .object [("n", nought), ("d", .string "2024-02-29"), ("xs", .array [.null,
      .object [("xs", .array []), ("d", .array [.string "2024-02-29"]), ("n", nought)]]),
      ("z", .object [("n", .null)])]
    let out : Json := .object [("count", nought), ("day", .string "2024-02-29T00:00:00.000Z"),
      ("rows", .array [.null, .object [("count", nought), ("day", .array [.string "2024-02-29"]),
        ("rows", .array [])]]), ("z", .object [("n", .null)])]
    rows.convert v "Row" .decode = .ok out ∧
      (rows.walk .decode).Carried (.ref "Row") 0 v out ∧
      ∀ n owner d site result, (rows.walk .decode).value n owner d site none = .ok result →
        result = none := by
  intro nought v out
  have hbuild : Table.build rows.table.definitions = .ok rows.table := rfl
  have hconvert : rows.convert v "Row" .decode = .ok out := by cbv
  obtain ⟨-, hcarried, hpresent⟩ := convert_carried hbuild hconvert
  refine ⟨hconvert, hcarried, fun n owner d site result h => ?_⟩
  simpa using hpresent n owner d site none result h

end Engine
end Wireform
