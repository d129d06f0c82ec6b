/-
# Documents encoded to a text

A conversion of a document without repeated keys gives a document without repeated keys
(`Walk.Accepts.distinct`), and the text of such a document is read as that document, its numbers
as their texts are read. So what was encoded to a text is decoded from it as if no text stood
between, where the numbers are read as the nearest doubles
(`Engine.decodeText_encodeToText`).

That holds as long as the document nests as deep as a text may. An engine has a limit of its
own on nesting, and grants 256 levels where none is asked for: it encodes documents to texts
that it then refuses to read, though it decodes the documents
(`Engine.not_decodeText_encodeToText`).

Key theorems: `Walk.Accepts.distinct`, `Engine.distinct_of_convert`,
`Engine.decodeText_encodeToText`, `Engine.not_decodeText_encodeToText`.
-/
import Mathlib
import Wireform.Proofs.Json.Written
import Wireform.Proofs.Walk.Rows

namespace Wireform
namespace Walk

theorem Takes.distinct {d : Descriptor} {slot out : Slot} (h : Takes d slot out)
    (hslot : Slot.Distinct slot) : Slot.Distinct out := by
  cases h with
  | any => exact hslot
  | null => exact hslot
  | undefined => exact hslot
  | primitive => exact hslot
  | enum => exact hslot
  | noDate => exact hslot
  | date => trivial

theorem distinct_lookup {input : List (String × Json)} (h : Json.Distinct (.object input))
    (key : String) : Slot.Distinct (input.lookup key) := by
  cases hv : input.lookup key with
  | none => trivial
  | some v => exact h.of_mem_members (Keyed.mem_of_lookup hv)

/-- **What is accepted keeps its keys apart.** -/
theorem Accepts.distinct {w : Walk} (hs : w.table.Sound) {d : Descriptor} {depth : ℕ}
    {slot out : Slot} (hd : w.table.Checked d) (h : w.Accepts d depth slot out) :
    Slot.Distinct slot → Slot.Distinct out := by
  refine Accepts.induct hs (motive := fun _ _ slot out => Slot.Distinct slot → Slot.Distinct out)
    ?leaf ?ref ?union ?array ?object hd h
  case leaf =>
    intro d depth slot out _ htakes hslot
    exact htakes.distinct hslot
  case ref =>
    intro name d depth slot out _ ih
    exact ih
  case union =>
    intro before d after depth slot out _ _ ih
    exact ih
  case array =>
    intro item depth vs outs _ ih hslot
    refine Json.distinctItems_iff.mpr fun out hout => ?_
    obtain ⟨v, hv, ih⟩ := exists_left_of_mem ih hout
    exact ih (hslot.of_mem_items hv)
  case object =>
    intro properties additional depth input members _ _ hconv hslot
    refine ⟨hconv.nodup_keys, Json.distinctMembers_iff.mpr fun m hm => ?_⟩
    rcases hconv.mem hm with ⟨p, -, -, ih⟩ | ⟨x, hx, -, d, -, ih⟩
    · exact ih (distinct_lookup hslot _)
    · exact ih (hslot.of_mem_members (List.mem_filter.mp hx).1)

end Walk

namespace Engine

theorem distinct_of_convert {e : Engine} (hs : e.table.Sound) {x out : Json} {root : String}
    {direction : Direction} (hx : x.Distinct) (h : e.convert x root direction = .ok out) :
    out.Distinct := by
  obtain ⟨d, -, hchecked, haccepts⟩ := accepts_of_convert hs h
  exact haccepts.distinct hs hchecked hx

/-- **The text of an encoded document stands for it.** A document that was encoded is written
to a text, and as long as it nests as deep as a text may, decoding the text is decoding the
document with its numbers read again, which is the document itself if the text of each is read
correctly rounded. If the document nests deeper, its text is refused. -/
theorem decodeText_encodeToText {definitions : List (String × Descriptor)} {table : Table}
    (ht : Table.build definitions = .ok table) (maxDepth : ℕ) {root : String} {x w : Json}
    (hx : x.Distinct) (hw : (⟨table, maxDepth⟩ : Engine).encode x root = .ok w) :
    ∃ text, (⟨table, maxDepth⟩ : Engine).encodeToText x root = .ok text ∧
      (w.nesting ≤ Json.nestingLimit → (⟨table, maxDepth⟩ : Engine).decodeText text root =
        (⟨table, maxDepth⟩ : Engine).decode w.reread root) ∧
      (w.nesting ≤ Json.nestingLimit → w.ReadsNearest →
        (⟨table, maxDepth⟩ : Engine).decodeText text root =
          (⟨table, maxDepth⟩ : Engine).decode w root) ∧
      (Json.nestingLimit < w.nesting → ∃ position,
        (⟨table, maxDepth⟩ : Engine).decodeText text root =
          .error (.notJson ⟨.tooDeep, position⟩)) := by
  have hdistinct : w.Distinct :=
    distinct_of_convert (e := ⟨table, maxDepth⟩) (Table.build_sound ht) hx hw
  obtain ⟨hread, hdeep⟩ := Json.parse?_write Layout.blank_pretty hdistinct
  have hwithin (hle : w.nesting ≤ Json.nestingLimit) :
      (⟨table, maxDepth⟩ : Engine).decodeText w.pretty root =
        (⟨table, maxDepth⟩ : Engine).decode w.reread root := by
    rw [decodeText, Json.pretty, hread hle]
  refine ⟨w.pretty, ?_, hwithin, fun hle hnearest => ?_, fun hlt => ?_⟩
  · rw [encodeToText, hw]
  · rw [hwithin hle, hnearest.reread_eq]
  · obtain ⟨position, hposition⟩ := hdeep hlt
    refine ⟨position, ?_⟩
    rw [decodeText, Json.pretty, hposition]

/-- A document with an escaped string, two spellings of numbers, an empty object and a key
that is renamed is decoded from its text. -/
theorem decodeText_encodeToText_entity :
    let definitions : List (String × Descriptor) :=
      [("Entity", .object [⟨"iid", "id", .any⟩] (.allow .any))]
    let engine : Engine := .ofTable ⟨definitions⟩
    let x : Json := .object [("id", .string "a\"\n\x01é"), ("b", .array
      [.number (.double (.zero true)), .number (.whole ⟨7, by decide, by decide⟩), .object []])]
    let w : Json := .object [("iid", .string "a\"\n\x01é"), ("b", .array
      [.number (.double (.zero true)), .number (.whole ⟨7, by decide, by decide⟩), .object []])]
    x.Distinct ∧ engine.encode x "Entity" = .ok w ∧ w.ReadsNearest ∧ ∃ text,
      engine.encodeToText x "Entity" = .ok text ∧
        engine.decodeText text "Entity" = engine.decode w "Entity" := by
  intro definitions engine x w
  have hbuild : Table.build definitions = .ok ⟨definitions⟩ := rfl
  have hx : x.Distinct := by
    simp [x]
  have hw : engine.encode x "Entity" = .ok w := by cbv
  have hnearest : w.ReadsNearest := by
    simp [w, Json.ReadsNearest]
  obtain ⟨text, htext, -, hdecode, -⟩ := decodeText_encodeToText hbuild defaultMaxDepth hx hw
  exact ⟨hx, hw, hnearest, text, htext, hdecode (by decide) hnearest⟩

/-- An array inside arrays: so many around an empty one. -/
def nested : ℕ → Json
  | 0 => .array []
  | n + 1 => .array [nested n]

theorem nesting_nested : ∀ n, (nested n).nesting = n + 1
  | 0 => rfl
  | n + 1 => by
    rw [nested, Json.nesting, Json.nestingItems, Json.nestingItems, nesting_nested n, Nat.max_zero]

theorem distinct_nested : ∀ n, (nested n).Distinct
  | 0 => trivial
  | n + 1 => ⟨distinct_nested n, trivial⟩

/-- With the limit that is granted where none is asked for, 128 arrays in each other are
decoded, and encoded to a text, but they are not decoded from it. -/
theorem not_decodeText_encodeToText :
    let engine : Engine := .ofTable ⟨[("Any", .any)]⟩
    let x : Json := nested 127
    Table.build [("Any", .any)] = .ok engine.table ∧ x.nesting ≤ engine.maxDepth ∧
      engine.encode x "Any" = .ok x ∧ engine.decode x "Any" = .ok x ∧
      ∃ text position, engine.encodeToText x "Any" = .ok text ∧
        engine.decodeText text "Any" = .error (.notJson ⟨.tooDeep, position⟩) := by
  intro engine x
  have hconvert (direction : Direction) : engine.convert x "Any" direction = .ok x :=
    convert_eq_ok_iff.mpr (.ref rfl ((Walk.Takes.any _).accepts trivial))
  have hencode : engine.encode x "Any" = .ok x := hconvert .encode
  have hnesting : x.nesting = 128 := nesting_nested 127
  obtain ⟨position, hposition⟩ := (Json.parse?_write Layout.blank_pretty (distinct_nested 127)).2
    (show Json.nestingLimit < x.nesting by rw [hnesting]; decide)
  refine ⟨rfl, by rw [hnesting]; decide, hencode, hconvert .decode, x.pretty, position, ?_, ?_⟩
  · rw [encodeToText, hencode]
  · rw [decodeText, Json.pretty, hposition]

end Engine
end Wireform
