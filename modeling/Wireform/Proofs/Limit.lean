/-
# Raising the limit

A container beyond the limit on nesting is refused like anything else that does not
match, and a union goes on past it to its next member. So a document may be converted
under a low limit by way of a later member, and under a higher one by way of an earlier
(`Engine.not_convert_raised`).

Raising the limit never turns a conversion into a refusal: under the higher limit no
place on the course of the walk is refused. And the value stays the same as long as no
member that was passed over accepts under the higher limit (`Engine.convert_raised`). Both
are said of tables over which every walk ends.

Key theorems: `Engine.convert_raised`, `Engine.not_convert_raised`.
-/
import Mathlib
import Wireform.Proofs.Walk.Course
import Wireform.Proofs.Widening

namespace Wireform
namespace Engine

/-- **What is converted under a limit is converted under every higher one**, and to the same
value if no union member that was passed over accepts under the higher limit. -/
theorem convert_raised {definitions : List (String × Descriptor)} {table : Table}
    (ht : Table.build definitions = .ok table) (hp : table.Productive) {low high : Nat}
    (hle : low ≤ high) {v out : Json} {root : String} {direction : Direction}
    (h : (⟨table, low⟩ : Engine).convert v root direction = .ok out) :
    (∃ out', (⟨table, high⟩ : Engine).convert v root direction = .ok out') ∧
    ((∀ q, (⟨table, direction, low⟩ : Walk).PassesOver ⟨.ref root, 0, some v⟩ q → ∀ out',
        ¬ (⟨table, direction, high⟩ : Walk).Accepts q.descriptor q.depth q.slot out') →
      (⟨table, high⟩ : Engine).convert v root direction = .ok out) := by
  have hs : table.Sound := Table.build_sound ht
  obtain ⟨d, -, hchecked, ha⟩ := accepts_of_convert (e := ⟨table, low⟩) hs h
  constructor
  · have hsame : table.Related Descriptor.Wider (⟨table, high⟩ : Engine).table :=
      .refl .same table
    exact exists_convert_of_wider hs hsame hle hp ⟨out, h⟩
  · intro hover
    have hsettles : (⟨table, direction, high⟩ : Walk).Settles (.ref root) 0 (some v) (some out) :=
      Walk.settles_of_passesOver hs hle hchecked ha hover
    exact convert_of_settles (e := ⟨table, high⟩) hp hsettles

/-! ### Days in arrays -/

/-- Days, nested in any number of arrays. -/
def days : List (String × Descriptor) := [("Days", .union [.date, .array (.ref "Days")])]

/-- A union of days passes over nothing but the day itself. -/
theorem leaf_of_passesOver_days {direction : Direction} {low : Nat} {v : Json} {q : Walk.Place}
    (h : (⟨⟨days⟩, direction, low⟩ : Walk).PassesOver ⟨.ref "Days", 0, some v⟩ q) :
    Walk.IsLeaf q.descriptor := by
  cases h with
  | @intro before d after depth slot out a hcomes hb hd ha =>
    have hmem : Descriptor.union (before ++ d :: after) ∈ Table.catalog ⟨days⟩ (.ref "Days") :=
      hcomes.reaches.mem_catalog
    have hmembers : before ++ d :: after = [.date, .array (.ref "Days")] := by
      simpa [Table.catalog, days] using hmem
    rcases before with _ | ⟨b, _ | ⟨c, before⟩⟩
    · exact (List.not_mem_nil ha).elim
    · cases hmembers
      rw [List.mem_singleton.mp ha]
      trivial
    · simp at hmembers

theorem convert_raised_days :
    let v : Json := .array [.array [.string "2024-02-29"], .null]
    let out : Json := .array [.array [.string "2024-02-29T00:00:00.000Z"], .null]
    (⟨⟨days⟩, 2⟩ : Engine).convert v "Days" .decode = .ok out ∧
      (⟨⟨days⟩, 7⟩ : Engine).convert v "Days" .decode = .ok out := by
  intro v out
  have hbuild : Table.build days = .ok ⟨days⟩ := rfl
  have hlow : (⟨⟨days⟩, 2⟩ : Engine).convert v "Days" .decode = .ok out := by cbv
  have hproductive : Table.Productive ⟨days⟩ :=
    Table.productive_of_shapes (by simp [days])
  have hhigh := (convert_raised hbuild hproductive (by decide : 2 ≤ 7) hlow).2 fun q hq out' =>
    hq.not_accepts_leaf (leaf_of_passesOver_days hq) _ out'
  exact ⟨hlow, hhigh⟩

/-! ### Another value -/

/-- An object with days, or anything. -/
def either : List (String × Descriptor) :=
  [("Either", .union [.object [⟨"at", "days", .array .date⟩] .reject, .any])]

/-- Under the higher limit the days are read, under the lower one nothing is. -/
theorem not_convert_raised :
    let v : Json := .object [("at", .array [.string "2024-02-29"])]
    Table.build either = .ok ⟨either⟩ ∧ Table.Productive ⟨either⟩ ∧
      (⟨⟨either⟩, 1⟩ : Engine).convert v "Either" .decode = .ok v ∧
      (⟨⟨either⟩, 2⟩ : Engine).convert v "Either" .decode =
        .ok (.object [("days", .array [.string "2024-02-29T00:00:00.000Z"])]) ∧
      v ≠ .object [("days", .array [.string "2024-02-29T00:00:00.000Z"])] := by
  intro v
  have hproductive : Table.Productive ⟨either⟩ :=
    Table.productive_of_shapes (by simp [either])
  exact ⟨rfl, hproductive, by cbv, by cbv, by simp [v]⟩

end Engine
end Wireform
