/-
# Definitions that matter

A conversion looks up the type that it is asked for and the names that are reached from
there, and no others. What a table holds besides, and in which order it was declared, shows
in no answer (`Engine.convert_of_agreesFrom`). Nor does the order of the declarations
decide whether a table is accepted: what is asked of a definition, that the names in it are
defined, that its shapes repeat no key and that its chain ends, is asked of what names stand
for and not of their places (`Table.Flawless.of_get?`). Only which of several faults is
named depends on the order.

Key definitions: `Table.AgreesFrom`.
Key theorems: `Engine.convert_of_agreesFrom`, `Table.build_perm`, `Engine.only_reached_matters`.
-/
import Mathlib
import Wireform.Proofs.Table.Faults
import Wireform.Proofs.Walk.Answers
import Wireform.Proofs.Walk.Safe

namespace Wireform

namespace Table

/-- All that is reached from a type stands for the same in another table. -/
def AgreesFrom (table table' : Table) (root : String) : Prop :=
  ∀ name, table.Reaches (.ref root) (.ref name) → table'.get? name = table.get? name

/-! ### The order of the definitions -/

section Order

variable {table table' : Table} {definitions definitions' : List (String × Descriptor)}

theorem mem_names_iff_of_get? (h : ∀ name, table'.get? name = table.get? name) (name : String) :
    name ∈ table'.names ↔ name ∈ table.names := by
  rw [← isSome_get?_iff, ← isSome_get?_iff, h name]

/-- What is wrong with a definition depends on what names stand for alone. -/
theorem Flawless.of_get? (h : ∀ name, table'.get? name = table.get? name)
    {x : String × Descriptor} (hx : table.Flawless x) : table'.Flawless x where
  parts p hp := (hx.parts p hp).of_names fun name => (mem_names_iff_of_get? h name).mpr
  ends := by
    rintro ⟨f, hf, hstep⟩
    refine hx.ends ⟨f, hf, fun i => ?_⟩
    have hi : table'.get? (f i) = some (.ref (f (i + 1))) := hstep i
    rwa [h] at hi

/-- **Definitions that are accepted are accepted in every order.** -/
theorem build_perm (hperm : definitions.Perm definitions')
    (ht : build definitions = .ok ⟨definitions⟩) :
    build definitions' = .ok ⟨definitions'⟩ := by
  obtain ⟨-, hn, hflawless⟩ := build_eq_ok_iff_flawless.mp ht
  have hkeys : (Keyed.keys definitions).Perm (Keyed.keys definitions') := hperm.map _
  have hget : ∀ name, get? ⟨definitions'⟩ name = get? ⟨definitions⟩ name :=
    Keyed.lookup_eq_of_perm hn hperm
  refine build_eq_ok_iff_flawless.mpr ⟨rfl, hkeys.nodup_iff.mp hn, fun x hx => ?_⟩
  exact (hflawless x (hperm.mem_iff.mpr hx)).of_get? hget

end Order

end Table

/-! ### Conversions -/

namespace Engine

/-- **A conversion depends on the definitions that are reached from its type alone.** -/
theorem convert_of_agreesFrom {table table' : Table} {root : String}
    (h : table.AgreesFrom table' root) (maxDepth : ℕ) (v : Json) (direction : Direction) :
    (⟨table', maxDepth⟩ : Engine).convert v root direction =
      (⟨table, maxDepth⟩ : Engine).convert v root direction := by
  let w : Walk := ⟨table, direction, maxDepth⟩
  let w' : Walk := ⟨table', direction, maxDepth⟩
  have hdir : w'.direction = w.direction := rfl
  have hdepth : w'.maxDepth = w.maxDepth := rfl
  have hvalue : ∀ n, w'.value n none (.ref root) .root (some v) =
      w.value n none (.ref root) .root (some v) := by
    intro n
    refine Walk.value_agree hdir hdepth n none (.ref root) .root (some v) fun q hq name hname => ?_
    apply h
    rw [← hname]
    exact hq.reaches
  have hrun : (⟨table', maxDepth⟩ : Engine).run v (.ref root) direction =
      (⟨table, maxDepth⟩ : Engine).run v (.ref root) direction := run_congr hvalue
  have hroot : table'.get? root = table.get? root := h root .refl
  simp only [convert, Table.resolve, hroot, hrun]

/-- **Only what is reached matters**: tables that agree on all that is reached from a type
give the same answers there, to the last field of a mismatch, and definitions are accepted
in one order if and only if they are in another. -/
theorem only_reached_matters :
    (∀ (table table' : Table) (root : String), table.AgreesFrom table' root →
      ∀ (maxDepth : ℕ) (v : Json),
        (⟨table', maxDepth⟩ : Engine).decode v root = (⟨table, maxDepth⟩ : Engine).decode v root ∧
        (⟨table', maxDepth⟩ : Engine).encode v root = (⟨table, maxDepth⟩ : Engine).encode v root) ∧
    ∀ definitions definitions' : List (String × Descriptor), definitions.Perm definitions' →
      ((∃ table, Table.build definitions = .ok table) ↔
        ∃ table, Table.build definitions' = .ok table) := by
  refine ⟨fun table table' root h maxDepth v => ⟨?_, ?_⟩, fun definitions definitions' hperm => ?_⟩
  · exact convert_of_agreesFrom h maxDepth v .decode
  · exact convert_of_agreesFrom h maxDepth v .encode
  · constructor
    · rintro ⟨table, ht⟩
      obtain ⟨rfl, -⟩ := Table.build_eq_ok_iff.mp ht
      exact ⟨_, Table.build_perm hperm ht⟩
    · rintro ⟨table, ht⟩
      obtain ⟨rfl, -⟩ := Table.build_eq_ok_iff.mp ht
      exact ⟨_, Table.build_perm hperm.symm ht⟩

/-! ### Trees among other types

Trees have children and a day. In the second table the same two types stand in the other
order, and with them a type that is not reached and another that has changed. -/

/-- Trees and days, and a type that no tree refers to. -/
def orchard : List (String × Descriptor) :=
  [("Tree", .object [⟨"kids", "children", .array (.ref "Tree")⟩, ⟨"at", "day", .ref "Day"⟩] .reject),
    ("Basket", .array (.ref "Tree")), ("Day", .date)]

/-- The same trees and days among other types. -/
def otherOrchard : List (String × Descriptor) :=
  [("Day", .date), ("Basket", .ref "Day"), ("Fence", .union [.null, .ref "Tree"]),
    ("Tree", .object [⟨"kids", "children", .array (.ref "Tree")⟩, ⟨"at", "day", .ref "Day"⟩]
      .reject)]

/-- From a tree neither baskets nor fences are reached. -/
theorem agreesFrom_orchard : Table.AgreesFrom ⟨orchard⟩ ⟨otherOrchard⟩ "Tree" := by
  have hreached : ∀ d, Table.Reaches ⟨orchard⟩ (.ref "Tree") d →
      d = .ref "Tree" ∨ d = .object [⟨"kids", "children", .array (.ref "Tree")⟩,
        ⟨"at", "day", .ref "Day"⟩] .reject ∨ d = .array (.ref "Tree") ∨ d = .ref "Day" ∨
        d = .date := by
    intro d hd
    induction hd with
    | refl => exact .inl rfl
    | tail _ hopens ih =>
      rcases ih with rfl | rfl | rfl | rfl | rfl
      · cases hopens with
        | ref hget => cases hget; simp
      · cases hopens with
        | property hp =>
          rcases List.mem_cons.mp hp with rfl | hp
          · simp
          · cases List.mem_singleton.mp hp
            simp
      · cases hopens
        simp
      · cases hopens with
        | ref hget => cases hget; simp
      · cases hopens
  intro name hname
  rcases hreached _ hname with h | h | h | h | h
  · cases h
    rfl
  · cases h
  · cases h
  · cases h
    rfl
  · cases h

theorem only_reached_matters_orchard :
    let v : Json := .object [("kids", .array [.object [("kids", .array []), ("at", .string "x")]]),
      ("at", .null)]
    let m : Mismatch := ⟨"Date", "\"x\"", "at", "Tree", ⟨[.key "kids", .index 0, .key "at"]⟩⟩
    Table.AgreesFrom ⟨orchard⟩ ⟨otherOrchard⟩ "Tree" ∧
      (⟨⟨orchard⟩, 7⟩ : Engine).decode v "Tree" = .error (.mismatch m) ∧
      (⟨⟨otherOrchard⟩, 7⟩ : Engine).decode v "Tree" = .error (.mismatch m) ∧
      orchard.Perm orchard.reverse ∧ ∃ table, Table.build orchard.reverse = .ok table := by
  intro v m
  have hfirst : (⟨⟨orchard⟩, 7⟩ : Engine).decode v "Tree" = .error (.mismatch m) := by cbv
  obtain ⟨hanswers, horder⟩ := only_reached_matters
  obtain ⟨hdecode, -⟩ := hanswers ⟨orchard⟩ ⟨otherOrchard⟩ "Tree" agreesFrom_orchard 7 v
  have hperm : orchard.Perm orchard.reverse := (List.reverse_perm orchard).symm
  exact ⟨agreesFrom_orchard, hfirst, hdecode.trans hfirst, hperm,
    (horder _ _ hperm).mp ⟨⟨orchard⟩, rfl⟩⟩

end Engine
end Wireform
