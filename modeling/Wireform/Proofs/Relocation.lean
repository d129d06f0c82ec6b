/-
# The same walk at another site

A walk that starts at one site and a walk of the same slot that starts at another do the same,
if they may go as many levels deeper (`Walk.value_relocated`): both accept the slot, with one
result, or both come to a mismatch. Then the path of each mismatch is the trail of its own site
with one way behind it that is the same for both, and the value is the same; the key and the
owner are, too, unless the mismatch is at the site itself, which brought its own.

So what holds at the root of a document holds inside it. An array of documents is converted, with
one more level to spare, exactly as its items are (`Engine.transform_array_iff`).

Key definitions: `Walk.Relocated`, `Walk.Abreast`.
Key theorems: `Walk.value_abreast`, `Engine.transform_array_iff`, `Walk.value_relocated`.
-/
import Mathlib
import Wireform.Proofs.Walk.Accept

namespace Wireform
namespace Walk

/-- What two walks of one slot come to that start at two sites. -/
inductive Relocated (s s' : Site) {α : Type} : Except Refusal α → Except Refusal α → Prop
  | ok (a : α) : Relocated s s' (.ok a) (.ok a)
  | endless : Relocated s s' (.error .endless) (.error .endless)
  /-- The way from each site to its mismatch is the same. -/
  | mismatch {m m' : Mismatch} (way : List Segment)
    (path : m.path.segments = s.trail.reverse ++ way)
    (path' : m'.path.segments = s'.trail.reverse ++ way)
    (actual : m'.actual = m.actual)
    (key : way ≠ [] → m'.key = m.key ∧ m'.owner = m.owner) :
    Relocated s s' (.error (.mismatch m)) (.error (.mismatch m'))

section Relocated

variable {s s' : Site}

theorem Relocated.eq_ok_iff {α : Type} {x y : Except Refusal α} (h : Relocated s s' x y) {a : α} :
    x = .ok a ↔ y = .ok a := by
  cases h with
  | ok b => exact Iff.rfl
  | endless | mismatch => exact iff_of_false (fun h => by cases h) fun h => by cases h

theorem relocated_respected : Respected (@Relocated s s') where
  ok a := .ok a
  bind {α β x y f g} hx hf := by
    cases hx with
    | ok a => exact hf a
    | endless => exact .endless
    | mismatch way path path' actual key => exact .mismatch way path path' actual key
  orNext {x y f g} hx hf := by
    cases hx with
    | ok a => exact .ok _
    | endless => exact .endless
    | mismatch => exact hf

end Relocated

/-- Two visits that lie the same way from two sites and may go as many levels deeper: what one
walk may go, less what it went, is the same for both. Away from the sites they have the same key
and owner. -/
structure Abreast (w w' : Walk) (s s' : Site) (o : Option String) (t : Site) (o' : Option String)
    (t' : Site) : Prop where
  owner : o' = o
  way : ∃ way, t.trail = way ++ s.trail ∧ t'.trail = way ++ s'.trail ∧
    (way ≠ [] → t'.key = t.key ∧ t'.owner = t.owner)
  levels : t.depth + w'.maxDepth = t'.depth + w.maxDepth

section Abreast

variable {w w' : Walk} {s s' t t' : Site} {o o' : Option String}

theorem Abreast.refuse {α : Type} (h : Abreast w w' s s' o t o' t') (expected expected' : String)
    (slot : Slot) :
    Relocated s s' (t.refuse expected slot : Except Refusal α) (t'.refuse expected' slot) := by
  obtain ⟨way, htrail, htrail', hkey⟩ := h.way
  refine .mismatch way.reverse ?_ ?_ rfl fun hne => hkey (mt List.reverse_eq_nil_iff.mpr hne)
  · exact (congrArg List.reverse htrail).trans List.reverse_append
  · exact (congrArg List.reverse htrail').trans List.reverse_append

/-- One step further, to a place that both visits reach by the same segment. -/
theorem Abreast.step (h : Abreast w w' s s' o t o' t') (segment : Segment) (key owner : String) :
    Abreast w w' s s' none ⟨key, owner, segment :: t.trail, t.depth + 1⟩ none
      ⟨key, owner, segment :: t'.trail, t'.depth + 1⟩ := by
  obtain ⟨way, htrail, htrail', -⟩ := h.way
  refine ⟨rfl, ⟨segment :: way, ?_, ?_, fun _ => ⟨rfl, rfl⟩⟩, ?_⟩
  · rw [htrail, List.cons_append]
  · rw [htrail', List.cons_append]
  · have := h.levels
    dsimp only
    omega

theorem abreast_paired : Paired (@Relocated s s') (Abreast w w' s s') where
  refuse expected slot h := h.refuse expected expected slot
  shape slot h := h.refuse _ _ slot
  ref name h := ⟨rfl, h.way, h.levels⟩
  member h := by
    obtain ⟨way, htrail, htrail', -⟩ := h.way
    exact ⟨rfl, ⟨way, htrail, htrail', fun _ => ⟨rfl, rfl⟩⟩, h.levels⟩
  item i h := h.step (.index i) "" ""
  property {o t o' t'} key h := by
    have hstep := h.step (.key key) key (o.getD "")
    rw [Site.property, Site.property, h.owner]
    exact hstep

theorem Abreast.enter (h : Abreast w w' s s' o t o' t') (slot : Slot) :
    Relocated s s' (w.enter slot t) (w'.enter slot t') := by
  have hlevels := h.levels
  unfold Walk.enter
  by_cases hdepth : t.depth < w.maxDepth
  · rw [if_pos hdepth, if_pos (by omega)]
    exact .ok ()
  · rw [if_neg hdepth, if_neg (by omega)]
    exact h.refuse _ _ slot

/-- **Visits that lie the same way from two sites come to the same**, seen from these. -/
theorem value_abreast (htable : w'.table = w.table) (hdir : w'.direction = w.direction) :
    ∀ (n : ℕ) {o o' : Option String} (d : Descriptor) {t t' : Site} (slot : Slot),
      Abreast w w' s s' o t o' t' →
        Relocated s s' (w.value n o d t slot) (w'.value n o' d t' slot)
  | 0, _, _, _, _, _, _, _ => .endless
  | n + 1, o, o', d, t, t', slot, h => by
    refine value_inStep relocated_respected abreast_paired h hdir (fun name _ => by rw [htable])
      (fun _ _ _ => h.enter slot) fun q _ => ?_
    intro o t o' t' h _
    exact value_abreast htable hdir n q.descriptor q.slot h

/-- The two sites themselves lie abreast. -/
theorem Abreast.refl (o : Option String) (h : s.depth + w'.maxDepth = s'.depth + w.maxDepth) :
    Abreast w w' s s' o s o s' :=
  ⟨rfl, ⟨[], rfl, rfl, fun hne => (hne rfl).elim⟩, h⟩

end Abreast

theorem accepts_relocated {table : Table} {direction : Direction} {d : Descriptor} {slot out : Slot}
    {maxDepth maxDepth' depth depth' : ℕ} (h : depth + maxDepth' = depth' + maxDepth) :
    (⟨table, direction, maxDepth⟩ : Walk).Accepts d depth slot out ↔
      (⟨table, direction, maxDepth'⟩ : Walk).Accepts d depth' slot out := by
  let w : Walk := ⟨table, direction, maxDepth⟩
  let w' : Walk := ⟨table, direction, maxDepth'⟩
  have habreast : Abreast w w' (.bare depth) (.bare depth') none (.bare depth) none
      (.bare depth') := .refl none h
  exact exists_congr fun n => (value_abreast (by rfl) (by rfl) n d slot habreast).eq_ok_iff

end Walk

namespace Engine

variable {table : Table} {d : Descriptor} {direction : Direction}

theorem transform_eq_ok_iff (hd : table.checkExternal d = .ok ()) {maxDepth : ℕ} {v out : Json} :
    (⟨table, maxDepth⟩ : Engine).transform v d direction = .ok out ↔
      (⟨table, direction, maxDepth⟩ : Walk).Accepts d 0 (some v) (some out) := by
  rw [transform, hd]
  exact run_eq_ok_iff

/-- **An array converts as its items do**, with one level more. -/
theorem transform_array_iff (hd : table.checkExternal d = .ok ()) {maxDepth : ℕ}
    {vs outs : List Json} :
    (⟨table, maxDepth + 1⟩ : Engine).transform (.array vs) (.array d) direction =
        .ok (.array outs) ↔
      List.Forall₂ (fun v out => (⟨table, maxDepth⟩ : Engine).transform v d direction = .ok out)
        vs outs := by
  have harray : table.checkExternal (.array d) = .ok () := hd
  have hitem : ∀ v out, (⟨table, direction, maxDepth + 1⟩ : Walk).Accepts d (0 + 1) (some v)
      (some out) ↔ (⟨table, maxDepth⟩ : Engine).transform v d direction = .ok out := by
    intro v out
    rw [transform_eq_ok_iff hd]
    exact Walk.accepts_relocated (by omega)
  rw [transform_eq_ok_iff harray]
  constructor
  · rintro ⟨_ | n, h⟩
    · cases h
    · obtain ⟨_, _, hvs, houts, -, hitems⟩ := Walk.acceptsIn_array_iff.mp h
      cases hvs
      cases houts
      exact hitems.imp fun v out h => (hitem v out).mp h.accepts
  · intro h
    exact Walk.Accepts.array (Nat.succ_pos maxDepth) (h.imp fun v out h => (hitem v out).mpr h)

end Engine

namespace Walk

/-- **A walk knows of its site only how many levels it may go deeper**, but for what mismatches
say of where they are. So an array converts, with one level more, as its items do. -/
theorem value_relocated {table : Table} {d : Descriptor} (hd : table.checkExternal d = .ok ())
    (direction : Direction) :
    (∀ (maxDepth maxDepth' : ℕ) (s s' : Site), s.depth ≤ maxDepth → s'.depth ≤ maxDepth' →
      maxDepth - s.depth = maxDepth' - s'.depth → ∀ (n : ℕ) (owner : Option String) (slot : Slot),
        Relocated s s' ((⟨table, direction, maxDepth⟩ : Walk).value n owner d s slot)
          ((⟨table, direction, maxDepth'⟩ : Walk).value n owner d s' slot)) ∧
      ∀ (maxDepth : ℕ) (vs outs : List Json),
        (⟨table, maxDepth + 1⟩ : Engine).transform (.array vs) (.array d) direction =
            .ok (.array outs) ↔
          List.Forall₂ (fun v out =>
            (⟨table, maxDepth⟩ : Engine).transform v d direction = .ok out) vs outs := by
  refine ⟨fun maxDepth maxDepth' s s' hs hs' hleft n owner slot => ?_, fun maxDepth vs outs =>
    Engine.transform_array_iff hd⟩
  have hlevels : s.depth + maxDepth' = s'.depth + maxDepth := by omega
  let w : Walk := ⟨table, direction, maxDepth⟩
  let w' : Walk := ⟨table, direction, maxDepth'⟩
  have habreast : Abreast w w' s s' owner s owner s' := .refl owner hlevels
  exact value_abreast (by rfl) (by rfl) n d slot habreast

/-- The second of two days is none: at the root of a document, and in a box that stands under the
key `days` of another, with one level more. Either way the mismatch is at that item. -/
theorem value_relocated_days :
    let table : Table := ⟨[("Day", .date)]⟩
    let d : Descriptor := .array (.ref "Day")
    let slot : Slot := some (.array [.null, .bool true])
    let inner : Site := ⟨"days", "Box", [.key "days"], 1⟩
    table.checkExternal d = .ok () ∧ Site.root.depth ≤ 1 ∧ inner.depth ≤ 2 ∧
      1 - Site.root.depth = 2 - inner.depth ∧
      (⟨table, .decode, 1⟩ : Walk).value 3 none d .root slot =
        .error (.mismatch ⟨"Date", "true", "", "", ⟨[.index 1]⟩⟩) ∧
      ∃ m, (⟨table, .decode, 2⟩ : Walk).value 3 none d inner slot = .error (.mismatch m) ∧
        m.path.segments = [.key "days", .index 1] ∧ m.actual = "true" ∧ m.key = "" := by
  intro table d slot inner
  have hd : table.checkExternal d = .ok () := rfl
  have hroot : (⟨table, .decode, 1⟩ : Walk).value 3 none d .root slot =
      .error (.mismatch ⟨"Date", "true", "", "", ⟨[.index 1]⟩⟩) := by cbv
  have hsame := (value_relocated hd .decode).1 1 2 .root inner (by decide) (by decide) rfl 3 none
    slot
  refine ⟨hd, by decide, by decide, rfl, hroot, ?_⟩
  rw [hroot] at hsame
  generalize (⟨table, .decode, 2⟩ : Walk).value 3 none d inner slot = x at hsame
  cases hsame with
  | @mismatch _ m way path path' actual key =>
    have hway : way = [.index 1] := path.symm
    subst hway
    exact ⟨m, rfl, path', actual, (key (List.cons_ne_nil _ _)).1⟩

end Walk
end Wireform
