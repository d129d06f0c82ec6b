/-
# Walks that can end in one way only

A table may hold definitions on which a walk goes on for ever, so that from what is
accepted in one walk it cannot follow that another one ends. What can follow is that
the other walk, if it ends, accepts the slot as a given one (`Settles`). That passes
from the parts of a slot to the slot: along names, from the first member of a union
that accepts anything, from the items of an array, and from the members of an object.

Key definitions: `Settles`.
Key theorems: `Settles.union`, `Settles.array`, `Settles.of_converts`, `Settles.object`,
`Engine.convert_of_settles`.
-/
import Wireform.Proofs.Walk.Refusals
import Wireform.Proofs.Walk.Rows

namespace Wireform
namespace Walk

/-- The walk of a slot, if it ends, accepts it as `out`. -/
def Settles (w : Walk) (d : Descriptor) (depth : Nat) (slot out : Slot) : Prop :=
  ∀ n, w.Ends n d depth slot → w.AcceptsIn n d depth slot out

section Settles

variable {w : Walk} {d : Descriptor} {n depth : Nat} {slot out : Slot}

theorem not_ends_zero : ¬ w.Ends 0 d depth slot := fun h => h rfl

theorem Settles.not_mismatches (h : w.Settles d depth slot out) :
    ¬ w.Mismatches n d depth slot := fun hm => (h n hm.ends).accepts.not_mismatches hm

theorem Accepts.settles (h : w.Accepts d depth slot out) : w.Settles d depth slot out := by
  intro n hn
  obtain ⟨k, hk⟩ := h
  have hmax := hk.mono (Nat.le_max_left k n)
  unfold AcceptsIn at hmax ⊢
  rw [← hmax]
  exact (value_mono w (Nat.le_max_right k n) hn).symm

theorem Settles.leaf (hd : IsLeaf d) (h : Takes d slot out) : w.Settles d depth slot out :=
  Accepts.settles (h.accepts hd)

theorem Settles.ref {name : String} (hd : w.table.get? name = some d)
    (h : w.Settles d depth slot out) : w.Settles (.ref name) depth slot out := by
  rintro (_ | n) hn
  · exact (not_ends_zero hn).elim
  · exact acceptsIn_ref_iff.mpr ⟨d, hd, h n (hn.ref hd)⟩

theorem Settles.union {before after : List Descriptor}
    (hb : ∀ a ∈ before, ∀ s, ¬ w.Accepts a depth slot s) (h : w.Settles d depth slot out) :
    w.Settles (.union (before ++ d :: after)) depth slot out := by
  rintro (_ | n) hn
  · exact (not_ends_zero hn).elim
  · obtain ⟨hrefuse, hd⟩ := hn.union hb
    exact acceptsIn_union_iff.mpr ⟨before, d, after, rfl, hrefuse, h n hd⟩

theorem Settles.array {item : Descriptor} {vs outs : List Json} (hdepth : depth < w.maxDepth)
    (h : List.Forall₂ (fun v o => w.Settles item (depth + 1) (some v) (some o)) vs outs) :
    w.Settles (.array item) depth (some (.array vs)) (some (.array outs)) := by
  rintro (_ | n) hn
  · exact (not_ends_zero hn).elim
  · obtain ⟨rows, rfl, rfl, hrows⟩ := exists_rows h
    have hends := hn.items hdepth <| by
      intro v hv
      obtain ⟨r, hr, rfl⟩ := List.mem_map.mp hv
      exact (hrows r hr).not_mismatches
    refine acceptsIn_array_iff.mpr ⟨_, _, rfl, rfl, hdepth, ?_⟩
    exact forall₂_rows fun r hr => hrows r hr n (hends _ (List.mem_map_of_mem hr))

theorem Settles.of_converts {properties : List (Property Descriptor)}
    {additional : Additional Descriptor} {input members : List (String × Json)}
    (hk : (properties.map w.direction.inputKey).Nodup) (hdepth : depth < w.maxDepth)
    (h : Converts w.direction properties additional (fun d s s' => w.Settles d (depth + 1) s s')
      input members) :
    w.Settles (.object properties additional) depth (some (.object input))
      (some (.object members)) := by
  rintro (_ | n) hn
  · exact (not_ends_zero hn).elim
  · have hends := hn.members hk hdepth
      (by
        intro p hp
        obtain ⟨s, hs⟩ := h.property hp
        exact hs.not_mismatches)
      (by
        rintro m hm d rfl
        obtain ⟨_, v, ⟨⟩, hs⟩ := h.extra hm
        exact hs.not_mismatches)
    refine (acceptsIn_object_iff hk).mpr ⟨input, members, rfl, rfl, hdepth, ?_⟩
    refine h.imp (fun p hp s hs => hs n (hends.1 p hp)) fun m hm d s hd hs => ?_
    exact hs n (hends.2 m hm d hd)

/-- An object that was put together from rows and other members settles row by row. -/
theorem Settles.object {ρ : Type} {rows : List ρ} {p : ρ → Property Descriptor}
    {additional : Additional Descriptor} {a b : ρ → Slot} {xs ys : List (String × Json)}
    (hin : (rows.map fun r => w.direction.inputKey (p r)).Nodup)
    (hout : (rows.map fun r => w.direction.outputKey (p r)).Nodup)
    (hdistinct : (Keyed.keys xs).Nodup)
    (hfresh : Fresh rows (fun r => w.direction.inputKey (p r)) xs)
    (hfresh' : Fresh rows (fun r => w.direction.outputKey (p r)) xs)
    (hdepth : depth < w.maxDepth)
    (hrows : ∀ r ∈ rows, w.Settles (p r).descriptor (depth + 1) (a r) (b r))
    (hxs : List.Forall₂ (fun x y => y.1 = x.1 ∧
      ∃ d, additional = .allow d ∧ w.Settles d (depth + 1) (some x.2) (some y.2)) xs ys) :
    w.Settles (.object (rows.map p) additional) depth
      (some (.object (written (rows.map fun r => w.direction.inputKey (p r)) (rows.map a) ++ xs)))
      (some (.object
        (written (rows.map fun r => w.direction.outputKey (p r)) (rows.map b) ++ ys))) := by
  have hkeys : ((rows.map p).map w.direction.inputKey).Nodup := by
    rw [List.map_map]
    exact hin
  have hconverts := converts_assembled (C := fun d s s' => w.Settles d (depth + 1) s s')
    hin hout hrows hxs hdistinct hfresh hfresh'
  exact .of_converts hkeys hdepth hconverts

end Settles

end Walk

namespace Engine

/-- Where every walk ends, a document whose walk can end in one way only is converted. -/
theorem convert_of_settles {e : Engine} (hp : e.table.Productive) {v out : Json} {root : String}
    {direction : Direction} (h : (e.walk direction).Settles (.ref root) 0 (some v) (some out)) :
    e.convert v root direction = .ok out := by
  obtain ⟨n, hn⟩ := hp.ends (w := e.walk direction) (.ref root) 0 (some v)
  exact convert_eq_ok_iff.mpr (h n hn).accepts

end Engine
end Wireform
