/-
# The course of an accepted walk

A walk that accepts turns from place to place: from a name to what it stands for, from
a container to what is in it, and from a union to the one member that it stops at
(`TurnsTo`). Members before that one are passed over; whatever they were asked, nothing
of it is on the course.

So the result hangs on the limit on nesting through the members passed over alone: with
a higher limit one of them may accept. If none does, the walk takes the same course
(`settles_of_passesOver`).

Key definitions: `TurnsTo`, `ComesTo`, `PassesOver`.
Key theorems: `ComesTo.reaches`, `settles_of_passesOver`.
-/
import Wireform.Proofs.Walk.Settles

namespace Wireform
namespace Walk

/-- The places that a walk turns to from a place where it accepts. -/
inductive TurnsTo (w : Walk) : Place → Place → Prop
  | ref {name d depth slot} (h : w.table.get? name = some d) :
    TurnsTo w ⟨.ref name, depth, slot⟩ ⟨d, depth, slot⟩
  | member {before d after depth slot out} (hb : ∀ a ∈ before, w.Refuses a depth slot)
    (h : w.Accepts d depth slot out) :
    TurnsTo w ⟨.union (before ++ d :: after), depth, slot⟩ ⟨d, depth, slot⟩
  | item {item depth vs v} (h : v ∈ vs) :
    TurnsTo w ⟨.array item, depth, some (.array vs)⟩ ⟨item, depth + 1, some v⟩
  | property {properties additional depth input p} (h : p ∈ properties) :
    TurnsTo w ⟨.object properties additional, depth, some (.object input)⟩
      ⟨p.descriptor, depth + 1, input.lookup (w.direction.inputKey p)⟩
  | extra {properties d depth input m} (h : m ∈ extras w.direction properties input) :
    TurnsTo w ⟨.object properties (.allow d), depth, some (.object input)⟩ ⟨d, depth + 1, some m.2⟩

/-- A place is on the course of a walk. -/
def ComesTo (w : Walk) : Place → Place → Prop := Relation.ReflTransGen w.TurnsTo

/-- A place is that of a member which a union on the course passes over. -/
inductive PassesOver (w : Walk) (p : Place) : Place → Prop
  | intro {before d after depth slot out a}
    (hcomes : w.ComesTo p ⟨.union (before ++ d :: after), depth, slot⟩)
    (hb : ∀ a ∈ before, w.Refuses a depth slot) (h : w.Accepts d depth slot out)
    (ha : a ∈ before) : PassesOver w p ⟨a, depth, slot⟩

section Course

variable {w : Walk} {p q r : Place}

theorem TurnsTo.opens (h : w.TurnsTo p q) : w.table.Opens p.descriptor q.descriptor := by
  cases h with
  | ref h => exact .ref h
  | member _ _ => exact .member (by simp)
  | item _ => exact .item
  | property h => exact .property h
  | extra _ => exact .extra

/-- What is on the course of a walk is reached by its descriptor. -/
theorem ComesTo.reaches (h : w.ComesTo p q) : w.table.Reaches p.descriptor q.descriptor :=
  h.lift Place.descriptor fun _ _ h => h.opens

theorem PassesOver.of_turnsTo (h : w.TurnsTo p q) (hr : w.PassesOver q r) : w.PassesOver p r := by
  cases hr with
  | intro hcomes hb ha hmem => exact .intro (.head h hcomes) hb ha hmem

/-- A leaf that is passed over is passed over with every limit. -/
theorem PassesOver.not_accepts_leaf (h : w.PassesOver p q) (hleaf : IsLeaf q.descriptor)
    (w' : Walk) (out : Slot) : ¬ w'.Accepts q.descriptor q.depth q.slot out := by
  rintro ⟨_ | n, hn⟩
  · exact not_acceptsIn_zero hn
  · have htakes := (acceptsIn_leaf_iff hleaf).mp hn
    cases h with
    | intro _ hb _ ha => exact (hb _ ha).not_accepts (htakes.accepts hleaf)

end Course

/-- **With a higher limit a walk takes the same course**, if no member that it passed over
accepts then. -/
theorem settles_of_passesOver {w : Walk} {maxDepth : Nat} (hs : w.table.Sound)
    (hmax : w.maxDepth ≤ maxDepth) {d : Descriptor} {depth : Nat} {slot out : Slot}
    (hd : w.table.Checked d) (h : w.Accepts d depth slot out)
    (hover : ∀ q, w.PassesOver ⟨d, depth, slot⟩ q → ∀ out,
      ¬ { w with maxDepth }.Accepts q.descriptor q.depth q.slot out) :
    { w with maxDepth }.Settles d depth slot out := by
  revert hover
  refine Accepts.induct hs
    (motive := fun d depth slot out => (∀ q, w.PassesOver ⟨d, depth, slot⟩ q → ∀ out,
      ¬ { w with maxDepth }.Accepts q.descriptor q.depth q.slot out) →
        { w with maxDepth }.Settles d depth slot out)
    ?leaf ?ref ?union ?array ?object hd h
  case leaf =>
    intro d depth slot out hleaf htakes _
    exact .leaf hleaf htakes
  case ref =>
    intro name d depth slot out hget ih hover
    exact .ref hget (ih fun q hq => hover q (hq.of_turnsTo (.ref hget)))
  case union =>
    intro before d after depth slot out hb hd ih hover
    refine .union (fun a ha out' => ?_) (ih fun q hq => hover q (hq.of_turnsTo (.member hb hd)))
    exact hover ⟨a, depth, slot⟩ (.intro .refl hb hd ha) out'
  case array =>
    intro item depth vs outs hdepth ih hover
    obtain ⟨rows, rfl, rfl, hrows⟩ := exists_rows ih
    refine .array (hdepth.trans_le hmax) (forall₂_rows fun r hr => hrows r hr fun q hq => ?_)
    exact hover q (hq.of_turnsTo (.item (List.mem_map_of_mem hr)))
  case object =>
    intro properties additional depth input members hdepth hchecked ih hover
    refine .of_converts (hchecked.nodup w.direction).1 (hdepth.trans_le hmax)
      (ih.imp (fun p hp s hps => hps fun q hq => ?_) fun m hm x s hadd hms => hms fun q hq => ?_)
    · exact hover q (hq.of_turnsTo (.property hp))
    · subst hadd
      exact hover q (hq.of_turnsTo (.extra hm))

end Walk
end Wireform
