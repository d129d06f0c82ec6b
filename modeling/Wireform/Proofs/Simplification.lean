/-
# Simpler types

Types may be simplified in any number of steps, each anywhere in a definition: the members of
a union in a union become members of the outer one, members that accept nothing go, a member
that equals an earlier one goes, and objects are closed in one way or the other. The table is
accepted as before, its types still lead nowhere for ever, and every document converts to the
same value, with the keys in the same order, or is refused as before
(`Engine.convert_simplified`). Steps that only close objects in the other way leave every
answer as it was, to the last field of a mismatch.

Key theorems: `Walk.accepts_simplified_iff`, `Engine.convert_toggled`,
`Engine.convert_simplified`.
-/
import Mathlib
import Wireform.Proofs.Table.Resolve
import Wireform.Proofs.Walk.Answers
import Wireform.Proofs.Walk.Rewriting
import Wireform.Proofs.Walk.Settles

namespace Wireform

open Descriptor (Within Simplification Toggle)

/-! ### One step -/

namespace Walk

/-- Where a walk ends, what is accepted is what has come then. -/
theorem accepts_iff_of_ends {w : Walk} {n depth : ℕ} {d : Descriptor} {slot out : Slot}
    (h : w.Ends n d depth slot) :
    w.Accepts d depth slot out ↔ w.value n none d (.bare depth) slot = .ok out :=
  ⟨fun ha => ha.settles n h, fun hout => ⟨n, hout⟩⟩

/-- **A simplification somewhere in a table leaves what is accepted, and as what.** -/
theorem accepts_simplified_iff {table table' : Table} (hp : table.Productive)
    (h : table.Rewrites Simplification table') {direction : Direction} {maxDepth : ℕ}
    {d : Descriptor} {depth : ℕ} {slot out : Slot} :
    Accepts ⟨table, direction, maxDepth⟩ d depth slot out ↔
      Accepts ⟨table', direction, maxDepth⟩ d depth slot out := by
  let w : Walk := ⟨table, direction, maxDepth⟩
  let w' : Walk := ⟨table', direction, maxDepth⟩
  have hdir : w'.direction = w.direction := rfl
  have hdepth : w'.maxDepth = w.maxDepth := rfl
  obtain ⟨n, hn⟩ := Table.Productive.ends (w := w) hp d depth slot
  have hmatched : Matched (w.value n none d (.bare depth) slot)
      (w'.value (2 * n) none d (.bare depth) slot) :=
    value_rewritten matched_respected matched_paired tolerates_simplification hdir hdepth h.related
      n (2 * n) le_rfl .refl ⟨rfl, rfl, rfl⟩ slot
  have hn' : w'.Ends (2 * n) d depth slot := hmatched.ne_endless hn
  rw [accepts_iff_of_ends hn, accepts_iff_of_ends hn']
  exact hmatched.eq_ok_iff hn

end Walk

namespace Engine

/-- **Objects that are closed in the other way give the same answers.** -/
theorem convert_toggled {table table' : Table} (hp : table.Productive)
    (h : table.Rewrites Toggle table') (maxDepth : ℕ) (v : Json) (root : String)
    (direction : Direction) :
    (⟨table', maxDepth⟩ : Engine).convert v root direction =
      (⟨table, maxDepth⟩ : Engine).convert v root direction := by
  let w : Walk := ⟨table, direction, maxDepth⟩
  let w' : Walk := ⟨table', direction, maxDepth⟩
  have hdir : w'.direction = w.direction := rfl
  have hdepth : w'.maxDepth = w.maxDepth := rfl
  obtain ⟨n, hn⟩ := Table.Productive.ends (w := w) hp (.ref root) 0 (some v)
  have hends : w.value n none (.ref root) .root (some v) ≠ .error .endless := hn
  have hbelow : Walk.Below (w.value n none (.ref root) .root (some v))
      (w'.value (2 * n) none (.ref root) .root (some v)) :=
    Walk.value_rewritten Walk.below_respected Walk.below_paired Walk.tolerates_toggle hdir hdepth
      h.related n (2 * n) le_rfl .refl ⟨rfl, rfl⟩ (some v)
  have hvalue := hbelow.eq hends
  have hends' : w'.value (2 * n) none (.ref root) .root (some v) ≠ .error .endless := by
    rwa [hvalue]
  have hbefore : (⟨table, maxDepth⟩ : Engine).run v (.ref root) direction =
      answer (w.value n none (.ref root) .root (some v)) := run_of_ends hends
  have hafter : (⟨table', maxDepth⟩ : Engine).run v (.ref root) direction =
      answer (w'.value (2 * n) none (.ref root) .root (some v)) := run_of_ends hends'
  have hrun : (⟨table', maxDepth⟩ : Engine).run v (.ref root) direction =
      (⟨table, maxDepth⟩ : Engine).run v (.ref root) direction := by
    rw [hbefore, hafter, hvalue]
  have hroot := h.related.get? root
  unfold convert Table.resolve
  dsimp only
  generalize table.get? root = d at hroot
  generalize table'.get? root = d' at hroot
  cases hroot with
  | none => rfl
  | some _ => exact hrun

end Engine

/-! ### Any number of steps -/

namespace Table

/-- A simplified table is accepted, and its types lead nowhere for ever. -/
theorem accepted_of_simplified {definitions : List (String × Descriptor)} {table table' : Table}
    (ht : build definitions = .ok table) (hp : table.Productive)
    (h : Relation.ReflTransGen (Rewrites Simplification) table table') :
    build table'.definitions = .ok table' ∧ table'.Productive := by
  induction h with
  | refl =>
    obtain ⟨rfl, -⟩ := build_eq_ok_iff.mp ht
    exact ⟨ht, hp⟩
  | tail _ hstep ih =>
    exact ⟨build_simplified hstep.related ih.1, ih.2.of_simplified hstep.related⟩

theorem simplifications_of_toggles {table table' : Table}
    (h : Relation.ReflTransGen (Rewrites Toggle) table table') :
    Relation.ReflTransGen (Rewrites Simplification) table table' := by
  refine Relation.ReflTransGen.mono (fun before after hstep => ?_) table table' h
  exact hstep.mono fun _ _ => .toggle

end Table

namespace Engine

/-- **Simplified types mean the same**, where no type leads back to itself: the table is
accepted, its types lead back to themselves no more than before, and the same documents are
converted, to the same values. Objects that are only closed in another way give the same
answers altogether. -/
theorem convert_simplified {definitions : List (String × Descriptor)} {table : Table}
    (ht : Table.build definitions = .ok table) (hp : table.Productive) (maxDepth : ℕ) (v : Json)
    (root : String) (direction : Direction) :
    (∀ table', Relation.ReflTransGen (Table.Rewrites Simplification) table table' →
      Table.build table'.definitions = .ok table' ∧ table'.Productive ∧
        ∀ out, (⟨table, maxDepth⟩ : Engine).convert v root direction = .ok out ↔
          (⟨table', maxDepth⟩ : Engine).convert v root direction = .ok out) ∧
    (∀ table', Relation.ReflTransGen (Table.Rewrites Toggle) table table' →
      (⟨table', maxDepth⟩ : Engine).convert v root direction =
        (⟨table, maxDepth⟩ : Engine).convert v root direction) := by
  refine ⟨fun table' h => ?_, fun table' h => ?_⟩
  · obtain ⟨ht', hp'⟩ := Table.accepted_of_simplified ht hp h
    refine ⟨ht', hp', fun out => ?_⟩
    clear ht' hp'
    induction h with
    | refl => exact Iff.rfl
    | @tail among table' hbefore hstep ih =>
      obtain ⟨-, hamong⟩ := Table.accepted_of_simplified ht hp hbefore
      rw [ih, convert_eq_ok_iff, convert_eq_ok_iff]
      exact Walk.accepts_simplified_iff hamong hstep
  · induction h with
    | refl => rfl
    | @tail among table' hbefore hstep ih =>
      obtain ⟨-, hamong⟩ :=
        Table.accepted_of_simplified ht hp (Table.simplifications_of_toggles hbefore)
      exact (convert_toggled hamong hstep maxDepth v root direction).trans ih

/-- A note is a note to be thrown away or a day, or it has notes of its own. -/
def notes (note : Descriptor) (additional : Additional Descriptor) : List (String × Descriptor) :=
  [("Notes", .object [⟨"ns", "notes", .array (.ref "Note")⟩] additional), ("Note", note)]

/-- A note, said in a roundabout way. -/
def note : Descriptor :=
  .union [.union [.null, .literal "a note"], .date, .never, .date, .array (.ref "Note")]

theorem rewrites_note {Rule : Descriptor → Descriptor → Prop} {d d' : Descriptor} (h : Rule d d') :
    Table.Rewrites Rule ⟨notes d .reject⟩ ⟨notes d' .reject⟩ :=
  @Table.Rewrites.intro Rule [_] _ d d' [] (.here h)

theorem rewrites_notes (d : Descriptor) :
    Table.Rewrites Toggle ⟨notes d .reject⟩ ⟨notes d (.allow .never)⟩ :=
  @Table.Rewrites.intro Toggle [] _ _ _ [_] (.here .allow)

theorem productive_notes : Table.Productive ⟨notes note .reject⟩ := by
  have hnotes : Table.Resolves ⟨notes note .reject⟩ (.ref "Notes") := .ref rfl (.here nofun nofun)
  have hnote : Table.Resolves ⟨notes note .reject⟩ (.ref "Note") := by
    refine .ref (d := note) rfl (.union ?_)
    simp only [List.forall_mem_cons, List.not_mem_nil, false_implies, implies_true, and_true]
    refine ⟨.union ?_, .here nofun nofun, .here nofun nofun, .here nofun nofun, .here nofun nofun⟩
    simp only [List.forall_mem_cons, List.not_mem_nil, false_implies, implies_true, and_true]
    exact ⟨.here nofun nofun, .here nofun nofun⟩
  refine Table.productive_of_resolves ?_
  have hnames : Table.names ⟨notes note .reject⟩ = ["Notes", "Note"] := rfl
  rw [hnames, List.forall_mem_cons, List.forall_mem_singleton]
  exact ⟨hnotes, hnote⟩

/-- Notes of a day and of other notes are read as before once notes are said in three members,
and a note with a key too much is refused in the same words at the same place. -/
theorem convert_simplified_notes :
    let simple : Descriptor := .union [.null, .date, .array (.ref "Note")]
    let e : Engine := ⟨⟨notes note .reject⟩, 9⟩
    let doc : Json := .object [("ns", .array [.null, .array [.string "2024-02-29"]])]
    let out : Json :=
      .object [("notes", .array [.null, .array [.string "2024-02-29T00:00:00.000Z"]])]
    let more : Json := .object [("ns", .array []), ("more", .null)]
    let m : Mismatch := ⟨"never", "null", "more", "Notes", ⟨[.key "more"]⟩⟩
    Table.build (notes note .reject) = .ok ⟨notes note .reject⟩ ∧
      Table.Productive ⟨notes note .reject⟩ ∧
      Relation.ReflTransGen (Table.Rewrites Simplification) ⟨notes note .reject⟩
        ⟨notes simple (.allow .never)⟩ ∧
      Relation.ReflTransGen (Table.Rewrites Toggle) ⟨notes note .reject⟩
        ⟨notes note (.allow .never)⟩ ∧
      Table.build (notes simple (.allow .never)) = .ok ⟨notes simple (.allow .never)⟩ ∧
      e.convert doc "Notes" .decode = .ok out ∧
      (⟨⟨notes simple (.allow .never)⟩, 9⟩ : Engine).convert doc "Notes" .decode = .ok out ∧
      e.convert more "Notes" .decode = .error (.mismatch m) ∧
      (⟨⟨notes note (.allow .never)⟩, 9⟩ : Engine).convert more "Notes" .decode =
        .error (.mismatch m) := by
  intro simple e doc out more m
  have ht : Table.build (notes note .reject) = .ok ⟨notes note .reject⟩ := rfl
  have hsplice : Simplification note
      (.union [.null, .literal "a note", .date, .never, .date, .array (.ref "Note")]) :=
    @Simplification.splice [] [.null, .literal "a note"] _
  have hliteral : Simplification
      (.union [.null, .literal "a note", .date, .never, .date, .array (.ref "Note")])
      (.union [.null, .date, .never, .date, .array (.ref "Note")]) :=
    @Simplification.literal [.null] _ _
  have hnever : Simplification (.union [.null, .date, .never, .date, .array (.ref "Note")])
      (.union [.null, .date, .date, .array (.ref "Note")]) :=
    @Simplification.never [.null, .date] _
  have hdate : Descriptor.Equal .date .date := by simp [Descriptor.Equal, Descriptor.same]
  have hrepeated : Simplification (.union [.null, .date, .date, .array (.ref "Note")]) simple :=
    @Simplification.repeated [.null, .date] .date .date _
      (List.mem_cons_of_mem _ List.mem_cons_self) hdate
  have hall : Relation.ReflTransGen (Table.Rewrites Simplification) ⟨notes note .reject⟩
      ⟨notes simple (.allow .never)⟩ :=
    ((((Relation.ReflTransGen.single (rewrites_note hsplice)).tail (rewrites_note hliteral)).tail
      (rewrites_note hnever)).tail (rewrites_note hrepeated)).tail
        ((rewrites_notes simple).mono fun _ _ => .toggle)
  have htoggle : Relation.ReflTransGen (Table.Rewrites Toggle) ⟨notes note .reject⟩
      ⟨notes note (.allow .never)⟩ := .single (rewrites_notes note)
  have hok : e.convert doc "Notes" .decode = .ok out := by cbv
  have hmore : e.convert more "Notes" .decode = .error (.mismatch m) := by cbv
  obtain ⟨hsimplified, -⟩ := convert_simplified ht productive_notes 9 doc "Notes" .decode
  obtain ⟨-, htoggled⟩ := convert_simplified ht productive_notes 9 more "Notes" .decode
  obtain ⟨hbuild, -, hsame⟩ := hsimplified _ hall
  exact ⟨ht, productive_notes, hall, htoggle, hbuild, hok, (hsame out).mp hok, hmore,
    (htoggled _ htoggle).trans hmore⟩

end Engine
end Wireform
