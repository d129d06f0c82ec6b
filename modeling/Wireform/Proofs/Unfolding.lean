/-
# Names do not matter

A name converts as what it stands for. Where names are written out, in a descriptor and in
the definitions of a table, conversions give the same documents with the keys in the same
order, and a mismatch is met at the same place of the document, with the same key and the
same value (`Engine.transform_unfolded`). Only the words may differ: what was expected may
be called by a name or by what the name stands for, and an owner is a name.

The two walks are in step except at a name that is written out. There the walk that still
has the name takes a step of its own, so the other walk is granted more steps than it needs;
and since its steps are not fewer, it ends wherever the first one does.

Key definitions: `Engine.SameButWords`.
Key theorems: `Walk.value_unfolded`, `Engine.transform_unfolded`.
-/
import Mathlib
import Wireform.Proofs.Table.Resolve
import Wireform.Proofs.Table.Unfolded
import Wireform.Proofs.Walk.Answers
import Wireform.Proofs.Walk.Matched

namespace Wireform

open Descriptor (Unfolded)

namespace Walk

section Unfolded

variable {w w' : Walk}

/-- **A walk by names and a walk by what they stand for come to the same**, within as many
steps as the first needs. -/
theorem value_unfolded (hdir : w'.direction = w.direction) (hdepth : w'.maxDepth = w.maxDepth)
    (h : w.table.Related (Unfolded w.table) w'.table) :
    ∀ (n : ℕ) {d d' : Descriptor}, Unfolded w.table d d' →
      ∀ {o o' : Option String} {s s' : Site}, SameSite o s o' s' → ∀ slot : Slot,
        Matched (w.value n o d s slot) (w'.value n o' d' s' slot)
  | 0, _, _, _, _, _, _, _, _, _ => trivial
  | n + 1, d, d', hdd, o, o', s, s', hsite, slot => by
    rcases hdd.congruent_or_ref with hsame | ⟨name, e, rfl, hget, he⟩
    · refine value_congruent matched_respected matched_paired hsite hdir hsame
        (fun name _ => h.get? name) (hsite.refuse _ _ _) (fun _ _ _ => enter_matched hdepth hsite _)
        fun q d' _ hqd => ?_
      intro o s o' s' hsite _
      exact value_unfolded hdir hdepth h n hqd hsite q.slot
    · -- the name takes a step that what it was written out to does not need
      have hname : w.value (n + 1) o (.ref name) s slot = w.value n (some name) e s slot := by
        simp only [value, hget]
      rw [hname]
      have hmatched : Matched (w.value n (some name) e s slot) (w'.value n o' d' s' slot) :=
        value_unfolded hdir hdepth h n he ⟨hsite.key, hsite.trail, hsite.depth⟩ slot
      exact hmatched.below (value_below w' (Nat.le_succ n) o' d' s' slot)

end Unfolded

end Walk

namespace Engine

/-- The same document, or mismatches at the same place. -/
inductive SameButWords : Except Failure Json → Except Failure Json → Prop
  | ok (out : Json) : SameButWords (.ok out) (.ok out)
  | mismatch {m m'} (h : m.SamePlace m') :
    SameButWords (.error (.mismatch m)) (.error (.mismatch m'))

/-- Results that match, where the first came, are answered alike. -/
theorem sameButWords_of_matched {x y : Except Refusal Slot} (h : Walk.Matched x y)
    (hx : x ≠ .error .endless) : SameButWords (answer x) (answer y) := by
  rcases x with (m | _) | a
  · rcases y with (m' | _) | b
    · exact .mismatch h
    · cases h
    · cases h
  · exact (hx rfl).elim
  · rcases y with (m' | _) | b
    · cases h
    · cases h
    · cases h
      exact .ok _

/-- **Names are transparent.** Where names are written out in an accepted table in which no
type leads back to itself, the table is accepted, too; and a descriptor with names written out
converts every document as the descriptor does, to the same document or with a mismatch at the
same place. -/
theorem transform_unfolded {definitions : List (String × Descriptor)} {table table' : Table}
    (ht : Table.build definitions = .ok table) (hp : table.Productive)
    (h : table.Related (Unfolded table) table') :
    Table.build table'.definitions = .ok table' ∧
      ∀ d d', table.checkExternal d = .ok () → Unfolded table d d' →
        ∀ (maxDepth : ℕ) (v : Json) (direction : Direction),
          SameButWords ((⟨table, maxDepth⟩ : Engine).transform v d direction)
            ((⟨table', maxDepth⟩ : Engine).transform v d' direction) := by
  have hs := Table.build_sound ht
  refine ⟨Table.build_unfolded ht hp h, fun d d' hd hdd maxDepth v direction => ?_⟩
  let e : Engine := ⟨table, maxDepth⟩
  let e' : Engine := ⟨table', maxDepth⟩
  have hd' := Table.checkExternal_unfolded hs h hd hdd
  have htransform : e.transform v d direction = e.run v d direction := by
    simp only [transform, e, hd]
  have htransform' : e'.transform v d' direction = e'.run v d' direction := by
    simp only [transform, e', hd']
  -- the walk by names ends within some number of steps, and the other one within as many
  obtain ⟨n, hn⟩ := hp.ends (w := e.walk direction) d 0 (some v)
  have hends : (e.walk direction).value n none d .root (some v) ≠ .error .endless := hn
  have hdir : (e'.walk direction).direction = (e.walk direction).direction := rfl
  have hdepth : (e'.walk direction).maxDepth = (e.walk direction).maxDepth := rfl
  have hsite : Walk.SameSite none .root none .root := ⟨rfl, rfl, rfl⟩
  have hmatched := Walk.value_unfolded hdir hdepth h n hdd hsite (some v)
  rw [htransform, htransform', run_of_ends hends, run_of_ends (hmatched.ne_endless hends)]
  exact sameButWords_of_matched hmatched hends

/-! ### Folders in folders

A folder holds folders and says, or leaves open, on which day it was closed. Days have a
second name. In the second table a folder holds folders that are written out once, the day
of closing is called by its first name, and the second name is written out to a date. -/

/-- The shape of a folder. -/
def folder (inner closed : Descriptor) : Descriptor :=
  .object [⟨"in", "inside", .array inner⟩, ⟨"at", "closed", .union [.null, closed]⟩] .reject

/-- Folders, where all types are named. -/
def folders : List (String × Descriptor) :=
  [("Folder", folder (.ref "Folder") (.ref "Stamp")), ("Stamp", .ref "Day"), ("Day", .date)]

/-- Folders, with some names written out. -/
def foldersOut : List (String × Descriptor) :=
  [("Folder", folder (folder (.ref "Folder") (.ref "Stamp")) (.ref "Day")), ("Stamp", .date),
    ("Day", .date)]

theorem unfolded_folder {inner inner' closed closed' : Descriptor}
    (hi : Unfolded ⟨folders⟩ inner inner') (hc : Unfolded ⟨folders⟩ closed closed') :
    Unfolded ⟨folders⟩ (folder inner closed) (folder inner' closed') :=
  .of_congruent (.object (.cons ⟨rfl, rfl, .of_congruent (.array hi)⟩ (.cons ⟨rfl, rfl,
    .of_congruent (.union (.cons (.same .null) (.cons hc .nil)))⟩ .nil)) .reject)

theorem unfolded_folders : Table.Related (Unfolded ⟨folders⟩) ⟨folders⟩ ⟨foldersOut⟩ := by
  have hinner : Unfolded ⟨folders⟩ (.ref "Folder") (folder (.ref "Folder") (.ref "Stamp")) :=
    .ref rfl (.same _)
  have hclosed : Unfolded ⟨folders⟩ (.ref "Stamp") (.ref "Day") := .ref rfl (.same _)
  have hstamp : Unfolded ⟨folders⟩ (.ref "Day") .date := .ref rfl (.same _)
  exact .cons ⟨rfl, unfolded_folder hinner hclosed⟩
    (.cons ⟨rfl, hstamp⟩ (.cons ⟨rfl, .same _⟩ .nil))

theorem productive_folders : Table.Productive ⟨folders⟩ := by
  have hfolder : Table.Resolves ⟨folders⟩ (.ref "Folder") := .ref rfl (.here nofun nofun)
  have hday : Table.Resolves ⟨folders⟩ (.ref "Day") := .ref rfl (.here nofun nofun)
  have hstamp : Table.Resolves ⟨folders⟩ (.ref "Stamp") := .ref rfl hday
  refine Table.productive_of_resolves ?_
  have hnames : Table.names ⟨folders⟩ = ["Folder", "Stamp", "Day"] := rfl
  rw [hnames, List.forall_mem_cons, List.forall_mem_cons, List.forall_mem_singleton]
  exact ⟨hfolder, hstamp, hday⟩

/-- A folder that was closed on a day converts alike, and one that was closed on no day is
refused at the same place, in other words. -/
theorem transform_unfolded_folders :
    let e : Engine := ⟨⟨folders⟩, 9⟩
    let e' : Engine := ⟨⟨foldersOut⟩, 9⟩
    let d : Descriptor := .ref "Folder"
    let d' : Descriptor := folder (.ref "Folder") (.ref "Stamp")
    let doc (day : String) : Json := .object [("at", .null), ("in", .array [.object
      [("in", .array []), ("at", .string day)]])]
    let out : Json := .object [("inside", .array [.object
      [("inside", .array []), ("closed", .string "2024-02-29T00:00:00.000Z")]]), ("closed", .null)]
    let m : Mismatch := ⟨"one of [null, Stamp]", "\"x\"", "at", "Folder",
      ⟨[.key "in", .index 0, .key "at"]⟩⟩
    let m' : Mismatch := ⟨"one of [null, Day]", "\"x\"", "at", "Folder",
      ⟨[.key "in", .index 0, .key "at"]⟩⟩
    Table.build folders = .ok ⟨folders⟩ ∧ Table.Productive ⟨folders⟩ ∧
      Table.Related (Unfolded ⟨folders⟩) ⟨folders⟩ ⟨foldersOut⟩ ∧
      Table.checkExternal ⟨folders⟩ d = .ok () ∧ Unfolded ⟨folders⟩ d d' ∧
      Table.build foldersOut = .ok ⟨foldersOut⟩ ∧
      e.transform (doc "2024-02-29") d .decode = .ok out ∧
      e'.transform (doc "2024-02-29") d' .decode = .ok out ∧
      e.transform (doc "x") d .decode = .error (.mismatch m) ∧
      e'.transform (doc "x") d' .decode = .error (.mismatch m') ∧ m.SamePlace m' := by
  intro e e' d d' doc out m m'
  have ht : Table.build folders = .ok ⟨folders⟩ := rfl
  have hd : Table.checkExternal ⟨folders⟩ d = .ok () := rfl
  have hdd : Unfolded ⟨folders⟩ d d' := .ref rfl (.same d')
  obtain ⟨hbuild, hanswers⟩ := transform_unfolded ht productive_folders unfolded_folders
  have hok : e.transform (doc "2024-02-29") d .decode = .ok out := by cbv
  have hok' : e'.transform (doc "2024-02-29") d' .decode = .ok out := by
    have hsame := hanswers d d' hd hdd 9 (doc "2024-02-29") .decode
    rw [hok] at hsame
    generalize hout : e'.transform (doc "2024-02-29") d' .decode = answer at hsame
    cases hsame
    rfl
  have hx : e.transform (doc "x") d .decode = .error (.mismatch m) := by cbv
  have hx' : e'.transform (doc "x") d' .decode = .error (.mismatch m') := by cbv
  have hplace : m.SamePlace m' := by
    have hsame := hanswers d d' hd hdd 9 (doc "x") .decode
    rw [hx, hx'] at hsame
    cases hsame with
    | mismatch h => exact h
  exact ⟨ht, productive_folders, unfolded_folders, hd, hdd, hbuild, hok, hok', hx, hx', hplace⟩

end Engine
end Wireform
