/-
# What a run keeps of its files

A run keeps a relation between states if, wherever it starts, it ends in a related state.
Of a preorder, two runs that keep it keep it one after the other, so a program keeps
whatever all the questions keep that it asks of its host. To look for the files of a pattern
takes no other questions than which files there are (`Looks`), however deep it goes down.

A view tells of every state what files there are: what stands at each place, and to which
place a path leads. Several paths may lead to one place. A host is lawful in a view if only
creating a directory and writing a file change what is seen, and no more than they say
(`Host.Lawful`).

Key definitions: `Keeps`, `Host.Looks`, `FileView`, `FileView.Grown`, `FileView.Written`,
`Host.Lawful`.
Key theorems: `Keeps.bind`, `Glob.keeps_fill`, `Glob.keeps_expand`.
-/
import Wireform.Files.Glob
import Wireform.Files.Tree
import Mathlib.Order.Defs.Unbundled

namespace Wireform

/-- Wherever it starts, a run ends in a related state. -/
def Keeps {σ α : Type} (R : σ → σ → Prop) (x : StateM σ α) : Prop := ∀ s, R s (x.run s).2

section Runs

variable {σ α β : Type} {R : σ → σ → Prop}

/-- A run goes on in the state that the first part leaves. -/
theorem run_bind (x : StateM σ α) (f : α → StateM σ β) (s : σ) :
    (x >>= f).run s = (f (x.run s).1).run (x.run s).2 := rfl

theorem Keeps.mono {S : σ → σ → Prop} {x : StateM σ α} (h : Keeps R x)
    (hRS : ∀ s s', R s s' → S s s') : Keeps S x :=
  fun s => hRS _ _ (h s)

theorem Keeps.ite {c : Prop} [Decidable c] {x y : StateM σ α} (hx : Keeps R x) (hy : Keeps R y) :
    Keeps R (if c then x else y) := by
  split
  · exact hx
  · exact hy

variable [IsPreorder σ R]

theorem Keeps.pure (a : α) : Keeps R (Pure.pure a : StateM σ α) := fun s => refl_of R s

theorem Keeps.bind {x : StateM σ α} {f : α → StateM σ β} (hx : Keeps R x)
    (hf : ∀ a, Keeps R (f a)) : Keeps R (x >>= f) :=
  fun s => trans_of R (hx s) (hf _ _)

end Runs

/-- Looking at the files of a host keeps a relation. -/
structure Host.Looks {σ : Type} (host : Host (StateM σ)) (R : σ → σ → Prop) : Prop where
  readFile : ∀ path, Keeps R (host.readFile path)
  pathExists : ∀ path, Keeps R (host.pathExists path)
  isDirectory : ∀ path, Keeps R (host.isDirectory path)
  listDirectory : ∀ path, Keeps R (host.listDirectory path)

theorem Host.Looks.mono {σ : Type} {host : Host (StateM σ)} {R S : σ → σ → Prop}
    (h : host.Looks R) (hRS : ∀ s s', R s s' → S s s') : host.Looks S where
  readFile path := (h.readFile path).mono hRS
  pathExists path := (h.pathExists path).mono hRS
  isDirectory path := (h.isDirectory path).mono hRS
  listDirectory path := (h.listDirectory path).mono hRS

namespace Glob

variable {σ : Type} {R : σ → σ → Prop} [IsPreorder σ R] {host : Host (StateM σ)}

theorem keeps_concatMapM {α β : Type} {f : α → StateM σ (List β)} (hf : ∀ a, Keeps R (f a)) :
    ∀ as : List α, Keeps R (concatMapM f as)
  | [] => .pure _
  | a :: as => .bind (hf a) fun _ => .bind (keeps_concatMapM hf as) fun _ => .pure _

theorem keeps_result (h : host.Looks R) (directoriesOnly : Bool) (path : String) :
    Keeps R (result host directoriesOnly path) :=
  .ite (.bind (h.isDirectory path) fun _ => .ite (.pure _) (.pure _)) (.pure _)

/-- However deep it goes, the search for files asks for nothing but files. -/
theorem keeps_fill (h : host.Looks R) (directoriesOnly : Bool) : ∀ (fuel : Nat)
    (ps : List Pattern) (directory : String), Keeps R (fill host directoriesOnly fuel ps directory)
  | 0, _, _ => .pure _
  | _ + 1, [], directory => keeps_result h directoriesOnly directory
  | fuel + 1, p :: ps, directory => by
    have ih := keeps_fill h directoriesOnly fuel
    unfold fill
    dsimp only
    split
    · refine .ite (.bind (h.isDirectory _) fun _ => ?_) (.bind (h.pathExists _) fun _ => ?_)
      · exact .ite (ih ps _) (.pure _)
      · exact .ite (ih ps _) (.pure _)
    · refine .bind (h.isDirectory _) fun _ => .ite (.pure _) (.bind (h.listDirectory _) fun _ => ?_)
      refine .bind (keeps_concatMapM (fun _ => ih ps _) _) fun _ => ?_
      refine .bind (keeps_concatMapM (fun name => .ite ?recursive ?single) _) fun _ => .pure _
      case recursive =>
        refine .bind (h.isDirectory _) fun inside => ?_
        have hdeeper : ∀ (qs : List Pattern) (here : List String), Keeps R (if inside = true then do
            let deeper ← fill host directoriesOnly fuel (p :: qs) (below directory name)
            Pure.pure (here ++ deeper)
          else do
            let deeper ← Pure.pure []
            Pure.pure (here ++ deeper)) := fun qs here =>
          .ite (.bind (ih _ _) fun _ => .pure _) (.bind (.pure _) fun _ => .pure _)
        rcases afterRecursion ps with _ | ⟨q, qs⟩
        · exact .bind (.pure _) (hdeeper _)
        · refine .bind (.ite ?_ (.pure _)) (hdeeper _)
          cases qs with
          | nil => exact keeps_result h directoriesOnly _
          | cons => exact ih _ _
      case single =>
        refine .ite ?_ (.pure _)
        cases ps with
        | nil => exact keeps_result h directoriesOnly _
        | cons => exact ih _ _

theorem keeps_expand (h : host.Looks R) (pattern : String) : Keeps R (expand host pattern) := by
  unfold expand
  dsimp only
  split
  · exact .pure _
  · split
    · exact .pure _
    · exact .bind (keeps_fill h _ _ _ _) fun _ => .pure _

end Glob

/-! ### Files in view -/

/-- What can be seen of the files in a state: the node at a place, and the place of a path. -/
structure FileView (σ Place : Type) where
  node? : σ → Place → Option FileNode
  place? : σ → String → Option Place

namespace FileView

variable {σ Place : Type} (view : FileView σ Place)

/-- The same files and directories at the same places. -/
def Same (before after : σ) : Prop := ∀ place, view.node? after place = view.node? before place

/-- What is at a place is what was there, or a new directory where nothing was. -/
def Kept (before after : σ) (place : Place) : Prop :=
  view.node? after place = view.node? before place ∨
    view.node? before place = none ∧ view.node? after place = some .directory

/-- The same files and directories, and perhaps some new directories: no file is created or
changed. -/
def Grown (before after : σ) : Prop := ∀ place, view.Kept before after place

/-- At the place of a path stands a file with the text, and whatever else there is is kept. -/
structure Written (before : σ) (path text : String) (after : σ) : Prop where
  file : ∃ place, view.place? after path = some place ∧
    view.node? after place = some (.file text.toUTF8)
  others : ∀ place, view.place? after path ≠ some place → view.Kept before after place

variable {view} {a b c : σ}

theorem Kept.trans {place : Place} (hab : view.Kept a b place) (hbc : view.Kept b c place) :
    view.Kept a c place := by
  rcases hbc with hbc | ⟨hb, hc⟩
  · rwa [Kept, hbc]
  · rcases hab with hab | ⟨-, hb'⟩
    · exact .inr ⟨hab ▸ hb, hc⟩
    · rw [hb] at hb'
      cases hb'

instance : IsPreorder σ view.Same where
  refl _ _ := rfl
  trans _ _ _ hab hbc place := (hbc place).trans (hab place)

instance : IsPreorder σ view.Grown where
  refl _ _ := .inl rfl
  trans _ _ _ hab hbc place := (hab place).trans (hbc place)

theorem Same.grown (h : view.Same a b) : view.Grown a b := fun place => .inl (h place)

/-- Directories may be created before a file is written. -/
theorem Grown.written {path text : String} (h : view.Grown a b) (hw : view.Written b path text c) :
    view.Written a path text c :=
  ⟨hw.file, fun place hplace => (h place).trans (hw.others place hplace)⟩

end FileView

/-- A host does to the files in view what its operations say. A write happens entirely, or
it fails and changes nothing. -/
structure Host.Lawful {σ Place : Type} (host : Host (StateM σ)) (view : FileView σ Place) :
    Prop where
  looks : host.Looks view.Same
  readInput : Keeps view.Same host.readInput
  createDirectory : ∀ path, Keeps view.Grown (host.createDirectory path)
  write_ok : ∀ {path text s s'}, (host.writeFile path text).run s = (.ok (), s') →
    view.Written s path text s'
  write_error : ∀ {path text f s s'}, (host.writeFile path text).run s = (.error f, s') →
    view.Same s s'

end Wireform
