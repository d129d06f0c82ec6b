/-
# Trees of files

A tree of files is a lawful host (`FileTree.lawful`). To look at files and directories
changes nothing, and to read standard input changes no file. A file that is written is found
where its path led before, for the way there goes through directories and it is none;
everything else is where it was (`FileTree.write_eq_ok`).

Key definitions: `FileTree.view`.
Key theorems: `FileTree.node?_put`, `FileTree.walk_put`, `FileTree.write_eq_ok`,
`FileTree.lawful`.
-/
import Wireform.Files.Tree
import Wireform.Proofs.Files.Keeps
import Wireform.Proofs.Keyed
import Mathlib.Data.List.DropRight

namespace Wireform

/-- A path that does not end in a slash is kept as it is. -/
theorem FilePath.withoutSlashes_eq_self {path : String} (h : path.endsWith "/" = false) :
    withoutSlashes path = path := by
  have hsuffix : path.endsWith "/" = true ↔ ['/'] <:+ path.toList := by
    rw [String.endsWith_eq_endsWith_toSlice, String.Slice.endsWith_string_iff,
      String.copy_toSlice]
    rfl
  have hkept : path.toList.rdropWhile (· == '/') = path.toList := by
    refine List.rdropWhile_eq_self_iff.mpr fun hne hlast => ?_
    have hslash : path.toList.getLast hne = '/' := by simpa using hlast
    have hends : path.endsWith "/" = true :=
      hsuffix.mpr ⟨path.toList.dropLast, hslash ▸ List.dropLast_append_getLast hne⟩
    exact Bool.false_ne_true (h.symm.trans hends)
  calc withoutSlashes path = String.ofList (path.toList.rdropWhile (· == '/')) := rfl
    _ = path := by rw [hkept, String.ofList_toList]

namespace FileTree

/-- The files and directories of a tree. -/
def view : FileView FileTree (List String) where
  node? := node?
  place? tree path := (tree.locate path).toOption

variable {tree after : FileTree}

/-! ### A node at a place -/

theorem lookup_putNode (place : List String) (node : FileNode) (other : List String) :
    ∀ nodes : List (List String × FileNode), (putNode nodes place node).lookup other =
      if other = place then some node else nodes.lookup other
  | [] => Keyed.lookup_cons place other node []
  | (p, n) :: rest => by
    rw [putNode]
    by_cases hp : p = place
    · subst hp
      rw [if_pos rfl, Keyed.lookup_cons, Keyed.lookup_cons]
      by_cases h : other = p
      · rw [if_pos h, if_pos h]
      · rw [if_neg h, if_neg h, if_neg h]
    · rw [if_neg hp, Keyed.lookup_cons, Keyed.lookup_cons, lookup_putNode place node other rest]
      by_cases h : other = p
      · rw [if_pos h, if_pos h, if_neg fun he => hp (h ▸ he)]
      · rw [if_neg h, if_neg h]

@[simp] theorem node?_root : tree.node? [] = some .directory := rfl

theorem node?_put (place : List String) (node : FileNode) (other : List String) :
    (tree.put place node).node? other =
      if other = place ∧ other ≠ [] then some node else tree.node? other := by
  rw [node?, node?, put, lookup_putNode]
  split_ifs <;> simp_all

@[simp] theorem node?_put_of_ne {place other : List String} (node : FileNode) (h : other ≠ place) :
    (tree.put place node).node? other = tree.node? other := by
  rw [node?_put, if_neg fun hand => h hand.1]

/-- The root is a directory, so a place that is none is not the root. -/
theorem ne_nil_of_node? {place : List String} (h : tree.node? place ≠ some .directory) :
    place ≠ [] := by
  rintro rfl
  exact h node?_root

@[simp] theorem node?_put_self {place : List String} (node : FileNode) (h : place ≠ []) :
    (tree.put place node).node? place = some node := by
  rw [node?_put, if_pos ⟨rfl, h⟩]

/-! ### Ways -/

/-- A way goes through directories, so it is not changed by what is put where there is none. -/
theorem walk_put {place : List String} (node : FileNode) (h : tree.node? place ≠ some .directory) :
    ∀ {cs start found : List String}, tree.walk start cs = .ok found →
      (tree.put place node).walk start cs = .ok found
  | [], start, found, hwalk => hwalk
  | c :: cs, start, found, hwalk => by
    unfold walk at hwalk ⊢
    have ih : ∀ start, tree.walk start cs = .ok found →
        (tree.put place node).walk start cs = .ok found := fun _ => walk_put node h
    cases hnode : tree.node? start with
    | none => simp [hnode] at hwalk
    | some n =>
      cases n with
      | file bytes => simp [hnode] at hwalk
      | directory =>
        have hne : start ≠ place := fun he => h (he ▸ hnode)
        rw [node?_put_of_ne node hne, hnode]
        simp only [hnode] at hwalk ⊢
        split
        · rename_i hidle
          exact ih _ (by rwa [if_pos hidle] at hwalk)
        · rename_i hidle
          rw [if_neg hidle] at hwalk
          split
          · rename_i hup
            exact ih _ (by rwa [if_pos hup] at hwalk)
          · rename_i hup
            exact ih _ (by rwa [if_neg hup] at hwalk)

theorem locate_put {place found : List String} {path : String} (node : FileNode)
    (h : tree.node? place ≠ some .directory) (hlocate : tree.locate path = .ok found) :
    (tree.put place node).locate path = .ok found := by
  unfold locate at hlocate ⊢
  split
  · rename_i hpath
    rwa [if_pos hpath] at hlocate
  · rename_i hpath
    rw [if_neg hpath] at hlocate
    exact walk_put node h hlocate

/-! ### What becomes of a tree -/

theorem grown_put_directory {place : List String} (h : tree.node? place = none) :
    view.Grown tree (tree.put place .directory) := by
  intro other
  by_cases hother : other = place
  · subst hother
    have hne : other ≠ [] := by
      rintro rfl
      simp at h
    exact .inr ⟨h, node?_put_self _ hne⟩
  · exact .inl (node?_put_of_ne _ hother)

theorem grown_of_makeDirectory {path : String} (h : tree.makeDirectory path = .ok after) :
    view.Grown tree after := by
  unfold makeDirectory at h
  split at h
  · cases h
  · split at h
    · rename_i place _ hnode
      cases h
      exact grown_put_directory hnode
    · cases h

/-- **A file that is written is found at its path, and nothing else is changed.** -/
theorem write_eq_ok {path text : String} (h : tree.write path text = .ok after) :
    view.Written tree path text after := by
  unfold write at h
  split at h
  · cases h
  · rename_i place hlocate
    split at h
    · cases h
    · rename_i hnode
      split at h
      · cases h
      · rename_i hslash
        cases h
        rw [FilePath.withoutSlashes_eq_self (by simpa using hslash)] at hlocate
        have hfound : view.place? (tree.put place (.file text.toUTF8)) path = some place :=
          congrArg Except.toOption (locate_put (.file text.toUTF8) hnode hlocate)
        refine ⟨⟨place, hfound, node?_put_self _ (ne_nil_of_node? hnode)⟩, fun other hother => ?_⟩
        exact .inl (node?_put_of_ne _ fun he => hother (he ▸ hfound))

/-! ### Texts in files -/

/-- The bytes of a text are that text. -/
theorem decodeText_toUTF8 (text : String) : decodeText (.ok text.toUTF8) = .ok text := by
  have hvalid : text.toUTF8.IsValidUTF8 := text.isValidUTF8
  simp only [decodeText, String.fromUTF8?, dif_pos hvalid]
  rfl

theorem decodeText_read {path text : String} {place : List String}
    (hlocate : tree.locate path = .ok place)
    (hnode : tree.node? place = some (.file text.toUTF8)) :
    decodeText (tree.read path) = .ok text := by
  rw [FileTree.read, find, hlocate]
  dsimp only
  rw [hnode]
  exact decodeText_toUTF8 text

/-! ### The host -/

theorem looks_host : host.Looks (· = ·) where
  readFile _ _ := rfl
  pathExists _ _ := rfl
  isDirectory _ _ := rfl
  listDirectory _ _ := rfl

theorem keeps_createDirectory (path : String) : Keeps view.Grown (host.createDirectory path) := by
  intro tree
  show view.Grown tree ((update (tree.makeDirectory path)).run tree).2
  cases hmake : tree.makeDirectory path with
  | error f => exact refl_of view.Grown tree
  | ok after => exact grown_of_makeDirectory hmake

/-- **A tree in memory is a lawful host.** -/
theorem lawful : host.Lawful view where
  looks := looks_host.mono fun _ _ h => h ▸ refl_of view.Same _
  readInput _ _ := rfl
  createDirectory := keeps_createDirectory
  write_ok := by
    intro path text tree after h
    have hrun : (update (tree.write path text)).run tree = (.ok (), after) := h
    cases hwrite : tree.write path text with
    | error f =>
      rw [hwrite] at hrun
      cases hrun
    | ok written =>
      rw [hwrite] at hrun
      cases hrun
      exact write_eq_ok hwrite
  write_error := by
    intro path text f tree after h
    have hrun : (update (tree.write path text)).run tree = (.error f, after) := h
    cases hwrite : tree.write path text with
    | error f =>
      rw [hwrite] at hrun
      cases hrun
      exact refl_of view.Same tree
    | ok written =>
      rw [hwrite] at hrun
      cases hrun

end FileTree
end Wireform
