/-
# The stages of a run

A run reads the table, finds the inputs and reads them before it converts anything, and it
converts everything before it writes. The stages before the last change no file, whatever
they come to (`keeps_load`), and they come to documents exactly if the table is accepted and
knows the root, every input stands for sources, and every source holds documents
(`load_eq_ok_iff`). All documents are converted before one result is looked at, so a
conversion without end leaves nothing to tell (`convertAll_eq_endless_iff`); else the
documents convert one by one, or the first that does not is told. Before a file is written
the directories above it are created, which is all that can be left behind when writing
fails (`deliver_file`).

Key definitions: `Converted`.
Key theorems: `keeps_load`, `load_eq_ok_iff`, `convertAll_eq_ok_iff`,
`convertAll_eq_endless_iff`, `convertAll_eq_fault`, `deliver_file`, `invoke_eq_map`.
-/
import Wireform.Cli.Run
import Wireform.Proofs.Files.Tree
import Wireform.Proofs.Table.Reach
import Mathlib.Data.List.Forall2

namespace Wireform
namespace Cli

/-! ### What the stages keep -/

section Keeps

variable {σ : Type} {R : σ → σ → Prop} [IsPreorder σ R] {host : Host (StateM σ)}
  (filters : FilterLanguage)

theorem keeps_readText (h : host.Looks R) (path : String) : Keeps R (host.readText path) :=
  .bind (h.readFile path) fun _ => .pure _

theorem keeps_loadTable (h : host.Looks R) (schema : String) : Keeps R (loadTable host schema) := by
  refine .bind (keeps_readText h schema) fun read => ?_
  rcases read with f | text
  · exact .pure _
  · dsimp only
    cases Table.ofText text <;> exact .pure _

theorem keeps_sourcesOf (h : host.Looks R) (input : String) : Keeps R (sourcesOf host input) := by
  refine .ite (.pure _) (.ite (.bind (Glob.keeps_expand h input) fun found => ?_) (.pure _))
  rcases found with f | _ | _ <;> exact .pure _

theorem keeps_allSources (h : host.Looks R) : ∀ inputs : List String,
    Keeps R (allSources host inputs)
  | [] => .pure _
  | input :: inputs => by
    refine .bind (keeps_sourcesOf h input) fun sources => ?_
    cases sources with
    | error f => exact .pure _
    | ok sources =>
      refine .bind (keeps_allSources h inputs) fun rest => ?_
      cases rest <;> exact .pure _

theorem keeps_readSource (h : host.Looks R) (hinput : Keeps R host.readInput) (source : Source) :
    Keeps R (readSource host source) := by
  cases source with
  | standardInput =>
    refine .bind (.bind hinput fun _ => .pure _) fun read => ?_
    cases read <;> exact .pure _
  | file path =>
    refine .bind (keeps_readText h path) fun read => ?_
    cases read <;> exact .pure _

theorem keeps_loadAll (h : host.Looks R) (hinput : Keeps R host.readInput) (o : ConvertOptions) :
    ∀ sources : List Source, Keeps R (loadAll filters host o sources)
  | [] => .pure _
  | source :: sources => by
    refine .bind (keeps_readSource h hinput source) fun read => ?_
    rcases read with f | ⟨label, text⟩
    · exact .pure _
    · dsimp only
      cases documentsOf filters o label text with
      | error halt => exact .pure _
      | ok docs =>
        refine .bind (keeps_loadAll h hinput o sources) fun rest => ?_
        cases rest <;> exact .pure _

/-- Whatever comes of it, to load the documents only looks at files and reads standard
input. -/
theorem keeps_load (h : host.Looks R) (hinput : Keeps R host.readInput) (o : ConvertOptions) :
    Keeps R (load filters host o) := by
  refine .bind (keeps_loadTable h o.schema) fun table => ?_
  rcases table with f | table
  · exact .pure _
  dsimp only
  cases table.resolve o.root with
  | error e => exact .pure _
  | ok d =>
    refine .bind (keeps_allSources h o.inputs) fun sources => ?_
    cases sources with
    | error f => exact .pure _
    | ok sources =>
      refine .bind (keeps_loadAll filters h hinput o sources) fun docs => ?_
      cases docs <;> exact .pure _

theorem keeps_createAll (hlook : ∀ path, Keeps R (host.isDirectory path))
    (hmake : ∀ path, Keeps R (host.createDirectory path)) : ∀ (fuel : Nat) (path : String),
    Keeps R (createAll host fuel path)
  | 0, _ => .pure _
  | fuel + 1, path => by
    unfold createAll
    -- where a directory cannot be created, it may be there already
    have hthere (f : FileFault) : Keeps R (do
        let there ← host.isDirectory path
        if there then return Except.ok () else return Except.error f) :=
      .bind (hlook path) fun _ => .ite (.pure _) (.pure _)
    refine .ite (.pure _) (.bind (hmake path) fun made => ?_)
    rcases made with (_ | _ | _ | _ | _ | _) | _
    case ok => exact .pure _
    case error.notFound =>
      dsimp only
      cases FilePath.parent? path with
      | none => exact .pure _
      | some above =>
        refine .bind (keeps_createAll hlook hmake fuel above) fun rest => ?_
        rcases rest with f | _
        · exact .pure _
        · refine .bind (hmake path) fun made => ?_
          rcases made with f | _
          · exact hthere f
          · exact .pure _
    all_goals exact hthere _

theorem keeps_createAbove (hlook : ∀ path, Keeps R (host.isDirectory path))
    (hmake : ∀ path, Keeps R (host.createDirectory path)) (path : String) :
    Keeps R (createAbove host path) := by
  unfold createAbove
  cases FilePath.parent? path with
  | none => exact .pure _
  | some above =>
    refine .bind (keeps_createAll hlook hmake _ above) fun made => ?_
    cases made <;> exact .pure _

end Keeps

/-! ### What the stages come to -/

section Converting

variable {e : Engine} {root : String} {direction : Direction}

theorem convertOne_eq_none_iff {d : Document} : convertOne e root direction d = none ↔
    e.convert d.value root direction = .error .endless := by
  unfold convertOne
  rcases e.convert d.value root direction with (_ | _) | _ <;> simp

theorem convertOne_eq_ok_iff {d : Document} {v : Json} :
    convertOne e root direction d = some (.ok v) ↔ e.convert d.value root direction = .ok v := by
  unfold convertOne
  rcases e.convert d.value root direction with (_ | _) | _ <;> simp

theorem convertOne_eq_fault {d : Document} {f : Fault}
    (h : convertOne e root direction d = some (.error f)) : ∃ c,
      e.convert d.value root direction = .error (.complaint c) ∧
        f = .conversion d.source root c := by
  unfold convertOne at h
  split at h
  · cases h
  · rename_i c hc
    cases h
    exact ⟨c, hc, rfl⟩
  · cases h

/-- **One document whose conversion does not end keeps all others from being told.** -/
theorem convertAll_eq_endless_iff {docs : List Document} :
    convertAll e root direction docs = .error .endless ↔
      ∃ d ∈ docs, e.convert d.value root direction = .error .endless := by
  simp only [← convertOne_eq_none_iff]
  rw [← mapM_eq_none_iff, convertAll]
  cases docs.mapM (convertOne e root direction) with
  | none => simp
  | some results => cases hresults : results.mapM id <;> simp [hresults, Except.mapError]

/-- Documents convert if each does by itself, and the results stand in their order. -/
theorem convertAll_eq_ok_iff {docs : List Document} {vs : List Json} :
    convertAll e root direction docs = .ok vs ↔
      List.Forall₂ (fun d v => e.convert d.value root direction = .ok v) docs vs := by
  have hvs : docs.mapM (convertOne e root direction) = some (vs.map .ok) ↔
      List.Forall₂ (fun d v => e.convert d.value root direction = .ok v) docs vs := by
    simp only [mapM_eq_some_iff, List.forall₂_map_right_iff, convertOne_eq_ok_iff]
  rw [← hvs, convertAll]
  cases docs.mapM (convertOne e root direction) with
  | none => simp
  | some results =>
    rw [Option.some_inj, ← mapM_id_eq_ok_iff]
    cases hresults : results.mapM id <;> simp [hresults, Except.mapError]

/-- The first document that does not convert is the one that is told. -/
theorem convertAll_eq_fault {docs : List Document} {f : Fault}
    (h : convertAll e root direction docs = .error (.fault f)) :
    ∃ before d after, docs = before ++ d :: after ∧
      (∀ b ∈ before, ∃ v, e.convert b.value root direction = .ok v) ∧
      ∃ c, e.convert d.value root direction = .error (.complaint c) ∧
        f = .conversion d.source root c := by
  unfold convertAll at h
  split at h
  case h_2 => cases h
  case h_1 results hdocs =>
    have herror : results.mapM id = .error f := by
      cases hresults : results.mapM id with
      | ok vs => simp [hresults, Except.mapError] at h
      | error f' => simpa [hresults, Except.mapError] using h
    obtain ⟨vs, rest, rfl⟩ := mapM_id_eq_error herror
    obtain ⟨rows, rfl, hresults, hrows⟩ := exists_rows (mapM_eq_some_iff.mp hdocs)
    obtain ⟨front, back, rfl, hfront, hback⟩ := List.map_eq_append_iff.mp hresults
    obtain ⟨⟨d, r⟩, back, rfl, rfl, -⟩ := List.map_eq_cons_iff.mp hback
    refine ⟨front.map (·.1), d, back.map (·.1), by simp, fun b hb => ?_, ?_⟩
    · obtain ⟨row, hrow, rfl⟩ := List.mem_map.mp hb
      obtain ⟨v, -, hv⟩ := List.mem_map.mp (hfront ▸ List.mem_map_of_mem hrow)
      have hone := hrows row (List.mem_append_left _ hrow)
      exact ⟨v, convertOne_eq_ok_iff.mp (hv ▸ hone)⟩
    · exact convertOne_eq_fault (hrows (d, .error f) (by simp))

end Converting

section Runs

variable {σ : Type} {host : Host (StateM σ)} {filters : FilterLanguage} {direction : Direction}
  {o : ConvertOptions} {s s' : σ}

/-- A table that is loaded is one that a text spells. -/
theorem exists_text_of_loadTable {schema : String} {table : Table}
    (h : (loadTable host schema).run s = (.ok table, s')) : ∃ text, Table.ofText text = .ok table := by
  unfold loadTable at h
  rw [run_bind] at h
  generalize (host.readText schema).run s = read at h
  obtain ⟨f | text, middle⟩ := read
  · cases h
  · dsimp only at h
    cases htable : Table.ofText text with
    | error e =>
      rw [htable] at h
      cases h
    | ok table' =>
      rw [htable] at h
      cases h
      exact ⟨text, htable⟩

/-- The documents of a source stand in front of those of the sources after it. -/
theorem loadAll_cons {s₁ s₂ : σ} {source : Source} {sources : List Source} {label text : String}
    {docs rest : List Document} (hread : (readSource host source).run s = (.ok (label, text), s₁))
    (hdocs : documentsOf filters o label text = .ok docs)
    (hrest : (loadAll filters host o sources).run s₁ = (.ok rest, s₂)) :
    (loadAll filters host o (source :: sources)).run s = (.ok (docs ++ rest), s₂) := by
  rw [loadAll, run_bind, hread]
  dsimp only
  rw [hdocs]
  dsimp only
  rw [run_bind, hrest]
  rfl

/-- **A run comes to documents exactly if each stage before does its part**, in the state that
the stage before leaves. -/
theorem load_eq_ok_iff {e : Engine} {docs : List Document} :
    (load filters host o).run s = (.ok (e, docs), s') ↔ ∃ table s₁ sources s₂,
      (loadTable host o.schema).run s = (.ok table, s₁) ∧
      (∃ d, table.resolve o.root = .ok d) ∧
      (allSources host o.inputs).run s₁ = (.ok sources, s₂) ∧
      (loadAll filters host o sources).run s₂ = (.ok docs, s') ∧ e = ⟨table, o.maxDepth⟩ := by
  unfold load
  rw [run_bind]
  rcases htable : (loadTable host o.schema).run s with ⟨f | table, s₁⟩
  · constructor
    · intro h; cases h
    · rintro ⟨_, _, _, _, h, -⟩; cases h
  dsimp only
  cases hroot : table.resolve o.root with
  | error f =>
    constructor
    · intro h; cases h
    · rintro ⟨_, _, _, _, h, ⟨d, hd⟩, -⟩
      cases h
      rw [hroot] at hd
      cases hd
  | ok d =>
    dsimp only
    rw [run_bind]
    rcases hsources : (allSources host o.inputs).run s₁ with ⟨f | sources, s₂⟩
    · constructor
      · intro h; cases h
      · rintro ⟨_, _, _, _, h, -, h', -⟩
        cases h
        cases hsources.symm.trans h'
    dsimp only
    rw [run_bind]
    rcases hdocs : (loadAll filters host o sources).run s₂ with ⟨halt | docs', s₃⟩
    · constructor
      · intro h; cases h
      · rintro ⟨_, _, _, _, h, -, h', h'', -⟩
        cases h
        cases hsources.symm.trans h'
        cases hdocs.symm.trans h''
    · constructor
      · intro h
        cases h
        exact ⟨table, s₁, sources, s₂, rfl, ⟨d, hroot⟩, hsources, hdocs, rfl⟩
      · rintro ⟨_, _, _, _, h, -, h', h'', rfl⟩
        cases h
        cases hsources.symm.trans h'
        cases hdocs.symm.trans h''
        rfl

/-- All documents that a run loads convert, to the given ones. -/
def Converted (filters : FilterLanguage) (host : Host (StateM σ)) (s : σ) (direction : Direction)
    (o : ConvertOptions) (vs : List Json) : Prop :=
  ∃ e docs s', (load filters host o).run s = (.ok (e, docs), s') ∧
    List.Forall₂ (fun d v => e.convert d.value o.root direction = .ok v) docs vs

/-- What a conversion that loads its documents goes on with. -/
theorem convert_run {e : Engine} {docs : List Document}
    (h : (load filters host o).run s = (.ok (e, docs), s')) :
    (convert filters host direction o).run s =
      (conclude host direction o (.ok (e, docs))).run s' := by
  rw [convert, run_bind, h]

/-! ### The writing -/

/-- **A text is delivered to a file or not at all**; what may be left of a failure are new
directories. -/
theorem deliver_file {Place : Type} {view : FileView σ Place} (hlaw : host.Lawful view)
    (path text : String) :
    (∃ f after, (deliver host (some path) text).run s = (.error f, after) ∧ view.Grown s after) ∨
      ∃ after, (deliver host (some path) text).run s = (.ok ⟨0, "", ""⟩, after) ∧
        view.Written s path text after := by
  have hcreate : view.Grown s ((createAbove host path).run s).2 :=
    keeps_createAbove (fun path => (hlaw.looks.isDirectory path).mono fun _ _ h => h.grown)
      hlaw.createDirectory path s
  unfold deliver
  dsimp only
  rw [run_bind]
  generalize (createAbove host path).run s = created at hcreate ⊢
  obtain ⟨f | _, middle⟩ := created
  · exact .inl ⟨f, middle, rfl, hcreate⟩
  · dsimp only at hcreate ⊢
    rw [run_bind]
    rcases hwrite : (host.writeFile path text).run middle with ⟨f | _, after⟩
    · have hsame := hlaw.write_error hwrite
      exact .inl ⟨_, after, rfl, trans_of view.Grown hcreate hsame.grown⟩
    · exact .inr ⟨after, rfl, hcreate.written (hlaw.write_ok hwrite)⟩

end Runs

/-! ### Files of a tree -/

section Trees

variable {tree : FileTree} {path text : String}

theorem loadTable_file {table : Table} (h : decodeText (tree.read path) = .ok text)
    (htable : Table.ofText text = .ok table) :
    (loadTable FileTree.host path).run tree = (.ok table, tree) := by
  have hread : (FileTree.host.readText path).run tree = (decodeText (tree.read path), tree) := rfl
  rw [loadTable, run_bind, hread, h]
  dsimp only
  rw [htable]
  rfl

theorem readSource_file (h : decodeText (tree.read path) = .ok text) :
    (readSource FileTree.host (.file path)).run tree = (.ok (path, text), tree) := by
  have hread : (FileTree.host.readText path).run tree = (decodeText (tree.read path), tree) := rfl
  rw [readSource, run_bind, hread, h]
  rfl

end Trees

/-! ### The report -/

/-- A conversion is run and reported, whatever the host. -/
theorem invoke_eq_map {m : Type → Type} [Monad m] [LawfulMonad m] (filters : FilterLanguage)
    (host : Host m) {direction : Direction} {o : ConvertOptions} {args : List String}
    (h : Command.ofArguments? args = some (.convert direction o)) :
    invoke filters host args = reported <$> convert filters host direction o := by
  unfold invoke
  rw [h, map_eq_pure_bind]
  rfl

end Cli
end Wireform
