/-
# Runs with the filter that changes nothing

With the filter `.` each document is the first result of a filter, and named so: the name of
its source has a `#0` behind it. And it is read once more from a text, so its numbers are what
their own texts are read as. Integers come back from that as they were, and so does a zero with
its sign, but a decimal is not always read as the double that it is nearest to, and another
double may come back (`not_identity_transparent`).

Apart from that the documents of a run are what they are without a filter, one by one and in
the same order (`load_identity`), and what the run makes of them is the same function of them:
it asks its host for the same before it converts, and goes on in the same way. Where all numbers
come back as they were, it comes to the same, but for the name of a document that does not
convert (`convertAll_first`).

Key definitions: `Document.first`, `Loaded.first`, `Halt.first`.
Key theorems: `load_identity`, `convertAll_first`, `identity_transparent`,
`not_identity_transparent`.
-/
import Mathlib
import Wireform.Proofs.Cli.Arguments
import Wireform.Proofs.Cli.Stages
import Wireform.Proofs.Filter.Identity

namespace Wireform
namespace Cli

/-- A document as the first result of the filter: under the name of one, and read again. -/
def Document.first (d : Document) : Document := ⟨d.source ++ "#0", d.value.reread⟩

/-- What is loaded, with every document as a first result. -/
def Loaded.first (loaded : Engine × List Document) : Engine × List Document :=
  (loaded.1, loaded.2.map Document.first)

/-- A fault with the document that does not convert under the name of a first result. -/
def Fault.first : Fault → Fault
  | .conversion label root c => .conversion (label ++ "#0") root c
  | f => f

/-- An end without a result, with that name. -/
def Halt.first : Halt → Halt
  | .fault f => .fault f.first
  | .endless => .endless

/-! ### The documents -/

theorem numbered_singleton (source : String) (v : Json) :
    numbered source 0 [v.reread] = [Document.first ⟨source, v⟩] := by
  rw [numbered, numbered, String.append_assoc]
  rfl

section Documents

variable {o : ConvertOptions} (hplain : o.filter = none)
include hplain

theorem select_identity (source : String) {v : Json} (hv : v.Fits) :
    select Filter.language { o with filter := some "." } source v =
      (select Filter.language o source v).map (List.map Document.first) := by
  have hself {v : Json} (hv : v.Fits) : Filter.language "." v = some (.ok [v.reread]) := by
    rw [Filter.language, Filter.apply_self hv]
    rfl
  unfold select
  rw [hplain]
  dsimp only
  cases hpointer : o.pointer with
  | none =>
    dsimp only [bind, Except.bind]
    rw [hself hv]
    exact congrArg Except.ok (numbered_singleton source v)
  | some p =>
    dsimp only
    cases hpart : Json.pointer? p.toList v with
    | none => rfl
    | some part =>
      dsimp only [bind, Except.bind]
      rw [hself (hv.of_pointer? hpart)]
      exact congrArg Except.ok (numbered_singleton source part)

theorem lineDocuments_identity (label : String) : ∀ (number : ℕ) (lines : List (List Char)),
    lineDocuments Filter.language { o with filter := some "." } label number lines =
      (lineDocuments Filter.language o label number lines).map (List.map Document.first)
  | _, [] => rfl
  | number, line :: lines => by
    have ih := lineDocuments_identity label (number + 1) lines
    rw [lineDocuments, lineDocuments]
    by_cases hblank : Text.isBlank line
    · rw [if_pos hblank, if_pos hblank, ih]
    · rw [if_neg hblank, if_neg hblank]
      dsimp only
      cases hread : Json.parse? (String.ofList line) with
      | error f => rfl
      | ok v =>
        dsimp only [bind, Except.bind]
        rw [select_identity hplain _ (Json.fits_of_parse? hread), ih]
        cases select Filter.language o (label ++ ":" ++ toString number) v with
        | error halt => rfl
        | ok docs =>
          cases lineDocuments Filter.language o label (number + 1) lines with
          | error halt => rfl
          | ok rest => exact congrArg Except.ok List.map_append.symm

theorem documentsOf_identity (label text : String) :
    documentsOf Filter.language { o with filter := some "." } label text =
      (documentsOf Filter.language o label text).map (List.map Document.first) := by
  unfold documentsOf
  dsimp only
  split_ifs
  · exact lineDocuments_identity hplain label 1 _
  · cases hread : Json.parse? text with
    | error f => rfl
    | ok v => exact select_identity hplain label (Json.fits_of_parse? hread)

variable {m : Type → Type} [Monad m] [LawfulMonad m]

omit hplain in
theorem pure_error_map {α β : Type} (f : α → β) (halt : Halt) :
    (pure (.error halt) : m (Except Halt β)) =
      Except.map f <$> (pure (.error halt) : m (Except Halt α)) :=
  (map_pure (Except.map f) (.error halt)).symm

/-- With the filter `.` sources hold the same documents in the same order. -/
theorem loadAll_identity (host : Host m) : ∀ sources : List Source,
    loadAll Filter.language host { o with filter := some "." } sources =
      Except.map (List.map Document.first) <$> loadAll Filter.language host o sources
  | [] => by
    rw [loadAll, loadAll, map_pure]
    rfl
  | source :: sources => by
    rw [loadAll, loadAll, map_bind]
    refine bind_congr fun read => ?_
    rcases read with f | ⟨label, text⟩
    · exact pure_error_map _ _
    · dsimp only
      rw [documentsOf_identity hplain]
      cases documentsOf Filter.language o label text with
      | error halt => exact pure_error_map _ halt
      | ok docs =>
        show loadAll Filter.language host _ sources >>= _ = _
        rw [loadAll_identity host sources, bind_map_left, map_bind]
        refine bind_congr fun rest => ?_
        cases rest with
        | error halt => exact pure_error_map _ halt
        | ok rest =>
          rw [map_pure]
          exact congrArg (fun docs => pure (Except.ok docs)) List.map_append.symm

/-- **With the filter `.` a run loads the same documents in the same order**, each as a first
result, and asks its host for the same. -/
theorem load_identity (host : Host m) : load Filter.language host { o with filter := some "." } =
    Except.map Loaded.first <$> load Filter.language host o := by
  unfold load
  rw [map_bind]
  refine bind_congr fun table => ?_
  cases table with
  | error f => exact pure_error_map Loaded.first _
  | ok table =>
    dsimp only
    cases table.resolve o.root with
    | error e => exact pure_error_map Loaded.first _
    | ok d =>
      rw [map_bind]
      refine bind_congr fun sources => ?_
      cases sources with
      | error f => exact pure_error_map Loaded.first _
      | ok sources =>
        dsimp only
        rw [loadAll_identity hplain host, bind_map_left, map_bind]
        refine bind_congr fun docs => ?_
        cases docs with
        | error halt => exact pure_error_map Loaded.first halt
        | ok docs => exact (map_pure (Except.map Loaded.first) (.ok (_, docs))).symm

end Documents

/-! ### What becomes of them -/

theorem convertOne_first (e : Engine) (root : String) (direction : Direction) {d : Document}
    (h : d.value.reread = d.value) : convertOne e root direction d.first =
      (convertOne e root direction d).map (Except.mapError Fault.first) := by
  unfold convertOne Document.first
  rw [h]
  dsimp only
  rcases e.convert d.value root direction with (_ | _) | _ <;> rfl

theorem mapM_mapError {f : Fault → Fault} : ∀ results : List (Except Fault Json),
    (results.map (Except.mapError f)).mapM id = (results.mapM id).mapError f
  | [] => rfl
  | .error e :: results => rfl
  | .ok v :: results => by
    have ih := mapM_mapError (f := f) results
    rw [List.map_cons, List.mapM_cons, List.mapM_cons, ih]
    cases results.mapM id <;> rfl

/-- Documents that are read again as they were convert to the same, and where they do not, the
other name is told. -/
theorem convertAll_first (e : Engine) (root : String) (direction : Direction)
    {docs : List Document} (h : ∀ d ∈ docs, d.value.reread = d.value) :
    convertAll e root direction (docs.map Document.first) =
      (convertAll e root direction docs).mapError Halt.first := by
  have hmapM : (docs.map Document.first).mapM (convertOne e root direction) =
      (docs.mapM (convertOne e root direction)).map (List.map (Except.mapError Fault.first)) := by
    induction docs with
    | nil => rfl
    | cons d docs ih =>
      obtain ⟨hd, hdocs⟩ := List.forall_mem_cons.mp h
      rw [List.map_cons, List.mapM_cons, List.mapM_cons, convertOne_first e root direction hd,
        ih hdocs]
      cases convertOne e root direction d with
      | none => rfl
      | some r => cases docs.mapM (convertOne e root direction) <;> rfl
  unfold convertAll
  rw [hmapM]
  cases docs.mapM (convertOne e root direction) with
  | none => rfl
  | some results =>
    dsimp only [Option.map]
    rw [mapM_mapError]
    cases results.mapM id <;> rfl

/-! ### The run -/

section Run

variable {m : Type → Type} [Monad m] [LawfulMonad m]

/-- **The filter `.` gives a document back, but for doubles that their texts are not read as.**
Where all texts of its numbers are read correctly rounded it gives back the document itself.
A conversion to which it is given has the same documents in the same order, each as a first
result; whatever its arguments are, it asks its host for the same documents as the conversion
without it, and makes of them what that conversion makes of its own. The filter may be given
behind the other arguments. -/
theorem identity_transparent (host : Host m) {args : List String} {direction : Direction}
    {o : ConvertOptions} (hplain : o.filter = none)
    (hargs : Command.ofArguments? args = some (.convert direction o)) :
    (∀ text v, Json.parse? text = .ok v → Filter.apply "." v = .ok [v.reread]) ∧
      ((∀ n : Whole, Number.reread (.whole n) = .whole n) ∧
        (∀ negative, Number.reread (.double (.zero negative)) = .double (.zero negative)) ∧
        (∀ d : Double, ∃ d', Number.reread (.double d) = .double d') ∧
        ∀ v : Json, v.ReadsNearest → v.reread = v) ∧
      load Filter.language host { o with filter := some "." } =
        Except.map Loaded.first <$> load Filter.language host o ∧
      (∀ e docs, (∀ d ∈ docs, d.value.reread = d.value) →
        convertAll e o.root direction (docs.map Document.first) =
          (convertAll e o.root direction docs).mapError Halt.first) ∧
      ("--" ∉ args → Command.ofArguments? (args ++ ["--jq-expr", "."]) =
        some (.convert direction { o with filter := some "." })) ∧
      ∀ args', Command.ofArguments? args' =
          some (.convert direction { o with filter := some "." }) →
        invoke Filter.language host args =
            reported <$> (load Filter.language host o >>= conclude host direction o) ∧
          invoke Filter.language host args' = reported <$> (load Filter.language host o >>=
            fun loaded => conclude host direction o (loaded.map Loaded.first)) := by
  refine ⟨fun text v h => Filter.apply_self (Json.fits_of_parse? h),
    ⟨Number.reread_whole, Number.reread_zero, fun d => ?double,
      fun _ => Json.ReadsNearest.reread_eq⟩, load_identity hplain host,
    fun e docs => convertAll_first e o.root direction, ofArguments?_identity hargs hplain,
    fun args' hargs' => ⟨invoke_eq_map Filter.language host hargs, ?run⟩⟩
  case double =>
    obtain ⟨_, d', -, hread, -⟩ := Number.exists_reread_double d
    exact ⟨d', hread⟩
  case run =>
    rw [invoke_eq_map Filter.language host hargs', convert, load_identity hplain host,
      bind_map_left]
    rfl

end Run

/-- The greatest integer of 64 unsigned bits, the least of 64 signed ones and the zero with a
sign come back, and so does a string with a character that only values escape. -/
theorem identity_transparent_numbers :
    let args := ["decode", "-s", "types.json", "--root", "Row", "-i", "rows.json"]
    let o : ConvertOptions :=
      ⟨"types.json", 256, false, none, none, ["rows.json"], "Row", none, false⟩
    let most : Number := .whole ⟨18446744073709551615, by decide, by decide⟩
    let least : Number := .whole ⟨-9223372036854775808, by decide, by decide⟩
    let v : Json := .object [("b", .array [.number most, .number least]),
      ("a", .array [.number (.double (.zero true)), .string "\x7f"])]
    Filter.apply "." v = .ok [v] ∧
      invoke Filter.language FileTree.host (args ++ ["--jq-expr", "."]) =
        reported <$> (load Filter.language FileTree.host o >>= fun loaded =>
          conclude FileTree.host .decode o (loaded.map Loaded.first)) := by
  intro args o most least v
  have hargs : Command.ofArguments? args = some (.convert .decode o) := by cbv
  have hdistinct : v.Distinct := by
    simp [v]
  have hread : Json.parse? (String.ofList (Json.write .compact 0 v)) = .ok v.reread :=
    (Json.parse?_write Json.blank_compact hdistinct).1 (by decide)
  have hagain : v.reread = v := by
    simp [v, most, least]
  obtain ⟨happly, -, -, -, hbehind, hinvoke⟩ := identity_transparent FileTree.host rfl hargs
  rw [hagain] at hread
  have hself := happly _ v hread
  rw [hagain] at hself
  exact ⟨hself, (hinvoke _ (hbehind (by decide))).2⟩

section Doubles

open Json.Reader (Spells spells_point Leading)

/-- **A document that holds a double may come back with the one beside it.** -/
theorem not_identity_transparent :
    let v : Double := ⟨false, 7929039769923068, -43, by decide, by decide, by decide, by decide⟩
    let w : Double := ⟨false, 7929039769923069, -43, by decide, by decide, by decide, by decide⟩
    Json.parse? "901.42745761148353" = .ok (.number (.double v)) ∧
      Filter.apply "." (.number (.double v)) = .ok [.number (.double w)] ∧ w ≠ v := by
  intro v w
  have hwhole : Leading ['9', '0', '1'] := .of_head? (by simp [Text.isDigit]) (by simp) (by simp)
  let shortest := ['4', '2', '7', '4', '5', '7', '6', '1', '1', '4', '8', '3', '5']
  have hv : Spells false (['9', '0', '1'] ++ '.' :: (shortest ++ ['3'])) (.double v) :=
    spells_point hwhole (by simp) (by simp [shortest, Text.isDigit]) (by decide +kernel)
  have hw : Spells false (['9', '0', '1'] ++ '.' :: shortest) (.double w) :=
    spells_point hwhole (by simp [shortest]) (by simp [shortest, Text.isDigit]) (by decide +kernel)
  have htext : (Number.double v).text = ['9', '0', '1'] ++ '.' :: shortest := by decide +kernel
  have hagain : (Number.double v).reread = .double w := Number.reread_of_spells htext hw
  have hself := Filter.apply_self (v := .number (.double v)) ⟨trivial, by decide⟩
  rw [Json.reread, hagain] at hself
  exact ⟨Number.parse?_of_spells hv, hself, by decide⟩

end Doubles

end Cli
end Wireform
