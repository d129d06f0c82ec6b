/-
# Where a run writes

A conversion ends in one of five ways (`Outcome`): it comes to nothing before there is
anything to write; a dry run tells that all documents convert; the result is put out; it is
written to a file; or the file cannot be written. Nothing is written before the last document
is converted, and then to one place. So a run that fails puts nothing out and changes no file,
whatever it was that failed, and neither does a run that does not end (`invoke_sinks`). All
this holds of any language of filters and of every host that does to files what its operations
say.

Key definitions: `word`, `Outcome`.
Key theorems: `convert_outcome`, `invoke_sinks`.
-/
import Mathlib
import Wireform.Filter.Run
import Wireform.Proofs.Cli.Stages

namespace Wireform
namespace Cli

/-- The word that asks for a conversion. -/
def word : Direction → String
  | .decode => "decode"
  | .encode => "encode"

/-- Arguments behind the word are those of a conversion, or they ask for help. -/
theorem ofArguments?_word {direction : Direction} {args : List String} {command : Command}
    (h : Command.ofArguments? (word direction :: args) = some command) :
    command = .help ∨ ∃ o, command = .convert direction o := by
  have hconvert : convertCommand direction args = some command := by
    cases direction <;> exact h
  unfold convertCommand at hconvert
  split at hconvert
  · obtain ⟨o, -, rfl⟩ := Option.map_eq_some_iff.mp hconvert
    exact .inr ⟨o, rfl⟩
  · cases hconvert
    exact .inl rfl
  · cases hconvert

section Runs

variable {σ Place : Type} {host : Host (StateM σ)} {view : FileView σ Place}
  {filters : FilterLanguage} {direction : Direction} {o : ConvertOptions} {s : σ}

/-- How a conversion ends that starts with the files of a state. -/
inductive Outcome (filters : FilterLanguage) (host : Host (StateM σ)) (view : FileView σ Place)
    (s : σ) (direction : Direction) (o : ConvertOptions) : Except Halt Report → σ → Prop
  | halted {halt after} (hnone : ∀ vs, ¬ Converted filters host s direction o vs)
    (hsame : view.Same s after) : Outcome filters host view s direction o (.error halt) after
  | dry {vs errors after} (hdry : o.dryRun = true)
    (hvs : Converted filters host s direction o vs) (hsame : view.Same s after) :
    Outcome filters host view s direction o (.ok ⟨0, "", errors⟩) after
  | printed {vs after} (hdry : o.dryRun = false) (hout : o.out = none)
    (hvs : Converted filters host s direction o vs) (hsame : view.Same s after) :
    Outcome filters host view s direction o (.ok ⟨0, render o.ndjson vs ++ "\n", ""⟩) after
  | written {vs path after} (hdry : o.dryRun = false) (hout : o.out = some path)
    (hvs : Converted filters host s direction o vs)
    (hfile : view.Written s path (render o.ndjson vs) after) :
    Outcome filters host view s direction o (.ok ⟨0, "", ""⟩) after
  /-- The directories above the file may have been created. -/
  | unwritten {vs f path after} (hdry : o.dryRun = false) (hout : o.out = some path)
    (hvs : Converted filters host s direction o vs) (hgrown : view.Grown s after) :
    Outcome filters host view s direction o (.error (.fault f)) after

/-- **A conversion ends in one of these ways.** -/
theorem convert_outcome (hlaw : host.Lawful view) :
    Outcome filters host view s direction o ((convert filters host direction o).run s).1
      ((convert filters host direction o).run s).2 := by
  have hload := keeps_load filters hlaw.looks hlaw.readInput o s
  rw [convert, run_bind]
  rcases hloaded : (load filters host o).run s with ⟨halt | ⟨e, docs⟩, middle⟩
  · rw [hloaded] at hload
    refine .halted (fun vs hvs => ?_) hload
    obtain ⟨e, docs, after, h, -⟩ := hvs
    cases hloaded.symm.trans h
  rw [hloaded] at hload
  dsimp only [conclude] at hload ⊢
  cases hall : convertAll e o.root direction docs with
  | error halt =>
    refine .halted (fun vs hvs => ?_) hload
    obtain ⟨e', docs', after, h, hvs⟩ := hvs
    cases hloaded.symm.trans h
    cases hall.symm.trans (convertAll_eq_ok_iff.mpr hvs)
  | ok vs =>
    have hvs : Converted filters host s direction o vs :=
      ⟨e, docs, middle, hloaded, convertAll_eq_ok_iff.mp hall⟩
    dsimp only
    rw [run_bind]
    unfold finish
    cases hdry : o.dryRun with
    | true => exact .dry hdry hvs hload
    | false =>
      simp only [Bool.false_eq_true, if_false]
      cases hout : o.out with
      | none => exact .printed hdry hout hvs hload
      | some path =>
        rcases @deliver_file σ host middle Place view hlaw path (render o.ndjson vs) with
          ⟨f, after, hrun, hgrown⟩ | ⟨after, hrun, hfile⟩
        · rw [hrun]
          exact .unwritten hdry hout hvs (trans_of view.Grown hload.grown hgrown)
        · rw [hrun]
          exact .written hdry hout hvs (hload.grown.written hfile)

/-! ### What follows from the way a conversion ends -/

variable {result : Except Halt Report} {after : σ} {report : Report}

theorem Outcome.of_failure (h : Outcome filters host view s direction o result after)
    (hreport : reported result = some report) (hcode : report.code ≠ 0) :
    report.output = "" ∧ view.Grown s after := by
  cases h with
  | @halted halt _ _ hsame =>
    cases halt with
    | fault f =>
      cases hreport
      exact ⟨rfl, hsame.grown⟩
    | endless => cases hreport
  | unwritten _ _ _ hgrown =>
    cases hreport
    exact ⟨rfl, hgrown⟩
  | dry | printed | written =>
    cases hreport
    exact (hcode rfl).elim

/-- Where no file is asked for, or there is nothing to write to it, not even a directory is
created. -/
theorem Outcome.same (h : Outcome filters host view s direction o result after)
    (hnone : o.dryRun = true ∨ o.out = none ∨
      ∀ vs, ¬ Converted filters host s direction o vs) : view.Same s after := by
  cases h with
  | halted _ hsame => exact hsame
  | dry _ _ hsame => exact hsame
  | printed _ _ _ hsame => exact hsame
  | written hdry hout hvs | unwritten hdry hout hvs =>
    rcases hnone with h | h | h
    · rw [hdry] at h
      cases h
    · rw [hout] at h
      cases h
    · exact (h _ hvs).elim

theorem Outcome.of_no_report (h : Outcome filters host view s direction o result after)
    (hreport : reported result = none) : view.Same s after := by
  cases h with
  | halted _ hsame => exact hsame
  | dry | printed | written | unwritten => cases hreport

theorem Outcome.of_success (h : Outcome filters host view s direction o result after)
    (hreport : reported result = some report) (hcode : report.code = 0) :
    ∃ vs, Converted filters host s direction o vs ∧
      (o.dryRun = true → report.output = "") ∧
      (o.dryRun = false → o.out = none → report.output = render o.ndjson vs ++ "\n") ∧
      (o.dryRun = false → ∀ path, o.out = some path →
        report.output = "" ∧ view.Written s path (render o.ndjson vs) after) := by
  cases h with
  | @halted halt _ _ _ =>
    cases halt with
    | fault f =>
      cases hreport
      cases hcode
    | endless => cases hreport
  | unwritten =>
    cases hreport
    cases hcode
  | @dry vs _ _ hdry hvs _ =>
    cases hreport
    exact ⟨vs, hvs, fun _ => rfl, fun h => by simp [hdry] at h, fun h => by simp [hdry] at h⟩
  | @printed vs _ hdry hout hvs _ =>
    cases hreport
    exact ⟨vs, hvs, fun h => by simp [hdry] at h, fun _ _ => rfl,
      fun _ path h => by simp [hout] at h⟩
  | @written vs path _ hdry hout hvs hfile =>
    cases hreport
    refine ⟨vs, hvs, fun h => by simp [hdry] at h, fun _ h => by simp [hout] at h, ?_⟩
    intro _ path' h
    cases hout.symm.trans h
    exact ⟨rfl, hfile⟩

end Runs

/-! ### Three runs at a desk -/

/-- The text of a table with the type of days. -/
def daysText : String := "\x7b\"Day\":\"date\"\x7d"

/-- The table, a file with a day and a file whose document is no day. -/
def desk : FileTree :=
  ⟨["desk"], [(["desk"], .directory), (["desk", "days.json"], .file daysText.toUTF8),
    (["desk", "day.json"], .file "\"2024-01-02\"".toUTF8),
    (["desk", "bad.json"], .file "true".toUTF8)], .empty⟩

/-- The options of a conversion of a file on the desk. -/
def deskOptions (file : String) (out : Option String) : ConvertOptions :=
  ⟨"days.json", 256, false, none, none, [file], "Day", out, false⟩

/-- The engine of the table on the desk. -/
def deskEngine : Engine := ⟨⟨[("Day", .date)]⟩, 256⟩

theorem load_desk (out : Option String) {file text : String} {v : Json}
    (hplain : Pattern.isPattern file.toList = false) (hfile : file ≠ "-")
    (htext : decodeText (desk.read file) = .ok text)
    (hdocs : documentsOf Filter.language (deskOptions file out) file text = .ok [⟨file, v⟩]) :
    (load Filter.language FileTree.host (deskOptions file out)).run desk =
      (.ok (deskEngine, [⟨file, v⟩]), desk) := by
  have htable : decodeText (desk.read "days.json") = .ok daysText :=
    FileTree.decodeText_read (show desk.locate "days.json" = .ok ["desk", "days.json"] by cbv) rfl
  have hsources : (allSources FileTree.host [file]).run desk = (.ok [.file file], desk) := by
    simp only [allSources, sourcesOf, if_neg hfile, hplain, Bool.false_eq_true, if_false]
    rfl
  exact load_eq_ok_iff.mpr ⟨⟨[("Day", .date)]⟩, desk, [.file file], desk,
    loadTable_file htable (by cbv), ⟨.date, rfl⟩, hsources,
    loadAll_cons (readSource_file htext) hdocs rfl, rfl⟩

section Desk

variable {args : List String} {out : Option String} {file : String} {v : Json}
  (hload : (load Filter.language FileTree.host (deskOptions file out)).run desk =
    (.ok (deskEngine, [⟨file, v⟩]), desk))
include hload

/-- A run that loads a document from the desk ends with the code that its conversion ends with. -/
theorem report_desk
    (hargs : Command.ofArguments? args = some (.convert .decode (deskOptions file out))) {code : Nat}
    (hcode : (reported ((conclude FileTree.host .decode (deskOptions file out)
      (.ok (deskEngine, [⟨file, v⟩]))).run desk).1).map (·.code) = some code)
    {result : Option Report} {after : FileTree}
    (hrun : (invoke Filter.language FileTree.host args).run desk = (result, after)) :
    ∃ report, result = some report ∧ report.code = code := by
  have hresult : result = reported ((conclude FileTree.host .decode (deskOptions file out)
      (.ok (deskEngine, [⟨file, v⟩]))).run desk).1 := by
    have hfirst := congrArg Prod.fst hrun
    rw [invoke_eq_map Filter.language FileTree.host hargs] at hfirst
    rw [← convert_run hload]
    exact hfirst.symm
  rw [← hresult] at hcode
  exact Option.map_eq_some_iff.mp hcode

theorem converted_desk {vs : List Json}
    (h : Converted Filter.language FileTree.host desk .decode (deskOptions file out) vs) :
    ∃ w, deskEngine.convert v "Day" .decode = .ok w ∧ vs = [w] := by
  obtain ⟨e, docs, after, hrun, hvs⟩ := h
  cases hload.symm.trans hrun
  obtain ⟨w, rest, hw, hrest, rfl⟩ := List.forall₂_cons_left_iff.mp hvs
  cases List.forall₂_nil_left_iff.mp hrest
  exact ⟨w, hw, rfl⟩

end Desk

theorem load_bad (out : Option String) :
    (load Filter.language FileTree.host (deskOptions "bad.json" out)).run desk =
      (.ok (deskEngine, [⟨"bad.json", .bool true⟩]), desk) :=
  load_desk out (by decide) (by decide)
    (FileTree.decodeText_read (show desk.locate "bad.json" = .ok ["desk", "bad.json"] by cbv) rfl)
    (by cbv)

theorem convert_bad : deskEngine.convert (.bool true) "Day" .decode =
    .error (.mismatch ⟨"Date", "true", "", "", ⟨[]⟩⟩) := by cbv

/-- What is no day fails, wherever it was to be written. -/
theorem conclude_bad (out : Option String) :
    (reported ((conclude FileTree.host .decode (deskOptions "bad.json" out)
      (.ok (deskEngine, [⟨"bad.json", .bool true⟩]))).run desk).1).map (·.code) = some 1 := by
  have hall : convertAll deskEngine "Day" .decode [⟨"bad.json", .bool true⟩] =
      .error (.fault (.conversion "bad.json" "Day"
        (.mismatch ⟨"Date", "true", "", "", ⟨[]⟩⟩))) := by
    simp only [convertAll, List.mapM_cons, List.mapM_nil, convertOne, convert_bad]
    rfl
  simp only [conclude, deskOptions, hall]
  rfl

theorem load_day (out : Option String) :
    (load Filter.language FileTree.host (deskOptions "day.json" out)).run desk =
      (.ok (deskEngine, [⟨"day.json", .string "2024-01-02"⟩]), desk) :=
  load_desk out (by decide) (by decide)
    (FileTree.decodeText_read (show desk.locate "day.json" = .ok ["desk", "day.json"] by cbv) rfl)
    (by cbv)

theorem render_day {out : Option String} {vs : List Json}
    (h : Converted Filter.language FileTree.host desk .decode (deskOptions "day.json" out) vs) :
    render false vs = "\"2024-01-02T00:00:00.000Z\"" := by
  have hday : deskEngine.convert (.string "2024-01-02") "Day" .decode =
      .ok (.string "2024-01-02T00:00:00.000Z") := by cbv
  obtain ⟨w, hw, rfl⟩ := converted_desk (load_day out) h
  cases hday.symm.trans hw
  cbv

end Cli
end Wireform
