/-
# Runs over lines

A run over lines takes one document from each line that is not blank, source by source, and
names it for its source and the number of its line, where blank lines are counted. It
converts all documents or tells the first that does not convert. The result is written a
document a line; no document is blank or holds what ends a line, so the lines of the output
are the converted documents, as they are written. If a conversion does not end, the run tells
nothing, whatever comes of the other lines (`invoke_lines`); it takes a table that is not
productive (`not_invoke_lines`).

Key definitions: `Line`, `filledLines`, `Reads`, `LinesRun`.
Key theorems: `textLines_line`, `text_filledLines_render`, `loadAll_lines`, `invoke_lines`,
`not_invoke_lines`.
-/
import Mathlib
import Wireform.Filter.Run
import Wireform.Proofs.Cli.Stages
import Wireform.Proofs.Json.OneLine
import Wireform.Proofs.Table.Loaded
import Wireform.Proofs.Table.Resolve
import Wireform.Proofs.Walk.Ends

namespace Wireform
namespace Cli

/-- A line that holds a document, with the name of its source and its number there. -/
structure Line where
  source : String
  number : ℕ
  text : String

/-- How messages name the document of a line. -/
def Line.label (line : Line) : String := line.source ++ ":" ++ toString line.number

/-- The lines that are not blank, where the first of all has the given number. -/
def filledFrom (source : String) (number : ℕ) (lines : List (List Char)) : List Line :=
  ((lines.zipIdx number).filter fun x => !Text.isBlank x.1).map
    fun x => ⟨source, x.2, String.ofList x.1⟩

/-- The lines of a text that are not blank; all are counted, from 1 on. -/
def filledLines (source text : String) : List Line := filledFrom source 1 (textLines text.toList)

theorem filledFrom_cons (source : String) (number : ℕ) (line : List Char)
    (lines : List (List Char)) : filledFrom source number (line :: lines) =
      if Text.isBlank line then filledFrom source (number + 1) lines
      else ⟨source, number, String.ofList line⟩ :: filledFrom source (number + 1) lines := by
  rw [filledFrom, List.zipIdx_cons]
  cases hblank : Text.isBlank line <;> simp [filledFrom, hblank]

/-! ### Lines of a text -/

/-- A line without control characters is taken off the front. -/
theorem textLines_line (rest : List Char) : ∀ {line : List Char}, Json.NoControl line →
    textLines (line ++ '\n' :: rest) = line :: textLines rest
  | [], _ => by rw [List.nil_append, textLines]
  | c :: cs, h => by
    obtain ⟨hc, hcs⟩ := Json.noControl_cons.mp h
    have hfeed : c ≠ '\n' := fun he => absurd hc (he ▸ by decide)
    have hreturn : c ≠ '\r' := fun he => absurd hc (he ▸ by decide)
    rw [List.cons_append, textLines, textLines_line rest hcs]
    · exact hfeed
    · exact fun _ he => absurd he hreturn

theorem textLines_lines : ∀ {lines : List (List Char)}, (∀ line ∈ lines, Json.NoControl line) →
    textLines (lines.flatMap fun line => line ++ ['\n']) = lines
  | [], _ => rfl
  | line :: lines, h => by
    obtain ⟨hline, hlines⟩ := List.forall_mem_cons.mp h
    rw [List.flatMap_cons, List.append_assoc, List.singleton_append, textLines_line _ hline,
      textLines_lines hlines]

theorem text_filledFrom {source : String} : ∀ {lines : List (List Char)} {number : ℕ},
    (∀ line ∈ lines, Text.isBlank line = false) →
      (filledFrom source number lines).map (·.text) = lines.map String.ofList
  | [], _, _ => rfl
  | line :: lines, number, h => by
    obtain ⟨hline, hlines⟩ := List.forall_mem_cons.mp h
    rw [filledFrom_cons, hline, if_neg (by decide), List.map_cons, List.map_cons,
      text_filledFrom hlines]

/-! ### Lines of an output -/

theorem intercalate_lines : ∀ {lines : List (List Char)}, lines ≠ [] →
    ['\n'].intercalate lines ++ ['\n'] = lines.flatMap fun line => line ++ ['\n']
  | [line], _ => by simp
  | line :: next :: lines, _ => by
    have ih := intercalate_lines (List.cons_ne_nil next lines)
    rw [List.intercalate_cons_cons, List.append_assoc, ih]
    rfl

/-- The lines of what is put out, blank or not, are the documents in their order, if there is
one at all. -/
theorem textLines_render {outs : List Json} (h : outs ≠ []) :
    textLines (render true outs ++ "\n").toList = outs.map fun out => out.compact.toList := by
  have hlines : (render true outs ++ "\n").toList =
      (outs.map fun out => out.compact.toList).flatMap fun line => line ++ ['\n'] := by
    have hrender : render true outs = "\n".intercalate (outs.map Json.compact) := rfl
    rw [← intercalate_lines (by simpa using h), String.toList_append, hrender,
      String.toList_intercalate, List.map_map]
    rfl
  rw [hlines]
  refine textLines_lines fun line hline => ?_
  obtain ⟨out, -, rfl⟩ := List.mem_map.mp hline
  exact Json.noControl_compact out

/-- **The lines of what is put out hold the converted documents, one for one.** -/
theorem text_filledLines_render (source : String) (outs : List Json) :
    (filledLines source (render true outs ++ "\n")).map (·.text) = outs.map Json.compact := by
  by_cases h : outs = []
  · subst h
    rfl
  · rw [filledLines, textLines_render h, text_filledFrom, List.map_map]
    · exact List.map_congr_left fun out _ => String.ofList_toList
    · intro line hline
      obtain ⟨out, -, rfl⟩ := List.mem_map.mp hline
      exact Json.isBlank_compact out

/-! ### Documents of sources -/

/-- The document of a line with its value. -/
def Line.document (row : Line × Json) : Document := ⟨row.1.label, row.2⟩

section Sources

variable {filters : FilterLanguage} {o : ConvertOptions} (hpointer : o.pointer = none)
  (hfilter : o.filter = none)
include hpointer hfilter

theorem select_whole (source : String) (v : Json) :
    select filters o source v = .ok [⟨source, v⟩] := by
  rw [select, hpointer, hfilter]
  rfl

theorem lineDocuments_rows {source : String} : ∀ {lines : List (List Char)} {number : ℕ}
    {rows : List (Line × Json)}, rows.map (·.1) = filledFrom source number lines →
      (∀ row ∈ rows, Json.parse? row.1.text = .ok row.2) →
        lineDocuments filters o source number lines = .ok (rows.map Line.document)
  | [], _, rows, hrows, _ => by
    rw [List.map_eq_nil_iff.mp hrows]
    rfl
  | line :: lines, number, rows, hrows, hparse => by
    rw [filledFrom_cons] at hrows
    rw [lineDocuments]
    split_ifs at hrows ⊢ with hblank
    · exact lineDocuments_rows hrows hparse
    · obtain ⟨row, rows, rfl, hrow, hrest⟩ := List.map_eq_cons_iff.mp hrows
      obtain ⟨hvalue, hvalues⟩ := List.forall_mem_cons.mp hparse
      rw [hrow] at hvalue
      rw [hvalue]
      dsimp only [bind, Except.bind]
      rw [select_whole hpointer hfilter, lineDocuments_rows hrest hvalues, List.map_cons,
        Line.document, hrow]
      rfl

end Sources

section Reading

variable {σ : Type} {host : Host (StateM σ)}

/-- Sources are read one after the other, each in the state that the one before leaves. Their
texts stand with the names of the sources. -/
inductive Reads (host : Host (StateM σ)) : σ → List Source → List (String × String) → σ → Prop
  | nil {s} : Reads host s [] [] s
  | cons {s s₁ s₂ source label text sources texts}
    (h : (readSource host source).run s = (.ok (label, text), s₁))
    (hrest : Reads host s₁ sources texts s₂) :
    Reads host s (source :: sources) ((label, text) :: texts) s₂

/-- **All sources are read, and every line that is not blank is a document.** -/
theorem loadAll_lines {filters : FilterLanguage} {o : ConvertOptions} (hndjson : o.ndjson = true)
    (hpointer : o.pointer = none) (hfilter : o.filter = none) {s s' : σ} {sources : List Source}
    {texts : List (String × String)} (h : Reads host s sources texts s') :
    ∀ {rows : List (Line × Json)}, rows.map (·.1) = texts.flatMap (fun t => filledLines t.1 t.2) →
      (∀ row ∈ rows, Json.parse? row.1.text = .ok row.2) →
        (loadAll filters host o sources).run s = (.ok (rows.map Line.document), s') := by
  induction h with
  | nil =>
    intro rows hrows _
    rw [List.map_eq_nil_iff.mp hrows]
    rfl
  | @cons s s₁ s₂ source label text sources texts h _ ih =>
    intro rows hrows hparse
    obtain ⟨front, back, rfl, hfront, hback⟩ := List.map_eq_append_iff.mp hrows
    obtain ⟨hfirst, hrest⟩ := List.forall_mem_append.mp hparse
    have hdocs : documentsOf filters o label text = .ok (front.map Line.document) := by
      rw [documentsOf, if_pos hndjson]
      exact lineDocuments_rows hpointer hfilter hfront hfirst
    rw [List.map_append]
    exact loadAll_cons h hdocs (ih hback hrest)

end Reading

/-! ### The run -/

section Run

variable {σ : Type} {host : Host (StateM σ)} {filters : FilterLanguage} {s : σ}
  {args : List String} {direction : Direction} {o : ConvertOptions} {table : Table}
  {rows : List (Line × Json)}

/-- A run over lines whose documents are converted and put out: the table is there and knows
the root, the sources are read, and `rows` are their lines that are not blank, in order, with
the document of each. -/
structure LinesRun (host : Host (StateM σ)) (s : σ) (args : List String) (direction : Direction)
    (o : ConvertOptions) (table : Table) (rows : List (Line × Json)) : Prop where
  command : Command.ofArguments? args = some (.convert direction o)
  ndjson : o.ndjson = true
  pointer : o.pointer = none
  filter : o.filter = none
  out : o.out = none
  dryRun : o.dryRun = false
  root : ∃ d, table.get? o.root = some d
  lines : ∃ s₁ sources s₂ texts s₃, (loadTable host o.schema).run s = (.ok table, s₁) ∧
    (allSources host o.inputs).run s₁ = (.ok sources, s₂) ∧ Reads host s₂ sources texts s₃ ∧
    rows.map (·.1) = texts.flatMap fun t => filledLines t.1 t.2
  json : ∀ row ∈ rows, Json.parse? row.1.text = .ok row.2

/-- What is said of a line whose document does not match. -/
def Line.complaint (line : Line) (root : String) (m : Mismatch) : String :=
  "error: " ++ line.label ++ (if m.path.isRoot then "" else " at " ++ m.path.text) ++
    " does not match " ++ root ++ ": " ++ m.text ++ "\n"

theorem LinesRun.exists_load (h : LinesRun host s args direction o table rows) : ∃ s',
    (load filters host o).run s =
      (.ok (⟨table, o.maxDepth⟩, rows.map Line.document), s') := by
  obtain ⟨s₁, sources, s₂, texts, s₃, htable, hsources, hreads, hrows⟩ := h.lines
  obtain ⟨d, hd⟩ := h.root
  have hroot : table.resolve o.root = .ok d := by rw [Table.resolve, hd]
  exact ⟨s₃, load_eq_ok_iff.mpr ⟨table, s₁, sources, s₂, htable, ⟨d, hroot⟩, hsources,
    loadAll_lines h.ndjson h.pointer h.filter hreads hrows h.json, rfl⟩⟩

/-- By a type that is known, a document converts, or it does not match, or its conversion does
not end. -/
theorem LinesRun.mismatch (h : LinesRun host s args direction o table rows) {v : Json}
    {c : Complaint}
    (hc : (⟨table, o.maxDepth⟩ : Engine).convert v o.root direction = .error (.complaint c)) :
    ∃ m, c = .mismatch m := by
  obtain ⟨d, hd⟩ := h.root
  unfold Engine.convert at hc
  rw [Table.resolve, hd] at hc
  unfold Engine.run at hc
  dsimp only at hc
  split at hc <;> cases hc
  exact ⟨_, rfl⟩

/-- What comes of the run, whatever comes of the documents. -/
theorem LinesRun.invoke (h : LinesRun host s args direction o table rows) :
    ((Cli.invoke filters host args).run s).1 = reported
      (convertAll ⟨table, o.maxDepth⟩ o.root direction (rows.map Line.document) >>= fun vs =>
        .ok ⟨0, render true vs ++ "\n", ""⟩) := by
  obtain ⟨s', hload⟩ := @h.exists_load _ _ filters
  have hrun : (Cli.invoke filters host args).run s =
      (reported ((convert filters host direction o).run s).1,
        ((convert filters host direction o).run s).2) := by
    rw [invoke_eq_map filters host h.command]
    rfl
  rw [hrun, convert_run hload]
  refine congrArg reported ?_
  dsimp only [conclude]
  cases convertAll ⟨table, o.maxDepth⟩ o.root direction (rows.map Line.document) with
  | error halt => rfl
  | ok vs =>
    simp only [finish, h.dryRun, Bool.false_eq_true, if_false, h.out, h.ndjson]
    rfl

/-- The run tells nothing exactly if one of the conversions does not end. -/
theorem LinesRun.invoke_eq_none_iff (h : LinesRun host s args direction o table rows) :
    ((Cli.invoke filters host args).run s).1 = none ↔ ∃ row ∈ rows,
      (⟨table, o.maxDepth⟩ : Engine).convert row.2 o.root direction = .error .endless := by
  have hdocs : (∃ row ∈ rows,
      (⟨table, o.maxDepth⟩ : Engine).convert row.2 o.root direction = .error .endless) ↔
        convertAll ⟨table, o.maxDepth⟩ o.root direction (rows.map Line.document) =
          .error .endless := by
    simp only [convertAll_eq_endless_iff, List.mem_map, exists_exists_and_eq_and, Line.document]
  rw [h.invoke, hdocs]
  rcases convertAll ⟨table, o.maxDepth⟩ o.root direction (rows.map Line.document) with
    (_ | _) | _ <;> simp [reported, bind, Except.bind]

/-- Converted documents are read from the lines that they are written on. -/
theorem LinesRun.read_again (h : LinesRun host s args direction o table rows) {outs : List Json}
    (houts : List.Forall₂ (fun row out =>
      (⟨table, o.maxDepth⟩ : Engine).convert row.2 o.root direction = .ok out) rows outs) :
    List.Forall₂ (fun line out => line.text = out.compact ∧
        Json.parse? line.text = .ok out.reread ∧
        (out.ReadsNearest → Json.parse? line.text = .ok out))
      (filledLines "" (render true outs ++ "\n")) outs := by
  obtain ⟨_, _, _, _, _, htable, -⟩ := h.lines
  obtain ⟨text, htext⟩ := exists_text_of_loadTable htable
  have hread : ∀ out ∈ outs, Json.parse? out.compact = .ok out.reread := by
    intro out hout
    obtain ⟨row, hrow, hconvert⟩ := exists_left_of_mem houts hout
    have hfits : row.2.Fits := Json.fits_of_parse? (h.json row hrow)
    exact Json.parse?_compact (Engine.fits_of_convert (Table.sound_of_ofText htext) hfits hconvert)
  have htexts : List.Forall₂ (fun text out => text = out.compact ∧
      Json.parse? text = .ok out.reread ∧ (out.ReadsNearest → Json.parse? text = .ok out))
      ((filledLines "" (render true outs ++ "\n")).map (·.text)) outs := by
    rw [text_filledLines_render, List.forall₂_map_left_iff, List.forall₂_same]
    exact fun out hout => ⟨rfl, hread out hout, fun hnearest =>
      (hread out hout).trans (congrArg Except.ok hnearest.reread_eq)⟩
  rwa [List.forall₂_map_left_iff] at htexts

/-- All lines convert if all their documents do. -/
theorem forall₂_of_convertAll {e : Engine} {outs : List Json}
    (hall : convertAll e o.root direction (rows.map Line.document) = .ok outs) :
    List.Forall₂ (fun row out => e.convert row.2 o.root direction = .ok out) rows outs := by
  have hdocs := convertAll_eq_ok_iff.mp hall
  rwa [List.forall₂_map_left_iff] at hdocs

/-- The fault of a run is that of the first line whose document does not match. -/
theorem LinesRun.first_mismatch (h : LinesRun host s args direction o table rows) {f : Fault}
    (hall : convertAll ⟨table, o.maxDepth⟩ o.root direction (rows.map Line.document) =
      .error (.fault f)) :
    ∃ before line v rest m, rows = before ++ (line, v) :: rest ∧
      (∀ row ∈ before, ∃ out,
        (⟨table, o.maxDepth⟩ : Engine).convert row.2 o.root direction = .ok out) ∧
      (⟨table, o.maxDepth⟩ : Engine).convert v o.root direction = .error (.mismatch m) ∧
      "error: " ++ f.text ++ "\n" = line.complaint o.root m := by
  obtain ⟨before, d, rest, hrows, hbefore, c, hc, rfl⟩ := convertAll_eq_fault hall
  obtain ⟨front, back, rfl, hfront, hback⟩ := List.map_eq_append_iff.mp hrows
  obtain ⟨⟨line, v⟩, back, rfl, rfl, -⟩ := List.map_eq_cons_iff.mp hback
  obtain ⟨m, rfl⟩ := h.mismatch hc
  exact ⟨front, line, v, back, m, rfl,
    fun row hrow => hbefore _ (hfront ▸ List.mem_map_of_mem hrow), hc, rfl⟩

/-- **A run over lines puts out the converted documents, each on a line from which it is read
again, or tells the first line whose document does not match**, unless the conversion of some
line does not end. Over a productive table all of them end. What is read of a line is the
document itself where its numbers are read correctly rounded. -/
theorem invoke_lines (filters : FilterLanguage)
    (h : LinesRun host s args direction o table rows) :
    let e : Engine := ⟨table, o.maxDepth⟩
    let result := ((Cli.invoke filters host args).run s).1
    (result = none ↔ ∃ row ∈ rows, e.convert row.2 o.root direction = .error .endless) ∧
    (table.Productive → ∃ report, result = some report) ∧
    ∀ report, result = some report →
      (report.code = 0 ↔ ∀ row ∈ rows, ∃ out, e.convert row.2 o.root direction = .ok out) ∧
      (report.code = 0 → report.errors = "" ∧ ∃ outs,
        List.Forall₂ (fun row out => e.convert row.2 o.root direction = .ok out) rows outs ∧
        List.Forall₂ (fun line out => line.text = out.compact ∧
            Json.parse? line.text = .ok out.reread ∧
            (out.ReadsNearest → Json.parse? line.text = .ok out))
          (filledLines "" report.output) outs) ∧
      (report.code ≠ 0 → report.code = 1 ∧ report.output = "" ∧
        ∃ before line v rest m, rows = before ++ (line, v) :: rest ∧
          (∀ row ∈ before, ∃ out, e.convert row.2 o.root direction = .ok out) ∧
          e.convert v o.root direction = .error (.mismatch m) ∧
          report.errors = line.complaint o.root m) := by
  intro e result
  have hnone : result = none ↔ ∃ row ∈ rows, e.convert row.2 o.root direction = .error .endless :=
    h.invoke_eq_none_iff
  refine ⟨hnone, fun hp => ?ends, fun report hreport => ?_⟩
  case ends =>
    refine Option.ne_none_iff_exists'.mp fun hnot => ?_
    obtain ⟨row, -, hrow⟩ := hnone.mp hnot
    exact Engine.convert_ne_endless (e := e) hp row.2 o.root direction hrow
  have hrun : some report = reported (convertAll e o.root direction (rows.map Line.document) >>=
      fun vs => .ok ⟨0, render true vs ++ "\n", ""⟩) := hreport.symm.trans h.invoke
  cases hall : convertAll e o.root direction (rows.map Line.document) with
  | ok outs =>
    rw [hall] at hrun
    cases hrun
    have houts := forall₂_of_convertAll hall
    have hconvert : ∀ row ∈ rows, ∃ out, e.convert row.2 o.root direction = .ok out := by
      intro row hrow
      obtain ⟨out, -, hout⟩ := exists_right_of_mem houts hrow
      exact ⟨out, hout⟩
    refine ⟨iff_of_true rfl hconvert, fun _ => ⟨rfl, outs, houts, h.read_again houts⟩, ?_⟩
    exact fun hcode => (hcode rfl).elim
  | error halt =>
    rw [hall] at hrun
    cases halt with
    | endless => cases hrun
    | fault f =>
      cases hrun
      obtain ⟨before, line, v, rest, m, rfl, hbefore, hc, htext⟩ := h.first_mismatch hall
      refine ⟨iff_of_false Nat.one_ne_zero fun hconvert => ?_, fun hcode => ?_, fun _ => ?_⟩
      · obtain ⟨out, hout⟩ := hconvert (line, v) (by simp)
        cases hc.symm.trans hout
      · cases hcode
      · exact ⟨rfl, rfl, before, line, v, rest, m, rfl, hbefore, hc, htext⟩

end Run

/-! ### Two files -/

/-- The text of a table with the type of rows with a count. -/
def rowsText : String :=
  "\x7b\"Row\":\x7b\"object\":\x7b\"properties\":[\x7b\"json\":\"n\",\"js\":\"count\",\"type\":\"number\"\x7d]\x7d\x7d\x7d"

/-- The table, a file with a row and a blank line, and a file with a blank line and a row. -/
def shelf : FileTree := ⟨[], [(["rows.json"], .file rowsText.toUTF8),
  (["a"], .file "\x7b\"n\":1\x7d\n \n".toUTF8), (["b"], .file "\n\x7b\"n\":2\x7d".toUTF8)], .empty⟩

/-- The rows of both files are decoded. The second row stands on the second line. -/
theorem invoke_lines_shelf :
    let args := ["decode", "-s", "rows.json", "--root", "Row", "--ndjson", "-i", "a", "b"]
    let one : Number := .whole ⟨1, by decide, by decide⟩
    let two : Number := .whole ⟨2, by decide, by decide⟩
    ∃ report, ((invoke Filter.language FileTree.host args).run shelf).1 = some report ∧
      report.code = 0 ∧
      List.Forall₂ (fun line (out : Json) => line.text = out.compact ∧
          Json.parse? line.text = .ok out)
        (filledLines "" report.output)
        [.object [("count", .number one)], .object [("count", .number two)]] := by
  intro args one two
  have hschema : decodeText (shelf.read "rows.json") = .ok rowsText :=
    FileTree.decodeText_read (show shelf.locate "rows.json" = .ok ["rows.json"] by cbv) rfl
  have ha : decodeText (shelf.read "a") = .ok "\x7b\"n\":1\x7d\n \n" :=
    FileTree.decodeText_read (show shelf.locate "a" = .ok ["a"] by cbv) rfl
  have hb : decodeText (shelf.read "b") = .ok "\n\x7b\"n\":2\x7d" :=
    FileTree.decodeText_read (show shelf.locate "b" = .ok ["b"] by cbv) rfl
  have hone : Json.parse? "\x7b\"n\":1\x7d" = .ok (.object [("n", .number one)]) := by cbv
  have htwo : Json.parse? "\x7b\"n\":2\x7d" = .ok (.object [("n", .number two)]) := by cbv
  let table : Table := ⟨[("Row", .object [⟨"n", "count", .primitive .number⟩] .reject)]⟩
  have hreads : Reads FileTree.host shelf [.file "a", .file "b"]
      [("a", "\x7b\"n\":1\x7d\n \n"), ("b", "\n\x7b\"n\":2\x7d")] shelf :=
    .cons (readSource_file ha) (.cons (readSource_file hb) .nil)
  have hlines : LinesRun FileTree.host shelf args .decode
      ⟨"rows.json", 256, true, none, none, ["a", "b"], "Row", none, false⟩ table
      [(⟨"a", 1, "\x7b\"n\":1\x7d"⟩, .object [("n", .number one)]),
        (⟨"b", 2, "\x7b\"n\":2\x7d"⟩, .object [("n", .number two)])] := {
    command := by cbv
    ndjson := rfl
    pointer := rfl
    filter := rfl
    out := rfl
    dryRun := rfl
    root := ⟨_, rfl⟩
    lines := ⟨shelf, _, shelf, _, shelf, loadTable_file hschema (by cbv), rfl, hreads, by cbv⟩
    json := List.forall_mem_cons.mpr ⟨hone, List.forall_mem_singleton.mpr htwo⟩ }
  have hproductive : table.Productive :=
    Table.productive_of_shapes (by simp [table])
  have hfirst : (⟨table, 256⟩ : Engine).convert (.object [("n", .number one)]) "Row" .decode =
      .ok (.object [("count", .number one)]) := by cbv
  have hsecond : (⟨table, 256⟩ : Engine).convert (.object [("n", .number two)]) "Row" .decode =
      .ok (.object [("count", .number two)]) := by cbv
  obtain ⟨-, hends, hreport⟩ := invoke_lines Filter.language hlines
  obtain ⟨report, hrun⟩ := hends hproductive
  obtain ⟨hiff, hsuccess, -⟩ := hreport report hrun
  have hcode : report.code = 0 :=
    hiff.mpr (List.forall_mem_cons.mpr ⟨⟨_, hfirst⟩, List.forall_mem_singleton.mpr ⟨_, hsecond⟩⟩)
  obtain ⟨-, outs, houts, hread⟩ := hsuccess hcode
  refine ⟨report, hrun, hcode, ?_⟩
  obtain ⟨out, rest, hout, hrest, rfl⟩ := List.forall₂_cons_left_iff.mp houts
  obtain ⟨out', rest', hout', hrest', rfl⟩ := List.forall₂_cons_left_iff.mp hrest
  cases hfirst.symm.trans hout
  cases hsecond.symm.trans hout'
  cases List.forall₂_nil_left_iff.mp hrest'
  obtain ⟨line, lines, ⟨htext, -, hexact⟩, hlast, hfilled⟩ := List.forall₂_cons_right_iff.mp hread
  obtain ⟨line', lines', ⟨htext', -, hexact'⟩, hnil, rfl⟩ := List.forall₂_cons_right_iff.mp hlast
  cases List.forall₂_nil_right_iff.mp hnil
  rw [hfilled]
  have hnearest : ∀ n : Whole, (Json.object [("count", .number (.whole n))]).ReadsNearest := by
    simp [Json.ReadsNearest]
  exact .cons ⟨htext, hexact (hnearest _)⟩ (.cons ⟨htext', hexact' (hnearest _)⟩ .nil)

/-! ### A line whose conversion does not end -/

/-- The text of a table with a type that leads back to itself, and rows with a value of it. -/
def loopedText : String :=
  "\x7b\"Loop\":\x7b\"union\":[\x7b\"ref\":\"Loop\"\x7d]\x7d,\"Row\":\x7b\"object\":\x7b\"properties\":[\x7b\"json\":\"a\",\"type\":\"string\"\x7d,\x7b\"json\":\"b\",\"type\":\x7b\"ref\":\"Loop\"\x7d\x7d]\x7d\x7d\x7d"

/-- The text of two rows. -/
def loopedRows : String :=
  "\x7b\"a\":1,\"b\":1\x7d\n\x7b\"a\":\"x\",\"b\":1\x7d"

/-- The table, and the file of the rows. -/
def looped : FileTree := ⟨[], [(["types.json"], .file loopedText.toUTF8),
  (["rows"], .file loopedRows.toUTF8)], .empty⟩

set_option maxRecDepth 2000 in
/-- **The first line does not match, and the run does not tell**, for the conversion of the
second line does not end. -/
theorem not_invoke_lines :
    let args := ["decode", "-s", "types.json", "--root", "Row", "--ndjson", "-i", "rows"]
    let o : ConvertOptions := ⟨"types.json", 256, true, none, none, ["rows"], "Row", none, false⟩
    let one : Json := .number (.whole ⟨1, by decide, by decide⟩)
    ∃ table line v rest m, LinesRun FileTree.host looped args .decode o table ((line, v) :: rest) ∧
      v = .object [("a", one), ("b", one)] ∧
      (⟨table, o.maxDepth⟩ : Engine).convert v "Row" .decode = .error (.mismatch m) ∧
      ∀ filters, ((invoke filters FileTree.host args).run looped).1 = none := by
  intro args o one
  have hschema : decodeText (looped.read "types.json") = .ok loopedText :=
    FileTree.decodeText_read (show looped.locate "types.json" = .ok ["types.json"] by cbv) rfl
  have hrows : decodeText (looped.read "rows") = .ok loopedRows :=
    FileTree.decodeText_read (show looped.locate "rows" = .ok ["rows"] by cbv) rfl
  let table : Table := ⟨[("Loop", .union [.ref "Loop"]), ("Row", .object
    [⟨"a", "a", .primitive .string⟩, ⟨"b", "b", .ref "Loop"⟩] .reject)]⟩
  have hfirst : Json.parse? "\x7b\"a\":1,\"b\":1\x7d" = .ok (.object [("a", one), ("b", one)]) := by
    cbv
  have hsecond : Json.parse? "\x7b\"a\":\"x\",\"b\":1\x7d" =
      .ok (.object [("a", .string "x"), ("b", one)]) := by cbv
  have hreads : Reads FileTree.host looped [.file "rows"] [("rows", loopedRows)] looped :=
    .cons (readSource_file hrows) .nil
  have hlines : LinesRun FileTree.host looped args .decode o table
      [(⟨"rows", 1, "\x7b\"a\":1,\"b\":1\x7d"⟩, .object [("a", one), ("b", one)]),
        (⟨"rows", 2, "\x7b\"a\":\"x\",\"b\":1\x7d"⟩, .object [("a", .string "x"), ("b", one)])] := {
    command := by cbv
    ndjson := rfl
    pointer := rfl
    filter := rfl
    out := rfl
    dryRun := rfl
    root := ⟨_, rfl⟩
    lines := ⟨looped, _, looped, _, looped, loadTable_file hschema (by cbv), rfl, hreads, by cbv⟩
    json := List.forall_mem_cons.mpr ⟨hfirst, List.forall_mem_singleton.mpr hsecond⟩ }
  have hmismatch : (⟨table, 256⟩ : Engine).convert (.object [("a", one), ("b", one)]) "Row" .decode =
      .error (.mismatch ⟨"string", "1", "a", "Row", ⟨[.key "a"]⟩⟩) := by cbv
  have hendless : (⟨table, 256⟩ : Engine).convert (.object [("a", .string "x"), ("b", one)]) "Row"
      .decode = .error .endless := by cbv
  refine ⟨table, _, _, _, _, hlines, rfl, hmismatch, fun filters => ?_⟩
  exact hlines.invoke_eq_none_iff.mpr ⟨_, List.mem_cons_of_mem _ List.mem_cons_self, hendless⟩

end Cli
end Wireform
