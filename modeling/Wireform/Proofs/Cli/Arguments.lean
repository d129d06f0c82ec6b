/-
# One option more

Arguments are read one after the other, so arguments behind others are read from where those
lead (`Scan.run_append`). An option is settled when the next one begins; so behind the arguments
of a conversion that has no filter a filter can be given, and nothing else of the conversion
changes (`ofArguments?_identity`). Only behind a `--` nothing may stand.

Key definitions: `Scan.step`.
Key theorems: `Scan.run_append`, `ofArguments?_identity`.
-/
import Wireform.Cli.Arguments
import Wireform.Proofs.Sequence
import Mathlib.Tactic.SplitIfs

namespace Wireform
namespace Cli

/-- One argument other than `--`. -/
def Scan.step (known : OptionName → Bool) (s : Scan) (arg : String) : Except Stop Scan :=
  match arg.toList with
  | '-' :: '-' :: text => s.takeLong known text
  | '-' :: c :: rest => s.takeShort known c rest
  | _ => s.takeValue arg

section Scans

variable {known : OptionName → Bool}

theorem Scan.run_cons {arg : String} (h : arg ≠ "--") (s : Scan) (args : List String) :
    Scan.run known s (arg :: args) = s.step known arg >>= fun s => Scan.run known s args := by
  have hchars : arg.toList ≠ ['-', '-'] := fun hc => h (String.toList_injective hc)
  rw [Scan.run, Scan.step]
  generalize arg.toList = cs at hchars
  -- both sides look at the same characters, so where they part the two cases exclude each other
  split <;> split <;> grind

/-- **Arguments behind others are read from where those lead.** -/
theorem Scan.run_append : ∀ {args : List String}, "--" ∉ args → ∀ (s : Scan) (more : List String),
    Scan.run known s (args ++ more) =
      args.foldlM (Scan.step known) s >>= fun s => Scan.run known s more
  | [], _, s, more => rfl
  | arg :: args, h, s, more => by
    obtain ⟨harg, hargs⟩ := List.ne_and_not_mem_of_not_mem_cons h
    rw [List.cons_append, Scan.run_cons harg.symm, List.foldlM_cons, bind_assoc]
    exact bind_congr fun s => Scan.run_append hargs s more

/-- What arguments come to is what the last of them is pending for. -/
theorem Scan.run_eq_ok_iff {args : List String} (h : "--" ∉ args) {s : Scan} {d : Draft} :
    Scan.run known s args = .ok d ↔
      ∃ s', args.foldlM (Scan.step known) s = .ok s' ∧ s'.close = .ok d := by
  have hrun : Scan.run known s (args ++ []) = _ := Scan.run_append h s []
  rw [List.append_nil] at hrun
  rw [hrun, bind_eq_ok_iff]
  exact exists_congr fun s' => and_congr_right fun _ => by rw [Scan.run]

end Scans

/-! ### A filter behind the arguments -/

theorem Scan.run_filter {s : Scan} {d : Draft} (hclose : s.close = .ok d)
    (hnone : d.filter = none) : Scan.run (fun _ => true) s ["--jq-expr", "."] = .ok { d with filter := some "." } := by
  have hlong : s.step (fun _ => true) "--jq-expr" = .ok ⟨d, some (.filter, [])⟩ := by
    show (s.close >>= fun d => Except.ok (Scan.mk d (some (.filter, [])))) = _
    rw [hclose]
    rfl
  have hvalue : Scan.run (fun _ => true) ⟨d, some (.filter, [])⟩ ["."] =
      Scan.close ⟨d, some (.filter, ["."])⟩ := rfl
  have hadd : d.add .filter ["."] = some { d with filter := some "." } := by
    rw [Draft.add, hnone]
    rfl
  rw [Scan.run_cons (by decide), hlong]
  show Scan.run (fun _ => true) ⟨d, some (.filter, [])⟩ ["."] = _
  rw [hvalue, Scan.close]
  dsimp only
  rw [hadd]

theorem convertCommand_eq_some_iff {direction direction' : Direction} {args : List String}
    {o : ConvertOptions} :
    convertCommand direction args = some (.convert direction' o) ↔ direction' = direction ∧
      ∃ d, Scan.run (fun _ => true) ⟨.empty, none⟩ args = .ok d ∧ d.convert? = some o := by
  unfold convertCommand
  cases Scan.run (fun _ => true) ⟨.empty, none⟩ args with
  | error stop => cases stop <;> simp
  | ok d =>
    constructor
    · intro h
      obtain ⟨o', ho, hcommand⟩ := Option.map_eq_some_iff.mp h
      cases hcommand
      exact ⟨rfl, d, rfl, ho⟩
    · rintro ⟨rfl, _, hd, ho⟩
      cases hd
      exact Option.map_eq_some_iff.mpr ⟨o, ho, rfl⟩

theorem Draft.filter_of_convert? {d : Draft} {o : ConvertOptions} (h : d.convert? = some o) :
    d.filter = o.filter := by
  simp only [Draft.convert?, Option.bind_eq_bind, Option.bind_eq_some_iff] at h
  obtain ⟨schema, -, root, -, h⟩ := h
  split_ifs at h
  cases h
  rfl

theorem Draft.convert?_filter {d : Draft} {o : ConvertOptions} (h : d.convert? = some o)
    (filter : Option String) :
    Draft.convert? { d with filter := filter } = some { o with filter := filter } := by
  simp only [Draft.convert?, Option.bind_eq_bind, Option.bind_eq_some_iff] at h ⊢
  obtain ⟨schema, hschema, root, hroot, h⟩ := h
  refine ⟨schema, hschema, root, hroot, ?_⟩
  split_ifs at h with hinputs
  cases h
  rw [if_neg hinputs]

theorem convertCommand_identity {direction direction' : Direction} {args : List String}
    {o : ConvertOptions} (h : convertCommand direction args = some (.convert direction' o))
    (hplain : o.filter = none) (hend : "--" ∉ args) :
    convertCommand direction (args ++ ["--jq-expr", "."]) =
      some (.convert direction' { o with filter := some "." }) := by
  obtain ⟨rfl, d, hrun, hconvert⟩ := convertCommand_eq_some_iff.mp h
  obtain ⟨s, hs, hclose⟩ := (Scan.run_eq_ok_iff hend).mp hrun
  refine convertCommand_eq_some_iff.mpr ⟨rfl, _, ?_, Draft.convert?_filter hconvert (some ".")⟩
  rw [Scan.run_append hend, hs]
  exact Scan.run_filter hclose ((Draft.filter_of_convert? hconvert).trans hplain)

theorem checkCommand_ne_convert {direction : Direction} {args : List String}
    {o : ConvertOptions} : checkCommand args ≠ some (.convert direction o) := by
  unfold checkCommand
  cases Scan.run OptionName.ofCheck ⟨.empty, none⟩ args with
  | error stop => cases stop <;> simp
  | ok d => cases hschema : d.schema <;> simp [hschema]

/-- **Behind the arguments of a conversion without a filter the filter `.` may be given**, and
it is the same conversion but for that. -/
theorem ofArguments?_identity {args : List String} {direction : Direction} {o : ConvertOptions}
    (h : Command.ofArguments? args = some (.convert direction o)) (hplain : o.filter = none)
    (hend : "--" ∉ args) : Command.ofArguments? (args ++ ["--jq-expr", "."]) =
      some (.convert direction { o with filter := some "." }) := by
  unfold Command.ofArguments? at h
  split at h
  · cases h
  · exact convertCommand_identity h hplain (List.not_mem_of_not_mem_cons hend)
  · exact convertCommand_identity h hplain (List.not_mem_of_not_mem_cons hend)
  · exact absurd h checkCommand_ne_convert
  · cases h
  · split_ifs at h <;> cases h

end Cli
end Wireform
