/-
# From walks to answers

An engine walks a document with a number of steps that depends on the size of its table,
and answers with what came of it (`Engine.answer`). The number does not show: if the walk
ends within any number of steps at all, the answer is what came then (`run_of_ends`). So
engines of different tables answer the same where their walks have the same results
(`run_congr`).

Key definitions: `Engine.answer`.
Key theorems: `Engine.run_of_ends`, `Engine.run_congr`.
-/
import Wireform.Proofs.Walk.Accept

namespace Wireform
namespace Engine

/-- The answer to a walk with a result. -/
def answer : Except Refusal Slot → Except Failure Json
  | .ok slot => .ok (slot.getD .null)
  | .error (.mismatch m) => .error (.mismatch m)
  | .error .endless => .error .endless

section Answers

variable {e e' : Engine} {v : Json} {d : Descriptor} {direction : Direction}

theorem run_eq_answer : e.run v d direction =
    answer ((e.walk direction).value (steps e.table v d) none d .root (some v)) := by
  unfold run walk
  dsimp only
  split
  · rename_i h
    rw [h, answer]
  · rename_i h
    rw [h, answer]
  · rename_i h
    rw [h, answer]

/-- **An engine answers with what comes of the walk**, in whatever number of steps it ends. -/
theorem run_of_ends {n : Nat}
    (h : (e.walk direction).value n none d .root (some v) ≠ .error .endless) :
    e.run v d direction = answer ((e.walk direction).value n none d .root (some v)) := by
  have hgranted : (e.walk direction).value (steps e.table v d) none d .root (some v) =
      (e.walk direction).value n none d .root (some v) := Walk.value_of_ends h
  rw [run_eq_answer, hgranted]

/-- Walks with the same results have the same answers. -/
theorem run_congr (h : ∀ n, (e'.walk direction).value n none d .root (some v) =
    (e.walk direction).value n none d .root (some v)) :
    e'.run v d direction = e.run v d direction := by
  by_cases hends : ∃ n, (e.walk direction).value n none d .root (some v) ≠ .error .endless
  · obtain ⟨n, hn⟩ := hends
    have hn' : (e'.walk direction).value n none d .root (some v) ≠ .error .endless := by
      rw [h n]
      exact hn
    rw [run_of_ends hn, run_of_ends hn', h n]
  · have hnone : ∀ n, (e.walk direction).value n none d .root (some v) = .error .endless := by
      intro n
      by_contra hn
      exact hends ⟨n, hn⟩
    rw [run_eq_answer, run_eq_answer, h, hnone, hnone]

/-- A mismatch that an engine reports is the one that its walk came to. -/
theorem value_of_run_eq_mismatch {m : Mismatch}
    (h : e.run v d direction = .error (.mismatch m)) :
    ∃ n, (e.walk direction).value n none d .root (some v) = .error (.mismatch m) := by
  rw [run_eq_answer] at h
  unfold answer at h
  split at h
  · cases h
  · rename_i m' hvalue
    cases h
    exact ⟨_, hvalue⟩
  · cases h

end Answers

end Engine
end Wireform
