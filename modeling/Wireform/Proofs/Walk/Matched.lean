/-
# Results that match

Two walks of a document may come to the same but for words: they accept the same value, or
they meet a mismatch at the same place, with the same key and the same value, where what was
expected and the owner may be called differently (`Mismatch.SamePlace`). A walk that is given
fewer steps may come to nothing yet; once it comes to a result, the other one has a result that
matches (`Walk.Matched`). Walks in step match, as a relation that a walk respects.

Key definitions: `Mismatch.SamePlace`, `Walk.Matched`, `Walk.SameSite`.
Key theorems: `Walk.matched_respected`, `Walk.matched_paired`.
-/
import Wireform.Proofs.Walk.Steps

namespace Wireform

/-- Two mismatches at the same place of a document, with the same key and the same value. -/
structure Mismatch.SamePlace (m m' : Mismatch) : Prop where
  path : m'.path = m.path
  actual : m'.actual = m.actual
  key : m'.key = m.key

namespace Walk

/-- Once the first of two results has come, the second is the same, but for the words of a
mismatch. -/
def Matched {α : Type} : Except Refusal α → Except Refusal α → Prop
  | .error .endless, _ => True
  | .ok a, .ok b => a = b
  | .error (.mismatch m), .error (.mismatch m') => m.SamePlace m'
  | _, _ => False

theorem Matched.refl {α : Type} (x : Except Refusal α) : Matched x x := by
  rcases x with (m | _) | a
  · exact ⟨rfl, rfl, rfl⟩
  · trivial
  · rfl

theorem Matched.trans {α : Type} {x y z : Except Refusal α} (h : Matched x y) (h' : Matched y z) :
    Matched x z := by
  rcases x with (m | _) | a
  · rcases y with (m' | _) | b
    · rcases z with (m'' | _) | c
      · exact ⟨h'.path.trans h.path, h'.actual.trans h.actual, h'.key.trans h.key⟩
      · cases h'
      · cases h'
    · cases h
    · cases h
  · trivial
  · rcases y with (m' | _) | b
    · cases h
    · cases h
    · cases h
      exact h'

theorem matched_respected : Respected @Matched where
  ok _ := rfl
  bind {α β x y f g} hx hf := by
    rcases x with (m | _) | a
    · rcases y with (m' | _) | b
      · exact hx
      · cases hx
      · cases hx
    · trivial
    · rcases y with (m' | _) | b
      · cases hx
      · cases hx
      · cases hx
        exact hf a
  orNext {x y f g} hx hf := by
    rcases x with (m | _) | a
    · rcases y with (m' | _) | b
      · exact hf
      · cases hx
      · cases hx
    · trivial
    · rcases y with (m' | _) | b
      · cases hx
      · cases hx
      · cases hx
        rfl

/-- The second result comes where the first does. -/
theorem Matched.ne_endless {α : Type} {x y : Except Refusal α} (h : Matched x y)
    (hx : x ≠ .error .endless) : y ≠ .error .endless := by
  rintro rfl
  rcases x with (m | _) | a
  · cases h
  · exact hx rfl
  · cases h

/-- A result that has come is not changed by more steps. -/
theorem Matched.below {α : Type} {x y z : Except Refusal α} (h : Matched x y) (hyz : Below y z) :
    Matched x z := by
  rcases hyz with rfl | rfl
  · rcases x with (m | _) | a
    · cases h
    · trivial
    · cases h
  · exact h

theorem Below.matched {α : Type} {x y : Except Refusal α} (h : Below x y) : Matched x y :=
  (Matched.refl x).below h

/-- Results that match accept the same, once the first has come. -/
theorem Matched.eq_ok_iff {α : Type} {x y : Except Refusal α} (h : Matched x y)
    (hx : x ≠ .error .endless) {a : α} : x = .ok a ↔ y = .ok a := by
  rcases x with (m | _) | b
  · rcases y with (m' | _) | c
    · exact iff_of_false nofun nofun
    · cases h
    · cases h
  · exact (hx rfl).elim
  · rcases y with (m' | _) | c
    · cases h
    · cases h
    · cases h
      exact Iff.rfl

/-- Two walks at the same site, whatever the owner there. -/
structure SameSite (_ : Option String) (s : Site) (_ : Option String) (s' : Site) : Prop where
  key : s'.key = s.key
  trail : s'.trail = s.trail
  depth : s'.depth = s.depth

theorem SameSite.refuse {o o' : Option String} {s s' : Site} (h : SameSite o s o' s') {α : Type}
    (expected expected' : String) (slot : Slot) :
    Matched (s.refuse expected slot : Except Refusal α) (s'.refuse expected' slot) where
  path := by rw [Site.mismatch, Site.mismatch, Site.path, Site.path, h.trail]
  actual := rfl
  key := h.key

theorem matched_paired : Paired @Matched SameSite where
  refuse _ _ h := h.refuse _ _ _
  shape _ h := h.refuse _ _ _
  ref _ h := ⟨h.key, h.trail, h.depth⟩
  member h := ⟨rfl, h.trail, h.depth⟩
  item i h := ⟨rfl, by simp [h.trail], by simp [h.depth]⟩
  property key h := ⟨rfl, by simp [h.trail], by simp [h.depth]⟩

theorem enter_matched {w w' : Walk} (hdepth : w'.maxDepth = w.maxDepth) {o o' : Option String}
    {s s' : Site} (h : SameSite o s o' s') (slot : Slot) :
    Matched (w.enter slot s) (w'.enter slot s') := by
  unfold enter
  rw [h.depth, hdepth]
  split
  · rfl
  · exact h.refuse _ _ _

end Walk
end Wireform
