/-
# Walks by rewritten descriptors

If a rule does no harm to the walk of a slot by the descriptor that it is applied to, then it
does none where it is applied inside another descriptor, or in a definition of the table
(`Walk.value_rewritten`): around the place the two walks are in step. What doing no harm means
is left open (`Walk.Tolerates`). That undeclared keys are refused or must match nothing does
not change a result at all (`Walk.tolerates_toggle`). Any simplification leaves results that
match (`Walk.tolerates_simplification`): to a union its members are one list, of which those
that refuse may be left out.

A rule may cost a step where it is applied, so the walk by what is rewritten is granted two
steps for each one.

Key definitions: `Walk.Tolerates`.
Key theorems: `Walk.value_rewritten`, `Walk.tolerates_toggle`,
`Walk.tolerates_simplification`.
-/
import Wireform.Proofs.Json.Same
import Wireform.Proofs.Table.Rewriting
import Wireform.Proofs.Walk.Matched
import Wireform.Proofs.Walk.Refusals

namespace Wireform
namespace Walk

open Descriptor (Within Simplification Toggle Congruent Equal)

/-! ### Rules in context -/

/-- A relation between the results of walks that a rule leaves alone. -/
structure Tolerates (R : {α : Type} → Except Refusal α → Except Refusal α → Prop)
    (V : Option String → Site → Option String → Site → Prop)
    (Rule : Descriptor → Descriptor → Prop) : Prop where
  /-- Nothing is said until the first result has come. -/
  endless : ∀ {α : Type} (x : Except Refusal α), R (.error .endless) x
  trans : ∀ {x y z : Except Refusal Slot}, R x y → R y z → R x z
  /-- The rule may cost a step. -/
  rule : ∀ (w : Walk) {d d' : Descriptor}, Rule d d' → ∀ (n : Nat) (o : Option String) (s : Site)
    (slot : Slot), R (w.value n o d s slot) (w.value (n + 1) o d' s slot)
  words : ∀ {d d' : Descriptor}, Relation.ReflGen (Within Rule) d d' → ∀ {o s o' s'},
    V o s o' s' → ∀ slot : Slot, R (s.refuse (Descriptor.name d) slot : Except Refusal Slot)
      (s'.refuse (Descriptor.name d') slot)
  enter : ∀ {w w' : Walk}, w'.maxDepth = w.maxDepth → ∀ {o s o' s'}, V o s o' s' →
    ∀ slot : Slot, R (w.enter slot s) (w'.enter slot s')

section Context

variable {R : {α : Type} → Except Refusal α → Except Refusal α → Prop}
  {V : Option String → Site → Option String → Site → Prop}
  {Rule : Descriptor → Descriptor → Prop} {w w' : Walk}

/-- **What a rule leaves alone where it is applied it leaves alone everywhere.** -/
theorem value_rewritten (hR : Respected @R) (hV : Paired @R V) (ht : Tolerates @R V Rule)
    (hdir : w'.direction = w.direction) (hdepth : w'.maxDepth = w.maxDepth)
    (h : w.table.Related (Relation.ReflGen (Within Rule)) w'.table) :
    ∀ (n m : Nat), 2 * n ≤ m → ∀ {d d' : Descriptor}, Relation.ReflGen (Within Rule) d d' →
      ∀ {o o' : Option String} {s s' : Site}, V o s o' s' → ∀ slot : Slot,
        R (w.value n o d s slot) (w'.value m o' d' s' slot)
  | 0, _, _, _, _, _, _, _, _, _, _, _ => ht.endless _
  | n + 1, m, hnm, d, d', hdd, o, o', s, s', hv, slot => by
    -- where the rule was applied in a part, the walks are in step, for a step is left over
    have hstep : ∀ k, 2 * n ≤ k → ∀ d', Relation.ReflGen (Within Rule) d d' →
        Congruent (Relation.ReflGen (Within Rule)) d d' →
          R (w.value (n + 1) o d s slot) (w'.value (k + 1) o' d' s' slot) := by
      intro k hk d' hdd hparts
      refine value_congruent hR hV hv hdir hparts (fun name _ => h.get? name) (ht.words hdd hv slot)
        (fun _ _ _ => ht.enter hdepth hv slot) fun q d' _ hqd => ?_
      intro o s o' s' hv _
      exact value_rewritten hR hV ht hdir hdepth h n k hk hqd hv q.slot
    have hself : Congruent (Relation.ReflGen (Within Rule)) d d := .refl (fun _ => .refl) d
    obtain ⟨k, rfl⟩ : ∃ k, m = k + 1 + 1 := ⟨m - 2, by omega⟩
    cases hdd with
    | refl => exact hstep (k + 1) (by omega) d .refl hself
    | single hwithin =>
      rcases hwithin.rule_or_congruent with hrule | hparts
      · have hbefore : R (w.value (n + 1) o d s slot) (w'.value (k + 1) o' d s' slot) :=
          hstep k (by omega) d .refl hself
        exact ht.trans hbefore (ht.rule w' hrule (k + 1) o' s' slot)
      · exact hstep (k + 1) (by omega) d' (.single hwithin) hparts

end Context

/-! ### Undeclared keys -/

section Rules

variable {w : Walk} {o : Option String} {s : Site} {slot : Slot}

/-- Objects that are closed in other ways, to the same effect on undeclared members. -/
theorem value_object {n : Nat} {properties : List (Property Descriptor)}
    {additional additional' : Additional Descriptor}
    (h : ∀ (s : Site) (v : Json), Below (convertExtra (w.value n none) additional s v)
      (convertExtra (w.value (n + 1) none) additional' s v)) :
    Below (w.value (n + 1) o (.object properties additional) s slot)
      (w.value (n + 2) o (.object properties additional') s slot) := by
  rw [value, value]
  refine object_inStep_undeclared below_respected below_paired ⟨rfl, rfl⟩ rfl (D := Eq)
    (List.forall₂_same.mpr fun _ _ => ⟨rfl, rfl, rfl⟩) slot (fun _ _ _ => .refl _) ?_ ?_
  · rintro input - p - _ rfl key
    exact value_below w (Nat.le_succ n) none p.descriptor _ _
  · intro input _ m _
    exact h _ m.2

/-- **That undeclared keys are refused or must match nothing comes to the same.** -/
theorem value_toggle {d d' : Descriptor} (h : Toggle d d') (n : Nat) :
    Below (w.value n o d s slot) (w.value (n + 1) o d' s slot) := by
  cases n with
  | zero => exact .inl rfl
  | succ n =>
    cases h with
    | allow => exact value_object fun _ _ => .refl _
    | reject => exact value_object fun s v => value_below w (Nat.le_succ n) none .never s (some v)

theorem tolerates_toggle : Tolerates @Below SameVisit Toggle where
  endless _ := .inl rfl
  trans {x y z} hxy hyz := by
    rcases hxy with rfl | rfl
    · exact .inl rfl
    · exact hyz
  rule _ _ _ h n _ _ _ := value_toggle h n
  words := by
    rintro d d' hdd o s _ _ ⟨rfl, rfl⟩ slot
    cases hdd with
    | refl => exact .refl _
    | single h =>
      rw [Descriptor.name_toggled h]
      exact .refl _
  enter := by
    rintro w w' hdepth o s _ _ ⟨rfl, rfl⟩ slot
    rw [enter, enter, hdepth]
    exact .refl _

/-! ### Members of unions -/

/-- What a list of members comes to, followed by more of them. -/
def orRest (rest : Except Refusal (Option Slot)) : Option Slot → Except Refusal (Option Slot)
  | some out => .ok (some out)
  | none => rest

theorem firstAccepted_append (f : Descriptor → Except Refusal Slot) (ds es : List Descriptor) :
    firstAccepted f (ds ++ es) = firstAccepted f ds >>= orRest (firstAccepted f es) := by
  induction ds with
  | nil => rfl
  | cons d ds ih =>
    rw [List.cons_append, firstAccepted_cons, firstAccepted_cons, ih]
    rcases f d with (m | _) | out <;> rfl

/-- Where all members before one refuse, that one may do no more than what is put in its place;
then the union accepts what it accepted. -/
theorem firstAccepted_replace {f : Descriptor → Except Refusal Slot} {d : Descriptor}
    {before ds after : List Descriptor}
    (h : (∀ a ∈ before, ∃ m, f a = .error (.mismatch m)) →
      Below (orNext (f d) (firstAccepted f after)) (firstAccepted f (ds ++ after))) :
    Below (firstAccepted f (before ++ d :: after)) (firstAccepted f (before ++ (ds ++ after))) := by
  rw [firstAccepted_append, firstAccepted_append f before (ds ++ after), firstAccepted_cons]
  rcases hbefore : firstAccepted f before with e | (_ | out)
  · exact .refl _
  · exact h (mismatch_of_firstAccepted_none hbefore)
  · exact .refl _

/-- A member that accepts nothing where all before it refuse may go. -/
theorem firstAccepted_drop {f : Descriptor → Except Refusal Slot} {d : Descriptor}
    {before after : List Descriptor}
    (h : (∀ a ∈ before, ∃ m, f a = .error (.mismatch m)) → ∀ out, f d ≠ .ok out) :
    Below (firstAccepted f (before ++ d :: after)) (firstAccepted f (before ++ after)) := by
  show Below _ (firstAccepted f (before ++ ([] ++ after)))
  refine firstAccepted_replace fun hbefore => ?_
  rcases hd : f d with (m | _) | out
  · exact .refl _
  · exact .inl rfl
  · exact (h hbefore out hd).elim

/-- Unions whose members come to the same match. -/
theorem value_union {n : Nat} {members members' : List Descriptor}
    (h : Below (firstAccepted (fun d => w.value n none d s.member slot) members)
      (firstAccepted (fun d => w.value n none d s.member slot) members')) :
    Matched (w.value (n + 1) o (.union members) s slot)
      (w.value (n + 1) o (.union members') s slot) := by
  rw [value, value]
  refine matched_respected.bind h.matched fun accepted => ?_
  cases accepted with
  | none => exact ⟨rfl, rfl, rfl⟩
  | some out => rfl

/-- The members of a union in a union may stand in its place. -/
theorem firstAccepted_splice (n : Nat) (before inner after : List Descriptor) :
    Below (firstAccepted (fun d => w.value n none d s.member slot)
        (before ++ .union inner :: after))
      (firstAccepted (fun d => w.value n none d s.member slot) (before ++ inner ++ after)) := by
  rw [List.append_assoc]
  refine firstAccepted_replace fun _ => ?_
  cases n with
  | zero => exact .inl rfl
  | succ n =>
    have hinner : Below (firstAccepted (fun d => w.value n none d s.member.member slot) inner)
        (firstAccepted (fun d => w.value (n + 1) none d s.member slot) inner) :=
      firstAccepted_inStep below_respected
        (List.forall₂_same.mpr fun d _ => value_below w (Nat.le_succ n) none d s.member slot)
    have hne : ∀ m, firstAccepted (fun d => w.value n none d s.member.member slot) inner ≠
        .error (.mismatch m) := fun m => firstAccepted_ne_mismatch inner
    rw [firstAccepted_append, value]
    generalize firstAccepted (fun d => w.value n none d s.member.member slot) inner = x
      at hinner hne
    generalize firstAccepted (fun d => w.value (n + 1) none d s.member slot) inner = y at hinner
    rcases hinner with rfl | rfl
    · exact .inl rfl
    · rcases x with (m | _) | (_ | out)
      · exact (hne m rfl).elim
      · exact .inl rfl
      · exact .refl _
      · exact .refl _

/-! ### Equal descriptors -/

theorem any_isCase_of_same {v : Json} : ∀ {cases cases' : List Json},
    Json.sameItems cases' cases = true → cases.any (Descriptor.isCase · v) = true →
      cases'.any (Descriptor.isCase · v) = true
  | [], _, _, h => by simp at h
  | c :: cases, [], hsame, _ => by simp [Json.sameItems] at hsame
  | c :: cases, c' :: cases', hsame, h => by
    rw [Json.sameItems, Bool.and_eq_true] at hsame
    rw [List.any_cons, Bool.or_eq_true] at h ⊢
    exact h.imp (Descriptor.isCase_of_same hsame.1) (any_isCase_of_same hsame.2)

theorem enum_equal {cases cases' : List Json} (h : Json.sameItems cases cases' = true)
    (h' : Json.sameItems cases' cases = true) (s s' : Site) (slot : Slot) :
    Alike (enum cases slot s) (enum cases' slot s') := by
  cases slot with
  | none => trivial
  | some v =>
    have hany : cases.any (Descriptor.isCase · v) = cases'.any (Descriptor.isCase · v) :=
      Bool.eq_iff_iff.mpr ⟨any_isCase_of_same h', any_isCase_of_same h⟩
    rw [enum, enum, hany]
    split
    · rfl
    · trivial

/-- **Equal descriptors accept the same, as the same value.** -/
theorem value_equal (w : Walk) : ∀ (n : Nat) {d d' : Descriptor}, Relation.ReflGen Equal d d' →
    ∀ (o o' : Option String) {s s' : Site}, s'.depth = s.depth → ∀ slot : Slot,
      Alike (w.value n o d s slot) (w.value n o' d' s' slot)
  | 0, _, _, _, _, _, _, _, _, _ => trivial
  | n + 1, d, d', hdd, o, o', s, s', hdepth, slot => by
    have hparts : ∀ d', Congruent (Relation.ReflGen Equal) d d' →
        Alike (w.value (n + 1) o d s slot) (w.value (n + 1) o' d' s' slot) := by
      intro d' hparts
      have hv : SameDepth o s o' s' := hdepth
      refine value_congruent alike_respected alike_paired hv rfl hparts ?_ trivial
        (fun _ _ _ => enter_alike w slot hdepth) fun q d' _ hqd => ?_
      · intro name _
        cases w.table.get? name with
        | none => exact .none
        | some d => exact .some .refl
      · intro o s o' s' hdepth _
        exact value_equal w n hqd o o' hdepth q.slot
    cases hdd with
    | refl => exact hparts d (.refl (fun _ => .refl) d)
    | single hequal =>
      rcases hequal.congruent_or_enum with hcongruent | ⟨cases, cases', rfl, rfl, h, h'⟩
      · exact hparts d' (hcongruent.mono fun _ _ => .single)
      · rw [value, value]
        exact enum_equal h h' s s' slot

/-! ### Simplifications -/

/-- **A simplification leaves results that match.** -/
theorem value_simplification {d d' : Descriptor} (h : Simplification d d') (n : Nat) :
    Matched (w.value n o d s slot) (w.value (n + 1) o d' s slot) := by
  cases n with
  | zero => trivial
  | succ n =>
    have hmore : ∀ d, Below (w.value (n + 1) o d s slot) (w.value (n + 1 + 1) o d s slot) :=
      fun d => value_below w (Nat.le_succ _) o d s slot
    cases h with
    | splice => exact (value_union (firstAccepted_splice n _ _ _)).below (hmore _)
    | never =>
      refine (value_union (firstAccepted_drop fun _ out hout => ?_)).below (hmore _)
      cases n <;> cases hout
    | literal =>
      refine (value_union (firstAccepted_drop fun _ out hout => ?_)).below (hmore _)
      cases n <;> cases hout
    | repeated hmem hequal =>
      refine (value_union (firstAccepted_drop fun hbefore out hout => ?_)).below (hmore _)
      obtain ⟨m, hm⟩ := hbefore _ hmem
      have halike := value_equal w n (.single hequal) none none (s := s.member) rfl slot
      rw [halike.eq_ok_iff.mpr hout] at hm
      cases hm
    | toggle h => exact (value_toggle h (n + 1)).matched

end Rules

theorem tolerates_simplification : Tolerates @Matched SameSite Simplification where
  endless _ := trivial
  trans := Matched.trans
  rule _ _ _ h n _ _ _ := value_simplification h n
  words _ _ _ _ _ hv slot := hv.refuse _ _ slot
  enter hdepth _ _ _ _ hv slot := enter_matched hdepth hv slot

end Walk
end Wireform
