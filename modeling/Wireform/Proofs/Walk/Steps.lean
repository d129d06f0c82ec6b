/-
# The steps a walk is granted

More steps do not change the result of a walk that ended (`value_mono`), and what a
walk does depends on its site only through the depth (`value_alike`): the key, the
owner and the trail show in mismatches alone. So it makes sense to say that a slot
is accepted or refused at a place, whatever the steps (`Accepts`, `Refuses`).

An engine grants as many steps as the nesting of the document times the number of
descriptors in the table. That is enough for every walk that ends at all
(`value_of_ends`): with the parts of a container settled, each further step must
settle a descriptor that was not settled before, and there are only so many. A walk
of a document ends as `endless` only if no number of steps would do.

Key definitions: `Below`, `Alike`, `Accepts`, `Refuses`, `Slot.level`.
Key theorems: `value_mono`, `value_alike`, `Ends.within`, `value_of_ends`.
-/
import Wireform.Engine.Basic
import Wireform.Proofs.Table.Reach
import Wireform.Proofs.Walk.InStep
import Mathlib.Data.Finset.Card
import Mathlib.Order.Monotone.Basic

namespace Wireform

/-- A site at a depth, without a key, an owner or a trail. -/
def Site.bare (depth : Nat) : Site := ⟨"", "", [], depth⟩

namespace Walk

/-! ### More steps -/

/-- A result, or any other in place of one that did not come. -/
def Below {α : Type} (x y : Except Refusal α) : Prop := x = .error .endless ∨ x = y

theorem Below.refl {α : Type} (x : Except Refusal α) : Below x x := .inr rfl

theorem Below.eq {α : Type} {x y : Except Refusal α} (h : Below x y) (hx : x ≠ .error .endless) :
    y = x := (h.resolve_left hx).symm

theorem below_respected : Respected @Below where
  ok a := .refl _
  bind {α β x y f g} hx hf := by
    rcases hx with rfl | rfl
    · exact .inl rfl
    · rcases x with e | a
      · exact .refl _
      · exact hf a
  orNext {x y f g} hx hf := by
    rcases hx with rfl | rfl
    · exact .inl rfl
    · rcases x with (m | _) | a
      · exact hf
      · exact .refl _
      · exact .refl _

/-- Two walks at the same site. -/
def SameVisit (o : Option String) (s : Site) (o' : Option String) (s' : Site) : Prop :=
  o' = o ∧ s' = s

/-- A relation under which each refusal is related to itself holds between walks at one site. -/
theorem sameVisit_paired {R : {α : Type} → Except Refusal α → Except Refusal α → Prop}
    (hR : ∀ {α : Type} (m : Mismatch), R (α := α) (.error (.mismatch m)) (.error (.mismatch m))) :
    Paired @R SameVisit where
  refuse _ _ := by rintro ⟨rfl, rfl⟩; exact hR _
  shape _ := by rintro ⟨rfl, rfl⟩; exact hR _
  ref _ := by rintro ⟨rfl, rfl⟩; exact ⟨rfl, rfl⟩
  member := by rintro _ _ _ _ ⟨rfl, rfl⟩; exact ⟨rfl, rfl⟩
  item _ := by rintro ⟨rfl, rfl⟩; exact ⟨rfl, rfl⟩
  property _ := by rintro ⟨rfl, rfl⟩; exact ⟨rfl, rfl⟩

theorem below_paired : Paired @Below SameVisit := sameVisit_paired fun _ => .refl _

theorem eq_respected : Respected fun x y => x = y where
  ok _ := rfl
  bind {α β x y f g} hx hf := by
    subst hx
    rw [funext hf]
  orNext hx hf := by rw [hx, hf]

theorem eq_paired : Paired (fun x y => x = y) SameVisit := sameVisit_paired fun _ => rfl

theorem value_below (w : Walk) : ∀ {n m : Nat}, n ≤ m → ∀ (o : Option String) (d : Descriptor)
    (s : Site) (slot : Slot), Below (w.value n o d s slot) (w.value m o d s slot)
  | 0, _, _, _, _, _, _ => .inl rfl
  | n + 1, m + 1, h, o, d, s, slot => by
    refine value_inStep below_respected below_paired ⟨rfl, rfl⟩ rfl (fun _ _ => rfl)
      (fun _ _ _ => .refl _) fun q _ => ?_
    rintro _ _ o s ⟨rfl, rfl⟩ -
    exact value_below w (Nat.le_of_succ_le_succ h) o q.descriptor s q.slot

/-- **More steps do not change a result.** -/
theorem value_mono (w : Walk) {n m : Nat} (h : n ≤ m) {o : Option String} {d : Descriptor}
    {s : Site} {slot : Slot} (hr : w.value n o d s slot ≠ .error .endless) :
    w.value m o d s slot = w.value n o d s slot :=
  (value_below w h o d s slot).eq hr

/-! ### Other sites -/

/-- Two results that differ at most in what a mismatch says. -/
def Alike {α : Type} : Except Refusal α → Except Refusal α → Prop
  | .ok a, .ok b => a = b
  | .error .endless, .error .endless => True
  | .error (.mismatch _), .error (.mismatch _) => True
  | _, _ => False

section Alike

variable {α : Type} {x y : Except Refusal α}

theorem Alike.eq_ok_iff (h : Alike x y) {a : α} : x = .ok a ↔ y = .ok a := by
  rcases x with (m | _) | b <;> rcases y with (m' | _) | c <;> simp_all [Alike]

theorem Alike.mismatch_iff (h : Alike x y) :
    (∃ m, x = .error (.mismatch m)) ↔ ∃ m, y = .error (.mismatch m) := by
  rcases x with (m | _) | b <;> rcases y with (m' | _) | c <;> simp_all [Alike]

theorem Alike.endless_iff (h : Alike x y) : x = .error .endless ↔ y = .error .endless := by
  rcases x with (m | _) | b <;> rcases y with (m' | _) | c <;> simp_all [Alike]

end Alike

theorem alike_respected : Respected @Alike where
  ok a := rfl
  bind {α β x y f g} hx hf := by
    rcases x with (m | _) | a <;> rcases y with (m' | _) | b <;> first | trivial | cases hx
    exact hf a
  orNext {x y f g} hx hf := by
    rcases x with (m | _) | a <;> rcases y with (m' | _) | b <;>
      first | exact hf | trivial | cases hx
    rfl

/-- Two walks at the same depth. -/
def SameDepth (_ : Option String) (s : Site) (_ : Option String) (s' : Site) : Prop :=
  s'.depth = s.depth

theorem alike_paired : Paired @Alike SameDepth where
  refuse _ _ _ := trivial
  shape _ _ := trivial
  ref _ h := h
  member h := h
  item _ h := congrArg (· + 1) h
  property _ h := congrArg (· + 1) h

theorem enter_alike (w : Walk) (slot : Slot) {s s' : Site} (h : s'.depth = s.depth) :
    Alike (w.enter slot s) (w.enter slot s') := by
  unfold enter
  rw [h]
  split
  · rfl
  · trivial

/-- **A walk depends on its site only through the depth**, but for what mismatches say. -/
theorem value_alike (w : Walk) : ∀ (n : Nat) (o o' : Option String) (d : Descriptor) (s s' : Site)
    (slot : Slot), s'.depth = s.depth → Alike (w.value n o d s slot) (w.value n o' d s' slot)
  | 0, _, _, _, _, _, _, _ => trivial
  | n + 1, o, o', d, s, s', slot, h => by
    have hv : SameDepth o s o' s' := h
    refine value_inStep alike_respected alike_paired hv rfl (fun _ _ => rfl)
      (fun _ _ _ => enter_alike w slot h) fun q _ => ?_
    intro o s o' s' h _
    exact value_alike w n o o' q.descriptor s s' q.slot h

theorem value_alike_bare (w : Walk) (n : Nat) (o : Option String) (d : Descriptor) (s : Site)
    (slot : Slot) : Alike (w.value n o d s slot) (w.value n none d (.bare s.depth) slot) :=
  value_alike w n o none d s (.bare s.depth) slot rfl

/-! ### Accepting and refusing -/

/-- The walk of a slot ends within so many steps, and it is accepted as `out`. -/
def AcceptsIn (w : Walk) (n : Nat) (d : Descriptor) (depth : Nat) (slot out : Slot) : Prop :=
  w.value n none d (.bare depth) slot = .ok out

/-- A slot is accepted at a depth, and converted to `out`. -/
def Accepts (w : Walk) (d : Descriptor) (depth : Nat) (slot out : Slot) : Prop :=
  ∃ n, w.AcceptsIn n d depth slot out

/-- A slot is refused at a depth. -/
def Refuses (w : Walk) (d : Descriptor) (depth : Nat) (slot : Slot) : Prop :=
  ∃ n m, w.value n none d (.bare depth) slot = .error (.mismatch m)

theorem value_eq_ok_iff {w : Walk} {n : Nat} {o : Option String} {d : Descriptor} {s : Site}
    {slot out : Slot} : w.value n o d s slot = .ok out ↔ w.AcceptsIn n d s.depth slot out :=
  (value_alike_bare w n o d s slot).eq_ok_iff

theorem value_mismatch_iff {w : Walk} {n : Nat} {o : Option String} {d : Descriptor} {s : Site}
    {slot : Slot} : (∃ m, w.value n o d s slot = .error (.mismatch m)) ↔
      ∃ m, w.value n none d (.bare s.depth) slot = .error (.mismatch m) :=
  (value_alike_bare w n o d s slot).mismatch_iff

theorem value_endless_iff {w : Walk} {n : Nat} {o : Option String} {d : Descriptor} {s : Site}
    {slot : Slot} : w.value n o d s slot = .error .endless ↔
      w.value n none d (.bare s.depth) slot = .error .endless :=
  (value_alike_bare w n o d s slot).endless_iff

theorem AcceptsIn.mono {w : Walk} {n m : Nat} {d : Descriptor} {depth : Nat} {slot out : Slot}
    (h : w.AcceptsIn n d depth slot out) (hnm : n ≤ m) : w.AcceptsIn m d depth slot out := by
  unfold AcceptsIn at *
  rw [value_mono w hnm (by rw [h]; exact fun he => by cases he), h]

theorem AcceptsIn.accepts {w : Walk} {n : Nat} {d : Descriptor} {depth : Nat} {slot out : Slot}
    (h : w.AcceptsIn n d depth slot out) : w.Accepts d depth slot out := ⟨n, h⟩

/-- A slot is converted in one way at most. -/
theorem Accepts.unique {w : Walk} {d : Descriptor} {depth : Nat} {slot out out' : Slot}
    (h : w.Accepts d depth slot out) (h' : w.Accepts d depth slot out') : out = out' := by
  obtain ⟨n, h⟩ := h
  obtain ⟨n', h'⟩ := h'
  have h1 := h.mono (Nat.le_max_left n n')
  have h2 := h'.mono (Nat.le_max_right n n')
  unfold AcceptsIn at h1 h2
  rw [h1] at h2
  exact Except.ok.inj h2

/-- What is refused is not accepted. -/
theorem Refuses.not_accepts {w : Walk} {d : Descriptor} {depth : Nat} {slot out : Slot}
    (h : w.Refuses d depth slot) (h' : w.Accepts d depth slot out) : False := by
  obtain ⟨n, m, h⟩ := h
  obtain ⟨n', h'⟩ := h'
  have h1 := value_mono w (Nat.le_max_left n n') (by rw [h]; exact fun he => by cases he)
  have h2 := h'.mono (Nat.le_max_right n n')
  unfold AcceptsIn at h2
  rw [h2, h] at h1
  cases h1


end Walk

/-! ### Enough steps -/

namespace Json

theorem nesting_le_of_mem_items {v : Json} : ∀ {vs : List Json}, v ∈ vs →
    v.nesting ≤ nestingItems vs
  | x :: vs, h => by
    rw [nestingItems]
    rcases List.mem_cons.mp h with rfl | h
    · exact Nat.le_max_left _ _
    · exact (nesting_le_of_mem_items h).trans (Nat.le_max_right _ _)

theorem nesting_le_of_mem_members {m : String × Json} : ∀ {ms : List (String × Json)}, m ∈ ms →
    m.2.nesting ≤ nestingMembers ms
  | x :: ms, h => by
    rw [nestingMembers]
    rcases List.mem_cons.mp h with rfl | h
    · exact Nat.le_max_left _ _
    · exact (nesting_le_of_mem_members h).trans (Nat.le_max_right _ _)

end Json

/-- How many levels a slot has: none if it is missing, one for a scalar. -/
@[simp] def Slot.level : Slot → Nat
  | none => 0
  | some v => v.nesting + 1

namespace Walk

theorem Calls.opens {table : Table} {p q : Place} (h : Calls table p q) :
    table.Opens p.descriptor q.descriptor := by
  cases h with
  | ref h => exact .ref h
  | member h => exact .member h
  | item _ => exact .item
  | property h => exact .property h
  | extra _ => exact .extra

/-- A walk stays with its slot, led to another descriptor, or goes down a level. -/
theorem Calls.slot {table : Table} {p q : Place} (h : Calls table p q) :
    (q.depth = p.depth ∧ q.slot = p.slot ∧ table.Leads p.descriptor q.descriptor) ∨
      Slot.level q.slot < Slot.level p.slot := by
  cases h with
  | ref h => exact .inl ⟨rfl, rfl, .ref h⟩
  | member h => exact .inl ⟨rfl, rfl, .member h⟩
  | item h =>
    refine .inr ?_
    have := Json.nesting_le_of_mem_items h
    simp only [Slot.level, Json.nesting]
    omega
  | @property properties additional depth input p key h =>
    refine .inr ?_
    cases hl : input.lookup key with
    | none => simp
    | some v =>
      have : v.nesting ≤ _ := Json.nesting_le_of_mem_members (Keyed.mem_of_lookup hl)
      simp only [Slot.level, Json.nesting]
      omega
  | extra h =>
    refine .inr ?_
    have := Json.nesting_le_of_mem_members h
    simp only [Slot.level, Json.nesting]
    omega

/-- The walk of a slot ends within so many steps. -/
def Ends (w : Walk) (n : Nat) (d : Descriptor) (depth : Nat) (slot : Slot) : Prop :=
  w.value n none d (.bare depth) slot ≠ .error .endless

theorem Ends.mono {w : Walk} {n m : Nat} {d : Descriptor} {depth : Nat} {slot : Slot}
    (h : w.Ends n d depth slot) (hnm : n ≤ m) : w.Ends m d depth slot := by
  unfold Ends at *
  rwa [value_mono w hnm h]

theorem value_ne_endless_iff {w : Walk} {n : Nat} {o : Option String} {d : Descriptor} {s : Site}
    {slot : Slot} : w.value n o d s slot ≠ .error .endless ↔ w.Ends n d s.depth slot :=
  not_congr value_endless_iff

section Enough

variable {w : Walk} {S : Finset Descriptor} (hS : ∀ a ∈ S, ∀ b, w.table.Opens a b → b ∈ S)

include hS

/-- With the levels below settled, a step that settles no descriptor is followed by
another that settles none. -/
theorem ends_of_stable {n depth : Nat} {slot : Slot}
    (hbelow : ∀ q : Place, q.descriptor ∈ S → Slot.level q.slot < Slot.level slot →
      ∀ m, w.Ends m q.descriptor q.depth q.slot → w.Ends n q.descriptor q.depth q.slot)
    (hstable : ∀ d ∈ S, w.Ends (n + 1) d depth slot → w.Ends n d depth slot) {d : Descriptor}
    (hd : d ∈ S) (he : w.Ends (n + 2) d depth slot) : w.Ends (n + 1) d depth slot := by
  have hstep : Below (w.value (n + 1 + 1) none d (.bare depth) slot)
      (w.value (n + 1) none d (.bare depth) slot) := by
    refine value_inStep below_respected below_paired ⟨rfl, rfl⟩ rfl (fun _ _ => rfl)
      (fun _ _ _ => .refl _) fun q hq => ?_
    rintro _ _ o s ⟨rfl, rfl⟩ hdepth
    by_cases hr : w.value (n + 1) o q.descriptor s q.slot = .error .endless
    · exact .inl hr
    · have hqS : q.descriptor ∈ S := hS d hd _ hq.opens
      have hq1 : w.Ends (n + 1) q.descriptor s.depth q.slot := value_ne_endless_iff.mp hr
      have hqn : w.Ends n q.descriptor s.depth q.slot := by
        rcases hq.slot with ⟨hqd, hqs, -⟩ | hlt
        · rw [hdepth, hqd, hqs] at hq1 ⊢
          exact hstable _ hqS hq1
        · rw [hdepth] at hq1 ⊢
          exact hbelow q hqS hlt _ hq1
      exact .inr (value_mono w (Nat.le_succ n) (value_ne_endless_iff.mpr hqn))
  unfold Ends at he ⊢
  rwa [hstep.eq he]

/-- A walk over a finite catalog ends within a number of steps for each level and each
descriptor, if it ends at all. -/
theorem ends_of_level : ∀ (L : Nat) (slot : Slot), Slot.level slot ≤ L → ∀ (depth n : Nat),
    ∀ d ∈ S, w.Ends n d depth slot → w.Ends ((L + 1) * S.card) d depth slot := by
  classical
  intro L
  induction L using Nat.strong_induction_on with
  | _ L ih =>
    intro slot hL depth n d hd hn
    -- the levels below are settled after `L * S.card` steps
    have hbelow : ∀ m, ∀ q : Place, q.descriptor ∈ S → Slot.level q.slot < Slot.level slot →
        ∀ k, w.Ends k q.descriptor q.depth q.slot →
          w.Ends (L * S.card + m) q.descriptor q.depth q.slot := by
      intro m q hq hlt k hk
      obtain ⟨l, rfl⟩ : ∃ l, L = l + 1 := ⟨L - 1, by omega⟩
      exact (ih l (Nat.lt_succ_self l) q.slot (by omega) q.depth k _ hq hk).mono
        (Nat.le_add_right _ m)
    -- from there on the settled descriptors at this slot grow or stay for good
    let E : Nat → Finset Descriptor := fun m => S.filter fun a => w.Ends (L * S.card + m) a depth slot
    have hmono : ∀ {m m'}, m ≤ m' → E m ⊆ E m' := by
      intro m m' h a ha
      obtain ⟨haS, ha⟩ := Finset.mem_filter.mp ha
      exact Finset.mem_filter.mpr ⟨haS, ha.mono (Nat.add_le_add_left h _)⟩
    have hstable : ∀ m, (E m).card = (E (m + 1)).card → (E (m + 1)).card = (E (m + 2)).card := by
      intro m h
      have hE : E m = E (m + 1) :=
        Finset.eq_of_subset_of_card_le (hmono (Nat.le_succ m)) h.ge
      refine congrArg Finset.card (Finset.Subset.antisymm (hmono (Nat.le_succ _)) fun a ha => ?_)
      obtain ⟨haS, ha⟩ := Finset.mem_filter.mp ha
      refine Finset.mem_filter.mpr ⟨haS, ends_of_stable hS (hbelow m) (fun b hb hb1 => ?_) haS ha⟩
      exact (Finset.mem_filter.mp (hE ▸ Finset.mem_filter.mpr ⟨hb, hb1⟩ : b ∈ E m)).2
    have hcard := Nat.stabilises_of_monotone (fun _ _ h => Finset.card_le_card (hmono h))
      (fun m => Finset.card_filter_le S _) hstable (Nat.le_max_right n S.card)
    have hall : E S.card = E (max n S.card) :=
      Finset.eq_of_subset_of_card_le (hmono (Nat.le_max_right n _)) hcard.le
    have hdE : d ∈ E (max n S.card) := Finset.mem_filter.mpr
      ⟨hd, hn.mono ((Nat.le_max_left n _).trans (Nat.le_add_left _ _))⟩
    rw [← hall] at hdE
    rw [Nat.succ_mul]
    exact (Finset.mem_filter.mp hdE).2

end Enough

/-- **A walk that ends does so within a number of steps for each level and each descriptor.** -/
theorem Ends.within {w : Walk} {n depth : Nat} {d : Descriptor} {slot : Slot}
    (h : w.Ends n d depth slot) :
    w.Ends ((Slot.level slot + 1) * (w.table.weight + d.size)) d depth slot := by
  classical
  have hS : ∀ a ∈ (w.table.catalog d).toFinset, ∀ b, w.table.Opens a b →
      b ∈ (w.table.catalog d).toFinset := by
    intro a ha b ho
    exact List.mem_toFinset.mpr (Table.opens_mem_catalog (List.mem_toFinset.mp ha) ho)
  have hd : d ∈ (w.table.catalog d).toFinset :=
    List.mem_toFinset.mpr (List.mem_append_right _ d.mem_parts_self)
  have hcard : (w.table.catalog d).toFinset.card ≤ w.table.weight + d.size := by
    rw [← Table.length_catalog]
    exact List.toFinset_card_le _
  exact (ends_of_level hS _ slot le_rfl depth n d hd h).mono (Nat.mul_le_mul_left _ hcard)

/-- Two walks that end have the same result, whatever their steps. -/
theorem value_eq_of_ne {w : Walk} {n m : Nat} {o : Option String} {d : Descriptor} {s : Site}
    {slot : Slot} (hn : w.value n o d s slot ≠ .error .endless)
    (hm : w.value m o d s slot ≠ .error .endless) :
    w.value n o d s slot = w.value m o d s slot := by
  rw [← value_mono w (Nat.le_max_left n m) hn, ← value_mono w (Nat.le_max_right n m) hm]

/-- **The steps an engine grants are enough for every walk that ends.** -/
theorem value_of_ends {w : Walk} {root : Descriptor} {n : Nat} {o : Option String} {s : Site}
    {v : Json} (hr : w.value n o root s (some v) ≠ .error .endless) :
    w.value (Engine.steps w.table v root) o root s (some v) = w.value n o root s (some v) := by
  have hgranted : (Slot.level (some v) + 1) * (w.table.weight + root.size) ≤
      Engine.steps w.table v root := Nat.mul_le_mul_left (v.nesting + 2) (Nat.le_succ _)
  have hends := (value_ne_endless_iff.mp hr).within.mono hgranted
  exact value_eq_of_ne (value_ne_endless_iff.mpr hends) hr

end Walk
end Wireform
