/-
# When a walk ends

A walk stays at its slot only where it follows a name or turns to a member of a
union. In a table in which no name leads back to itself that way, every walk ends
(`Productive.ends`): the descriptors that a descriptor leads to become fewer with
each such step, and every other step enters the value.

A built table need not be like that, and then a walk may go on for ever. What can
be said of a walk that does end is that, as long as none of its parts is refused,
it ends on every one of them (`Ends.items`, `Ends.properties`, `Ends.extras`), and
that a union whose first members accept nothing comes to the next
(`Ends.union`).

Key definitions: `Table.Leads`, `Table.Productive`, `Walk.Mismatches`.
Key theorems: `Table.Productive.ends`, `Engine.convert_ne_endless`.
-/
import Wireform.Proofs.Walk.Accept

namespace Wireform

theorem Descriptor.size_lt_of_member {d : Descriptor} : ∀ {ds : List Descriptor}, d ∈ ds →
    size d < size (.union ds)
  | x :: ds, h => by
    rw [size, sizeMembers]
    rcases List.mem_cons.mp h with rfl | h
    · omega
    · have hlt := size_lt_of_member h
      rw [size] at hlt
      omega

namespace Table

/-- No name leads back to itself. -/
def Productive (table : Table) : Prop :=
  ∀ name, ¬ Relation.TransGen table.Leads (.ref name) (.ref name)

/-- Without a name on the way, what is led to is smaller. -/
theorem name_or_smaller {table : Table} {a b : Descriptor} (h : Relation.TransGen table.Leads a b) :
    (∃ name, Relation.ReflTransGen table.Leads a (.ref name) ∧
      Relation.TransGen table.Leads (.ref name) b) ∨ b.size < a.size := by
  induction h using Relation.TransGen.head_induction_on with
  | single h =>
    cases h with
    | ref h => exact .inl ⟨_, .refl, .single (.ref h)⟩
    | member h => exact .inr (Descriptor.size_lt_of_member h)
  | head h hrest ih =>
    cases h with
    | ref h => exact .inl ⟨_, .refl, .head (.ref h) hrest⟩
    | member h =>
      rcases ih with ⟨name, hto, hfrom⟩ | hlt
      · exact .inl ⟨name, .head (.member h) hto, hfrom⟩
      · exact .inr (hlt.trans (Descriptor.size_lt_of_member h))

/-- In a productive table no descriptor leads back to itself. -/
theorem Productive.acyclic {table : Table} (h : table.Productive) (d : Descriptor) :
    ¬ Relation.TransGen table.Leads d d := by
  intro hd
  rcases name_or_smaller hd with ⟨name, hto, hfrom⟩ | hlt
  · exact h name (hfrom.trans_left hto)
  · exact (lt_irrefl _ hlt).elim

end Table

namespace Walk

/-! ### The parts of a walk that ends -/

section Loops

variable {α β : Type}

theorem ne_endless_of_bind {x : Except Refusal α} {f : α → Except Refusal β}
    (h : x >>= f ≠ .error .endless) :
    x ≠ .error .endless ∧ ∀ a, x = .ok a → f a ≠ .error .endless := by
  constructor
  · rintro rfl
    exact h rfl
  · rintro a rfl
    exact h

theorem eq_ok_of_ne {x : Except Refusal α} (h : x ≠ .error .endless)
    (hm : ∀ m, x ≠ .error (.mismatch m)) : ∃ a, x = .ok a := by
  rcases x with (m | _) | a
  · exact (hm m rfl).elim
  · exact (h rfl).elim
  · exact ⟨a, rfl⟩

/-- Where the first members accept nothing, a union comes to the next. -/
theorem firstAccepted_ends {f : Descriptor → Except Refusal Slot} {d : Descriptor}
    {after : List Descriptor} : ∀ {before : List Descriptor},
      firstAccepted f (before ++ d :: after) ≠ .error .endless →
      (∀ a ∈ before, ∀ s, f a ≠ .ok s) →
        (∀ a ∈ before, ∃ m, f a = .error (.mismatch m)) ∧ f d ≠ .error .endless
  | [], h, _ => by
    refine ⟨by simp, fun hd => h ?_⟩
    rw [List.nil_append, firstAccepted_cons, hd]
    rfl
  | a :: before, h, hb => by
    rw [List.cons_append, firstAccepted_cons] at h
    rcases ha : f a with (m | _) | s
    · rw [ha] at h
      obtain ⟨hrest, hd⟩ := firstAccepted_ends h fun x hx => hb x (List.mem_cons_of_mem _ hx)
      refine ⟨fun x hx => ?_, hd⟩
      rcases List.mem_cons.mp hx with rfl | hx
      · exact ⟨m, ha⟩
      · exact hrest x hx
    · rw [ha] at h
      exact (h rfl).elim
    · exact (hb a List.mem_cons_self s ha).elim

theorem items_ends {f : Nat → Json → Except Refusal Slot} : ∀ {vs : List Json} {position : Nat},
    items f position vs ≠ .error .endless →
    (∀ v ∈ vs, ∀ i m, f i v ≠ .error (.mismatch m)) → ∀ v ∈ vs, ∃ i, f i v ≠ .error .endless
  | v :: vs, position, h, hm, x, hx => by
    obtain ⟨hv, hrest⟩ := ne_endless_of_bind (by simpa only [items] using h)
    rcases List.mem_cons.mp hx with rfl | hx
    · exact ⟨position, hv⟩
    · obtain ⟨s, hs⟩ := eq_ok_of_ne hv (hm v List.mem_cons_self position)
      obtain ⟨hvs, -⟩ := ne_endless_of_bind (hrest s hs)
      exact items_ends hvs (fun y hy => hm y (List.mem_cons_of_mem _ hy)) x hx

theorem declared_ends {f : String → Descriptor → Slot → Except Refusal Slot}
    {all : List (Property Descriptor)} {input : List (String × Json)} {direction : Direction} :
    ∀ {ps : List (Property Descriptor)} {position : Nat} {out : List (String × Json)},
      all.drop position = ps →
      declared f all input (PropertyIndex.entriesFrom direction position ps) out ≠
        .error .endless →
      (∀ p ∈ ps, ∀ key m, f key p.descriptor (input.lookup (direction.inputKey p)) ≠
        .error (.mismatch m)) →
      (∃ out', declared f all input (PropertyIndex.entriesFrom direction position ps) out =
          .ok out') ∧
        ∀ p ∈ ps, ∃ key, f key p.descriptor (input.lookup (direction.inputKey p)) ≠
          .error .endless
  | [], _, out, _, _, _ => ⟨⟨out, rfl⟩, by simp⟩
  | p :: ps, position, out, hdrop, h, hm => by
    have hps := drop_succ_of_drop hdrop
    rw [declared_cons out hdrop] at h ⊢
    obtain ⟨hfirst, hrest⟩ := ne_endless_of_bind h
    obtain ⟨s, hs⟩ := eq_ok_of_ne hfirst (hm p List.mem_cons_self _)
    obtain ⟨⟨out', hout⟩, hall⟩ := declared_ends hps (hrest s hs)
      fun q hq => hm q (List.mem_cons_of_mem _ hq)
    refine ⟨⟨out', bind_eq_ok_iff.mpr ⟨s, hs, hout⟩⟩, fun q hq => ?_⟩
    rcases List.mem_cons.mp hq with rfl | hq
    · exact ⟨_, hfirst⟩
    · exact hall q hq

theorem undeclared_ends {f : String → Json → Except Refusal Slot} {index : PropertyIndex} :
    ∀ {input out : List (String × Json)}, undeclared f index input out ≠ .error .endless →
      (∀ m ∈ input, index.contains m.1 = false → ∀ e, f m.1 m.2 ≠ .error (.mismatch e)) →
      ∀ m ∈ input, index.contains m.1 = false → f m.1 m.2 ≠ .error .endless
  | (key, v) :: rest, out, h, hm, x, hx, hk => by
    unfold undeclared at h
    have hrest : ∀ m ∈ rest, index.contains m.1 = false → ∀ e, f m.1 m.2 ≠ .error (.mismatch e) :=
      fun y hy => hm y (List.mem_cons_of_mem _ hy)
    split at h
    · rename_i hkey
      rcases List.mem_cons.mp hx with rfl | hx
      · rw [hk] at hkey
        cases hkey
      · exact undeclared_ends h hrest x hx hk
    · rename_i hkey
      obtain ⟨hfirst, hnext⟩ := ne_endless_of_bind h
      rcases List.mem_cons.mp hx with rfl | hx
      · exact hfirst
      · have hself := hm (key, v) List.mem_cons_self (Bool.eq_false_iff.mpr hkey)
        obtain ⟨s, hs⟩ := eq_ok_of_ne hfirst hself
        exact undeclared_ends (hnext s hs) hrest x hx hk

end Loops

/-- The walk of a slot ends within so many steps, and it is refused. -/
def Mismatches (w : Walk) (n : Nat) (d : Descriptor) (depth : Nat) (slot : Slot) : Prop :=
  ∃ m, w.value n none d (.bare depth) slot = .error (.mismatch m)

theorem Mismatches.ends {w : Walk} {n : Nat} {d : Descriptor} {depth : Nat} {slot : Slot}
    (h : w.Mismatches n d depth slot) : w.Ends n d depth slot := by
  obtain ⟨m, h⟩ := h
  unfold Ends
  rw [h]
  exact fun he => by cases he

section Parts

variable {w : Walk} {n depth : Nat} {slot : Slot}

theorem Ends.ref {name : String} {d : Descriptor} (hd : w.table.get? name = some d)
    (h : w.Ends (n + 1) (.ref name) depth slot) : w.Ends n d depth slot := by
  unfold Ends at h
  simp only [value, hd] at h
  exact value_ne_endless_iff.mp h

theorem Ends.union {before after : List Descriptor} {d : Descriptor}
    (h : w.Ends (n + 1) (.union (before ++ d :: after)) depth slot)
    (hb : ∀ a ∈ before, ∀ out, ¬ w.Accepts a depth slot out) :
    (∀ a ∈ before, w.Mismatches n a depth slot) ∧ w.Ends n d depth slot := by
  unfold Ends at h
  rw [value] at h
  obtain ⟨hfirst, -⟩ := ne_endless_of_bind h
  exact firstAccepted_ends hfirst fun a ha s hs => hb a ha s ⟨n, hs⟩

/-- An array none of whose items is refused is walked to its end. -/
theorem Ends.items {item : Descriptor} {vs : List Json}
    (h : w.Ends (n + 1) (.array item) depth (some (.array vs))) (hdepth : depth < w.maxDepth)
    (hm : ∀ v ∈ vs, ¬ w.Mismatches n item (depth + 1) (some v)) :
    ∀ v ∈ vs, w.Ends n item (depth + 1) (some v) := by
  intro v hv
  unfold Ends at h
  simp only [value, array] at h
  obtain ⟨-, h⟩ := ne_endless_of_bind h
  obtain ⟨h, -⟩ := ne_endless_of_bind (h () (enter_eq_ok_iff.mpr hdepth))
  obtain ⟨i, hi⟩ := items_ends h (fun x hx i m he => hm x hx (value_mismatch_iff.mp ⟨m, he⟩)) v hv
  exact value_ne_endless_iff.mp hi

/-- An object none of whose members is refused is walked to its end. -/
theorem Ends.members {properties : List (Property Descriptor)}
    {additional : Additional Descriptor} {input : List (String × Json)}
    (hk : (properties.map w.direction.inputKey).Nodup)
    (h : w.Ends (n + 1) (.object properties additional) depth (some (.object input)))
    (hdepth : depth < w.maxDepth)
    (hp : ∀ p ∈ properties, ¬ w.Mismatches n p.descriptor (depth + 1)
      (input.lookup (w.direction.inputKey p)))
    (hx : ∀ m ∈ extras w.direction properties input, ∀ d, additional = .allow d →
      ¬ w.Mismatches n d (depth + 1) (some m.2)) :
    (∀ p ∈ properties, w.Ends n p.descriptor (depth + 1)
        (input.lookup (w.direction.inputKey p))) ∧
      ∀ m ∈ extras w.direction properties input, ∀ d, additional = .allow d →
        w.Ends n d (depth + 1) (some m.2) := by
  unfold Ends at h
  simp only [value, object] at h
  obtain ⟨-, h⟩ := ne_endless_of_bind h
  obtain ⟨hdecl, h⟩ := ne_endless_of_bind (h () (enter_eq_ok_iff.mpr hdepth))
  rw [PropertyIndex.ofProperties_entries hk] at hdecl h
  obtain ⟨⟨out, hout⟩, hends⟩ := declared_ends List.drop_zero hdecl
    fun p hps key m he => hp p hps (value_mismatch_iff.mp ⟨m, he⟩)
  refine ⟨fun p hps => ?_, ?_⟩
  · obtain ⟨key, hkey⟩ := hends p hps
    exact value_ne_endless_iff.mp hkey
  · rintro m hm d rfl
    have hcontains : ∀ key, (PropertyIndex.ofProperties properties w.direction).contains key =
        false ↔ key ∉ properties.map w.direction.inputKey := by
      intro key
      rw [PropertyIndex.contains_ofProperties hk, decide_eq_false_iff_not]
    have hmem : ∀ x ∈ input, (PropertyIndex.ofProperties properties w.direction).contains x.1 =
        false → x ∈ extras w.direction properties input := by
      intro x hxs hc
      exact List.mem_filter.mpr ⟨hxs, decide_eq_true ((hcontains _).mp hc)⟩
    obtain ⟨hundecl, -⟩ := ne_endless_of_bind (h out hout)
    obtain ⟨hmi, hmk⟩ := List.mem_filter.mp hm
    refine value_ne_endless_iff.mp (undeclared_ends hundecl (fun x hxs hc e he => ?_) m hmi
      ((hcontains _).mpr (of_decide_eq_true hmk)))
    exact hx x (hmem x hxs hc) d rfl (value_mismatch_iff.mp ⟨e, he⟩)

end Parts

/-! ### Walks that end -/

/-- That the first of two results came. -/
def Came {α : Type} (x _ : Except Refusal α) : Prop := x ≠ .error .endless

theorem came_respected : Respected @Came where
  ok _ h := by cases h
  bind {α β x y f g} hx hf := by
    rcases x with (m | _) | a
    · exact fun h => by cases h
    · exact (hx rfl).elim
    · exact hf a
  orNext {x y f g} hx hf := by
    rcases x with (m | _) | a
    · exact hf
    · exact (hx rfl).elim
    · exact fun h => by cases h

theorem came_paired : Paired @Came SameVisit := sameVisit_paired fun _ h => by cases h

theorem enter_ne_endless (w : Walk) (slot : Slot) (s : Site) :
    w.enter slot s ≠ .error .endless := by
  unfold enter
  split
  · exact fun h => by cases h
  · exact fun h => by cases h

/-- A walk ends one step after all that it may turn to. -/
theorem ends_of_calls {w : Walk} {n : Nat} {d : Descriptor} {depth : Nat} {slot : Slot}
    (h : ∀ q, Calls w.table ⟨d, depth, slot⟩ q → w.Ends n q.descriptor q.depth q.slot) :
    w.Ends (n + 1) d depth slot := by
  have hstep : Came (w.value (n + 1) none d (.bare depth) slot)
      (w.value (n + 1) none d (.bare depth) slot) := by
    refine value_inStep came_respected came_paired ⟨rfl, rfl⟩ rfl (fun _ _ => rfl)
      (fun _ _ _ => enter_ne_endless w slot _) fun q hq => ?_
    rintro _ _ o s ⟨rfl, rfl⟩ hdepth
    exact value_ne_endless_iff.mpr (hdepth ▸ h q hq)
  exact hstep

end Walk

/-- **In a productive table every walk ends.** -/
theorem Table.Productive.ends {w : Walk} (h : w.table.Productive) (d : Descriptor) (depth : Nat)
    (slot : Slot) : ∃ n, w.Ends n d depth slot := by
  classical
  let S := (w.table.catalog d).toFinset
  have hS : ∀ a ∈ S, ∀ b, w.table.Opens a b → b ∈ S := by
    intro a ha b ho
    exact List.mem_toFinset.mpr (Table.opens_mem_catalog (List.mem_toFinset.mp ha) ho)
  have hd : d ∈ S := List.mem_toFinset.mpr (List.mem_append_right _ d.mem_parts_self)
  -- what a descriptor leads to: less and less on the way
  let ahead (a : Descriptor) : Finset Descriptor :=
    S.filter fun b => Relation.TransGen w.table.Leads a b
  have hahead : ∀ a b, b ∈ S → w.table.Leads a b → (ahead b).card < (ahead a).card := by
    intro a b hb hab
    refine Finset.card_lt_card (Finset.ssubset_iff_subset_ne.mpr ⟨fun c hc => ?_, fun he => ?_⟩)
    · obtain ⟨hcS, hc⟩ := Finset.mem_filter.mp hc
      exact Finset.mem_filter.mpr ⟨hcS, .head hab hc⟩
    · have hbb : b ∈ ahead b := he ▸ Finset.mem_filter.mpr ⟨hb, .single hab⟩
      exact h.acyclic b (Finset.mem_filter.mp hbb).2
  suffices ∀ (l k : Nat) (a : Descriptor) (depth : Nat) (slot : Slot), a ∈ S →
      Slot.level slot ≤ l → (ahead a).card ≤ k → ∃ n, w.Ends n a depth slot from
    this _ _ d depth slot hd le_rfl le_rfl
  intro l
  induction l using Nat.strong_induction_on with
  | _ l ihl =>
    intro k
    induction k using Nat.strong_induction_on with
    | _ k ihk =>
      intro a depth slot ha hl hk
      refine ⟨(l + 1) * S.card + 1, Walk.ends_of_calls fun q hq => ?_⟩
      have hqS : q.descriptor ∈ S := hS a ha _ hq.opens
      rcases hq.slot with ⟨hdepth, hslot, hlead⟩ | hlt
      · have hq' : Slot.level q.slot ≤ l := by rw [hslot]; exact hl
        obtain ⟨n, hn⟩ := ihk _ ((hahead a _ hqS hlead).trans_le hk) _ q.depth q.slot hqS hq' le_rfl
        exact Walk.ends_of_level hS l _ hq' _ n _ hqS hn
      · have hq' : Slot.level q.slot ≤ l := hlt.le.trans hl
        obtain ⟨n, hn⟩ := ihl _ (hlt.trans_le hl) _ _ q.depth q.slot hqS le_rfl le_rfl
        exact Walk.ends_of_level hS l _ hq' _ n _ hqS hn

namespace Engine

theorem run_ne_endless {e : Engine} (h : e.table.Productive) (v : Json) (d : Descriptor)
    (direction : Direction) : e.run v d direction ≠ .error .endless := by
  obtain ⟨n, hn⟩ := h.ends (w := e.walk direction) d 0 (some v)
  have hw : (e.walk direction).value (steps e.table v d) none d .root (some v) ≠
      .error .endless := by
    have hr : (e.walk direction).value n none d .root (some v) ≠ .error .endless := hn
    have hends := Walk.value_of_ends hr
    rw [show (e.walk direction).table = e.table from rfl] at hends
    rw [hends]
    exact hr
  simp only [walk] at hw
  simp only [run]
  split
  · exact fun he => by cases he
  · exact fun he => by cases he
  · rename_i hx
    exact (hw hx).elim

/-- **In a productive table every conversion ends.** -/
theorem convert_ne_endless {e : Engine} (h : e.table.Productive) (v : Json) (root : String)
    (direction : Direction) : e.convert v root direction ≠ .error .endless := by
  unfold convert
  split
  · exact fun he => by cases he
  · exact run_ne_endless h v _ direction

end Engine
end Wireform
