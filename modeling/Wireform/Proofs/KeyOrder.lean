/-
# The order of keys

In what order the members of an object stand, and in what order a shape declares its
properties, carries no meaning. Both loops over an object run in such an order, and the
later of two writes to one output key wins; but every declared key is looked up, two
declared properties never have one output key, and the undeclared members come after all
of them. So under each key the result holds the same, up to order again.

With the order only the first refusal changes that is met, hence the mismatch that is
reported. Where some type leads back to itself without entering the value, there is one
thing more: a refusal that is met first keeps a walk from a part that has no end
(`Engine.not_convert_shuffled`).

Key definitions: `Walk.Shuffled`, `Walk.Counterparts`.
Key theorems: `Walk.not_mismatches_of_shuffled`, `Walk.reordered_of_accepts`,
`Engine.convert_shuffled`, `Engine.not_convert_shuffled`.
-/
import Mathlib
import Wireform.Proofs.Json.Reorder
import Wireform.Proofs.Table.Resolve
import Wireform.Proofs.Table.Shuffled
import Wireform.Proofs.Walk.Refusals
import Wireform.Proofs.Walk.Rows

namespace Wireform

namespace Descriptor

/-! ### Reordered values and leaves -/

theorem isCase_of_reordered {c v v' : Json} (h : Json.Reordered v v') (hv : v.Distinct)
    (hc : isCase c v = true) : isCase c v' = true := by
  have harray : ∀ vs, isCase c (.array vs) = c.same (.array vs) := fun vs => by cases c <;> rfl
  have hobject : ∀ ms, isCase c (.object ms) = c.same (.object ms) := fun ms => by cases c <;> rfl
  cases h with
  | same => exact hc
  | array h =>
    rw [harray] at hc ⊢
    exact Json.same_of_reordered c (.array h) hv hc
  | object h hp =>
    rw [hobject] at hc ⊢
    exact Json.same_of_reordered c (.object h hp) hv hc

end Descriptor

namespace Walk

open Descriptor

/-- A leaf takes a reordered slot, too, and makes the same of it. -/
theorem Takes.reordered {d : Descriptor} {slot slot' out : Slot} (h : Takes d slot out)
    (hslot : Slot.Reordered slot slot') (hd : Slot.Distinct slot) :
    ∃ out', Takes d slot' out' ∧ Slot.Reordered out out' := by
  cases h with
  | any => exact ⟨slot', .any slot', hslot⟩
  | undefined =>
    cases hslot
    exact ⟨none, .undefined, .none⟩
  | null =>
    cases hslot with
    | some h =>
      cases h
      exact ⟨_, .null, .same _⟩
  | noDate =>
    cases hslot with
    | some h =>
      cases h
      exact ⟨_, .noDate, .same _⟩
  | date hs =>
    cases hslot with
    | some h =>
      cases h
      exact ⟨_, .date hs, .same _⟩
  | @primitive kind v hk =>
    cases hslot with
    | some h =>
      cases h with
      | same => exact ⟨_, .primitive hk, .same _⟩
      | array _ | object _ _ => cases kind <;> cases hk
  | enum hany =>
    cases hslot with
    | some h =>
      obtain ⟨c, hc, hcase⟩ := List.any_eq_true.mp hany
      exact ⟨_, .enum (List.any_eq_true.mpr ⟨c, hc, isCase_of_reordered h hd hcase⟩), .some h⟩

/-! ### Two walks -/

/-- Two walks of checked tables that differ in the order of declared properties alone. -/
structure Shuffled (w w' : Walk) : Prop where
  sound : w.table.Sound
  sound' : w'.table.Sound
  table : w.table.Related Descriptor.Shuffled w'.table
  direction : w'.direction = w.direction
  maxDepth : w'.maxDepth = w.maxDepth

theorem Shuffled.symm {w w' : Walk} (h : Shuffled w w') : Shuffled w' w :=
  ⟨h.sound', h.sound, h.table.flip fun _ _ hd => hd.symm, h.direction.symm, h.maxDepth.symm⟩

/-- A checked descriptor and a slot of one walk, and those of the other in their place. -/
structure Counterparts (w w' : Walk) (d : Descriptor) (slot : Slot) (d' : Descriptor)
    (slot' : Slot) : Prop where
  checked : w.table.Checked d
  checked' : w'.table.Checked d'
  descriptor : d.Shuffled d'
  distinct : Slot.Distinct slot
  reordered : Slot.Reordered slot slot'

theorem Counterparts.symm {w w' : Walk} {d d' : Descriptor} {slot slot' : Slot}
    (h : Counterparts w w' d slot d' slot') : Counterparts w' w d' slot' d slot :=
  ⟨h.checked', h.checked, h.descriptor.symm, h.distinct.of_reordered h.reordered, h.reordered.symm⟩

section Extras

variable {direction : Direction} {properties properties' : List (Property Descriptor)}
  (hkeys : (properties.map direction.inputKey).Perm (properties'.map direction.inputKey))
  {input input' : List (String × Json)} (hinput : Json.Reordered (.object input) (.object input'))

include hkeys hinput

/-- The undeclared members of a reordered object are those of the object. -/
theorem rel_lookup_extras (hn : (Keyed.keys input).Nodup) (key : String) :
    Option.Rel Json.Reordered ((extras direction properties input).lookup key)
      ((extras direction properties' input').lookup key) := by
  rw [lookup_extras, lookup_extras]
  by_cases hk : key ∈ properties.map direction.inputKey
  · rw [if_pos hk, if_pos (hkeys.mem_iff.mp hk)]
    exact .none
  · rw [if_neg hk, if_neg fun hk' => hk (hkeys.mem_iff.mpr hk')]
    exact hinput.rel_lookup hn key

theorem exists_extra (hd : Json.Distinct (.object input)) {m : String × Json}
    (hm : m ∈ extras direction properties' input') :
    ∃ v, (m.1, v) ∈ extras direction properties input ∧ Json.Reordered v m.2 := by
  have hd' : Json.Distinct (.object input') := hd.of_reordered hinput
  have hrel := rel_lookup_extras hkeys hinput hd.1 m.1
  rw [Keyed.lookup_of_mem (nodup_keys_extras hd'.1) hm] at hrel
  generalize hl : (extras direction properties input).lookup m.1 = s at hrel
  cases hrel with
  | @some v _ hv => exact ⟨v, Keyed.mem_of_lookup hl, hv⟩

end Extras

section Pairs

variable {w w' : Walk} {d d' e e' : Descriptor} {depth : Nat} {slot slot' s s' out out' : Slot}

theorem Counterparts.opens (h : Counterparts w w' d slot d' slot') (hw : Shuffled w w')
    (ho : w.table.Opens d e) (ho' : w'.table.Opens d' e') (he : e.Shuffled e')
    (hs : Slot.Distinct s) (hss : Slot.Reordered s s') : Counterparts w w' e s e' s' :=
  ⟨h.checked.opens hw.sound ho, h.checked'.opens hw.sound' ho', he, hs, hss⟩

/-- Items stand in the place of items. -/
theorem Counterparts.exists_items {item item' : Descriptor} {vs : List Json}
    (h : Counterparts w w' (.array item) (some (.array vs)) (.array item') slot')
    (hw : Shuffled w w') (hitem : item.Shuffled item') : ∃ vs', slot' = some (.array vs') ∧
      List.Forall₂ (fun v v' => Counterparts w w' item (some v) item' (some v')) vs vs' := by
  obtain ⟨vs', rfl, hvs⟩ := h.reordered.array_inv
  refine ⟨vs', rfl, ((List.forall₂_and_left _ _).mpr ⟨fun v hv => hv, hvs⟩).imp ?_⟩
  rintro v v' ⟨hv, hvv'⟩
  have hv : v.Distinct := Json.Distinct.of_mem_items h.distinct hv
  exact h.opens hw .item .item hitem hv (.some hvv')

section Objects

variable {properties properties' : List (Property Descriptor)}
  {additional additional' : Additional Descriptor} {input input' : List (String × Json)}
  (h : Counterparts w w' (.object properties additional) (some (.object input))
    (.object properties' additional') (some (.object input')))
  (hw : Shuffled w w')

include h hw

/-- A property stands in the place of a property. -/
theorem Counterparts.property (hinput : Json.Reordered (.object input) (.object input'))
    {p p' : Property Descriptor} (hp : p ∈ properties) (hp' : p' ∈ properties')
    (hpp : Property.Related Descriptor.Shuffled p p') :
    Counterparts w w' p.descriptor (input.lookup (w.direction.inputKey p)) p'.descriptor
      (input'.lookup (w.direction.inputKey p')) := by
  rw [hpp.inputKey]
  exact h.opens hw (.property hp) (.property hp') hpp.2.2 (Slot.distinct_lookup h.distinct _)
    (hinput.rel_lookup h.distinct.1 _)

/-- An undeclared member stands in the place of an undeclared member. -/
theorem Counterparts.extra (hshape : ShuffledShape properties properties' additional additional')
    {x : Descriptor} (hx : additional = .allow x) {key : String} {v v' : Json}
    (hv : (extras w.direction properties input).lookup key = some v)
    (hvv' : Json.Reordered v v') :
    ∃ x', additional' = .allow x' ∧ Counterparts w w' x (some v) x' (some v') := by
  obtain ⟨x', hx', hxx'⟩ := hshape.additional x hx
  subst hx hx'
  have hmem := (List.mem_filter.mp (Keyed.mem_of_lookup hv)).1
  have hdistinct : v.Distinct := Json.Distinct.of_mem_members h.distinct hmem
  exact ⟨x', rfl, h.opens hw .extra .extra hxx' hdistinct (.some hvv')⟩

/-- **Under each key two results hold the same**, if the parts of the object become the same. -/
theorem reordered_of_converts (hshape : ShuffledShape properties properties' additional additional')
    (hinput : Json.Reordered (.object input) (.object input'))
    {C C' : Descriptor → Slot → Slot → Prop}
    (hC : ∀ {d d' s s' out out'}, Counterparts w w' d s d' s' → C d s out → C' d' s' out' →
      Slot.Reordered out out') {members members' : List (String × Json)}
    (hm : Converts w.direction properties additional C input members)
    (hm' : Converts w.direction properties' additional' C' input' members') :
    Json.Reordered (.object members) (.object members') := by
  have hn : (Keyed.keys input).Nodup := h.distinct.1
  have hn' : (Keyed.keys input').Nodup := h.symm.distinct.1
  have hout := (h.checked.nodup w.direction).2
  have hout' := (h.checked'.nodup w.direction).2
  refine Json.reordered_of_rel_lookup hm.nodup_keys hm'.nodup_keys fun key => ?_
  have hextras := rel_lookup_extras (hshape.perm_inputKey w.direction) hinput hn key
  generalize hv : (extras w.direction properties input).lookup key = extra at hextras
  generalize hv' : (extras w.direction properties' input').lookup key = extra' at hextras
  cases hextras with
  | some hvv' =>
    obtain ⟨x, o, hx, ho, hfound⟩ := hm.lookup_extra hn hout hv
    obtain ⟨x', o', hx', ho', hfound'⟩ := hm'.lookup_extra hn' hout' hv'
    obtain ⟨_, hy, hcx⟩ := h.extra hw hshape hx hv hvv'
    cases hx'.symm.trans hy
    rw [hfound, hfound']
    exact hC hcx ho ho'
  | none =>
    by_cases hkey : key ∈ properties'.map w.direction.outputKey
    · obtain ⟨p', hp', rfl⟩ := List.mem_map.mp hkey
      obtain ⟨p, hp, hpp⟩ := hshape.exists_mem hp'
      have ho' := hm'.lookup_property hn' hout' hp' hv'
      rw [hpp.outputKey] at hv ho' ⊢
      exact hC (h.property hw hinput hp hp' hpp) (hm.lookup_property hn hout hp hv) ho'
    · have hkey' : key ∉ properties.map w.direction.outputKey := fun hk =>
        hkey ((hshape.perm_outputKey w.direction).mem_iff.mp hk)
      rw [hm.lookup_none hn hout hv hkey', hm'.lookup_none hn' hout' hv' hkey]
      exact .none

end Objects

/-- **What one walk accepts the other does not refuse.** -/
theorem not_mismatches_of_shuffled (hw : Shuffled w w') (hd : w.table.Checked d)
    (h : w.Accepts d depth slot out) : ∀ {d' slot'}, Counterparts w w' d slot d' slot' →
      ∀ n, ¬ w'.Mismatches n d' depth slot' := by
  refine Accepts.induct hw.sound
    (motive := fun d depth slot _ => ∀ {d' slot'}, Counterparts w w' d slot d' slot' →
      ∀ n, ¬ w'.Mismatches n d' depth slot')
    ?leaf ?ref ?union ?array ?object hd h
  case leaf =>
    intro d depth slot out hd htakes d' slot' hc n
    obtain ⟨out', htakes', -⟩ := htakes.reordered hc.reordered hc.distinct
    rw [hc.descriptor.leaf_inv hd]
    exact (htakes'.accepts hd).not_mismatches
  case ref =>
    rintro name d depth slot out hget ih d' slot' hc (_ | n) hm
    · exact not_mismatches_zero hm
    · obtain rfl := hc.descriptor.ref_inv
      obtain ⟨e, hget', hde⟩ := hw.table.exists_get? hget
      exact ih (hc.opens hw (.ref hget) (.ref hget') hde hc.distinct hc.reordered) n (hm.ref hget')
  case union =>
    rintro before d after depth slot out - - ih d' slot' hc (_ | n) hm
    · exact not_mismatches_zero hm
    · obtain ⟨members', rfl, hmembers⟩ := hc.descriptor.union_inv
      have hd : d ∈ before ++ d :: after := by simp
      obtain ⟨d', hd', hdd'⟩ := exists_right_of_mem hmembers hd
      refine ih ?_ n (hm.union d' hd')
      exact hc.opens hw (.member hd) (.member hd') hdd' hc.distinct hc.reordered
  case array =>
    rintro item depth vs outs hdepth ih d' slot' hc (_ | n) hm
    · exact not_mismatches_zero hm
    · obtain ⟨item', rfl, hitem⟩ := hc.descriptor.array_inv
      obtain ⟨vs', rfl, hvs⟩ := hc.exists_items hw hitem
      obtain ⟨v', hv', hm⟩ := hm.array (hw.maxDepth ▸ hdepth)
      obtain ⟨v, hv, hcv⟩ := exists_left_of_mem hvs hv'
      obtain ⟨_, -, hih⟩ := exists_right_of_mem ih hv
      exact hih hcv n hm
  case object =>
    rintro properties additional depth input members hdepth hchecked ih d' slot' hc (_ | n) hm
    · exact not_mismatches_zero hm
    · obtain ⟨properties', additional', rfl, hshape⟩ := hc.descriptor.object_inv
      obtain ⟨input', rfl, hinput⟩ := hc.reordered.object_inv
      rcases hm.object (hc.checked'.nodup _).1 (hw.maxDepth ▸ hdepth) with
        ⟨p', hp', hm⟩ | ⟨m, hmem, hm⟩
      · obtain ⟨p, hp, hpp⟩ := hshape.exists_mem hp'
        obtain ⟨s, hs⟩ := ih.property hp
        rw [hw.direction] at hm
        exact hs (hc.property hw hinput hp hp' hpp) n hm
      · rw [hw.direction] at hmem
        obtain ⟨v, hv, hvm⟩ := exists_extra (hshape.perm_inputKey _) hinput hc.distinct hmem
        obtain ⟨x, _, hx, hs⟩ := ih.extra hv
        have hlookup := Keyed.lookup_of_mem (nodup_keys_extras hc.distinct.1) hv
        obtain ⟨x', hx', hcx⟩ := hc.extra hw hshape hx hlookup hvm
        exact hs hcx n (hm x' hx')

/-- Two marks on lists that correspond: the one comes before the other, or they meet. -/
theorem forall₂_meet {α β : Type} {R : α → β → Prop} {x : α} {y : β} {after : List α}
    {after' : List β} : ∀ {before : List α} {before' : List β},
      List.Forall₂ R (before ++ x :: after) (before' ++ y :: after') →
      (∃ a ∈ before, R a y) ∨ R x y ∨ ∃ b ∈ before', R x b
  | [], [], .cons h _ => .inr (.inl h)
  | [], b :: before', .cons h _ => .inr (.inr ⟨b, List.mem_cons_self, h⟩)
  | a :: before, [], .cons h _ => .inl ⟨a, List.mem_cons_self, h⟩
  | a :: before, b :: before', .cons _ h => by
    rcases forall₂_meet h with ⟨c, hc, hr⟩ | hr | ⟨c, hc, hr⟩
    · exact .inl ⟨c, List.mem_cons_of_mem _ hc, hr⟩
    · exact .inr (.inl hr)
    · exact .inr (.inr ⟨c, List.mem_cons_of_mem _ hc, hr⟩)

/-- What is related along three sides of a square is related along the fourth. -/
theorem forall₂_around {α β γ δ : Type} {P : α → β → Prop} {Q : α → γ → Prop} {R : γ → δ → Prop}
    {S : β → δ → Prop} (h : ∀ a b c d, P a b → Q a c → R c d → S b d) :
    ∀ {as : List α} {bs : List β} {cs : List γ} {ds : List δ}, List.Forall₂ P as bs →
      List.Forall₂ Q as cs → List.Forall₂ R cs ds → List.Forall₂ S bs ds
  | _, _, _, _, .nil, .nil, .nil => .nil
  | _, _, _, _, .cons hp hps, .cons hq hqs, .cons hr hrs =>
    .cons (h _ _ _ _ hp hq hr) (forall₂_around h hps hqs hrs)

/-- **What both walks accept they convert to the same**, but for the order of keys. -/
theorem reordered_of_accepts (hw : Shuffled w w') (hd : w.table.Checked d)
    (h : w.Accepts d depth slot out) : ∀ {d' slot' out'}, Counterparts w w' d slot d' slot' →
      w'.Accepts d' depth slot' out' → Slot.Reordered out out' := by
  refine Accepts.induct hw.sound
    (motive := fun d depth slot out => ∀ {d' slot' out'}, Counterparts w w' d slot d' slot' →
      w'.Accepts d' depth slot' out' → Slot.Reordered out out')
    ?leaf ?ref ?union ?array ?object hd h
  case leaf =>
    intro d depth slot out hd htakes d' slot' out' hc h'
    obtain ⟨_, htakes', hout⟩ := htakes.reordered hc.reordered hc.distinct
    rw [hc.descriptor.leaf_inv hd] at h'
    rwa [h'.unique (htakes'.accepts hd)]
  case ref =>
    rintro name d depth slot out hget ih d' slot' out' hc ⟨_ | n, h'⟩
    · exact (not_acceptsIn_zero h').elim
    · obtain rfl := hc.descriptor.ref_inv
      obtain ⟨e, hget', h'⟩ := acceptsIn_ref_iff.mp h'
      obtain ⟨_, he, hde⟩ := hw.table.exists_get? hget
      cases hget'.symm.trans he
      exact ih (hc.opens hw (.ref hget) (.ref hget') hde hc.distinct hc.reordered) h'.accepts
  case union =>
    rintro before d after depth slot out hb ha ih d' slot' out' hc ⟨_ | n, h'⟩
    · exact (not_acceptsIn_zero h').elim
    · obtain ⟨members', rfl, hmembers⟩ := hc.descriptor.union_inv
      obtain ⟨before', e, after', rfl, hb', h'⟩ := acceptsIn_union_iff.mp h'
      have hpair {a b : Descriptor} (ha : a ∈ before ++ d :: after)
          (hb : b ∈ before' ++ e :: after') (hab : a.Shuffled b) : Counterparts w w' a slot b slot' :=
        hc.opens hw (.member ha) (.member hb) hab hc.distinct hc.reordered
      rcases forall₂_meet hmembers with ⟨a, hmem, hae⟩ | hde | ⟨b, hmem, hdb⟩
      · -- what stands in the place of a member passed over is not accepted
        obtain ⟨k, m, hm⟩ := hb a hmem
        have hcae := hpair (List.mem_append_left _ hmem) (by simp) hae
        exact (not_mismatches_of_shuffled hw.symm hcae.checked' h'.accepts hcae.symm k ⟨m, hm⟩).elim
      · exact ih (hpair (by simp) (by simp) hde) h'.accepts
      · have hcdb := hpair (by simp) (List.mem_append_left _ hmem) hdb
        exact (not_mismatches_of_shuffled hw hcdb.checked ha hcdb n (hb' b hmem)).elim
  case array =>
    rintro item depth vs outs - ih d' slot' out' hc ⟨_ | n, h'⟩
    · exact (not_acceptsIn_zero h').elim
    · obtain ⟨item', rfl, hitem⟩ := hc.descriptor.array_inv
      obtain ⟨vs', rfl, hvs⟩ := hc.exists_items hw hitem
      obtain ⟨_, outs', ⟨⟩, rfl, -, h'⟩ := acceptsIn_array_iff.mp h'
      have houts : List.Forall₂ Json.Reordered outs outs' :=
        forall₂_around (fun _ _ _ _ hv hcv hv' => by
          cases hv hcv hv'.accepts with
          | some h => exact h) ih hvs h'
      exact .some (.array (Json.reorderedItems_of_forall₂ houts))
  case object =>
    rintro properties additional depth input members - hchecked ih d' slot' out' hc ⟨_ | n, h'⟩
    · exact (not_acceptsIn_zero h').elim
    · obtain ⟨properties', additional', rfl, hshape⟩ := hc.descriptor.object_inv
      obtain ⟨input', rfl, hinput⟩ := hc.reordered.object_inv
      obtain ⟨_, members', ⟨⟩, rfl, -, h'⟩ :=
        (acceptsIn_object_iff (hc.checked'.nodup _).1).mp h'
      rw [hw.direction] at h'
      exact .some (reordered_of_converts hc hw hshape hinput
        (fun hparts hv hv' => hv hparts hv'.accepts) ih h')

end Pairs
end Walk

/-! ### The conversions -/

namespace Engine

open Descriptor (Shuffled)

section Shuffled

variable {e e' : Engine} {v v' out out' : Json} {root : String} {direction : Direction}
  (hw : Walk.Shuffled (e.walk direction) (e'.walk direction)) (hd : v.Distinct)
  (hv : v.Reordered v')

include hw hd hv

/-- A conversion that succeeds starts at a place to which the other one has a counterpart. -/
theorem counterparts_of_convert (h : e.convert v root direction = .ok out) :
    ∃ d', e'.table.get? root = some d' ∧
      Walk.Counterparts (e.walk direction) (e'.walk direction) (.ref root) (some v) (.ref root)
        (some v') ∧ (e.walk direction).Accepts (.ref root) 0 (some v) (some out) := by
  obtain ⟨d, hroot, hchecked, ha⟩ := accepts_of_convert hw.sound h
  obtain ⟨d', hroot', -⟩ := hw.table.exists_get? hroot
  have hchecked' : (e'.walk direction).table.Checked (.ref root) :=
    hw.sound'.checked_ref hroot' .refl
  exact ⟨d', hroot', ⟨hchecked, hchecked', .same _, hd, .some hv⟩, ha⟩

theorem exists_convert_of_shuffled (hp : e'.table.Productive)
    (h : ∃ out, e.convert v root direction = .ok out) :
    ∃ out', e'.convert v' root direction = .ok out' := by
  obtain ⟨out, h⟩ := h
  obtain ⟨d', -, hc, ha⟩ := counterparts_of_convert hw hd hv h
  exact exists_convert_of_not_mismatches hp (Walk.not_mismatches_of_shuffled hw hc.checked ha hc)

theorem reordered_of_convert (h : e.convert v root direction = .ok out)
    (h' : e'.convert v' root direction = .ok out') : out.Reordered out' := by
  obtain ⟨d', -, hc, ha⟩ := counterparts_of_convert hw hd hv h
  cases Walk.reordered_of_accepts hw hc.checked ha hc (convert_eq_ok_iff.mp h') with
  | some h => exact h

end Shuffled

/-- **The order of keys carries no meaning**, neither in documents nor in object shapes, where
every conversion ends. -/
theorem convert_shuffled {definitions : List (String × Descriptor)} {table table' : Table}
    (ht : Table.build definitions = .ok table) (hT : table.Related Shuffled table')
    {v v' : Json} (hd : v.Distinct) (hv : v.Reordered v') (maxDepth : Nat) (root : String)
    (direction : Direction) :
    Table.build table'.definitions = .ok table' ∧
    (table.Productive →
      ((∃ out, (⟨table, maxDepth⟩ : Engine).convert v root direction = .ok out) ↔
        ∃ out', (⟨table', maxDepth⟩ : Engine).convert v' root direction = .ok out')) ∧
    ∀ out out', (⟨table, maxDepth⟩ : Engine).convert v root direction = .ok out →
      (⟨table', maxDepth⟩ : Engine).convert v' root direction = .ok out' → out.Reordered out' := by
  let e : Engine := ⟨table, maxDepth⟩
  let e' : Engine := ⟨table', maxDepth⟩
  have ht' : Table.build table'.definitions = .ok table' := Table.build_shuffled ht hT
  have hw : Walk.Shuffled (e.walk direction) (e'.walk direction) :=
    ⟨Table.build_sound ht, Table.build_sound ht', hT, rfl, rfl⟩
  refine ⟨ht', fun hp => ⟨?_, ?_⟩, fun out out' h h' => reordered_of_convert hw hd hv h h'⟩
  · exact exists_convert_of_shuffled hw hd hv (hp.of_shuffled hT)
  · exact exists_convert_of_shuffled hw.symm (hd.of_reordered hv) hv.symm hp

/-! ### Two orders -/

/-- Boxes with two renamed properties, and other keys. -/
def boxes : List (String × Descriptor) :=
  [("Box", .object [⟨"a", "x", .date⟩, ⟨"b", "y", .array (.ref "Box")⟩] (.allow .any))]

/-- The same boxes, declared the other way round. -/
def boxes' : List (String × Descriptor) :=
  [("Box", .object [⟨"b", "y", .array (.ref "Box")⟩, ⟨"a", "x", .date⟩] (.allow .any))]

theorem shuffled_boxes : Table.Related Shuffled ⟨boxes⟩ ⟨boxes'⟩ :=
  .cons ⟨rfl, .of_perm (.swap _ _ []) _⟩ .nil

theorem productive_boxes : Table.Productive ⟨boxes⟩ :=
  Table.productive_of_shapes (by simp [boxes])

/-- The undeclared `x` wins over the declared one in either order. -/
theorem convert_shuffled_boxes :
    let day : Json := .string "2024-02-29"
    let v : Json := .object [("a", day), ("x", .null), ("b", .array [.object [("a", day),
      ("b", .array [])]])]
    let v' : Json := .object [("b", .array [.object [("b", .array []), ("a", day)]]),
      ("x", .null), ("a", day)]
    Table.build boxes' = .ok ⟨boxes'⟩ ∧ ∃ out out',
      (⟨⟨boxes⟩, 9⟩ : Engine).convert v "Box" .decode = .ok out ∧
      (⟨⟨boxes'⟩, 9⟩ : Engine).convert v' "Box" .decode = .ok out' ∧ out.Reordered out' := by
  intro day v v'
  have hbuild : Table.build boxes = .ok ⟨boxes⟩ := rfl
  have hd : v.Distinct := by
    simp [v, day]
  have hv : v.Reordered v' := by
    refine .object (.cons (.same _) (.cons (.same _) (.cons (.array (.cons (.object
      (.cons (.same _) (.cons (.same _) .nil)) (.swap _ _ [])) .nil)) .nil))) ?_
    exact (List.reverse_perm _).symm
  obtain ⟨hbuild', hiff, hsame⟩ := convert_shuffled hbuild shuffled_boxes hd hv 9 "Box" .decode
  have hconvert : ∃ out, (⟨⟨boxes⟩, 9⟩ : Engine).convert v "Box" .decode = .ok out :=
    ⟨.object [("x", .null), ("y", .array [.object [("x", .string "2024-02-29T00:00:00.000Z"),
      ("y", .array [])]])], by cbv⟩
  obtain ⟨out', h'⟩ := (hiff productive_boxes).mp hconvert
  obtain ⟨out, h⟩ := hconvert
  exact ⟨hbuild', out, out', h, h', hsame out out' h h'⟩

/-! ### A walk that ends in one order only -/

/-- A type that leads back to itself, as one of two properties. -/
def knot : List (String × Descriptor) :=
  [("Loop", .union [.null, .ref "Loop"]),
    ("Box", .union [.object [⟨"a", "a", .ref "Loop"⟩, ⟨"b", "b", .primitive .number⟩] .reject,
      .any])]

/-- The same, declared after the other one. -/
def knot' : List (String × Descriptor) :=
  [("Loop", .union [.null, .ref "Loop"]),
    ("Box", .union [.object [⟨"b", "b", .primitive .number⟩, ⟨"a", "a", .ref "Loop"⟩] .reject,
      .any])]

/-- The mismatch on `b` spares a walk the part without an end if it is met before `a`. -/
theorem not_convert_shuffled :
    let v : Json := .object [("a", .bool true), ("b", .string "x")]
    Table.build knot = .ok ⟨knot⟩ ∧ Table.build knot' = .ok ⟨knot'⟩ ∧
      Table.Related Shuffled ⟨knot⟩ ⟨knot'⟩ ∧ v.Distinct ∧ v.Reordered v ∧
      (⟨⟨knot⟩, 9⟩ : Engine).convert v "Box" .decode = .error .endless ∧
      (⟨⟨knot'⟩, 9⟩ : Engine).convert v "Box" .decode = .ok v := by
  intro v
  have hshuffled : Table.Related Shuffled ⟨knot⟩ ⟨knot'⟩ := by
    refine .cons ⟨rfl, .same _⟩ (.cons ⟨rfl, .of_congruent (.union ?_)⟩ .nil)
    exact .cons (Descriptor.Shuffled.of_perm (.swap _ _ []) _) (.cons (.same _) .nil)
  have hd : v.Distinct := by
    simp [v]
  exact ⟨rfl, rfl, hshuffled, hd, .same v, by cbv, by cbv⟩

end Engine

end Wireform
