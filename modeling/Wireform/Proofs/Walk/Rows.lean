/-
# Objects row by row

An object that was put together from rows, a key and a slot each, and from members
under other keys, can be taken apart again: a look-up under the key of a row finds
its slot (`lookup_assembled`), and the members that the rows do not declare are the
others (`extras_assembled`). So it is converted row by row (`converts_assembled`),
and an object that was taken apart and put together is the same but for the order
of its members (`assembled_perm`).

What an object was converted to is read key by key. Under the key of an undeclared
member stands what became of it (`Converts.lookup_extra`), under another output key what
became of its property (`Converts.lookup_property`), and under no other key anything
(`Converts.lookup_none`).

Key definitions: `Fresh`.
Key theorems: `lookup_assembled`, `extras_assembled`, `converts_assembled`,
`assembled_perm`, `Converts.lookup_extra`, `Converts.lookup_property`.
-/
import Wireform.Proofs.Walk.Accept
import Mathlib.Data.List.Perm.Basic
import Mathlib.Data.List.Nodup

namespace Wireform
namespace Walk

theorem forall₂_rows {ρ α β : Type} {R : α → β → Prop} {rows : List ρ} {f : ρ → α} {g : ρ → β}
    (h : ∀ r ∈ rows, R (f r) (g r)) : List.Forall₂ R (rows.map f) (rows.map g) := by
  rw [List.forall₂_map_left_iff, List.forall₂_map_right_iff, List.forall₂_same]
  exact h

/-! ### Written rows -/

theorem keys_written_sublist : ∀ (keys : List String) (slots : List Slot),
    (Keyed.keys (written keys slots)).Sublist keys
  | key :: keys, some _ :: slots => (keys_written_sublist keys slots).cons_cons key
  | key :: keys, none :: slots => (keys_written_sublist keys slots).cons key
  | [], [] | [], _ :: _ | _ :: _, [] => by simp

section Rows

variable {ρ : Type} {rows : List ρ} {key : ρ → String} {slot : ρ → Slot}

theorem mem_written_map : ∀ {rows : List ρ} {m : String × Json},
    m ∈ written (rows.map key) (rows.map slot) ↔ ∃ r ∈ rows, key r = m.1 ∧ slot r = some m.2
  | [], m => by simp
  | r :: rows, m => by
    rw [List.map_cons, List.map_cons, List.exists_mem_cons_iff, ← mem_written_map]
    cases hs : slot r with
    | none => simp
    | some v =>
      rw [written, List.mem_cons, Prod.ext_iff, eq_comm, Option.some.injEq, @eq_comm _ m.2 v]

theorem nodup_keys_written (hn : (rows.map key).Nodup) :
    (Keyed.keys (written (rows.map key) (rows.map slot))).Nodup :=
  (keys_written_sublist _ _).nodup hn

/-- Slots that are present alike are written to members that correspond. -/
theorem forall₂_written {R : Json → Json → Prop} {a b : ρ → Slot} : ∀ {rows : List ρ},
    (∀ r ∈ rows, Option.Rel R (a r) (b r)) →
      List.Forall₂ (fun m n => n.1 = m.1 ∧ R m.2 n.2) (written (rows.map key) (rows.map a))
        (written (rows.map key) (rows.map b))
  | [], _ => .nil
  | r :: rows, h => by
    have hrest := forall₂_written fun x hx => h x (List.mem_cons_of_mem r hx)
    have hr := h r List.mem_cons_self
    simp only [List.map_cons]
    generalize a r = s at hr ⊢
    generalize b r = t at hr ⊢
    cases hr with
    | some h => exact .cons ⟨rfl, h⟩ hrest
    | none => exact hrest

/-- Members under keys that no row has. -/
def Fresh (rows : List ρ) (key : ρ → String) (xs : List (String × Json)) : Prop :=
  ∀ k ∈ Keyed.keys xs, k ∉ rows.map key

variable {xs : List (String × Json)}

theorem Fresh.congr {ys : List (String × Json)} (h : Fresh rows key xs)
    (hkeys : Keyed.keys ys = Keyed.keys xs) : Fresh rows key ys := by
  rwa [Fresh, hkeys]

theorem nodup_assembled (hn : (rows.map key).Nodup) (hxs : (Keyed.keys xs).Nodup)
    (hfresh : Fresh rows key xs) :
    (Keyed.keys (written (rows.map key) (rows.map slot) ++ xs)).Nodup := by
  rw [Keyed.keys_append]
  refine List.nodup_append.mpr ⟨nodup_keys_written hn, hxs, ?_⟩
  rintro a ha b hb rfl
  exact hfresh a hb ((keys_written_sublist _ _).subset ha)

theorem lookup_assembled (hn : (rows.map key).Nodup) (hfresh : Fresh rows key xs) {r : ρ}
    (hr : r ∈ rows) : (written (rows.map key) (rows.map slot) ++ xs).lookup (key r) = slot r := by
  have hxs : xs.lookup (key r) = none :=
    Keyed.lookup_eq_none_iff_notMem.mpr fun hk => hfresh _ hk (List.mem_map_of_mem hr)
  rw [List.lookup_append, hxs, Option.or_none]
  cases hs : slot r with
  | some v =>
    exact Keyed.lookup_of_mem (nodup_keys_written hn) (mem_written_map.mpr ⟨r, hr, rfl, hs⟩)
  | none =>
    refine Keyed.lookup_eq_none_iff_notMem.mpr fun hk => ?_
    obtain ⟨m, hm, hmk⟩ := List.mem_map.mp hk
    obtain ⟨r', hr', hkey, hslot⟩ := mem_written_map.mp hm
    have heq : r' = r := List.inj_on_of_nodup_map hn hr' hr (hkey.trans hmk)
    rw [heq, hs] at hslot
    cases hslot

/-! ### Converting rows -/

variable {direction : Direction} {p : ρ → Property Descriptor}

theorem extras_assembled (hfresh : Fresh rows (fun r => direction.inputKey (p r)) xs) :
    extras direction (rows.map p)
      (written (rows.map fun r => direction.inputKey (p r)) (rows.map slot) ++ xs) = xs := by
  have hkeys : (rows.map p).map direction.inputKey = rows.map fun r => direction.inputKey (p r) :=
    List.map_map
  rw [extras, hkeys, List.filter_append]
  have hdeclared : (written (rows.map fun r => direction.inputKey (p r)) (rows.map slot)).filter
      (fun m => decide (m.1 ∉ rows.map fun r => direction.inputKey (p r))) = [] := by
    refine List.filter_eq_nil_iff.mpr fun m hm => ?_
    have hk := (keys_written_sublist _ _).subset (List.mem_map_of_mem (f := (·.1)) hm)
    simpa using hk
  have hothers : xs.filter
      (fun m => decide (m.1 ∉ rows.map fun r => direction.inputKey (p r))) = xs := by
    refine List.filter_eq_self.mpr fun m hm => decide_eq_true ?_
    exact hfresh _ (List.mem_map_of_mem hm)
  rw [hdeclared, hothers, List.nil_append]

/-- **An object put together from rows is converted row by row.** -/
theorem converts_assembled {additional : Additional Descriptor} {C : Descriptor → Slot → Slot → Prop}
    {a b : ρ → Slot} {ys : List (String × Json)}
    (hin : (rows.map fun r => direction.inputKey (p r)).Nodup)
    (hout : (rows.map fun r => direction.outputKey (p r)).Nodup)
    (hrows : ∀ r ∈ rows, C (p r).descriptor (a r) (b r))
    (hxs : List.Forall₂ (fun x y => y.1 = x.1 ∧
      ∃ d, additional = .allow d ∧ C d (some x.2) (some y.2)) xs ys)
    (hdistinct : (Keyed.keys xs).Nodup)
    (hfresh : Fresh rows (fun r => direction.inputKey (p r)) xs)
    (hfresh' : Fresh rows (fun r => direction.outputKey (p r)) xs) :
    Converts direction (rows.map p) additional C
      (written (rows.map fun r => direction.inputKey (p r)) (rows.map a) ++ xs)
      (written (rows.map fun r => direction.outputKey (p r)) (rows.map b) ++ ys) := by
  have hkeys : Keyed.keys ys = Keyed.keys xs := keys_eq_of_forall₂ hxs
  refine ⟨rows.map b, ys, ?_, ?_, ?_⟩
  · refine forall₂_rows fun r hr => ?_
    rw [lookup_assembled hin hfresh hr]
    exact hrows r hr
  · rw [extras_assembled hfresh]
    exact hxs
  · rw [List.map_map]
    refine (Keyed.ofList_eq_self (nodup_assembled hout (hkeys ▸ hdistinct) ?_)).symm
    intro k hk
    exact hfresh' k (hkeys ▸ hk)

end Rows

section Apart

variable {direction : Direction} {properties : List (Property Descriptor)}
  {input : List (String × Json)}

theorem fresh_extras : Fresh properties direction.inputKey (extras direction properties input) := by
  intro k hk
  obtain ⟨m, hm, rfl⟩ := List.mem_map.mp hk
  exact of_decide_eq_true (List.mem_filter.mp hm).2

theorem nodup_keys_extras (hn : (Keyed.keys input).Nodup) :
    (Keyed.keys (extras direction properties input)).Nodup :=
  ((List.filter_sublist (l := input)).map Prod.fst).nodup hn

/-- A member of the result comes from a declared property or from an undeclared member. -/
theorem Converts.mem {additional : Additional Descriptor} {C : Descriptor → Slot → Slot → Prop}
    {out : List (String × Json)} (h : Converts direction properties additional C input out)
    {m : String × Json} (hm : m ∈ out) :
    (∃ p ∈ properties, direction.outputKey p = m.1 ∧
        C p.descriptor (input.lookup (direction.inputKey p)) (some m.2)) ∨
      ∃ x ∈ extras direction properties input, x.1 = m.1 ∧
        ∃ d, additional = .allow d ∧ C d (some x.2) (some m.2) := by
  obtain ⟨slots, xs, hslots, hxs, rfl⟩ := h
  have hmem := (Keyed.mem_putAll hm).resolve_left List.not_mem_nil
  rcases List.mem_append.mp hmem with hmem | hmem
  · obtain ⟨rows, rfl, rfl, hrows⟩ := exists_rows hslots
    rw [List.map_map] at hmem
    obtain ⟨r, hr, hkey, hslot⟩ := mem_written_map.mp hmem
    have hc := hrows r hr
    rw [hslot] at hc
    exact .inl ⟨r.1, List.mem_map_of_mem hr, hkey, hc⟩
  · obtain ⟨rows, hextras, rfl, hrows⟩ := exists_rows hxs
    obtain ⟨r, hr, rfl⟩ := List.mem_map.mp hmem
    obtain ⟨hkey, hc⟩ := hrows r hr
    exact .inr ⟨r.1, hextras ▸ List.mem_map_of_mem hr, hkey.symm, hc⟩

/-! ### What stands under a key of the result -/

theorem lookup_extras (key : String) : (extras direction properties input).lookup key =
    if key ∈ properties.map direction.inputKey then none else input.lookup key := by
  unfold extras
  induction input with
  | nil => simp
  | cons m input ih =>
    obtain ⟨k, v⟩ := m
    by_cases hk : key = k
    · subst hk
      by_cases hd : key ∈ properties.map direction.inputKey
      · rw [List.filter_cons_of_neg (by simpa using hd), ih, if_pos hd, if_pos hd]
      · rw [List.filter_cons_of_pos (by simpa using hd), if_neg hd, List.lookup_cons_self,
          List.lookup_cons_self]
    · rw [Keyed.lookup_cons_of_ne hk, ← ih, List.filter_cons]
      split
      · exact Keyed.lookup_cons_of_ne hk _ _
      · rfl

section Found

variable {additional : Additional Descriptor} {C : Descriptor → Slot → Slot → Prop}
  {out : List (String × Json)} {key : String}

theorem Converts.nodup_keys (h : Converts direction properties additional C input out) :
    (Keyed.keys out).Nodup := by
  obtain ⟨slots, xs, -, -, rfl⟩ := h
  exact Keyed.nodup_keys_ofList _

/-- A look-up in a result comes upon the undeclared members before the declared ones, since
they are written later. -/
theorem Converts.exists_lookup (h : Converts direction properties additional C input out)
    (hn : (Keyed.keys input).Nodup) (hout : (properties.map direction.outputKey).Nodup) :
    ∃ slots, ∃ xs : List (String × Json),
      List.Forall₂ (fun p s => C p.descriptor (input.lookup (direction.inputKey p)) s)
        properties slots ∧
      (∀ key, Option.Rel (fun v v' => ∃ d, additional = .allow d ∧ C d (some v) (some v'))
        ((extras direction properties input).lookup key) (xs.lookup key)) ∧
      ∀ key, out.lookup key =
        (xs.lookup key).or ((written (properties.map direction.outputKey) slots).lookup key) := by
  obtain ⟨slots, xs, hslots, hxs, rfl⟩ := h
  have hkeys : (Keyed.keys xs).Nodup := by
    rw [keys_eq_of_forall₂ hxs]
    exact nodup_keys_extras hn
  have hwritten := (keys_written_sublist (properties.map direction.outputKey) slots).nodup hout
  exact ⟨slots, xs, hslots, Keyed.rel_lookup_of_forall₂ hxs,
    Keyed.lookup_ofList_append hwritten hkeys⟩

/-- An undeclared member is found under its own key, whatever was declared. -/
theorem Converts.lookup_extra (h : Converts direction properties additional C input out)
    (hn : (Keyed.keys input).Nodup) (hout : (properties.map direction.outputKey).Nodup) {v : Json}
    (hv : (extras direction properties input).lookup key = some v) :
    ∃ d v', additional = .allow d ∧ C d (some v) (some v') ∧ out.lookup key = some v' := by
  obtain ⟨slots, xs, -, hxs, hlookup⟩ := h.exists_lookup hn hout
  have hrel := hxs key
  have hkey := hlookup key
  rw [hv] at hrel
  generalize xs.lookup key = s at hrel hkey
  cases hrel with
  | @some _ v' hc =>
    obtain ⟨d, hd, hc⟩ := hc
    exact ⟨d, v', hd, hc, hkey⟩

/-- Where there is no undeclared member, a look-up goes on among the declared properties. -/
theorem Converts.lookup_of_none (h : Converts direction properties additional C input out)
    (hn : (Keyed.keys input).Nodup) (hout : (properties.map direction.outputKey).Nodup)
    (hv : (extras direction properties input).lookup key = none) :
    ∃ slots, List.Forall₂ (fun p s => C p.descriptor (input.lookup (direction.inputKey p)) s)
        properties slots ∧
      out.lookup key = (written (properties.map direction.outputKey) slots).lookup key := by
  obtain ⟨slots, xs, hslots, hxs, hlookup⟩ := h.exists_lookup hn hout
  have hrel := hxs key
  have hkey := hlookup key
  rw [hv] at hrel
  generalize xs.lookup key = s at hrel hkey
  cases hrel with
  | none => exact ⟨slots, hslots, hkey.trans Option.none_or⟩

theorem Converts.lookup_property (h : Converts direction properties additional C input out)
    (hn : (Keyed.keys input).Nodup) (hout : (properties.map direction.outputKey).Nodup)
    {p : Property Descriptor} (hp : p ∈ properties)
    (hv : (extras direction properties input).lookup (direction.outputKey p) = none) :
    C p.descriptor (input.lookup (direction.inputKey p)) (out.lookup (direction.outputKey p)) := by
  obtain ⟨slots, hslots, hlookup⟩ := h.lookup_of_none hn hout hv
  obtain ⟨rows, rfl, rfl, hrows⟩ := exists_rows hslots
  obtain ⟨r, hr, rfl⟩ := List.mem_map.mp hp
  have hfresh : Fresh rows (direction.outputKey ∘ Prod.fst) [] := fun k hk => by cases hk
  rw [List.map_map] at hout hlookup
  have hfound : (written (rows.map (direction.outputKey ∘ Prod.fst)) (rows.map Prod.snd) ++
      []).lookup (direction.outputKey r.1) = r.2 := lookup_assembled hout hfresh hr
  rw [List.append_nil] at hfound
  rw [hlookup, hfound]
  exact hrows r hr

theorem Converts.lookup_none (h : Converts direction properties additional C input out)
    (hn : (Keyed.keys input).Nodup) (hout : (properties.map direction.outputKey).Nodup)
    (hv : (extras direction properties input).lookup key = none)
    (hkey : key ∉ properties.map direction.outputKey) : out.lookup key = none := by
  obtain ⟨slots, -, hlookup⟩ := h.lookup_of_none hn hout hv
  have hsublist := keys_written_sublist (properties.map direction.outputKey) slots
  rw [hlookup, Keyed.lookup_eq_none_iff_notMem]
  exact fun hk => hkey (hsublist.subset hk)

end Found

/-- **An object taken apart and put together has the same members.** -/
theorem assembled_perm (hk : (properties.map direction.inputKey).Nodup)
    (hn : (Keyed.keys input).Nodup) :
    (written (properties.map direction.inputKey)
        (properties.map fun p => input.lookup (direction.inputKey p)) ++
      extras direction properties input).Perm input := by
  refine (List.perm_ext_iff_of_nodup ?_ (List.Nodup.of_map _ hn)).mpr fun m => ?_
  · exact List.Nodup.of_map _ (nodup_assembled hk (nodup_keys_extras hn) fresh_extras)
  rw [List.mem_append, mem_written_map, extras, List.mem_filter]
  constructor
  · rintro (⟨p, -, hpk, hl⟩ | ⟨hm, -⟩)
    · rw [hpk] at hl
      exact Keyed.mem_of_lookup hl
    · exact hm
  · intro hm
    by_cases hd : m.1 ∈ properties.map direction.inputKey
    · obtain ⟨p, hp, hpk⟩ := List.mem_map.mp hd
      refine .inl ⟨p, hp, hpk, ?_⟩
      rw [hpk]
      exact Keyed.lookup_of_mem hn hm
    · exact .inr ⟨hm, decide_eq_true hd⟩

end Apart

end Walk
end Wireform
