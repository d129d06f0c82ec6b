/-
# Keyed lists without repeated keys

Where no key stands twice, a look-up finds exactly the entries, and writing entries
one after the other only appends them.

Key theorems: `Keyed.lookup_of_mem`, `Keyed.firstRepeated_nil_eq_none_iff`,
`Keyed.duplicate_of_firstRepeated_nil`,
`Keyed.ofList_eq_self`, `Keyed.nodup_keys_ofList`, `Keyed.rel_lookup_of_forall₂`,
`Keyed.exists_perm_of_rel_lookup`, `Keyed.lookup_putAll`, `Keyed.lookup_ofList`.
-/
import Wireform.Keyed
import Wireform.Proofs.Sequence
import Mathlib.Data.List.Duplicate
import Mathlib.Data.List.Forall2
import Mathlib.Data.List.Nodup

namespace Wireform
namespace Keyed

variable {α : Type}

theorem lookup_cons {κ : Type} [BEq κ] [LawfulBEq κ] [DecidableEq κ] (key other : κ) (value : α)
    (rest : List (κ × α)) : List.lookup other ((key, value) :: rest) =
      if other = key then some value else rest.lookup other := by
  rw [List.lookup_cons]
  by_cases h : other = key
  · rw [if_pos h, beq_iff_eq.mpr h]
  · rw [if_neg h, beq_eq_false_iff_ne.mpr h]

theorem mem_keys_of_mem {entries : List (String × α)} {key : String} {value : α}
    (h : (key, value) ∈ entries) : key ∈ keys entries := List.mem_map_of_mem h

theorem mem_of_lookup {entries : List (String × α)} {key : String} {value : α}
    (h : entries.lookup key = some value) : (key, value) ∈ entries := by
  obtain ⟨front, back, rfl, -⟩ := List.lookup_eq_some_iff.mp h
  simp

theorem lookup_of_mem : ∀ {entries : List (String × α)} {key : String} {value : α},
    (keys entries).Nodup → (key, value) ∈ entries → entries.lookup key = some value
  | (k, v) :: rest, key, value, hn, hm => by
    rw [keys_cons, List.nodup_cons] at hn
    rcases List.mem_cons.mp hm with heq | hm
    · cases heq
      exact List.lookup_cons_self
    · have hne : key ≠ k := fun he => hn.1 (he ▸ mem_keys_of_mem hm)
      rw [lookup_cons_of_ne hne]
      exact lookup_of_mem hn.2 hm

theorem lookup_eq_none_iff_notMem {entries : List (String × α)} {key : String} :
    entries.lookup key = none ↔ key ∉ keys entries := by
  rw [List.lookup_eq_none_iff]
  simp only [keys, List.mem_map, not_exists, not_and]
  constructor
  · intro h e he hk
    simpa [hk] using h e he
  · intro h e he
    simpa using fun hk : key = e.1 => h e he hk.symm

theorem isSome_lookup_iff {entries : List (String × α)} {key : String} :
    (entries.lookup key).isSome = true ↔ key ∈ keys entries := by
  rw [Option.isSome_iff_ne_none, ne_eq, lookup_eq_none_iff_notMem, not_not]

theorem firstRepeated_eq_none_iff : ∀ (ks seen : List String),
    firstRepeated seen ks = none ↔ ks.Nodup ∧ ∀ k ∈ ks, k ∉ seen
  | [], seen => by simp [firstRepeated]
  | k :: ks, seen => by
    unfold firstRepeated
    by_cases hk : k ∈ seen
    · simp [hk]
    · rw [if_neg hk, firstRepeated_eq_none_iff ks (k :: seen)]
      simp only [List.mem_cons, not_or, List.nodup_cons, forall_eq_or_imp]
      constructor
      · rintro ⟨hn, hs⟩
        exact ⟨⟨fun hm => (hs k hm).1 rfl, hn⟩, hk, fun x hx => (hs x hx).2⟩
      · rintro ⟨⟨hm, hn⟩, -, hs⟩
        exact ⟨hn, fun x hx => ⟨fun he => hm (he ▸ hx), hs x hx⟩⟩

/-- No key is found twice exactly if there is none. -/
theorem firstRepeated_nil_eq_none_iff {ks : List String} : firstRepeated [] ks = none ↔ ks.Nodup := by
  rw [firstRepeated_eq_none_iff]
  exact and_iff_left fun _ _ => List.not_mem_nil

/-- A key that is found was seen before, or it stands twice. -/
theorem duplicate_of_firstRepeated : ∀ {ks seen : List String} {k : String},
    firstRepeated seen ks = some k → k ∈ seen ∧ k ∈ ks ∨ List.Duplicate k ks
  | x :: ks, seen, k, h => by
    unfold firstRepeated at h
    split at h
    · rename_i hx
      cases h
      exact .inl ⟨hx, List.mem_cons_self⟩
    · rcases duplicate_of_firstRepeated h with ⟨hk, hks⟩ | hd
      · rcases List.mem_cons.mp hk with rfl | hk
        · exact .inr hks.duplicate_cons_self
        · exact .inl ⟨hk, List.mem_cons_of_mem x hks⟩
      · exact .inr (hd.duplicate_cons x)

theorem duplicate_of_firstRepeated_nil {ks : List String} {k : String}
    (h : firstRepeated [] ks = some k) : List.Duplicate k ks :=
  (duplicate_of_firstRepeated h).resolve_left fun hand => List.not_mem_nil hand.1

/-- A key that is new is written at the end. -/
theorem put_of_notMem {entries : List (String × α)} {key : String} (value : α)
    (h : key ∉ keys entries) : put entries key value = entries ++ [(key, value)] := by
  induction entries with
  | nil => rfl
  | cons e rest ih =>
    rw [keys_cons, List.mem_cons, not_or] at h
    rw [put, if_neg (Ne.symm h.1), ih h.2, List.cons_append]

theorem putAll_append_of_nodup : ∀ (entries out : List (String × α)),
    (keys (out ++ entries)).Nodup → putAll out entries = out ++ entries
  | [], out, _ => by simp
  | (key, value) :: rest, out, hn => by
    have hnew : key ∉ keys out := by
      rw [keys_append, keys_cons] at hn
      exact fun hm => (List.nodup_append.mp hn).2.2 key hm key List.mem_cons_self rfl
    rw [putAll_cons, put_of_notMem value hnew, putAll_append_of_nodup rest _ (by simpa using hn)]
    simp

/-- Without repeated keys, a keyed list is its own keyed list. -/
theorem ofList_eq_self {entries : List (String × α)} (hn : (keys entries).Nodup) :
    ofList entries = entries := by
  simpa [ofList] using putAll_append_of_nodup entries [] (by simpa using hn)

theorem mem_put {entries : List (String × α)} {key : String} {value : α} {m : String × α}
    (h : m ∈ put entries key value) : m ∈ entries ∨ m = (key, value) := by
  induction entries with
  | nil => exact .inr (List.mem_singleton.mp h)
  | cons e rest ih =>
    rw [put] at h
    split at h
    · rename_i hk
      rcases List.mem_cons.mp h with rfl | h
      · exact .inr (by rw [hk])
      · exact .inl (List.mem_cons_of_mem _ h)
    · rcases List.mem_cons.mp h with rfl | h
      · exact .inl List.mem_cons_self
      · exact (ih h).imp (List.mem_cons_of_mem _) id

theorem mem_putAll : ∀ {entries out : List (String × α)} {m : String × α},
    m ∈ putAll out entries → m ∈ out ∨ m ∈ entries
  | [], _, _, h => .inl h
  | (key, value) :: rest, out, m, h => by
    have h : m ∈ putAll (put out key value) rest := h
    rcases mem_putAll h with h | h
    · rcases mem_put h with h | rfl
      · exact .inl h
      · exact .inr List.mem_cons_self
    · exact .inr (List.mem_cons_of_mem _ h)

theorem nodup_keys_put {entries : List (String × α)} {key : String} {value : α}
    (h : (keys entries).Nodup) : (keys (put entries key value)).Nodup := by
  rw [keys_put]
  split
  · exact h
  · rename_i hk
    refine List.nodup_append.mpr ⟨h, List.nodup_singleton key, ?_⟩
    rintro a ha b hb rfl
    exact hk (List.mem_singleton.mp hb ▸ ha)

theorem nodup_keys_putAll : ∀ {entries out : List (String × α)}, (keys out).Nodup →
    (keys (putAll out entries)).Nodup
  | [], _, h => h
  | (key, value) :: rest, out, h => by
    rw [putAll]
    exact nodup_keys_putAll (nodup_keys_put h)

/-- A keyed list has no key twice. -/
theorem nodup_keys_ofList (entries : List (String × α)) : (keys (ofList entries)).Nodup :=
  nodup_keys_putAll List.nodup_nil

/-- Entries that correspond are found under the same keys. -/
theorem rel_lookup_of_forall₂ {β : Type} {R : α → β → Prop} {as : List (String × α)}
    {bs : List (String × β)} (h : List.Forall₂ (fun a b => b.1 = a.1 ∧ R a.2 b.2) as bs)
    (key : String) : Option.Rel R (as.lookup key) (bs.lookup key) := by
  induction h with
  | nil => exact .none
  | @cons a b as bs hab _ ih =>
    obtain ⟨_, v⟩ := a
    obtain ⟨k, v'⟩ := b
    obtain ⟨rfl, hv⟩ := hab
    by_cases hk : key = k
    · subst hk
      rw [List.lookup_cons_self, List.lookup_cons_self]
      exact .some hv
    · rwa [lookup_cons_of_ne hk, lookup_cons_of_ne hk]

/-- The order of entries without repeated keys does not matter to a look-up. -/
theorem lookup_eq_of_perm {as bs : List (String × α)} (hn : (keys as).Nodup) (h : as.Perm bs)
    (key : String) : bs.lookup key = as.lookup key := by
  have hkeys : (keys as).Perm (keys bs) := h.map _
  cases hl : as.lookup key with
  | some v => exact lookup_of_mem (hkeys.nodup_iff.mp hn) (h.mem_iff.mp (mem_of_lookup hl))
  | none =>
    rw [lookup_eq_none_iff_notMem] at hl ⊢
    exact fun hk => hl (hkeys.mem_iff.mpr hk)

theorem lookup_append_cons_of_ne {key other : String} (h : other ≠ key) (value : α)
    (front back : List (String × α)) :
    (front ++ (key, value) :: back).lookup other = (front ++ back).lookup other := by
  rw [List.lookup_append, List.lookup_append, lookup_cons_of_ne h]

/-- Entries that are found under the same keys correspond, in some order. -/
theorem exists_perm_of_rel_lookup {β : Type} {R : α → β → Prop} :
    ∀ {as : List (String × α)} {bs : List (String × β)}, (keys as).Nodup → (keys bs).Nodup →
      (∀ key, Option.Rel R (as.lookup key) (bs.lookup key)) →
      ∃ cs, List.Forall₂ (fun a c => c.1 = a.1 ∧ R a.2 c.2) as cs ∧ cs.Perm bs
  | [], bs, _, _, h => by
    cases bs with
    | nil => exact ⟨[], .nil, .nil⟩
    | cons b bs =>
      have hb := h b.1
      rw [List.lookup_nil, List.lookup_cons_self] at hb
      cases hb
  | (key, v) :: as, bs, ha, hb, h => by
    have hkey := h key
    rw [List.lookup_cons_self] at hkey
    generalize hl : bs.lookup key = slot at hkey
    cases hkey with
    | @some _ v' hv =>
      obtain ⟨front, back, rfl⟩ := List.append_of_mem (mem_of_lookup hl)
      have hmiddle : (front ++ (key, v') :: back).Perm ((key, v') :: (front ++ back)) :=
        List.perm_middle
      have hkeys : (keys ((key, v') :: (front ++ back))).Nodup :=
        ((hmiddle.map Prod.fst).nodup_iff).mp hb
      rw [keys_cons, List.nodup_cons] at ha hkeys
      have hrest : ∀ other, Option.Rel R (as.lookup other) ((front ++ back).lookup other) := by
        intro other
        by_cases ho : other = key
        · rw [ho, lookup_eq_none_iff_notMem.mpr ha.1, lookup_eq_none_iff_notMem.mpr hkeys.1]
          exact .none
        · have hother := h other
          rwa [lookup_cons_of_ne ho, lookup_append_cons_of_ne ho] at hother
      obtain ⟨cs, hcs, hperm⟩ := exists_perm_of_rel_lookup ha.2 hkeys.2 hrest
      exact ⟨(key, v') :: cs, .cons ⟨rfl, hv⟩ hcs, (hperm.cons _).trans hmiddle.symm⟩

/-- The entry that was written last is found. -/
theorem lookup_putAll : ∀ {entries out : List (String × α)} (key : String),
    (keys entries).Nodup →
      (putAll out entries).lookup key = (entries.lookup key).or (out.lookup key)
  | [], _, _, _ => rfl
  | (k, v) :: rest, out, key, hn => by
    rw [keys_cons, List.nodup_cons] at hn
    rw [putAll_cons, lookup_putAll key hn.2, lookup_put]
    by_cases hk : key = k
    · rw [hk, lookup_eq_none_iff_notMem.mpr hn.1, List.lookup_cons_self, if_pos rfl]
      rfl
    · rw [lookup_cons_of_ne hk, if_neg hk]

/-- Of entries with one key the last one is found. -/
theorem lookup_putAll_eq : ∀ (entries out : List (String × α)) (key : String),
    (putAll out entries).lookup key = (entries.reverse.lookup key).or (out.lookup key)
  | [], _, _ => rfl
  | (k, v) :: rest, out, key => by
    rw [putAll, lookup_putAll_eq rest, lookup_put, List.reverse_cons, List.lookup_append,
      lookup_cons]
    split_ifs <;> cases rest.reverse.lookup key <;> rfl

theorem lookup_ofList (entries : List (String × α)) (key : String) :
    (ofList entries).lookup key = entries.reverse.lookup key := by
  rw [ofList, lookup_putAll_eq, List.lookup_nil, Option.or_none]

theorem lookup_ofList_append {as bs : List (String × α)} (ha : (keys as).Nodup)
    (hb : (keys bs).Nodup) (key : String) :
    (ofList (as ++ bs)).lookup key = (bs.lookup key).or (as.lookup key) := by
  rw [ofList, putAll_append, lookup_putAll key hb, lookup_putAll key ha, List.lookup_nil,
    Option.or_none]

end Keyed

theorem keys_eq_of_forall₂ {α β : Type} {R : String × α → String × β → Prop}
    {xs : List (String × α)} {ys : List (String × β)}
    (h : List.Forall₂ (fun x y => y.1 = x.1 ∧ R x y) xs ys) : Keyed.keys ys = Keyed.keys xs := by
  induction h with
  | nil => rfl
  | cons h _ ih =>
    rw [Keyed.keys_cons, Keyed.keys_cons, h.1, ih]

end Wireform
