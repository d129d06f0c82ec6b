/-
# What a walk can rely on

A walk starts at a checked descriptor and from there opens descriptors of a table whose
definitions are checked, so every descriptor that it comes to is checked
(`Visits.checked`). Three things follow wherever it is: a name that it looks up is
defined; the names it follows come to an end after at most as many steps as there are
types (`exists_follows`), and from that end it goes on (`value_follows`); and an index
points at properties only. Nothing is ever looked up that is not there, so it makes no
difference what else a larger table defines (`value_extended`).

Where no type leads back to itself the walk also ends, after a number of steps for each
level of the slot and each descriptor of the table (`value_safe`).

Key definitions: `Walk.Visits`, `Table.Follows`, `Walk.Place.Safe`.
Key theorems: `Walk.Visits.checked`, `Table.exists_follows`, `Walk.value_follows`,
`Walk.value_extended`, `Walk.value_safe`.
-/
import Wireform.Proofs.Table.Resolve

namespace Wireform

namespace Table

/-! ### Following names -/

/-- So many names further on, and by which name (if any) a descriptor is reached last. -/
inductive Follows (table : Table) :
    ℕ → Option String → Descriptor → Option String → Descriptor → Prop
  | here {owner d} : Follows table 0 owner d owner d
  | ref {k owner name d owner' d'} (hd : table.get? name = some d)
    (h : Follows table k (some name) d owner' d') :
    Follows table (k + 1) owner (.ref name) owner' d'

variable {table : Table}

theorem exists_follows_of_chainLasts (hs : table.Sound) : ∀ {n : ℕ} {name : String},
    table.chainLasts n name = false → name ∈ table.names → ∀ owner : Option String,
      ∃ k ≤ n, ∃ owner' d, table.Follows k owner (.ref name) owner' d ∧ ∀ name', d ≠ .ref name'
  | 0, _, h, _, _ => by cases h
  | n + 1, name, h, hname, owner => by
    obtain ⟨d, hd⟩ := Option.isSome_iff_exists.mp (isSome_get?_iff.mpr hname)
    rw [chainLasts, hd] at h
    by_cases href : ∃ next, d = .ref next
    · obtain ⟨next, rfl⟩ := href
      obtain ⟨k, hk, owner', d', hfollows, hd'⟩ :=
        exists_follows_of_chainLasts hs h (hs _ _ hd).mem_names (some name)
      exact ⟨k + 1, Nat.succ_le_succ hk, owner', d', .ref hd hfollows, hd'⟩
    · have hd' : ∀ next, d ≠ .ref next := fun next he => href ⟨next, he⟩
      exact ⟨1, Nat.succ_pos n, some name, d, .ref hd .here, hd'⟩

/-- **Names come to an end after at most as many steps as there are types.** -/
theorem exists_follows (hs : table.Sound) (hend : ∀ name, ¬ Unending table.Aliases name)
    {d : Descriptor} (hd : table.Checked d) (owner : Option String) :
    ∃ k ≤ table.size, ∃ owner' d', table.Follows k owner d owner' d' ∧ ∀ name, d' ≠ .ref name := by
  by_cases href : ∃ name, d = .ref name
  · obtain ⟨name, rfl⟩ := href
    have hlasts := chainLasts_size_of_sound hs hd.mem_names (hend name)
    exact exists_follows_of_chainLasts hs hlasts hd.mem_names owner
  · have hd' : ∀ name, d ≠ .ref name := fun name he => href ⟨name, he⟩
    exact ⟨0, Nat.zero_le _, owner, d, .here, hd'⟩

end Table

namespace Walk

/-- Following names is all that a walk does with them. -/
theorem value_follows {w : Walk} {k : ℕ} {owner owner' : Option String} {d d' : Descriptor}
    (h : w.table.Follows k owner d owner' d') (n : ℕ) (s : Site) (slot : Slot) :
    w.value (n + k) owner d s slot = w.value n owner' d' s slot := by
  induction h with
  | here => rfl
  | @ref k owner name d owner' d' hd _ ih =>
    rw [← Nat.add_assoc, value]
    simp only [hd]
    exact ih

/-! ### The places of a walk -/

/-- The places that a walk may come to from a place, in any number of turns. -/
def Visits (table : Table) : Place → Place → Prop := Relation.ReflTransGen (Calls table)

theorem Visits.reaches {table : Table} {p q : Place} (h : Visits table p q) :
    table.Reaches p.descriptor q.descriptor := by
  induction h with
  | refl => exact .refl
  | tail _ hcall ih => exact ih.opens hcall.opens

theorem Visits.checked {table : Table} (hs : table.Sound) {p q : Place} (h : Visits table p q)
    (hp : table.Checked p.descriptor) : table.Checked q.descriptor :=
  hp.reaches hs h.reaches

/-- What holds of a place from which a walk can go on. -/
structure Place.Safe (w : Walk) (q : Place) : Prop where
  /-- The names that are followed come to an end, at what is no name, and from there the walk
  goes on. -/
  follows : ∀ owner, ∃ k ≤ w.table.size, ∃ owner' d,
    w.table.Follows k owner q.descriptor owner' d ∧ (∀ name, d ≠ .ref name) ∧
      ∀ n s, w.value (n + k) owner q.descriptor s q.slot = w.value n owner' d s q.slot
  /-- A name that is looked up is defined. -/
  defined : ∀ name, q.descriptor = .ref name → ∃ d, w.table.get? name = some d
  /-- The index of an object shape points at its properties. -/
  positions : ∀ properties additional, q.descriptor = .object properties additional →
    ∀ m ∈ (PropertyIndex.ofProperties properties w.direction).entries,
      m.2.position < properties.length

theorem Place.safe_of_checked {w : Walk} (hs : w.table.Sound)
    (hend : ∀ name, ¬ Unending w.table.Aliases name) {q : Place}
    (hq : w.table.Checked q.descriptor) : q.Safe w where
  follows owner := by
    obtain ⟨k, hk, owner', d, hfollows, hd⟩ := Table.exists_follows hs hend hq owner
    exact ⟨k, hk, owner', d, hfollows, hd, fun n s => value_follows hfollows n s q.slot⟩
  defined name hname := by
    rw [hname] at hq
    exact Option.isSome_iff_exists.mp (Table.isSome_get?_iff.mpr hq.mem_names)
  positions _ _ _ _ hm := PropertyIndex.position_lt hm

/-! ### Larger tables -/

/-- **A walk depends on a table only through the names that it looks up.** -/
theorem value_agree {w w' : Walk} (hdir : w'.direction = w.direction)
    (hdepth : w'.maxDepth = w.maxDepth) : ∀ (n : ℕ) (o : Option String) (d : Descriptor) (s : Site)
    (slot : Slot), (∀ q, Visits w.table ⟨d, s.depth, slot⟩ q → ∀ name, q.descriptor = .ref name →
      w'.table.get? name = w.table.get? name) → w'.value n o d s slot = w.value n o d s slot
  | 0, _, _, _, _, _ => rfl
  | n + 1, o, d, s, slot, h => by
    have hstep : w.value (n + 1) o d s slot = w'.value (n + 1) o d s slot := by
      refine value_inStep eq_respected eq_paired ⟨rfl, rfl⟩ hdir (fun name hname => ?_)
        (fun _ _ _ => ?_) fun q hq => ?_
      · exact h _ .refl name hname
      · rw [enter, enter, hdepth]
      · rintro _ _ o s' ⟨rfl, rfl⟩ hqs
        refine (value_agree hdir hdepth n o q.descriptor s' q.slot fun p hp => ?_).symm
        rw [hqs] at hp
        exact h p (.head hq hp)
    exact hstep.symm

/-- What a larger table defines besides is never looked up. -/
theorem value_extended {w w' : Walk} (hdir : w'.direction = w.direction)
    (hdepth : w'.maxDepth = w.maxDepth) (hs : w.table.Sound)
    (hlarger : ∀ name d, w.table.get? name = some d → w'.table.get? name = some d)
    {d : Descriptor} (hd : w.table.Checked d) (n : ℕ) (o : Option String) (s : Site) (slot : Slot) :
    w'.value n o d s slot = w.value n o d s slot := by
  refine value_agree hdir hdepth n o d s slot fun q hq name hname => ?_
  have hchecked : w.table.Checked (.ref name) := hname ▸ hq.checked hs hd
  obtain ⟨e, he⟩ := Option.isSome_iff_exists.mp (Table.isSome_get?_iff.mpr hchecked.mem_names)
  rw [he, hlarger name e he]

/-- **Where no type leads back to itself, a walk ends, and wherever it comes to it finds what
it needs**: a name that it looks up is defined, so that what else might be defined makes no
difference; names come to an end; and an index points at properties. -/
theorem value_safe {definitions : List (String × Descriptor)} {w : Walk}
    (ht : Table.build definitions = .ok w.table) (hp : w.table.Productive) {d : Descriptor}
    (hd : w.table.checkExternal d = .ok ()) (owner : Option String) (site : Site) (slot : Slot) :
    (∃ result, result ≠ .error .endless ∧
      ∀ n ≥ (Slot.level slot + 1) * (w.table.weight + d.size),
        w.value n owner d site slot = result) ∧
    (∀ q, Visits w.table ⟨d, site.depth, slot⟩ q → q.Safe w) ∧
    ∀ w' : Walk, w'.direction = w.direction → w'.maxDepth = w.maxDepth →
      (∀ name e, w.table.get? name = some e → w'.table.get? name = some e) →
        ∀ n, w'.value n owner d site slot = w.value n owner d site slot := by
  have hs : w.table.Sound := Table.build_sound ht
  have hchecked : w.table.Checked d := ⟨_, hd⟩
  refine ⟨?_, fun q hq => ?_, fun w' hdir hdepth hlarger n => ?_⟩
  · obtain ⟨k, hk⟩ := hp.ends d site.depth slot
    have hends : w.value _ owner d site slot ≠ .error .endless :=
      value_ne_endless_iff.mpr hk.within
    exact ⟨_, hends, fun n hn => value_mono w hn hends⟩
  · exact Place.safe_of_checked hs (Table.not_unending_of_build ht) (hq.checked hs hchecked)
  · exact value_extended hdir hdepth hs hlarger hchecked n owner site slot

/-! ### Nodes

A node may be followed by another, which is called by a second name. -/

/-- The definitions of nodes. -/
def nodes : List (String × Descriptor) :=
  [("Node", .object [⟨"next", "n", .union [.undefined, .ref "Alias"]⟩] (.allow .any)),
    ("Alias", .ref "Node")]

theorem value_safe_nodes :
    let w : Walk := ⟨⟨nodes⟩, .decode, 256⟩
    let d : Descriptor := .array (.union [.null, .ref "Alias"])
    let slot : Slot := some (.array [.null, .object [("next", .object [])]])
    Table.build nodes = .ok w.table ∧ w.table.checkExternal d = .ok () ∧
      (∃ result, result ≠ .error .endless ∧ ∀ n ≥ 50, w.value n none d .root slot = result) ∧
      ∀ q, Visits w.table ⟨d, 0, slot⟩ q → q.Safe w := by
  intro w d slot
  have hbuild : Table.build nodes = .ok w.table := rfl
  have hp : w.table.Productive := by
    have hnode : w.table.Resolves (.ref "Node") := .ref rfl (.here nofun nofun)
    have hnames : w.table.names = ["Node", "Alias"] := rfl
    refine Table.productive_of_resolves ?_
    rw [hnames, List.forall_mem_cons, List.forall_mem_singleton]
    exact ⟨hnode, .ref rfl hnode⟩
  have hd : w.table.checkExternal d = .ok () := rfl
  obtain ⟨hends, hsafe, -⟩ := value_safe hbuild hp hd none .root slot
  exact ⟨hbuild, hd, hends, hsafe⟩

end Walk
end Wireform
