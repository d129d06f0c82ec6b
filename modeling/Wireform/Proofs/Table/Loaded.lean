/-
# What a text loads

The loader of texts takes one object off the front of the text, and what it loads is what
comes of the definitions of its members (`Table.ofText_eq_ok_iff`). It does not look behind
the closing brace, and it writes the definitions into a keyed list before they are checked.
So a text with something else behind the brace is loaded though it is no JSON text, and of
definitions with one name the last one stays, though the same definitions are refused when a
table is built of them (`Table.not_loads_whole`). Where nothing but blanks follows the brace
and no name stands twice, every member is a type of the table, and they are all its types
(`Table.ofText_loads`).

Key theorems: `Table.ofText_eq_ok_iff`, `Table.ofText_loads`, `Table.not_loads_whole`.
-/
import Mathlib
import Wireform.Proofs.Table.Loaders

namespace Wireform

/-! ### Keyed lists of repeated keys -/

namespace Keyed

variable {α : Type}

theorem subperm_keys_ofList (entries : List (String × α)) :
    (keys (ofList entries)).Subperm (keys entries) := by
  refine List.subperm_of_subset (nodup_keys_ofList entries) fun key hkey => ?_
  obtain ⟨m, hm, rfl⟩ := List.mem_map.mp hkey
  exact List.mem_map_of_mem ((mem_putAll hm).resolve_left List.not_mem_nil)

/-- Each key is kept once, so entries are lost exactly if a key is repeated. -/
theorem length_ofList_lt_iff {entries : List (String × α)} :
    (ofList entries).length < entries.length ↔ ¬ (keys entries).Nodup := by
  have hsubperm := subperm_keys_ofList entries
  have hle : (ofList entries).length ≤ entries.length := by
    have h := hsubperm.length_le
    simpa only [keys, List.length_map] using h
  constructor
  · intro h hn
    rw [ofList_eq_self hn] at h
    exact lt_irrefl _ h
  · intro hn
    refine lt_of_le_of_ne hle fun h => hn ?_
    have hperm := hsubperm.perm_of_length_le (by simp only [keys, List.length_map, h, le_refl])
    exact hperm.nodup_iff.mp (nodup_keys_ofList entries)

end Keyed

namespace Table

open Json.Reader (skipBlanks)

/-! ### What is taken off the front -/

theorem Agree.eq_ok_iff {α : Type} {x y : Except SchemaError α} {a : α} (h : Agree x y) :
    x = .ok a ↔ y = .ok a := by
  cases h with
  | ok b => rfl
  | error _ => exact ⟨nofun, nofun⟩

/-- An object is at the front exactly if a brace is, and the members behind it. -/
theorem value_eq_object_iff {s ahead : List Char} {members : List (String × Json)} :
    Json.Reader.value Json.nestingLimit s = .ok (.object members, ahead) ↔
      ∃ rest, skipBlanks s = '\x7b' :: rest ∧
        Json.Reader.object (Json.Reader.value (Json.nestingLimit - 1)) rest =
          .ok (members, ahead) :=
  Json.Reader.valueWith_eq_object_iff

theorem reading_eq_ok_iff {α : Type} {text : List Char} {x : Except Fault α} {a : α} :
    reading text x = .ok a ↔ x = .ok a := by
  cases x with
  | ok b => exact ⟨fun h => by cases h; rfl, fun h => by cases h; rfl⟩
  | error f => exact ⟨nofun, nofun⟩

/-- Definitions that were read are those of members that were read. -/
theorem exists_members_of_definitionsFrom {text : List Char}
    {inner : List Char → Except Fault (Json × List Char)} {fuel : ℕ} :
    ∀ {s : List Char} {ds : List (String × Descriptor)},
      definitionsFrom text inner fuel s = .ok ds →
        ∃ ms ahead, Json.Reader.members inner fuel s = .ok (ms, ahead) := by
  induction fuel with
  | zero =>
    intro s ds h
    cases h
  | succ fuel ih =>
    intro s ds h
    obtain ⟨⟨⟨name, v⟩, s₁⟩, hmember, h⟩ := bind_eq_ok_iff.mp h
    have hmember := reading_eq_ok_iff.mp hmember
    dsimp only at h
    split at h
    · cases h
    · obtain ⟨⟨more, s₂⟩, hnext, h⟩ := bind_eq_ok_iff.mp h
      have hnext := reading_eq_ok_iff.mp hnext
      rw [Json.Reader.members, hmember]
      dsimp only [bind, Except.bind]
      rw [hnext]
      cases more with
      | false => exact ⟨_, _, rfl⟩
      | true =>
        obtain ⟨rest, hrest, -⟩ := bind_eq_ok_iff.mp h
        obtain ⟨ms, ahead, hms⟩ := ih hrest
        dsimp only [bind, Except.bind]
        rw [hms]
        exact ⟨_, _, rfl⟩

theorem exists_object_of_definitionsIn {text s : List Char} {ds : List (String × Descriptor)}
    (h : definitionsIn text s = .ok ds) : ∃ ms ahead,
      Json.Reader.object (Json.Reader.value (Json.nestingLimit - 1)) s = .ok (ms, ahead) := by
  unfold definitionsIn at h
  unfold Json.Reader.object
  split at h
  · rename_i hbrace
    rw [hbrace]
    exact ⟨_, _, rfl⟩
  · cases h
  · rename_i hbrace hend
    split
    · rename_i hblanks
      exact absurd hblanks hend
    · rename_i hblanks
      exact absurd hblanks (hbrace _)
    · exact exists_members_of_definitionsFrom h

theorem ofText_of_brace {text : String} {rest : List Char}
    (h : skipBlanks text.toList = '\x7b' :: rest) :
    ofText text = definitionsIn text.toList rest >>= fun ds => build (Keyed.ofList ds) := by
  unfold ofText
  dsimp only
  rw [h]
  rfl

/-- **A table is loaded from the object at the front of a text**, whatever is ahead of it. -/
theorem ofText_eq_ok_iff {text : String} {table : Table} : ofText text = .ok table ↔
    ∃ members ahead,
      Json.Reader.value Json.nestingLimit text.toList = .ok (.object members, ahead) ∧
        ofJson (.object members) = .ok table := by
  have hagree {rest ahead : List Char} {ms : List (String × Json)}
      (hrest : skipBlanks text.toList = '\x7b' :: rest)
      (hms : Json.Reader.object (Json.Reader.value (Json.nestingLimit - 1)) rest =
        .ok (ms, ahead)) : Agree (ofText text) (ofJson (.object ms)) := by
    rw [ofText_of_brace hrest]
    exact (definitionsIn_agree text.toList hms).bind fun ds => agree_build (Keyed.ofList ds)
  constructor
  · intro h
    obtain ⟨rest, hrest⟩ : ∃ rest, skipBlanks text.toList = '\x7b' :: rest := by
      unfold ofText at h
      dsimp only at h
      split at h
      · exact ⟨_, ‹_›⟩
      · cases h
      · obtain ⟨_, -, h⟩ := bind_eq_ok_iff.mp h
        cases h
    obtain ⟨ds, hds, -⟩ := bind_eq_ok_iff.mp (ofText_of_brace hrest ▸ h)
    obtain ⟨ms, ahead, hms⟩ := exists_object_of_definitionsIn hds
    exact ⟨ms, ahead, value_eq_object_iff.mpr ⟨rest, hrest, hms⟩,
      (hagree hrest hms).eq_ok_iff.mp h⟩
  · rintro ⟨ms, ahead, hvalue, htable⟩
    obtain ⟨rest, hrest, hms⟩ := value_eq_object_iff.mp hvalue
    exact (hagree hrest hms).eq_ok_iff.mpr htable

/-! ### The whole text -/

/-- With something else ahead of a value a text is no JSON text. -/
theorem readTree_of_value {s ahead : List Char} {v : Json}
    (h : Json.Reader.value Json.nestingLimit s = .ok (v, ahead)) :
    (skipBlanks ahead = [] → Json.readTree s = .ok v) ∧
      (skipBlanks ahead ≠ [] → ∀ tree, Json.readTree s ≠ .ok tree) := by
  rw [Json.readTree, h]
  dsimp only [bind, Except.bind]
  constructor
  · intro hblank
    rw [hblank]
  · intro hne tree
    obtain ⟨c, t, hnext⟩ := List.exists_cons_of_ne_nil hne
    rw [hnext]
    intro heq
    cases heq

theorem exists_written_of_ofJson {members : List (String × Json)} {table : Table}
    (h : ofJson (.object members) = .ok table) :
    ∃ ds, Written members ds ∧ build (Keyed.ofList ds) = .ok table := by
  rcases written_or_first members with ⟨ds, hds⟩ | ⟨before, name, w, after, rfl, hbefore, hw⟩
  · exact ⟨ds, hds, ofJson_of_written hds ▸ h⟩
  · rw [ofJson_of_not_isDocument hbefore hw] at h
    cases h

/-- A table that is loaded is sound. -/
theorem sound_of_ofText {text : String} {table : Table} (h : ofText text = .ok table) :
    table.Sound := by
  obtain ⟨_, _, -, htable⟩ := ofText_eq_ok_iff.mp h
  obtain ⟨_, -, hbuild⟩ := exists_written_of_ofJson htable
  exact build_sound hbuild

/-- **What a text loads that is accepted.** Its front is an object of descriptor documents, and
of those with one name the last one is the definition. Where nothing but blanks is ahead, the
text is one JSON text, and otherwise it is none. Where no name stands twice, the table is built
of the members, one for one; otherwise there are fewer types than members, and a table is
refused to be built of them. -/
theorem ofText_loads {text : String} {table : Table} (h : ofText text = .ok table) :
    ∃ members ahead ds, Json.Reader.value Json.nestingLimit text.toList =
        .ok (.object members, ahead) ∧
      Written members ds ∧ (∀ name, table.get? name = ds.reverse.lookup name) ∧
      (skipBlanks ahead = [] → Json.readTree text.toList = .ok (.object members)) ∧
      (skipBlanks ahead ≠ [] → ∀ tree, Json.readTree text.toList ≠ .ok tree) ∧
      ((Keyed.keys members).Nodup → table.definitions = ds ∧ build ds = .ok table) ∧
      (¬ (Keyed.keys members).Nodup → table.size < members.length ∧
        ∃ name, List.Duplicate name (Keyed.keys members) ∧
          build ds = .error (.duplicateType name)) := by
  obtain ⟨members, ahead, hvalue, htable⟩ := ofText_eq_ok_iff.mp h
  obtain ⟨ds, hds, hbuild⟩ := exists_written_of_ofJson htable
  obtain ⟨hwhole, hmore⟩ := readTree_of_value hvalue
  have hkeys : Keyed.keys ds = Keyed.keys members := keys_eq_of_forall₂ hds
  have hdefinitions : table = ⟨Keyed.ofList ds⟩ := (build_eq_ok_iff.mp hbuild).1
  refine ⟨members, ahead, ds, hvalue, hds, fun name => ?_, hwhole, hmore, fun hn => ?_,
    fun hn => ?_⟩
  · rw [hdefinitions]
    exact Keyed.lookup_ofList ds name
  · rw [← hkeys] at hn
    rw [Keyed.ofList_eq_self hn] at hbuild hdefinitions
    exact ⟨by rw [hdefinitions], hbuild⟩
  · rw [← hkeys] at hn
    obtain ⟨name, hname, herror⟩ := build_of_not_nodup hn
    refine ⟨?_, name, hkeys ▸ hname, herror⟩
    rw [hdefinitions, hds.length_eq]
    exact Keyed.length_ofList_lt_iff.mpr hn

/-- A text in which blanks follow the brace is loaded member by member. -/
theorem ofText_loads_days :
    let text : String := " \x7b\"Day\": \"date\", \"Other\": \x7b\"ref\": \"Day\"\x7d\x7d\n"
    let members : List (String × Json) :=
      [("Day", .string "date"), ("Other", .object [("ref", .string "Day")])]
    let table : Table := ⟨[("Day", .date), ("Other", .ref "Day")]⟩
    ofText text = .ok table ∧ Json.readTree text.toList = .ok (.object members) ∧
      build table.definitions = .ok table := by
  intro text members table
  have htext : ofText text = .ok table := by cbv
  have hvalue : Json.Reader.value Json.nestingLimit text.toList = .ok (.object members, ['\n']) := by
    cbv
  obtain ⟨members', ahead, ds, hvalue', -, -, hwhole, -, hnodup, -⟩ := ofText_loads htext
  rw [hvalue] at hvalue'
  cases hvalue'
  obtain ⟨rfl, hbuild⟩ := hnodup (by decide)
  exact ⟨htext, hwhole rfl, hbuild⟩

/-- A text is loaded though a second brace closes nothing, and so is one that defines a name
twice, which makes one type of it. -/
theorem not_loads_whole :
    let more : String := "\x7b\"Day\": \"date\"\x7d\x7d"
    let twice : String := "\x7b\"Day\": \"any\", \"Day\": \"date\"\x7d"
    ofText more = .ok ⟨[("Day", .date)]⟩ ∧ (∀ tree, Json.readTree more.toList ≠ .ok tree) ∧
      ofText twice = .ok ⟨[("Day", .date)]⟩ ∧
      Json.readTree twice.toList = .ok (.object [("Day", .string "any"), ("Day", .string "date")]) ∧
      build [("Day", .any), ("Day", .date)] = .error (.duplicateType "Day") := by
  intro more twice
  have hmore : Json.Reader.value Json.nestingLimit more.toList =
      .ok (.object [("Day", .string "date")], ['\x7d']) := by cbv
  exact ⟨by cbv, (readTree_of_value hmore).2 (by decide), by cbv, by cbv, rfl⟩

end Table
end Wireform
