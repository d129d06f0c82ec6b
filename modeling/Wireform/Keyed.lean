/-
# Keyed lists

Pairs of a key and a value in the order in which the keys were first written.
A key that is written again keeps its place and takes the new value, so a list
built by `put` has no key twice.

Key definitions: `Keyed.keys`, `Keyed.put`, `Keyed.ofList`.
Key theorems: `Keyed.lookup_put`, `Keyed.keys_put`, `Keyed.putAll_append`.
-/

namespace Wireform
namespace Keyed

variable {α : Type}

/-- The keys, in order. -/
def keys (entries : List (String × α)) : List String := entries.map (·.1)

@[simp] theorem keys_nil : keys ([] : List (String × α)) = [] := rfl

@[simp] theorem keys_cons (e : String × α) (rest : List (String × α)) :
    keys (e :: rest) = e.1 :: keys rest := rfl

@[simp] theorem keys_append (as bs : List (String × α)) : keys (as ++ bs) = keys as ++ keys bs :=
  List.map_append

/-- Writes a value under a key: in the key's own place if it has one, else at the end. -/
def put : List (String × α) → String → α → List (String × α)
  | [], key, value => [(key, value)]
  | (k, v) :: rest, key, value =>
    if k = key then (k, value) :: rest else (k, v) :: put rest key value

/-- Writes one entry after the other onto a keyed list. -/
def putAll : List (String × α) → List (String × α) → List (String × α)
  | entries, [] => entries
  | entries, (key, value) :: rest => putAll (put entries key value) rest

@[simp] theorem putAll_nil (entries : List (String × α)) : putAll entries [] = entries := rfl

@[simp] theorem putAll_cons (entries rest : List (String × α)) (e : String × α) :
    putAll entries (e :: rest) = putAll (put entries e.1 e.2) rest := rfl

/-- Writing is done in two parts. -/
@[simp] theorem putAll_append : ∀ a b entries : List (String × α),
    putAll entries (a ++ b) = putAll (putAll entries a) b
  | [], _, _ => rfl
  | e :: a, b, entries => putAll_append a b (put entries e.1 e.2)

/-- The keyed list of a list of entries: each key once, in the order of first
occurrence, with its last value. -/
def ofList (entries : List (String × α)) : List (String × α) := putAll [] entries

/-- Whether a key is among the entries. -/
def has (entries : List (String × α)) (key : String) : Bool := (entries.lookup key).isSome

/-- The first key that occurs a second time. -/
def firstRepeated : List String → List String → Option String
  | _, [] => none
  | seen, key :: rest => if key ∈ seen then some key else firstRepeated (key :: seen) rest

/-! ### What a write does -/

/-- A look-up skips an entry with another key. -/
@[simp] theorem lookup_cons_of_ne {key other : String} (h : other ≠ key) (value : α)
    (rest : List (String × α)) : List.lookup other ((key, value) :: rest) = rest.lookup other := by
  rw [List.lookup_cons, beq_eq_false_iff_ne.2 h]

@[simp, grind =] theorem lookup_put (entries : List (String × α)) (key other : String) (value : α) :
    (put entries key value).lookup other =
      if other = key then some value else entries.lookup other := by
  induction entries with
  | nil =>
    by_cases h : other = key
    · simp [put, h]
    · simp [put, h]
  | cons e rest ih =>
    obtain ⟨k, v⟩ := e
    by_cases hk : k = key
    · subst hk
      by_cases h : other = k
      · simp [put, h]
      · simp [put, h]
    · by_cases h : other = k
      · subst h
        simp [put, hk]
      · simp [put, hk, h, ih]

@[grind =] theorem keys_put (entries : List (String × α)) (key : String) (value : α) :
    keys (put entries key value) =
      if key ∈ keys entries then keys entries else keys entries ++ [key] := by
  induction entries with
  | nil => simp [put]
  | cons e rest ih =>
    obtain ⟨k, v⟩ := e
    by_cases hk : k = key
    · simp [put, hk]
    · have hk' : key ≠ k := fun h => hk h.symm
      by_cases hm : key ∈ keys rest <;> simp_all [put]

end Keyed
end Wireform
