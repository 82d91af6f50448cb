/-!
# Entries under ascending keys

Lists of keys with values. A list built by `insert` has ascending keys, each occurring once, and
the other operations keep that.

* `Entries.get?`: the value under a key;
* `Entries.insert`: puts a value under a key, in place of the one that was there;
* `Entries.erase`: takes a key away;
* `Entries.replace`: changes the value under a key that is there.
-/

namespace SchemaBridge

/-- Keys with values, in the order of the list. -/
abbrev Entries (α : Type) := List (String × α)

namespace Entries

variable {α : Type}

/-- The value under a key. -/
def get? (es : Entries α) (key : String) : Option α :=
  match es with
  | [] => none
  | (k, v) :: rest => if k = key then some v else get? rest key

/-- The entries with a value under a key, in place of the one that was there. -/
def insert (es : Entries α) (key : String) (value : α) : Entries α :=
  match es with
  | [] => [(key, value)]
  | (k, v) :: rest =>
    if k = key then (key, value) :: rest
    else if key < k then (key, value) :: (k, v) :: rest
    else (k, v) :: insert rest key value

/-- The entries without a key. -/
def erase (es : Entries α) (key : String) : Entries α :=
  match es with
  | [] => []
  | (k, v) :: rest => if k = key then erase rest key else (k, v) :: erase rest key

/-- The entries with another value under a key, if the key is there. -/
def replace (es : Entries α) (key : String) (value : α) : Entries α :=
  match es with
  | [] => []
  | (k, v) :: rest => (k, if k = key then value else v) :: replace rest key value

/-- The entries of a list inserted one after the other: of several values for one key the last
counts. -/
def ofList (pairs : List (String × α)) : Entries α :=
  pairs.foldl (fun es (k, v) => es.insert k v) []

/-! ### Looking up after a change -/

/-- Replacing values keeps the keys and their order. -/
@[simp] theorem map_fst_replace (es : Entries α) (key : String) (value : α) :
    (es.replace key value).map Prod.fst = es.map Prod.fst := by
  induction es with
  | nil => rfl
  | cons e rest ih => simp [replace, ih]

/-- A value that was inserted is found. -/
@[simp] theorem get?_insert_self (es : Entries α) (key : String) (value : α) :
    (es.insert key value).get? key = some value := by
  induction es with
  | nil => simp [insert, get?]
  | cons e rest ih =>
    obtain ⟨k, v⟩ := e
    by_cases hk : k = key
    · simp [insert, get?, hk]
    · by_cases hlt : key < k
      · simp [insert, get?, hk, hlt]
      · simp [insert, get?, hk, hlt, ih]

/-- Inserting a value leaves the values under other keys. -/
theorem get?_insert_of_ne (es : Entries α) {key other : String} (value : α) (h : key ≠ other) :
    (es.insert key value).get? other = es.get? other := by
  induction es with
  | nil => simp [insert, get?, h]
  | cons e rest ih =>
    obtain ⟨k, v⟩ := e
    by_cases hk : k = key
    · subst hk
      simp [insert, get?, h]
    · by_cases hlt : key < k
      · simp [insert, get?, hk, hlt, h]
      · simp [insert, get?, hk, hlt, ih]

/-- A key that was erased is not found. -/
@[simp] theorem get?_erase_self (es : Entries α) (key : String) :
    (es.erase key).get? key = none := by
  induction es with
  | nil => rfl
  | cons e rest ih =>
    obtain ⟨k, v⟩ := e
    by_cases hk : k = key <;> simp [erase, get?, hk, ih]

/-- Erasing a key leaves the values under other keys. -/
theorem get?_erase_of_ne (es : Entries α) {key other : String} (h : key ≠ other) :
    (es.erase key).get? other = es.get? other := by
  induction es with
  | nil => rfl
  | cons e rest ih =>
    obtain ⟨k, v⟩ := e
    by_cases hk : k = key
    · subst hk
      simp [erase, get?, h, ih]
    · simp [erase, get?, hk, ih]

/-- A key that is there keeps its place and has the new value; other keys keep theirs. -/
theorem get?_replace (es : Entries α) (key other : String) (value : α) :
    (es.replace key value).get? other =
      if key = other then (es.get? other).map fun _ => value else es.get? other := by
  induction es with
  | nil => simp [replace, get?]
  | cons e rest ih =>
    obtain ⟨k, v⟩ := e
    by_cases hk : k = other
    · subst hk
      by_cases hkey : key = k
      · simp [replace, get?, hkey]
      · simp [replace, get?, hkey, Ne.symm hkey]
    · by_cases hkey : key = other <;> simp_all [replace, get?]

end Entries

end SchemaBridge
