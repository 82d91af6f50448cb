import SchemaBridge.Json.Value
import SchemaBridge.Proofs.Json.Entries

/-!
# The shape of a value

* `Value.induction`: what holds of a value whose items or entries it holds of, holds of all
  values;
* `Value.Ordered`: the keys of every object ascend. These are the canonical values
  (`Value.ordered_of_canonical`, `Value.canonical_of_ordered`);
* `Value.Follows`: every key continues one of some paths. Lists add nothing to a path, any keys
  may be missing, and nothing is said about the other values;
* `Value.Covers`: every object has all keys that continue its path to one of some paths;
* `Value.Complete`: every object has exactly these keys.
-/

namespace SchemaBridge.Json.Value

/-- Induction over values: an array follows from its items and an object from its entries. -/
@[elab_as_elim, induction_eliminator]
theorem induction {motive : Value → Prop}
    (null : motive .null) (boolean : ∀ b, motive (.boolean b)) (number : ∀ n, motive (.number n))
    (string : ∀ s, motive (.string s))
    (array : ∀ items, (∀ v ∈ items, motive v) → motive (.array items))
    (object : ∀ entries, (∀ e ∈ entries, motive e.2) → motive (.object entries)) (v : Value) :
    motive v :=
  match v with
  | .null => null
  | .boolean b => boolean b
  | .number n => number n
  | .string s => string s
  | .array items => array items fun v _ => induction null boolean number string array object v
  | .object entries =>
      object entries fun e _ => induction null boolean number string array object e.2
termination_by sizeOf v
decreasing_by
  · have := List.sizeOf_lt_of_mem ‹_›
    simp only [Value.array.sizeOf_spec]
    omega
  · obtain ⟨k, w⟩ := e
    have := List.sizeOf_lt_of_mem ‹_›
    simp only [Value.object.sizeOf_spec, Prod.mk.sizeOf_spec] at this ⊢
    omega

/-! ### Ordered values -/

/-- The keys of every object ascend. -/
inductive Ordered : Value → Prop
  | null : Ordered .null
  | boolean (b : Bool) : Ordered (.boolean b)
  | number (n : Number) : Ordered (.number n)
  | string (s : String) : Ordered (.string s)
  | array {items : List Value} (beneath : ∀ v ∈ items, Ordered v) : Ordered (.array items)
  | object {entries : Object} (ascending : entries.Ascending)
      (beneath : ∀ e ∈ entries, Ordered e.2) : Ordered (.object entries)

/-- The items of an ordered array are ordered. -/
theorem Ordered.of_array {items : List Value} (h : Ordered (.array items)) :
    ∀ v ∈ items, v.Ordered := by
  cases h with
  | array beneath => exact beneath

/-- The keys of an ordered object ascend, and its values are ordered. -/
theorem Ordered.of_object {entries : Object} (h : Ordered (.object entries)) :
    entries.Ascending ∧ ∀ e ∈ entries, e.2.Ordered := by
  cases h with
  | object ascending beneath => exact ⟨ascending, beneath⟩

/-- The items of a canonical array are the canonical items. -/
theorem canonicalItems_eq_map (items : List Value) :
    canonicalItems items = items.map canonical := by
  induction items with
  | nil => rfl
  | cons v rest ih => rw [canonicalItems, ih, List.map_cons]

/-- Canonical entries are ordered, as long as those inserted before them are. -/
theorem ordered_canonicalEntries {entries : List (String × Value)}
    (h : ∀ e ∈ entries, e.2.canonical.Ordered) {done : Object} (hdone : Ordered (.object done)) :
    Ordered (.object (canonicalEntries done entries)) := by
  induction entries generalizing done with
  | nil => exact hdone
  | cons e rest ih =>
      obtain ⟨k, v⟩ := e
      obtain ⟨hascending, hbeneath⟩ := hdone.of_object
      rw [canonicalEntries]
      refine ih (fun e he => h e (List.mem_cons_of_mem _ he))
        (.object (hascending.insert k v.canonical) fun e he => ?_)
      rcases Entries.mem_of_mem_insert he with rfl | he
      · exact h (k, v) List.mem_cons_self
      · exact hbeneath e he

/-- The canonical form of a value is ordered. -/
theorem ordered_canonical (v : Value) : v.canonical.Ordered := by
  induction v with
  | null => exact .null
  | boolean b => exact .boolean b
  | number n => exact .number n
  | string s => exact .string s
  | array items ih =>
      rw [canonical, canonicalItems_eq_map]
      refine .array fun v hv => ?_
      obtain ⟨w, hw, rfl⟩ := List.mem_map.mp hv
      exact ih w hw
  | object entries ih =>
      rw [canonical]
      exact ordered_canonicalEntries ih (.object .nil fun e he => absurd he List.not_mem_nil)

/-- A canonical value is ordered. -/
theorem ordered_of_canonical {v : Value} (h : v.canonical = v) : v.Ordered :=
  h ▸ ordered_canonical v

/-- The canonical forms of ascending entries that are canonical follow those inserted before them,
if these are below. -/
theorem canonicalEntries_eq_append {entries : Object} (h : ∀ e ∈ entries, e.2.canonical = e.2)
    {done : Object} (hascending : Entries.Ascending (done ++ entries)) :
    canonicalEntries done entries = done ++ entries := by
  induction entries generalizing done with
  | nil => rw [canonicalEntries, List.append_nil]
  | cons e rest ih =>
      obtain ⟨k, v⟩ := e
      have hbelow : ∀ e ∈ done, e.1 < k := fun e he =>
        (List.pairwise_append.mp hascending).2.2 e he (k, v) List.mem_cons_self
      rw [canonicalEntries, h (k, v) List.mem_cons_self, Entries.Ascending.insert_of_lt v hbelow,
        ih (fun e he => h e (List.mem_cons_of_mem _ he)) (by simpa using hascending),
        List.append_assoc, List.singleton_append]

/-- An ordered value is canonical. -/
theorem canonical_of_ordered {v : Value} (h : v.Ordered) : v.canonical = v := by
  induction h with
  | null => rfl
  | boolean b => rfl
  | number n => rfl
  | string s => rfl
  | @array items _ ih =>
      rw [canonical, canonicalItems_eq_map]
      exact congrArg _ ((List.map_congr_left ih).trans (List.map_id items))
  | @object entries ascending _ ih =>
      have happend : canonicalEntries [] entries = [] ++ entries :=
        canonicalEntries_eq_append ih ascending
      rw [canonical, happend, List.nil_append]

/-! ### Values along paths -/

/-- Every key of the value, which stands at a path, continues one of some paths. -/
inductive Follows (paths : List (List String)) : List String → Value → Prop
  | null (path : List String) : Follows paths path .null
  | boolean (path : List String) (b : Bool) : Follows paths path (.boolean b)
  | number (path : List String) (n : Number) : Follows paths path (.number n)
  | string (path : List String) (s : String) : Follows paths path (.string s)
  | array {path : List String} {items : List Value} (beneath : ∀ v ∈ items, Follows paths path v) :
      Follows paths path (.array items)
  | object {path : List String} {entries : List (String × Value)}
      (continued : ∀ e ∈ entries, path ++ [e.1] ∈ paths)
      (beneath : ∀ e ∈ entries, Follows paths (path ++ [e.1]) e.2) :
      Follows paths path (.object entries)

/-- The items of an array along paths are along them. -/
theorem Follows.of_array {paths : List (List String)} {path : List String} {items : List Value}
    (h : Follows paths path (.array items)) : ∀ v ∈ items, Follows paths path v := by
  cases h with
  | array beneath => exact beneath

/-- The keys of an object along paths continue one, and its values are along them. -/
theorem Follows.of_object {paths : List (List String)} {path : List String}
    {entries : List (String × Value)} (h : Follows paths path (.object entries)) :
    ∀ e ∈ entries, path ++ [e.1] ∈ paths ∧ Follows paths (path ++ [e.1]) e.2 := by
  cases h with
  | object continued beneath => exact fun e he => ⟨continued e he, beneath e he⟩

/-- An array is along paths if its items are. -/
theorem follows_array_iff {paths : List (List String)} {path : List String} {items : List Value} :
    Follows paths path (.array items) ↔ ∀ v ∈ items, Follows paths path v :=
  ⟨Follows.of_array, Follows.array⟩

/-- An object is along paths if its keys continue them and its values are along them. -/
theorem follows_object_iff {paths : List (List String)} {path : List String}
    {entries : List (String × Value)} :
    Follows paths path (.object entries) ↔
      ∀ e ∈ entries, path ++ [e.1] ∈ paths ∧ Follows paths (path ++ [e.1]) e.2 :=
  ⟨Follows.of_object, fun h => .object (fun e he => (h e he).1) fun e he => (h e he).2⟩

/-- Every object in the value, which stands at a path, has all keys that continue its path to one of
some paths. -/
inductive Covers (paths : List (List String)) : List String → Value → Prop
  | null (path : List String) : Covers paths path .null
  | boolean (path : List String) (b : Bool) : Covers paths path (.boolean b)
  | number (path : List String) (n : Number) : Covers paths path (.number n)
  | string (path : List String) (s : String) : Covers paths path (.string s)
  | array {path : List String} {items : List Value} (beneath : ∀ v ∈ items, Covers paths path v) :
      Covers paths path (.array items)
  | object {path : List String} {entries : List (String × Value)}
      (present : ∀ key, path ++ [key] ∈ paths → ∃ e ∈ entries, e.1 = key)
      (beneath : ∀ e ∈ entries, Covers paths (path ++ [e.1]) e.2) :
      Covers paths path (.object entries)

/-- The items of an array have the keys that they need. -/
theorem Covers.of_array {paths : List (List String)} {path : List String} {items : List Value}
    (h : Covers paths path (.array items)) : ∀ v ∈ items, Covers paths path v := by
  cases h with
  | array beneath => exact beneath

/-- An object has the keys that it needs, and so have its values. -/
theorem Covers.of_object {paths : List (List String)} {path : List String}
    {entries : List (String × Value)} (h : Covers paths path (.object entries)) :
    (∀ key, path ++ [key] ∈ paths → ∃ e ∈ entries, e.1 = key) ∧
      ∀ e ∈ entries, Covers paths (path ++ [e.1]) e.2 := by
  cases h with
  | object present beneath => exact ⟨present, beneath⟩

/-- Every object in the value, which stands at a path, has exactly the keys that continue its path
to one of some paths. -/
structure Complete (paths : List (List String)) (path : List String) (v : Value) : Prop where
  follows : v.Follows paths path
  covers : v.Covers paths path

/-- The items of a complete array are complete. -/
theorem Complete.of_array {paths : List (List String)} {path : List String} {items : List Value}
    (h : Complete paths path (.array items)) : ∀ v ∈ items, v.Complete paths path :=
  fun v hv => ⟨h.follows.of_array v hv, h.covers.of_array v hv⟩

/-- The keys of a complete object are those that continue its path, and its values are complete. -/
theorem Complete.of_object {paths : List (List String)} {path : List String}
    {entries : List (String × Value)} (h : Complete paths path (.object entries)) :
    (∀ key, path ++ [key] ∈ paths ↔ ∃ e ∈ entries, e.1 = key) ∧
      ∀ e ∈ entries, e.2.Complete paths (path ++ [e.1]) := by
  obtain ⟨hpresent, hbeneath⟩ := h.covers.of_object
  refine ⟨fun key => ⟨hpresent key, ?_⟩, fun e he => ⟨(h.follows.of_object e he).2, hbeneath e he⟩⟩
  rintro ⟨e, he, rfl⟩
  exact (h.follows.of_object e he).1

end SchemaBridge.Json.Value
