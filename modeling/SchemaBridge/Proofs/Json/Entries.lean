import Mathlib.Data.List.Induction
import Mathlib.Tactic.SplitIfs
import SchemaBridge.Entries

/-!
# Entries in ascending order

What a list of entries says is what a look-up finds in it, as long as its keys ascend.

* `Entries.Ascending`: the keys ascend, so none occurs twice. Inserting and erasing keep that;
* `Entries.mapValues`: other values under the same keys;
* `Entries.Ascending.ext`: ascending entries are equal once all look-ups agree;
* `Entries.Ascending.insert_erase`: a value that is put back has the place of the one before.
-/

namespace SchemaBridge.Entries

variable {α β γ : Type}

/-- The keys ascend. -/
def Ascending (es : Entries α) : Prop :=
  es.Pairwise fun a b => a.1 < b.1

/-- The entries with other values, each made from its key and the value that was there. -/
def mapValues (f : String → α → β) (es : Entries α) : Entries β :=
  es.map fun e => (e.1, f e.1 e.2)

/-! ### Looking up -/

/-- What is found under a key is one of the entries. -/
theorem mem_of_get? {es : Entries α} {key : String} {v : α} (h : es.get? key = some v) :
    (key, v) ∈ es := by
  induction es with
  | nil => simp [get?] at h
  | cons e rest ih =>
      obtain ⟨k, w⟩ := e
      by_cases hk : k = key
      · rw [get?, if_pos hk] at h
        obtain rfl : w = v := Option.some.inj h
        subst hk
        exact List.mem_cons_self
      · rw [get?, if_neg hk] at h
        exact List.mem_cons_of_mem _ (ih h)

/-- Nothing is found under a key exactly if no entry has it. -/
theorem get?_eq_none_iff {es : Entries α} {key : String} :
    es.get? key = none ↔ ∀ e ∈ es, e.1 ≠ key := by
  induction es with
  | nil => simp [get?]
  | cons e rest ih =>
      obtain ⟨k, v⟩ := e
      by_cases hk : k = key
      · simp [get?, hk]
      · rw [get?, if_neg hk, ih, List.forall_mem_cons]
        exact (and_iff_right hk).symm

/-- Other values under the same keys are found where the first ones were. -/
@[simp] theorem get?_mapValues (f : String → α → β) (es : Entries α) (key : String) :
    (es.mapValues f).get? key = (es.get? key).map (f key) := by
  induction es with
  | nil => rfl
  | cons e rest ih =>
      obtain ⟨k, v⟩ := e
      by_cases hk : k = key
      · subst hk
        simp [mapValues, get?]
      · simpa [mapValues, get?, hk] using ih

/-- An entry is there with its changed value. -/
theorem mem_mapValues_of_mem (f : String → α → β) {es : Entries α} {e : String × α} (h : e ∈ es) :
    (e.1, f e.1 e.2) ∈ es.mapValues f :=
  List.mem_map.mpr ⟨e, h, rfl⟩

/-- Changing values twice changes them once. -/
theorem mapValues_mapValues (g : String → β → γ) (f : String → α → β) (es : Entries α) :
    (es.mapValues f).mapValues g = es.mapValues fun k v => g k (f k v) := by
  simp [mapValues, Function.comp_def]

/-- Values that stay as they are leave the entries as they are. -/
theorem mapValues_eq_self {f : String → α → α} {es : Entries α} (h : ∀ e ∈ es, f e.1 e.2 = e.2) :
    es.mapValues f = es := by
  refine (List.map_congr_left fun e he => ?_).trans (List.map_id es)
  rw [h e he]
  rfl

/-- Two ways to make the values agree if they agree on the entries that are there. -/
theorem mapValues_congr {f g : String → α → β} {es : Entries α}
    (h : ∀ e ∈ es, f e.1 e.2 = g e.1 e.2) : es.mapValues f = es.mapValues g :=
  List.map_congr_left fun e he => by rw [h e he]

/-- Replacing a value is a change of values. -/
theorem replace_eq_mapValues (es : Entries α) (key : String) (value : α) :
    es.replace key value = es.mapValues fun k v => if k = key then value else v := by
  induction es with
  | nil => rfl
  | cons e rest ih =>
      obtain ⟨k, v⟩ := e
      rw [replace, ih]
      rfl

/-! ### Entries that stay -/

/-- Erasing a key twice erases it once. -/
theorem erase_erase_self (es : Entries α) (key : String) :
    (es.erase key).erase key = es.erase key := by
  induction es with
  | nil => rfl
  | cons e rest ih =>
      obtain ⟨k, v⟩ := e
      by_cases hk : k = key
      · rw [erase, if_pos hk, ih]
      · rw [erase, if_neg hk, erase, if_neg hk, ih]

/-- Erasing an inserted key leaves what erasing it before would have left. -/
theorem erase_insert_self (es : Entries α) (key : String) (value : α) :
    (es.insert key value).erase key = es.erase key := by
  induction es with
  | nil => simp [insert, erase]
  | cons e rest ih =>
      obtain ⟨k, v⟩ := e
      rw [insert]
      split_ifs with hk hlt
      · rw [erase, if_pos rfl, erase, if_pos hk]
      · rw [erase, if_pos rfl]
      · rw [erase, if_neg hk, erase, if_neg hk, ih]

/-- What remains after erasing a key was there before. -/
theorem mem_of_mem_erase {es : Entries α} {key : String} {e : String × α}
    (h : e ∈ es.erase key) : e ∈ es := by
  induction es with
  | nil => exact h
  | cons f rest ih =>
      obtain ⟨k, v⟩ := f
      by_cases hk : k = key
      · rw [erase, if_pos hk] at h
        exact List.mem_cons_of_mem _ (ih h)
      · rw [erase, if_neg hk] at h
        rcases List.mem_cons.mp h with rfl | h
        · exact List.mem_cons_self
        · exact List.mem_cons_of_mem _ (ih h)

/-- What remains after erasing a key has another key. -/
theorem ne_of_mem_erase {es : Entries α} {key : String} {e : String × α}
    (h : e ∈ es.erase key) : e.1 ≠ key := by
  induction es with
  | nil => exact absurd h List.not_mem_nil
  | cons f rest ih =>
      obtain ⟨k, v⟩ := f
      by_cases hk : k = key
      · rw [erase, if_pos hk] at h
        exact ih h
      · rw [erase, if_neg hk] at h
        rcases List.mem_cons.mp h with rfl | h
        · exact hk
        · exact ih h

/-- An entry after an insertion is the inserted one or was there before. -/
theorem mem_of_mem_insert {es : Entries α} {key : String} {value : α} {e : String × α}
    (h : e ∈ es.insert key value) : e = (key, value) ∨ e ∈ es := by
  induction es with
  | nil =>
      rw [insert, List.mem_singleton] at h
      exact .inl h
  | cons f rest ih =>
      obtain ⟨k, v⟩ := f
      rw [insert] at h
      split_ifs at h with hk hlt
      · rcases List.mem_cons.mp h with rfl | h
        · exact .inl rfl
        · exact .inr (List.mem_cons_of_mem _ h)
      · rcases List.mem_cons.mp h with rfl | h
        · exact .inl rfl
        · exact .inr h
      · rcases List.mem_cons.mp h with rfl | h
        · exact .inr List.mem_cons_self
        · exact (ih h).imp_right (List.mem_cons_of_mem _)

/-! ### Ascending keys -/

namespace Ascending

variable {es : Entries α}

/-- Other values leave the keys ascending. -/
theorem mapValues (h : es.Ascending) (f : String → α → β) : (es.mapValues f).Ascending :=
  List.Pairwise.map _ (fun _ _ hab => hab) h

/-- Erasing a key leaves the keys ascending. -/
theorem erase (h : es.Ascending) (key : String) : (es.erase key).Ascending := by
  induction es with
  | nil => exact List.Pairwise.nil
  | cons e rest ih =>
      obtain ⟨k, v⟩ := e
      have hrest := ih (List.Pairwise.of_cons h)
      rw [Entries.erase]
      split_ifs with hk
      · exact hrest
      · exact hrest.cons fun e he => List.rel_of_pairwise_cons h (mem_of_mem_erase he)

/-- Inserting a value leaves the keys ascending. -/
theorem insert (h : es.Ascending) (key : String) (value : α) :
    (es.insert key value).Ascending := by
  induction es with
  | nil => exact List.pairwise_singleton _ _
  | cons e rest ih =>
      obtain ⟨k, v⟩ := e
      have hk : ∀ e ∈ rest, k < e.1 := fun e he => List.rel_of_pairwise_cons h he
      have hrest := List.Pairwise.of_cons h
      rw [Entries.insert]
      split_ifs with heq hlt
      · exact hrest.cons fun e he => heq ▸ hk e he
      · refine List.Pairwise.cons (fun e he => ?_) h
        rcases List.mem_cons.mp he with rfl | he
        · exact hlt
        · exact String.lt_trans hlt (hk e he)
      · refine (ih hrest).cons fun e he => ?_
        rcases mem_of_mem_insert he with rfl | he
        · exact (Std.lt_trichotomy key k).elim (absurd · hlt)
            (·.elim (fun h => absurd h.symm heq) id)
        · exact hk e he

/-- Every entry is found under its key. -/
theorem get?_of_mem (h : es.Ascending) {e : String × α} (he : e ∈ es) :
    es.get? e.1 = some e.2 := by
  induction es with
  | nil => exact absurd he List.not_mem_nil
  | cons f rest ih =>
      rcases List.mem_cons.mp he with rfl | he
      · rw [get?, if_pos rfl]
      · have hlt : f.1 < e.1 := List.rel_of_pairwise_cons h he
        rw [get?, if_neg (String.ne_of_lt hlt), ih h.of_cons he]

/-- A key below all others is not found. -/
theorem get?_eq_none_of_lt {es : Entries α} {key : String} (h : ∀ e ∈ es, key < e.1) :
    es.get? key = none :=
  get?_eq_none_iff.mpr fun e he => (String.ne_of_lt (h e he)).symm

/-- Inserting a value under a key above all others puts it at the end. -/
theorem insert_of_lt {es : Entries α} {key : String} (value : α) (h : ∀ e ∈ es, e.1 < key) :
    es.insert key value = es ++ [(key, value)] := by
  induction es with
  | nil => rfl
  | cons e rest ih =>
      obtain ⟨k, v⟩ := e
      have hk : k < key := h (k, v) List.mem_cons_self
      rw [Entries.insert, if_neg (String.ne_of_lt hk), if_neg (String.lt_asymm hk),
        ih fun e he => h e (List.mem_cons_of_mem _ he), List.cons_append]

/-- The first of ascending entries is below all entries that begin above it. -/
theorem lt_of_mem_cons {e f : String × α} {fs : Entries α} (h : Ascending (f :: fs))
    (hlt : e.1 < f.1) : ∀ g ∈ f :: fs, e.1 < g.1 := by
  intro g hg
  rcases List.mem_cons.mp hg with rfl | hg
  · exact hlt
  · exact String.lt_trans hlt (List.rel_of_pairwise_cons h hg)

/-- Replacing a value leaves the keys ascending. -/
theorem replace (h : es.Ascending) (key : String) (value : α) :
    (es.replace key value).Ascending := by
  rw [replace_eq_mapValues]
  exact h.mapValues _

/-- Ascending entries in which every look-up finds the same are equal. -/
theorem ext {es fs : Entries α} (he : es.Ascending) (hf : fs.Ascending)
    (h : ∀ key, es.get? key = fs.get? key) : es = fs := by
  induction es generalizing fs with
  | nil =>
      cases fs with
      | nil => rfl
      | cons f fs => simpa [get?] using h f.1
  | cons e es ih =>
      cases fs with
      | nil => simpa [get?] using h e.1
      | cons f fs =>
          have hhead : e.1 = f.1 := by
            -- the lesser of two first keys would be missing on the other side
            obtain hlt | heq | hlt := Std.lt_trichotomy e.1 f.1
            · have := h e.1
              rw [get?_eq_none_of_lt (lt_of_mem_cons hf hlt)] at this
              simp [get?] at this
            · exact heq
            · have := h f.1
              rw [get?_eq_none_of_lt (lt_of_mem_cons he hlt)] at this
              simp [get?] at this
          obtain ⟨k, v⟩ := e
          obtain ⟨l, w⟩ := f
          obtain rfl : k = l := hhead
          obtain rfl : v = w := by simpa [get?] using h k
          refine congrArg _ (ih he.of_cons hf.of_cons fun key => ?_)
          by_cases hkey : k = key
          · subst hkey
            have hes : Entries.get? es k = none :=
              get?_eq_none_of_lt fun e' h' => List.rel_of_pairwise_cons he h'
            have hfs : Entries.get? fs k = none :=
              get?_eq_none_of_lt fun e' h' => List.rel_of_pairwise_cons hf h'
            rw [hes, hfs]
          · simpa [get?, hkey] using h key

/-- A value that is put back under a key that was erased is in the place of the one before. -/
theorem insert_erase (h : es.Ascending) {key : String} {value : α} (hv : es.get? key = some value)
    (value' : α) : (es.erase key).insert key value' = es.replace key value' := by
  refine ((h.erase key).insert key value').ext (h.replace key value') fun other => ?_
  rw [get?_replace]
  split_ifs with hother
  · rw [← hother, get?_insert_self, hv]
    rfl
  · rw [get?_insert_of_ne _ _ hother, get?_erase_of_ne _ hother]

end Ascending

/-! ### Entries with given keys -/

/-- Entries inserted under keys that are given along with their values. -/
theorem get?_foldl_insert (f : String → α) (keys : List String) (es : Entries α) (key : String) :
    ((keys.map fun k => (k, f k)).foldl (fun es (k, v) => es.insert k v) es).get? key =
      if key ∈ keys then some (f key) else es.get? key := by
  induction keys generalizing es with
  | nil => simp
  | cons k rest ih =>
      rw [List.map_cons, List.foldl_cons, ih]
      by_cases hrest : key ∈ rest
      · simp [hrest]
      · by_cases hk : k = key
        · subst hk
          simp [hrest]
        · simp [hrest, Ne.symm hk, get?_insert_of_ne _ _ hk]

/-- The entries with some keys, each with its value, ascend. -/
theorem ascending_ofList (pairs : List (String × α)) : (ofList pairs).Ascending := by
  have hfold : ∀ es : Entries α, es.Ascending →
      Ascending (pairs.foldl (fun es (k, v) => es.insert k v) es) := by
    induction pairs with
    | nil => exact fun _ h => h
    | cons e rest ih => exact fun es h => ih _ (h.insert e.1 e.2)
  exact hfold [] List.Pairwise.nil

/-- Inserting a value under a new key adds an entry. -/
theorem perm_insert {es : Entries α} {key : String} (value : α) (h : ∀ e ∈ es, e.1 ≠ key) :
    (es.insert key value).Perm ((key, value) :: es) := by
  induction es with
  | nil => exact .refl _
  | cons e rest ih =>
      obtain ⟨k, v⟩ := e
      rw [insert, if_neg (h (k, v) List.mem_cons_self)]
      split_ifs with hlt
      · exact .refl _
      · exact ((ih fun e he => h e (List.mem_cons_of_mem _ he)).cons (k, v)).trans (.swap ..)

/-- Entries under different keys are inserted without loss. -/
theorem perm_ofList {pairs : List (String × α)} (h : (pairs.map Prod.fst).Nodup) :
    (ofList pairs).Perm pairs := by
  induction pairs using List.reverseRecOn with
  | nil => exact .refl _
  | append_singleton pairs pair ih =>
      rw [List.map_append, List.nodup_append] at h
      obtain ⟨hpairs, -, hkey⟩ := h
      have hlast := ih hpairs
      rw [ofList, List.foldl_append]
      refine (perm_insert pair.2 fun e he => ?_).trans ((hlast.cons pair).trans ?_)
      · exact hkey e.1 (List.mem_map_of_mem (hlast.subset he)) pair.1 (List.mem_singleton_self _)
      · exact (List.perm_append_singleton pair pairs).symm

/-- Every entry is one of those that it was made from. -/
theorem mem_of_mem_ofList {pairs : List (String × α)} {e : String × α} (h : e ∈ ofList pairs) :
    e ∈ pairs := by
  induction pairs using List.reverseRecOn with
  | nil => exact h
  | append_singleton pairs pair ih =>
      rw [ofList, List.foldl_append] at h
      rcases mem_of_mem_insert h with rfl | h
      · exact List.mem_append_right _ List.mem_cons_self
      · exact List.mem_append_left _ (ih h)

/-- The entries with some keys are those of these keys. -/
theorem mem_ofList_map {f : String → α} {keys : List String} {e : String × α} :
    e ∈ ofList (keys.map fun k => (k, f k)) ↔ e.1 ∈ keys ∧ e.2 = f e.1 := by
  have hget := get?_foldl_insert f keys []
  constructor
  · intro he
    have hfound := (ascending_ofList _).get?_of_mem he
    rw [ofList, hget] at hfound
    split_ifs at hfound with hmem
    · exact ⟨hmem, (Option.some.inj hfound).symm⟩
    · exact absurd hfound (by simp [get?])
  · rintro ⟨hmem, hvalue⟩
    refine mem_of_get? (v := e.2) ?_
    rw [ofList, hget, if_pos hmem, hvalue]

end SchemaBridge.Entries
