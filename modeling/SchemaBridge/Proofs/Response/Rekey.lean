import Mathlib.Data.List.Induction
import SchemaBridge.Proofs.Json.Shape
import SchemaBridge.Rule.FieldName

/-!
# Renaming keys in one pass

A response is restored path by path, the longest paths first. The same is done by one descent
through the response.

* `rekey`: renames a key in all objects whose path, continued by that key, is marked;
* `rekey_congr`: only the marks beneath the path of a value count;
* `FieldRename.restore_eq_rekey`: restoring is one pass, so neither the order of the paths nor
  their repetition matters, and no key on the way to a path is renamed before the key at its end.
-/

namespace SchemaBridge

/-! ### Renaming a key of an object -/

section RenameKey

variable {old new : String} {o : Json.Object}

/-- A key that is missing is not renamed. -/
theorem renameKey_of_get?_eq_none (h : Entries.get? o old = none) : renameKey old new o = o := by
  rw [renameKey, h]

/-- A key that is there moves with its value. -/
theorem renameKey_of_get?_eq_some {v : Json.Value} (h : Entries.get? o old = some v) :
    renameKey old new o = (o.erase old).insert new v := by
  rw [renameKey, h]

/-- Renaming a key leaves the keys ascending. -/
theorem Entries.Ascending.renameKey (h : o.Ascending) (old new : String) :
    (renameKey old new o).Ascending := by
  cases hv : Entries.get? o old with
  | none => rwa [renameKey_of_get?_eq_none hv]
  | some v =>
      rw [renameKey_of_get?_eq_some hv]
      exact (h.erase old).insert new v

/-- An entry after renaming a key is the renamed one, or one that was there under another key. -/
theorem mem_of_mem_renameKey {e : String × Json.Value} (h : e ∈ renameKey old new o) :
    (e.1 = new ∧ (old, e.2) ∈ o) ∨ (e.1 ≠ old ∧ e ∈ o) := by
  cases hv : Entries.get? o old with
  | none =>
      rw [renameKey_of_get?_eq_none hv] at h
      exact .inr ⟨Entries.get?_eq_none_iff.mp hv e h, h⟩
  | some v =>
      rw [renameKey_of_get?_eq_some hv] at h
      rcases Entries.mem_of_mem_insert h with rfl | h
      · exact .inl ⟨rfl, Entries.mem_of_get? hv⟩
      · exact .inr ⟨Entries.ne_of_mem_erase h, Entries.mem_of_mem_erase h⟩

/-- What is found after another key has been renamed. -/
theorem get?_renameKey (hne : old ≠ new) (key : String) :
    Entries.get? (renameKey old new o) key =
      if key = new then (Entries.get? o old).or (Entries.get? o new)
      else if key = old then none else Entries.get? o key := by
  cases hv : Entries.get? o old with
  | none =>
      rw [renameKey_of_get?_eq_none hv, Option.none_or]
      split_ifs with hnew hold
      · rw [hnew]
      · rw [hold, hv]
      · rfl
  | some v =>
      rw [renameKey_of_get?_eq_some hv, Option.some_or]
      split_ifs with hnew hold
      · rw [hnew, Entries.get?_insert_self]
      · rw [hold, Entries.get?_insert_of_ne _ _ hne.symm, Entries.get?_erase_self]
      · rw [Entries.get?_insert_of_ne _ _ (Ne.symm hnew), Entries.get?_erase_of_ne _ (Ne.symm hold)]

/-- Renaming a key to itself changes no ascending entries. -/
theorem renameKey_self (h : o.Ascending) (key : String) : renameKey key key o = o := by
  cases hv : Entries.get? o key with
  | none => exact renameKey_of_get?_eq_none hv
  | some v =>
      refine (h.renameKey key key).ext h fun k => ?_
      rw [renameKey_of_get?_eq_some hv]
      by_cases hk : key = k
      · rw [← hk, Entries.get?_insert_self, hv]
      · rw [Entries.get?_insert_of_ne _ _ hk, Entries.get?_erase_of_ne _ hk]

/-- Renaming a key back undoes its renaming, if no key was replaced; the values may change on the
way there and back. -/
theorem renameKey_mapValues_renameKey (hne : old ≠ new) (ho : o.Ascending)
    (hnew : Entries.get? o new = none) {f g : String → Json.Value → Json.Value}
    (h : ∀ e ∈ o, g (if e.1 = old then new else e.1) (f e.1 e.2) = e.2) :
    renameKey new old (Entries.mapValues g (renameKey old new (Entries.mapValues f o))) = o := by
  have hback : ∀ key, (Entries.get? o key).map
      (fun v => g (if key = old then new else key) (f key v)) = Entries.get? o key := by
    intro key
    cases hv : Entries.get? o key with
    | none => rfl
    | some v => exact congrArg some (h _ (Entries.mem_of_get? hv))
  refine Entries.Ascending.ext ?_ ho fun key => ?_
  · exact (((ho.mapValues f).renameKey old new).mapValues g).renameKey new old
  rw [get?_renameKey hne.symm, Entries.get?_mapValues, Entries.get?_mapValues,
    Entries.get?_mapValues, get?_renameKey hne, get?_renameKey hne, get?_renameKey hne,
    Entries.get?_mapValues, Entries.get?_mapValues, Entries.get?_mapValues, hnew]
  by_cases hold : key = old
  · subst hold
    have := hback key
    rw [if_pos rfl] at this
    simpa [hne, Function.comp_def] using this
  by_cases hkey : key = new
  · subst hkey
    simp [hold, hnew]
  · have := hback key
    rw [if_neg hold] at this
    simpa [hold, hkey, Function.comp_def] using this

/-- A key is gone once it has been renamed, so that a second renaming finds nothing. -/
theorem renameKey_renameKey_same :
    renameKey old new (renameKey old new o) = renameKey old new o := by
  by_cases hne : old = new
  · subst hne
    cases hv : Entries.get? o old with
    | none => rw [renameKey_of_get?_eq_none hv, renameKey_of_get?_eq_none hv]
    | some v =>
        rw [renameKey_of_get?_eq_some hv,
          renameKey_of_get?_eq_some (Entries.get?_insert_self _ old v), Entries.erase_insert_self,
          Entries.erase_erase_self]
  · refine renameKey_of_get?_eq_none ?_
    rw [get?_renameKey hne, if_neg hne, if_pos rfl]

end RenameKey

/-! ### One pass -/

/-- The object at a path with a key renamed, if the path continued by that key is marked. -/
def renameIfMarked (old new : String) (marked : List (List String)) (path : List String)
    (o : Json.Object) : Json.Object :=
  if marked.contains (path ++ [old]) then renameKey old new o else o

/-- A key is renamed if its path is one of the marks. -/
theorem renameIfMarked_eq (old new : String) (marked : List (List String)) (path : List String)
    (o : Json.Object) :
    renameIfMarked old new marked path o =
      if path ++ [old] ∈ marked then renameKey old new o else o := by
  rw [renameIfMarked, List.contains_eq_mem]
  simp only [decide_eq_true_eq]

mutual

/-- The value at a path with a key renamed in all objects whose path, continued by that key, is
marked. Lists add nothing to the path. In an object the values come first, each at the path of its
key before the renaming. -/
def rekey (old new : String) (marked : List (List String)) (path : List String) :
    Json.Value → Json.Value
  | .array items => .array (rekeyItems old new marked path items)
  | .object entries =>
    .object (renameIfMarked old new marked path (rekeyEntries old new marked path entries))
  | .null => .null
  | .boolean b => .boolean b
  | .number n => .number n
  | .string s => .string s

/-- The items of a list at a path with a key renamed where it is marked. -/
def rekeyItems (old new : String) (marked : List (List String)) (path : List String) :
    List Json.Value → List Json.Value
  | [] => []
  | v :: rest => rekey old new marked path v :: rekeyItems old new marked path rest

/-- The values of an object at a path with a key renamed where it is marked. -/
def rekeyEntries (old new : String) (marked : List (List String)) (path : List String) :
    List (String × Json.Value) → List (String × Json.Value)
  | [] => []
  | (k, v) :: rest =>
    (k, rekey old new marked (path ++ [k]) v) :: rekeyEntries old new marked path rest

end

section Rekey

variable {old new : String}

/-- An array after one pass. -/
theorem rekey_array (marked : List (List String)) (path : List String) (items : List Json.Value) :
    rekey old new marked path (.array items) =
      .array (items.map (rekey old new marked path)) := by
  rw [rekey]
  refine congrArg _ ?_
  induction items with
  | nil => rfl
  | cons v rest ih => rw [rekeyItems, ih, List.map_cons]

/-- An object after one pass. -/
theorem rekey_object (marked : List (List String)) (path : List String)
    (entries : List (String × Json.Value)) :
    rekey old new marked path (.object entries) =
      .object (renameIfMarked old new marked path
        (Entries.mapValues (fun k => rekey old new marked (path ++ [k])) entries)) := by
  rw [rekey]
  refine congrArg (fun es => Json.Value.object (renameIfMarked old new marked path es)) ?_
  induction entries with
  | nil => rfl
  | cons e rest ih =>
      rw [rekeyEntries, ih]
      rfl

/-- An array with a key renamed at a path. -/
theorem renameKeyAt_array (path : List String) (items : List Json.Value) :
    renameKeyAt old new path (.array items) = .array (items.map (renameKeyAt old new path)) := by
  rw [renameKeyAt]
  refine congrArg _ ?_
  induction items with
  | nil => rfl
  | cons v rest ih => rw [renameKeyInItems, ih, List.map_cons]

/-- An object with a key renamed at a path that goes on beneath it. -/
theorem renameKeyAt_object_cons (key : String) (path : List String)
    (entries : List (String × Json.Value)) :
    renameKeyAt old new (key :: path) (.object entries) =
      .object (Entries.mapValues
        (fun k v => if k = key then renameKeyAt old new path v else v) entries) := by
  rw [renameKeyAt]
  refine congrArg _ ?_
  induction entries with
  | nil => rfl
  | cons e rest ih =>
      rw [renameKeyInEntries, ih]
      rfl

/-- Only the marks beneath the path of a value count. -/
theorem rekey_congr {marked marked' : List (List String)} {path : List String} (v : Json.Value)
    (h : ∀ q, path ++ q ++ [old] ∈ marked ↔ path ++ q ++ [old] ∈ marked') :
    rekey old new marked path v = rekey old new marked' path v := by
  induction v generalizing path with
  | null => rfl
  | boolean b => rfl
  | number n => rfl
  | string s => rfl
  | array items ih =>
      rw [rekey_array, rekey_array]
      exact congrArg _ (List.map_congr_left fun v hv => ih v hv h)
  | object entries ih =>
      have hbeneath : Entries.mapValues (fun k => rekey old new marked (path ++ [k])) entries =
          Entries.mapValues (fun k => rekey old new marked' (path ++ [k])) entries := by
        refine Entries.mapValues_congr fun e he => ih e he fun q => ?_
        simpa only [List.append_assoc] using h ([e.1] ++ q)
      have hhere := h []
      rw [List.append_nil] at hhere
      rw [rekey_object, rekey_object, hbeneath, renameIfMarked_eq, renameIfMarked_eq]
      simp only [hhere]

/-- Without marks nothing is renamed. -/
theorem rekey_nil (path : List String) (v : Json.Value) : rekey old new [] path v = v := by
  induction v generalizing path with
  | null => rfl
  | boolean b => rfl
  | number n => rfl
  | string s => rfl
  | array items ih =>
      rw [rekey_array]
      exact congrArg _ ((List.map_congr_left fun v hv => ih v hv path).trans (List.map_id items))
  | object entries ih =>
      rw [rekey_object, Entries.mapValues_eq_self fun e he => ih e he _, renameIfMarked_eq,
        if_neg List.not_mem_nil]

/-- Renaming a key to itself changes no ordered value. -/
theorem rekey_self {key : String} (marked : List (List String)) {v : Json.Value} (h : v.Ordered)
    (path : List String) : rekey key key marked path v = v := by
  induction h generalizing path with
  | null => rfl
  | boolean b => rfl
  | number n => rfl
  | string s => rfl
  | @array items _ ih =>
      rw [rekey_array]
      exact congrArg _ ((List.map_congr_left fun v hv => ih v hv path).trans (List.map_id items))
  | object ascending _ ih =>
      rw [rekey_object, Entries.mapValues_eq_self fun e he => ih e he _, renameIfMarked_eq,
        renameKey_self ascending, ite_self]

/-- One pass keeps a value ordered. -/
theorem ordered_rekey (marked : List (List String)) {v : Json.Value} (h : v.Ordered)
    (path : List String) : (rekey old new marked path v).Ordered := by
  induction h generalizing path with
  | null => exact .null
  | boolean b => exact .boolean b
  | number n => exact .number n
  | string s => exact .string s
  | array _ ih =>
      rw [rekey_array]
      refine .array fun w hw => ?_
      obtain ⟨v, hv, rfl⟩ := List.mem_map.mp hw
      exact ih v hv path
  | @object entries ascending _ ih =>
      have hmap : Json.Value.Ordered
          (.object (Entries.mapValues (fun k => rekey old new marked (path ++ [k])) entries)) := by
        refine .object (ascending.mapValues _) fun e he => ?_
        obtain ⟨f, hf, rfl⟩ := List.mem_map.mp he
        exact ih f hf _
      obtain ⟨hascending, hbeneath⟩ := hmap.of_object
      rw [rekey_object, renameIfMarked_eq]
      split_ifs with hmarked
      · refine .object (hascending.renameKey old new) fun e he => ?_
        rcases mem_of_mem_renameKey he with ⟨-, he⟩ | ⟨-, he⟩
        · exact hbeneath (old, e.2) he
        · exact hbeneath e he
      · exact hmap

/-- A key renamed in an object after one pass has been renamed as if it had been marked. -/
theorem renameKeyAt_nil_rekey (marked : List (List String)) (base : List String)
    (entries : List (String × Json.Value)) :
    renameKeyAt old new [] (rekey old new marked base (.object entries)) =
      rekey old new ((base ++ [old]) :: marked) base (.object entries) := by
  -- the values are as before, and the key is renamed once
  have hbeneath : Entries.mapValues
      (fun k => rekey old new ((base ++ [old]) :: marked) (base ++ [k])) entries =
      Entries.mapValues (fun k => rekey old new marked (base ++ [k])) entries := by
    refine Entries.mapValues_congr fun e _ => rekey_congr e.2 fun q => ?_
    rw [List.mem_cons, or_iff_right]
    intro heq
    simpa using congrArg List.length heq
  rw [rekey_object, rekey_object, hbeneath, renameKeyAt, renameIfMarked_eq, renameIfMarked_eq,
    if_pos List.mem_cons_self]
  split_ifs
  · rw [renameKey_renameKey_same]
  · rfl

/-- A key renamed at a path after one pass has been renamed as if it had been marked, as long as
no shorter path is. -/
theorem renameKeyAt_rekey {marked : List (List String)} (v : Json.Value) {base path : List String}
    (h : ∀ p ∈ marked, base.length + path.length < p.length) :
    renameKeyAt old new path (rekey old new marked base v) =
      rekey old new ((base ++ path ++ [old]) :: marked) base v := by
  induction v generalizing base path with
  | null => rfl
  | boolean b => rfl
  | number n => rfl
  | string s => rfl
  | array items ih =>
      rw [rekey_array, rekey_array, renameKeyAt_array, List.map_map]
      exact congrArg _ (List.map_congr_left fun v hv => ih v hv h)
  | object entries ih =>
      cases path with
      | nil =>
          rw [List.append_nil]
          exact renameKeyAt_nil_rekey marked base entries
      | cons key path =>
          -- on the way: no key is renamed here, and only the value under the key changes
          have hhere : base ++ [old] ∉ marked := by
            intro hmem
            have := h _ hmem
            simp only [List.length_append, List.length_cons, List.length_nil] at this
            omega
          have hhere' : base ++ [old] ∉ (base ++ (key :: path) ++ [old]) :: marked := by
            rw [List.mem_cons, not_or]
            refine ⟨fun heq => ?_, hhere⟩
            simpa using congrArg List.length heq
          rw [rekey_object, rekey_object, renameIfMarked_eq, if_neg hhere, renameIfMarked_eq,
            if_neg hhere', renameKeyAt_object_cons, Entries.mapValues_mapValues]
          refine congrArg _ (Entries.mapValues_congr fun e he => ?_)
          split_ifs with hkey
          · rw [hkey, ih e he (by simpa [Nat.add_assoc, Nat.add_comm 1] using h)]
            simp only [List.append_assoc, List.cons_append, List.nil_append]
          · refine rekey_congr e.2 fun q => ?_
            rw [List.mem_cons, or_iff_right]
            intro heq
            simp only [List.append_assoc, List.cons_append, List.append_cancel_left_eq,
              List.cons.injEq] at heq
            exact hkey heq.1

end Rekey

/-! ### Restoring is one pass -/

namespace FieldRename

variable (r : FieldRename)

/-- Restoring path by path is one pass, as long as no path is longer than one before it. -/
theorem foldl_restorePath {paths : List (List String)}
    (hend : ∀ p ∈ paths, ∃ q, p = q ++ [r.newName])
    (hlength : paths.Pairwise fun p q => q.length ≤ p.length) (v : Json.Value) :
    paths.foldl r.restorePath v = rekey r.newName r.oldName paths [] v := by
  induction paths using List.reverseRecOn with
  | nil => exact (rekey_nil [] v).symm
  | append_singleton paths p ih =>
      obtain ⟨q, rfl⟩ := hend p (List.mem_append_right _ List.mem_cons_self)
      obtain ⟨hpaths, -, hlonger⟩ := List.pairwise_append.mp hlength
      rw [List.foldl_append, List.foldl_cons, List.foldl_nil,
        ih (fun p hp => hend p (List.mem_append_left _ hp)) hpaths, restorePath,
        if_neg (by simp), List.dropLast_concat, renameKeyAt_rekey]
      · refine rekey_congr v fun s => ?_
        rw [List.nil_append, List.mem_cons, List.mem_append, List.mem_singleton, or_comm]
      · intro p hp
        have := hlonger p hp _ List.mem_cons_self
        simp only [List.length_append, List.length_cons, List.length_nil] at this ⊢
        omega

/-- Restoring a response is one pass. -/
theorem restore_eq_rekey {paths : List (List String)}
    (hend : ∀ p ∈ paths, ∃ q, p = q ++ [r.newName]) (v : Json.Value) :
    r.restore paths v = rekey r.newName r.oldName paths [] v := by
  have hperm : (deepestFirst paths).Perm paths := List.mergeSort_perm _ _
  have hlength : (deepestFirst paths).Pairwise fun p q => q.length ≤ p.length := by
    let le (p q : List String) : Bool := decide (q.length ≤ p.length)
    have htrans : ∀ a b c, le a b = true → le b c = true → le a c = true := by
      intro a b c hab hbc
      rw [decide_eq_true_eq] at hab hbc ⊢
      exact Nat.le_trans hbc hab
    have htotal : ∀ a b, (le a b || le b a) = true := by
      intro a b
      rw [Bool.or_eq_true, decide_eq_true_eq, decide_eq_true_eq]
      exact Nat.le_total b.length a.length
    exact (List.pairwise_mergeSort htrans htotal paths).imp fun h => of_decide_eq_true h
  rw [restore, r.foldl_restorePath (fun p hp => hend p (hperm.mem_iff.mp hp)) hlength]
  exact rekey_congr v fun q => hperm.mem_iff

end FieldRename

end SchemaBridge
