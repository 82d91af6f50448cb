import SchemaBridge.Proofs.Response.Completeness
import SchemaBridge.Proofs.Response.Isolation

/-!
# Where keys are moved to

One pass over a response renames the last key of every marked path. What it makes of the keys that
lead to a value can be told from these keys alone, one after the other.

* `keysAfter`: the keys that lead to a value after one pass;
* `rekey_nest`: a value beneath these keys alone is found beneath the renamed ones;
* `FieldRename.restore_onePass`: restoring a response path by path is one pass, for the recorded
  paths in any order and with any repetition.
-/

namespace SchemaBridge

open Graphql (Document)

section Pass

variable {old new : String} {marked marked' : List (List String)}

/-- The keys of a value at a path after one pass, from the keys that lead from there on. -/
def keysAfter (old new : String) (marked : List (List String)) :
    List String → List String → List String
  | _, [] => []
  | path, key :: rest =>
    keyAfter old new marked path key :: keysAfter old new marked (path ++ [key]) rest

/-- The last key is renamed by whether the whole path is marked. -/
theorem keysAfter_concat (path p : List String) (key : String) :
    keysAfter old new marked path (p ++ [key]) =
      keysAfter old new marked path p ++ [keyAfter old new marked (path ++ p) key] := by
  induction p generalizing path with
  | nil => simp [keysAfter]
  | cons k rest ih =>
      rw [List.cons_append, keysAfter, keysAfter, ih, List.cons_append, List.append_assoc,
        List.singleton_append]

/-- Keys are renamed alike by the same marks in another list. -/
theorem keysAfter_congr (h : ∀ p, p ∈ marked ↔ p ∈ marked') (path p : List String) :
    keysAfter old new marked path p = keysAfter old new marked' path p := by
  induction p generalizing path with
  | nil => rfl
  | cons key rest ih =>
      rw [keysAfter, keysAfter, ih]
      simp only [keyAfter, List.contains_eq_mem, h]

/-- A value beneath some keys alone is found beneath the renamed keys after one pass. -/
theorem rekey_nest (base p : List String) :
    rekey old new marked base (.nest p) = .nest (keysAfter old new marked base p) := by
  induction p generalizing base with
  | nil => rfl
  | cons key rest ih =>
      rw [rekey_nest_cons, ih, keysAfter, Json.Value.nest, keyAfter]
      simp only [List.contains_eq_mem, Bool.and_eq_true, decide_eq_true_eq]

/-- Values beneath different keys differ. -/
theorem Json.Value.nest_injective {p q : List String} (h : nest p = nest q) : p = q := by
  induction p generalizing q with
  | nil =>
      cases q with
      | nil => rfl
      | cons key rest => exact absurd h (by simp [nest])
  | cons key rest ih =>
      cases q with
      | nil => exact absurd h (by simp [nest])
      | cons key' rest' =>
          obtain ⟨rfl, hrest⟩ := Prod.mk.inj (List.cons.inj (object.inj h)).1
          rw [ih hrest]

/-- One pass renames nothing in a value that has no marked path. -/
theorem rekey_eq_self_of_follows {elsewhere : List (List String)} {v : Json.Value}
    (hfollows : v.Follows elsewhere []) (h : ∀ p ∈ marked, p ∉ elsewhere) :
    rekey old new marked [] v = v := by
  have hnone : ∀ p ∈ elsewhere, p ∈ marked ↔ p ∈ [] := fun p hp =>
    iff_of_false (fun hmem => h p hmem hp) List.not_mem_nil
  rw [rekey_congr_of_follows hfollows hnone, rekey_nil]

/-- One pass renames nothing at a path beneath which nothing is marked. -/
theorem rekey_eq_self_of_unmarked {path : List String} (h : ∀ q, path ++ q ++ [old] ∉ marked)
    (v : Json.Value) : rekey old new marked path v = v := by
  have hnone : ∀ q, path ++ q ++ [old] ∈ marked ↔ path ++ q ++ [old] ∈ [] := fun q =>
    iff_of_false (h q) List.not_mem_nil
  rw [rekey_congr v hnone, rekey_nil]

/-- What is found under a key of an object at a path after one pass. If the old key is there and
marked, its value is found under the new key, in place of one that was there, and nothing under the
old key. All values have been passed over, each at the path of the key that it had. -/
def foundAfter (old new : String) (marked : List (List String)) (path : List String)
    (entries : Json.Object) (key : String) : Option Json.Value :=
  match if marked.contains (path ++ [old]) then Entries.get? entries old else none with
  | some v =>
    if key = new then some (rekey old new marked (path ++ [old]) v)
    else if key = old then none
    else (Entries.get? entries key).map (rekey old new marked (path ++ [key]))
  | none => (Entries.get? entries key).map (rekey old new marked (path ++ [key]))

/-- An object after one pass, key by key. -/
theorem exists_rekey_object (path : List String) {entries : Json.Object}
    (hascending : entries.Ascending) :
    ∃ entries' : Json.Object, rekey old new marked path (.object entries) = .object entries' ∧
      entries'.Ascending ∧
      ∀ key, Entries.get? entries' key = foundAfter old new marked path entries key := by
  have hvalues := hascending.mapValues fun k => rekey old new marked (path ++ [k])
  refine ⟨_, rekey_object marked path entries, ?_, fun key => ?_⟩
  · rw [renameIfMarked_eq]
    split_ifs
    · exact hvalues.renameKey old new
    · exact hvalues
  rw [renameIfMarked_eq, foundAfter]
  by_cases hmarked : path ++ [old] ∈ marked
  · rw [if_pos hmarked, if_pos (List.contains_iff_mem.mpr hmarked)]
    cases hold : Entries.get? entries old with
    | none =>
        rw [renameKey_of_get?_eq_none (by rw [Entries.get?_mapValues, hold, Option.map_none]),
          Entries.get?_mapValues]
    | some v =>
        by_cases hne : old = new
        · subst hne
          rw [renameKey_self hvalues, Entries.get?_mapValues]
          by_cases hkey : key = old
          · simp [hkey, hold]
          · simp [hkey]
        · rw [get?_renameKey hne]
          simp only [Entries.get?_mapValues, hold, Option.map_some, Option.some_or]
  · rw [if_neg hmarked, if_neg (mt List.contains_iff_mem.mp hmarked), Entries.get?_mapValues]

end Pass

namespace FieldRename

/-- **Restoring a response is one pass over it.** The paths that are recorded for a document may
be taken in any order and any number of times: restoring a response path by path passes over it
once. The pass keeps scalars, goes into arrays without a step of the path, and takes the values of
an object before its keys; there it moves what is found under the new name to the old name,
exactly if the path of the object continued by the new name is recorded. Hence a value beneath any
keys is found beneath the keys of which those that end a recorded path are renamed, however many
there are; what stands at a path beneath which nothing is recorded is kept; and so is a response
that has no recorded path. -/
theorem restore_onePass (r : FieldRename) (d : Document) (values : Option Json.Object) :
    ∃ adapted, (r.toRule.request d values).outcome = .ok adapted ∧
      ∀ paths : List (List String), (∀ p, p ∈ paths ↔ p ∈ r.recordedPaths d) →
        (∀ v : Json.Value,
          (adapted.restore v).outcome = .ok (rekey r.newName r.oldName paths [] v) ∧
          r.restore paths v = rekey r.newName r.oldName paths [] v) ∧
        (∀ (path : List String) (entries : Json.Object), entries.Ascending →
          ∃ entries' : Json.Object,
            rekey r.newName r.oldName paths path (.object entries) = .object entries' ∧
            entries'.Ascending ∧ ∀ key, Entries.get? entries' key =
              foundAfter r.newName r.oldName paths path entries key) ∧
        (∀ p : List String, (adapted.restore (.nest p)).outcome =
          .ok (.nest (keysAfter r.newName r.oldName paths [] p))) ∧
        (∀ path : List String, (∀ q, path ++ q ++ [r.newName] ∉ paths) → ∀ v : Json.Value,
          rekey r.newName r.oldName paths path v = v) ∧
        ∀ (elsewhere : List (List String)) (v : Json.Value), v.Follows elsewhere [] →
          (∀ p ∈ paths, p ∉ elsewhere) → (adapted.restore v).outcome = .ok v := by
  refine ⟨_, r.outcome_request, fun paths hpaths => ?_⟩
  have hrecorded : ∀ v, r.restore (r.recordedPaths d) v =
      rekey r.newName r.oldName paths [] v := fun v =>
    (r.restore_recordedPaths d v).trans (rekey_congr v fun _ => (hpaths _).symm)
  have hpath : ∀ v, r.restore paths v = rekey r.newName r.oldName paths [] v := fun v =>
    r.restore_eq_rekey (fun p hp => r.eq_concat_of_mem_recordedPaths ((hpaths p).mp hp)) v
  simp only [Traced.outcome_pure, hrecorded, Except.ok.injEq]
  refine ⟨fun v => ⟨trivial, hpath v⟩, fun path entries => exists_rekey_object path, rekey_nest [],
    fun path => rekey_eq_self_of_unmarked, fun elsewhere v => rekey_eq_self_of_follows⟩

/-- `{ things { things } }`. -/
def thingsInThings : Document :=
  ⟨[.operation ⟨none, [.field ⟨none, "things", [], []⟩ [.field ⟨none, "things", [], []⟩ []]]⟩]⟩

/-- A list of items of which one is missing and one has both names as keys. -/
def itemsInItems : Json.Value :=
  .object [("items", .array [.null, .object [("items", .string "a"), ("things", .string "b")]]),
    ("other", .null)]

/-- A renamed field beneath a renamed one, within a list; its path is given first and twice. -/
theorem restore_onePass_nested :
    ∃ adapted, ((⟨"things", "items"⟩ : FieldRename).toRule.request thingsInThings none).outcome =
        .ok adapted ∧
      (∀ p, p ∈ [["items", "items"], ["items"], ["items", "items"]] ↔
        p ∈ (⟨"things", "items"⟩ : FieldRename).recordedPaths thingsInThings) ∧
      (adapted.restore itemsInItems).outcome = .ok (.object [("other", .null),
        ("things", .array [.null, .object [("things", .string "a")]])]) := by
  have hrecorded : (⟨"things", "items"⟩ : FieldRename).recordedPaths thingsInThings =
      [["items"], ["items", "items"]] := by
    rw [recordedPaths, affectedPaths_eq_map]
    cbv
  have hpaths : ∀ p, p ∈ [["items", "items"], ["items"], ["items", "items"]] ↔
      p ∈ (⟨"things", "items"⟩ : FieldRename).recordedPaths thingsInThings := by
    intro p
    rw [hrecorded]
    simp only [List.mem_cons, List.not_mem_nil, or_false]
    tauto
  obtain ⟨adapted, ok, h⟩ := restore_onePass ⟨"things", "items"⟩ thingsInThings none
  refine ⟨adapted, ok, hpaths, ?_⟩
  rw [((h _ hpaths).1 itemsInItems).1]
  exact congrArg _ (by cbv)

end FieldRename

end SchemaBridge
