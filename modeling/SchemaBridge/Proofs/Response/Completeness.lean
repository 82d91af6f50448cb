import SchemaBridge.Proofs.Response.Rekey
import SchemaBridge.Proofs.Response.Unambiguous
import SchemaBridge.Proofs.Rule.Request

/-!
# Responses that are complete

A client expects the keys that it has selected. The response to a renamed request has the keys that
the renamed document selects; is anything missing once it has been restored?

* `MovesTo`: where a value stands after one pass over a complete value. A value is lost if another
  one takes its key;
* `covers_rekey`: if every path that is needed is moved to, nothing is missing;
* `exists_complete`: each value that is moved is part of a complete value that has nothing else in
  it, so that the condition is necessary too (`covers_rekey_iff`);
* `FieldRename.restore_covers_iff`: when complete responses stay complete, in general and where no
  affected field shares its response path with another one.
-/

namespace SchemaBridge

open Graphql (Document Field Trail)

section Pass

variable {old new : String} {marked paths paths' : List (List String)}

/-! ### Keys that move -/

/-- The key of an entry after one pass over the object at a path. -/
def keyAfter (old new : String) (marked : List (List String)) (path : List String)
    (key : String) : String :=
  if key = old && marked.contains (path ++ [old]) then new else key

/-- A marked key is renamed. -/
theorem keyAfter_of_mem {path : List String} (h : path ++ [old] ∈ marked) :
    keyAfter old new marked path old = new := by
  simp [keyAfter, h]

/-- Where the key is not marked, all keys stay. -/
theorem keyAfter_of_not_mem {path : List String} (h : path ++ [old] ∉ marked) (key : String) :
    keyAfter old new marked path key = key := by
  simp [keyAfter, h]

/-- Other keys stay. -/
theorem keyAfter_of_ne {key : String} (h : key ≠ old) (path : List String) :
    keyAfter old new marked path key = key := by
  simp [keyAfter, h]

/-- A key that is renamed to itself stays. -/
theorem keyAfter_self (path : List String) (key : String) :
    keyAfter old old marked path key = key := by
  by_cases hkey : key = old
  · rw [hkey, keyAfter, ite_self]
  · exact keyAfter_of_ne hkey path

/-- The entry under a key of a complete object at a path stays in it in one pass: no other entry
takes its key. -/
def Outlasts (old new : String) (marked paths : List (List String)) (path : List String)
    (key : String) : Prop :=
  key = new → old ≠ new → path ++ [old] ∈ marked → path ++ [old] ∉ paths

/-- One pass over a complete value moves what stands at the first path to the second one. -/
inductive MovesTo (old new : String) (marked paths : List (List String)) :
    List String → List String → Prop
  | root : MovesTo old new marked paths [] []
  | key {q p key} : MovesTo old new marked paths q p → q ++ [key] ∈ paths →
      Outlasts old new marked paths q key →
      MovesTo old new marked paths (q ++ [key]) (p ++ [keyAfter old new marked q key])

/-- What is moved to a key of an object has been moved with the object. -/
theorem MovesTo.of_concat {q p : List String} {key : String}
    (h : MovesTo old new marked paths q (p ++ [key])) :
    ∃ q₀ key₀, q = q₀ ++ [key₀] ∧ MovesTo old new marked paths q₀ p ∧ q₀ ++ [key₀] ∈ paths ∧
      Outlasts old new marked paths q₀ key₀ ∧ key = keyAfter old new marked q₀ key₀ := by
  generalize hp : p ++ [key] = p' at h
  cases h with
  | root => exact absurd hp (by simp)
  | @key q₀ p₀ key₀ hmoves hmem houtlasts =>
      obtain ⟨rfl, rfl⟩ := List.append_singleton_inj.mp hp
      exact ⟨q₀, key₀, rfl, hmoves, hmem, houtlasts, rfl⟩

/-- Nothing is moved to two places. -/
theorem MovesTo.unique {q p p' : List String} (h : MovesTo old new marked paths q p)
    (h' : MovesTo old new marked paths q p') : p = p' := by
  induction h generalizing p' with
  | root =>
      generalize hq : ([] : List String) = q at h'
      cases h' with
      | root => rfl
      | key _ _ _ => exact absurd hq (by simp)
  | @key q p key _ _ _ ih =>
      generalize hq : q ++ [key] = q' at h'
      cases h' with
      | root => exact absurd hq (by simp)
      | key hmoves _ _ =>
          obtain ⟨rfl, rfl⟩ := List.append_singleton_inj.mp hq
          rw [ih hmoves]

/-- Two entries of a complete object that stay in it have different keys. -/
theorem eq_of_keyAfter_eq {q : List String} {key key' : String} (hmem : q ++ [key] ∈ paths)
    (hmem' : q ++ [key'] ∈ paths) (h : Outlasts old new marked paths q key)
    (h' : Outlasts old new marked paths q key')
    (heq : keyAfter old new marked q key = keyAfter old new marked q key') : key = key' := by
  by_cases hmarked : q ++ [old] ∈ marked
  · -- a renamed entry would have taken the key of one that has the new name
    by_cases hkey : key = old
    · by_cases hkey' : key' = old
      · rw [hkey, hkey']
      · rw [hkey, keyAfter_of_mem hmarked, keyAfter_of_ne hkey'] at heq
        have hne : old ≠ new := fun h => hkey' (heq.symm.trans h.symm)
        exact absurd (hkey ▸ hmem) (h' heq.symm hne hmarked)
    · by_cases hkey' : key' = old
      · rw [hkey', keyAfter_of_mem hmarked, keyAfter_of_ne hkey] at heq
        have hne : old ≠ new := fun h => hkey (heq.trans h.symm)
        exact absurd (hkey' ▸ hmem') (h heq hne hmarked)
      · rwa [keyAfter_of_ne hkey, keyAfter_of_ne hkey'] at heq
  · rwa [keyAfter_of_not_mem hmarked, keyAfter_of_not_mem hmarked] at heq

/-- Nothing else is moved to the same place. -/
theorem MovesTo.injective {q q' p : List String} (h : MovesTo old new marked paths q p)
    (h' : MovesTo old new marked paths q' p) : q = q' := by
  induction h generalizing q' with
  | root =>
      generalize hp : ([] : List String) = p at h'
      cases h' with
      | root => rfl
      | key _ _ _ => exact absurd hp (by simp)
  | key _ hmem houtlasts ih =>
      obtain ⟨q₀, key₀, rfl, hmoves, hmem', houtlasts', heq⟩ := h'.of_concat
      obtain rfl := ih hmoves
      rw [eq_of_keyAfter_eq hmem hmem' houtlasts houtlasts' heq]

/-! ### Entries that move -/

/-- Every entry of an object after one pass comes from an entry before it that has kept its key or
has been renamed, and whose key no other entry has taken. -/
theorem mem_renameIfMarked_cases {path : List String} {entries : Json.Object}
    (hascending : entries.Ascending) {e : String × Json.Value}
    (h : e ∈ renameIfMarked old new marked path entries) :
    ∃ e₀ ∈ entries, e.1 = keyAfter old new marked path e₀.1 ∧ e.2 = e₀.2 ∧
      (e₀.1 = new → old ≠ new → path ++ [old] ∈ marked → Entries.get? entries old = none) := by
  rw [renameIfMarked_eq] at h
  by_cases hmarked : path ++ [old] ∈ marked
  · rw [if_pos hmarked] at h
    by_cases hne : old = new
    · subst hne
      rw [renameKey_self hascending] at h
      exact ⟨e, h, (keyAfter_self path e.1).symm, rfl, fun _ h => absurd rfl h⟩
    · have hget := (hascending.renameKey old new).get?_of_mem h
      rw [get?_renameKey hne] at hget
      split_ifs at hget with hnew hold
      · cases hv : Entries.get? entries old with
        | none =>
            rw [hv, Option.none_or, ← hnew] at hget
            have hkey : e.1 ≠ old := fun hkey => hne (hkey.symm.trans hnew)
            exact ⟨e, Entries.mem_of_get? hget, (keyAfter_of_ne hkey path).symm, rfl,
              fun _ _ _ => rfl⟩
        | some v =>
            rw [hv, Option.some_or] at hget
            exact ⟨(old, v), Entries.mem_of_get? hv, hnew.trans (keyAfter_of_mem hmarked).symm,
              (Option.some.inj hget).symm, fun h => absurd h hne⟩
      · exact ⟨e, Entries.mem_of_get? hget, (keyAfter_of_ne hold path).symm, rfl,
          fun h => absurd h hnew⟩
  · rw [if_neg hmarked] at h
    exact ⟨e, h, (keyAfter_of_not_mem hmarked e.1).symm, rfl, fun _ _ h => absurd h hmarked⟩

/-- An entry whose key no other one takes is there after one pass. -/
theorem mem_renameIfMarked {path : List String} {entries : Json.Object}
    (hascending : entries.Ascending) {key : String} {v : Json.Value} (he : (key, v) ∈ entries)
    (h : key = new → old ≠ new → path ++ [old] ∈ marked → Entries.get? entries old = none) :
    (keyAfter old new marked path key, v) ∈ renameIfMarked old new marked path entries := by
  have hget : Entries.get? entries key = some v := hascending.get?_of_mem he
  rw [renameIfMarked_eq]
  by_cases hmarked : path ++ [old] ∈ marked
  · rw [if_pos hmarked]
    by_cases hne : old = new
    · subst hne
      rwa [renameKey_self hascending, keyAfter_self]
    · refine Entries.mem_of_get? ?_
      rw [get?_renameKey hne]
      by_cases hkey : key = old
      · rw [hkey, keyAfter_of_mem hmarked, if_pos rfl, ← hkey, hget, Option.some_or]
      · rw [keyAfter_of_ne hkey]
        by_cases hnew : key = new
        · rw [if_pos hnew, h hnew hne hmarked, Option.none_or, ← hnew, hget]
        · rw [if_neg hnew, if_neg hkey, hget]
  · rwa [if_neg hmarked, keyAfter_of_not_mem hmarked]

/-- The key of every entry is there after one pass, whether the entry is or not. -/
theorem exists_mem_renameIfMarked {path : List String} {entries : Json.Object}
    (hascending : entries.Ascending) {key : String} {v : Json.Value} (he : (key, v) ∈ entries) :
    ∃ e ∈ renameIfMarked old new marked path entries, e.1 = keyAfter old new marked path key := by
  by_cases h : key = new → old ≠ new → path ++ [old] ∈ marked → Entries.get? entries old = none
  · exact ⟨_, mem_renameIfMarked hascending he h, rfl⟩
  · simp only [not_forall] at h
    obtain ⟨rfl, hne, hmarked, hget⟩ := h
    obtain ⟨w, hw⟩ := Option.ne_none_iff_exists'.mp hget
    refine ⟨_, mem_renameIfMarked hascending (Entries.mem_of_get? hw) fun h => absurd h hne, ?_⟩
    rw [keyAfter_of_mem hmarked, keyAfter_of_ne fun h => hne h.symm]

/-- In a complete object no other entry takes a key exactly if its entry outlasts one pass. -/
theorem outlasts_iff {path : List String} {entries : List (String × Json.Value)}
    (h : ∀ key, path ++ [key] ∈ paths ↔ ∃ e ∈ entries, e.1 = key) {key : String} :
    Outlasts old new marked paths path key ↔
      (key = new → old ≠ new → path ++ [old] ∈ marked → Entries.get? entries old = none) := by
  rw [Outlasts, h, Entries.get?_eq_none_iff]
  simp only [not_exists, not_and]

/-! ### Complete values after one pass -/

/-- If something is moved to every path that is needed, nothing is missing in a complete value after
one pass. -/
theorem covers_rekey (hmoves : ∀ p ∈ paths', ∃ q, MovesTo old new marked paths q p)
    {v : Json.Value} (hordered : v.Ordered) {q p : List String} (hcomplete : v.Complete paths q)
    (hqp : MovesTo old new marked paths q p) : (rekey old new marked q v).Covers paths' p := by
  induction hordered generalizing q p with
  | null => exact .null p
  | boolean b => exact .boolean p b
  | number n => exact .number p n
  | string s => exact .string p s
  | array _ ih =>
      rw [rekey_array]
      refine .array fun w hw => ?_
      obtain ⟨v, hv, rfl⟩ := List.mem_map.mp hw
      exact ih v hv (hcomplete.of_array v hv) hqp
  | @object entries ascending _ ih =>
      obtain ⟨hkeys, hbeneath⟩ := hcomplete.of_object
      have hascending := ascending.mapValues fun k => rekey old new marked (q ++ [k])
      rw [rekey_object]
      refine .object (fun key hkey => ?_) fun e he => ?_
      · -- the key that is needed has been moved to from a key of this object
        obtain ⟨_, hmoved⟩ := hmoves _ hkey
        obtain ⟨q₀, key₀, -, hq₀, hmem, -, rfl⟩ := hmoved.of_concat
        obtain rfl := hqp.injective hq₀
        obtain ⟨e, he, rfl⟩ := (hkeys key₀).mp hmem
        exact exists_mem_renameIfMarked hascending (Entries.mem_mapValues_of_mem _ he)
      · obtain ⟨e₀, he₀, hkey, hvalue, houtlasts⟩ := mem_renameIfMarked_cases hascending he
        obtain ⟨e₁, he₁, rfl⟩ := List.mem_map.mp he₀
        rw [Entries.get?_mapValues, Option.map_eq_none_iff] at houtlasts
        rw [hkey, hvalue]
        refine ih e₁ he₁ (hbeneath e₁ he₁) (hqp.key ((hkeys e₁.1).mpr ⟨e₁, he₁, rfl⟩) ?_)
        exact (outlasts_iff hkeys).mpr houtlasts

/-- The keys that continue a path to one of some paths. -/
def keysAt (paths : List (List String)) (path : List String) : List String :=
  paths.filterMap fun p => if p.dropLast = path then p.getLast? else none

/-- A key continues a path if the path with the key is one of the paths. -/
theorem mem_keysAt {path : List String} {key : String} :
    key ∈ keysAt paths path ↔ path ++ [key] ∈ paths := by
  rw [keysAt, List.mem_filterMap]
  constructor
  · rintro ⟨p, hp, hkey⟩
    split_ifs at hkey with hpath
    rwa [← hpath, List.dropLast_append_getLast? key hkey]
  · intro h
    exact ⟨_, h, by simp⟩

/-- The complete object at a path with a value under one of its keys and `null` under the others. -/
def filled (paths : List (List String)) (path : List String) (key : String) (v : Json.Value) :
    Json.Object :=
  Entries.ofList ((keysAt paths path).map fun k => (k, if k = key then v else .null))

/-- The entries of a complete object with one value. -/
theorem mem_filled {path : List String} {key : String} {v : Json.Value} {e : String × Json.Value} :
    e ∈ filled paths path key v ↔
      path ++ [e.1] ∈ paths ∧ e.2 = if e.1 = key then v else .null := by
  rw [filled, Entries.mem_ofList_map, mem_keysAt]

/-- A complete object with one value has the keys that it is made for. -/
theorem mem_iff_exists_mem_filled (path : List String) (key : String) (v : Json.Value)
    (k : String) : path ++ [k] ∈ paths ↔ ∃ e ∈ filled paths path key v, e.1 = k := by
  constructor
  · intro h
    exact ⟨(k, if k = key then v else .null), mem_filled.mpr ⟨h, rfl⟩, rfl⟩
  · rintro ⟨e, he, rfl⟩
    exact (mem_filled.mp he).1

/-- A complete object with one value is complete if the value is. -/
theorem complete_filled {path : List String} {key : String} {v : Json.Value}
    (h : v.Complete paths (path ++ [key])) :
    (Json.Value.object (filled paths path key v)).Complete paths path := by
  refine ⟨.object (fun e he => (mem_filled.mp he).1) fun e he => ?_,
    .object (fun k => (mem_iff_exists_mem_filled path key v k).mp) fun e he => ?_⟩
  · rw [(mem_filled.mp he).2]
    split_ifs with hkey
    · exact hkey ▸ h.follows
    · exact .null _
  · rw [(mem_filled.mp he).2]
    split_ifs with hkey
    · exact hkey ▸ h.covers
    · exact .null _

/-- A complete object with one value is ordered if the value is. -/
theorem ordered_filled (path : List String) (key : String) {v : Json.Value} (h : v.Ordered) :
    (Json.Value.object (filled paths path key v)).Ordered := by
  refine .object (Entries.ascending_ofList _) fun e he => ?_
  rw [(mem_filled.mp he).2]
  split_ifs
  · exact h
  · exact .null

/-- If nothing is missing in a complete object after one pass, nothing is missing in the values of
it that stay. -/
theorem covers_of_covers_filled {q p : List String} {key : String} {v : Json.Value}
    (hmem : q ++ [key] ∈ paths) (houtlasts : Outlasts old new marked paths q key)
    (h : (rekey old new marked q (.object (filled paths q key v))).Covers paths' p) :
    (rekey old new marked (q ++ [key]) v).Covers paths'
      (p ++ [keyAfter old new marked q key]) := by
  have hentry : (key, v) ∈ filled paths q key v := mem_filled.mpr ⟨hmem, (if_pos rfl).symm⟩
  have hget := (outlasts_iff (mem_iff_exists_mem_filled q key v)).mp houtlasts
  have hafter := mem_renameIfMarked
    ((Entries.ascending_ofList _).mapValues fun k => rekey old new marked (q ++ [k]))
    (Entries.mem_mapValues_of_mem _ hentry)
    (by rwa [Entries.get?_mapValues, Option.map_eq_none_iff])
  rw [rekey_object] at h
  exact h.of_object.2 _ hafter

/-- Every complete value is found again, after one pass, where it is moved to from its place in a
complete value. -/
theorem exists_complete {q p : List String} (hqp : MovesTo old new marked paths q p)
    {v : Json.Value} (hordered : v.Ordered) (hcomplete : v.Complete paths q) :
    ∃ w : Json.Value, w.Ordered ∧ w.Complete paths [] ∧
      ∀ paths', (rekey old new marked [] w).Covers paths' [] →
        (rekey old new marked q v).Covers paths' p := by
  induction hqp generalizing v with
  | root => exact ⟨v, hordered, hcomplete, fun _ h => h⟩
  | @key q p key _ hmem houtlasts ih =>
      obtain ⟨w, hw, hwcomplete, hcovers⟩ :=
        ih (ordered_filled q key hordered) (complete_filled hcomplete)
      exact ⟨w, hw, hwcomplete, fun paths' h =>
        covers_of_covers_filled hmem houtlasts (hcovers paths' h)⟩

/-- **Complete values after one pass.** Nothing that is needed is missing in any complete value
after one pass exactly if something is moved to every path that is needed. -/
theorem covers_rekey_iff (hclosed : ∀ p ∈ paths', ∀ q, q ≠ [] → q <+: p → q ∈ paths') :
    (∀ v : Json.Value, v.Ordered → v.Complete paths [] →
        (rekey old new marked [] v).Covers paths' []) ↔
      ∀ p ∈ paths', ∃ q, MovesTo old new marked paths q p := by
  refine ⟨fun h p => ?_, fun h v hordered hcomplete => covers_rekey h hordered hcomplete .root⟩
  induction p using List.reverseRecOn with
  | nil => exact fun _ => ⟨[], .root⟩
  | append_singleton p key ih =>
      intro hp
      obtain ⟨q, hqp⟩ : ∃ q, MovesTo old new marked paths q p := by
        by_cases hnil : p = []
        · rw [hnil]
          exact ⟨[], .root⟩
        · exact ih (hclosed _ hp p hnil (List.prefix_append p [key]))
      -- the object at the path has the key, so an entry of it stays that has the key afterwards
      obtain ⟨w, hw, hwcomplete, hcovers⟩ := exists_complete hqp
        (ordered_filled q key .null) (complete_filled ⟨.null _, .null _⟩)
      have hobject := hcovers paths' (h w hw hwcomplete)
      rw [rekey_object] at hobject
      obtain ⟨e, he, hpresent⟩ := hobject.of_object.1 key hp
      obtain ⟨e₀, he₀, hkey, -, houtlasts⟩ := mem_renameIfMarked_cases
        ((Entries.ascending_ofList _).mapValues _) he
      obtain ⟨e₁, he₁, rfl⟩ := List.mem_map.mp he₀
      rw [Entries.get?_mapValues, Option.map_eq_none_iff] at houtlasts
      rw [← hpresent, hkey]
      exact ⟨_, hqp.key (mem_filled.mp he₁).1
        ((outlasts_iff (mem_iff_exists_mem_filled q key .null)).mpr houtlasts)⟩

end Pass

namespace FieldRename

variable {r : FieldRename} {d : Document}

/-! ### Restored paths -/

/-- What comes back at a path of the renamed document stands at a path of the document once the
response has been restored. -/
def Restores (r : FieldRename) (d : Document) : List String → List String → Prop :=
  MovesTo r.newName r.oldName (r.recordedPaths d) (r.renameFields d).1.responsePaths

/-- If the renaming is unambiguous, every path is restored from its translation. -/
theorem Unambiguous.restores (h : r.Unambiguous d) {p : List String} (hp : d.Reaches p) :
    r.Restores d (r.pathAfter d p) p := by
  induction p using List.reverseRecOn with
  | nil => exact .root
  | append_singleton p key ih =>
      have hmem : p ++ [key] ∈ d.responsePaths := hp.resolve_left (by simp)
      have hreach := Document.reaches_of_concat hmem
      have hafter : r.pathAfter d (p ++ [key]) ∈ (r.renameFields d).1.responsePaths := by
        rw [h.responsePaths_eq]
        exact List.mem_map_of_mem hmem
      rw [pathAfter_concat] at hafter ⊢
      by_cases hkey : p ++ [key] ∈ r.affectedPaths d
      · obtain rfl := r.eq_oldName_of_affected hkey
        rw [if_pos hkey] at hafter ⊢
        have hmoves := (ih hreach).key hafter fun heq hne => absurd heq hne
        rwa [keyAfter_of_mem (r.concat_mem_recordedPaths_of_affected hkey)] at hmoves
      · rw [if_neg hkey] at hafter ⊢
        by_cases hne : r.oldName = r.newName
        · have hmoves := (ih hreach).key hafter fun _ hne' => absurd hne.symm hne'
          have hsame :
              keyAfter r.newName r.oldName (r.recordedPaths d) (r.pathAfter d p) key = key := by
            rw [hne, keyAfter_self]
          rwa [hsame] at hmoves
        · obtain ⟨hshare, hclash⟩ := h.resolve_left hne
          have hrecorded := concat_mem_recordedPaths_iff hshare hclash hreach
          have hmoves := (ih hreach).key hafter fun heq _ hmarked =>
            absurd (heq ▸ hrecorded.mp hmarked) hkey
          by_cases hnew : key = r.newName
          · have hmarked : r.pathAfter d p ++ [r.newName] ∉ r.recordedPaths d := fun hmarked =>
              hclash.not_mem (hrecorded.mp hmarked) (hnew ▸ hmem)
            rwa [keyAfter_of_not_mem hmarked] at hmoves
          · rwa [keyAfter_of_ne hnew] at hmoves

/-- A translated path is as long as the path. -/
theorem length_pathAfter (r : FieldRename) (d : Document) (p : List String) :
    (r.pathAfter d p).length = p.length := by
  induction p using List.reverseRecOn with
  | nil => rfl
  | append_singleton p key ih =>
      rw [pathAfter_concat, List.length_append, List.length_append, ih, List.length_singleton,
        List.length_singleton]

/-- If no affected path is shared, response paths are translated to response paths of the renamed
document. -/
theorem Unshared.pathAfter_mem (h : r.Unshared d) {p : List String} (hp : p ∈ d.responsePaths) :
    r.pathAfter d p ∈ (r.renameFields d).1.responsePaths := by
  rw [d.responsePaths_eq_map] at hp
  obtain ⟨t, ht, rfl⟩ := List.mem_map.mp hp
  rw [(r.pathAfter_eq_iff ht).mpr (.inr (h.separates ht)), renameFields_eq_mapFields,
    Document.responsePaths_eq_map, Document.allTrails_mapFields, List.map_map]
  exact List.mem_map_of_mem (f := Trail.path ∘ Trail.mapFields r.renameField) ht

/-- If no affected path is shared and every path is restored, it is restored from its
translation. -/
theorem eq_pathAfter_of_restores (hshare : r.Unshared d) (hne : r.oldName ≠ r.newName)
    (hall : ∀ p ∈ d.responsePaths, ∃ q, r.Restores d q p) {p q : List String}
    (h : r.Restores d q p) : q = r.pathAfter d p := by
  induction hlength : p.length generalizing p q with
  | zero =>
      obtain rfl := List.length_eq_zero_iff.mp hlength
      exact h.injective .root
  | succ n ih =>
      obtain rfl | ⟨p, key, rfl⟩ := List.eq_nil_or_concat' p
      · exact absurd hlength (by simp)
      rw [List.length_append, List.length_singleton, Nat.add_right_cancel_iff] at hlength
      obtain ⟨q, key₀, rfl, hmoves, hmem, houtlasts, rfl⟩ := h.of_concat
      obtain rfl : q = r.pathAfter d p := ih hmoves hlength
      rw [pathAfter_concat, List.append_singleton_inj]
      refine ⟨rfl, ?_⟩
      by_cases hmarked : r.pathAfter d p ++ [r.newName] ∈ r.recordedPaths d
      · by_cases hnew : key₀ = r.newName
        · -- the path of the affected field that has been recorded is this one
          obtain ⟨p', hp', heq⟩ := r.exists_of_mem_recordedPaths hmarked
          have hafter : r.pathAfter d p = r.pathAfter d p' := (List.append_singleton_inj.mp heq).1
          have hp'length : p'.length = n := by
            rw [← r.length_pathAfter d p', ← hafter, r.length_pathAfter, hlength]
          obtain ⟨q', hq'⟩ : ∃ q', r.Restores d q' p' := by
            obtain rfl | hmem' :=
              Document.reaches_of_concat (r.mem_responsePaths_of_affected hp')
            · exact ⟨[], .root⟩
            · exact hall p' hmem'
          obtain rfl := ih hq' hp'length
          obtain rfl : p = p' := hmoves.unique (hafter ▸ hq')
          rw [hnew, keyAfter_of_mem hmarked, if_pos hp']
        · rw [keyAfter_of_ne hnew, if_neg]
          intro haffected
          -- the value of an affected field would have taken the key
          obtain rfl := r.eq_oldName_of_affected haffected
          have hafter := hshare.pathAfter_mem (r.mem_responsePaths_of_affected haffected)
          rw [pathAfter_concat, if_pos haffected] at hafter
          exact houtlasts rfl (Ne.symm hne) hmarked hafter
      · rw [keyAfter_of_not_mem hmarked, if_neg]
        intro haffected
        obtain rfl := r.eq_oldName_of_affected haffected
        exact hmarked (r.concat_mem_recordedPaths_of_affected haffected)

/-- If no affected path is shared, every path is restored exactly if the names do not differ or no
affected path has a sibling that ends in the new name. -/
theorem Unshared.restores_iff (hshare : r.Unshared d) :
    (∀ p ∈ d.responsePaths, ∃ q, r.Restores d q p) ↔ r.oldName = r.newName ∨ r.Unclashing d := by
  constructor
  · intro hall
    by_cases hne : r.oldName = r.newName
    · exact .inl hne
    refine .inr (r.unclashing_iff.mpr fun p haffected hmem => ?_)
    -- nothing is left at the sibling, since the key that it needs is renamed
    obtain ⟨q, hq⟩ := hall _ hmem
    obtain ⟨q₀, key₀, rfl, hmoves, -, -, heq⟩ := hq.of_concat
    obtain rfl : q₀ = _ := eq_pathAfter_of_restores hshare hne hall hmoves
    have hmarked := r.concat_mem_recordedPaths_of_affected haffected
    by_cases hkey : key₀ = r.newName
    · rw [hkey, keyAfter_of_mem hmarked] at heq
      exact hne heq.symm
    · rw [keyAfter_of_ne hkey] at heq
      exact hkey heq.symm
  · intro h p hp
    have hunambiguous : r.Unambiguous d := h.imp_right fun hclash => ⟨hshare, hclash⟩
    exact ⟨_, hunambiguous.restores (.inr hp)⟩

/-- **When restored responses are complete.** Complete responses to a renamed document have all keys
that the document selects, once they have been restored, exactly if each of its response paths is
restored from one of the renamed document. Where no affected field shares its response path with a
field that is not affected, this is so exactly if the names do not differ or no affected path has a
sibling that ends in the new name. Requests that rename fields do not fail. -/
theorem restore_covers_iff (r : FieldRename) (d : Document) (values : Option Json.Object) :
    ∃ adapted, (r.toRule.request d values).outcome = .ok adapted ∧
      ((∀ v : Json.Value, v.canonical = v → v.Complete adapted.document.responsePaths [] →
          ∃ w, (adapted.restore v).outcome = .ok w ∧ w.Covers d.responsePaths []) ↔
        ∀ p ∈ d.responsePaths, ∃ q, r.Restores d q p) ∧
      (r.Unshared d → ((∀ p ∈ d.responsePaths, ∃ q, r.Restores d q p) ↔
        r.oldName = r.newName ∨ r.Unclashing d)) := by
  refine ⟨_, r.outcome_request, ?_, Unshared.restores_iff⟩
  simp only [Traced.outcome_pure, Except.ok.injEq, restore_recordedPaths, exists_eq_left']
  refine Iff.trans ?_ (covers_rekey_iff fun p hp q => Document.prefix_mem_responsePaths hp)
  constructor
  · intro h v hordered
    exact h v (Json.Value.canonical_of_ordered hordered)
  · intro h v hcanonical
    exact h v (Json.Value.ordered_of_canonical hcanonical)

/-- `{ things items }`: an affected field beside one that has the new name. -/
def besideNewName : Document :=
  ⟨[.operation ⟨none, [.field ⟨none, "things", [], []⟩ [], .field ⟨none, "items", [], []⟩ []]⟩]⟩

/-- **A restored response may lack a key.** The server gives one answer for both fields, and it is
renamed although it is needed under either name. -/
theorem restore_not_covers :
    ¬ ∀ (r : FieldRename) (d : Document) (values : Option Json.Object) (adapted : Adapted),
      d.operations.length = 1 → (r.toRule.request d values).outcome = .ok adapted →
        ∀ v w : Json.Value, v.canonical = v → v.Complete adapted.document.responsePaths [] →
          (adapted.restore v).outcome = .ok w → w.Covers d.responsePaths [] := by
  intro h
  let r : FieldRename := ⟨"things", "items"⟩
  have hpaths : besideNewName.responsePaths = [["things"], ["items"]] := by cbv
  have hafter : (r.renameFields besideNewName).1.responsePaths = [["items"], ["items"]] := by
    rw [r.renameFields_eq_mapFields]
    cbv
  have hcomplete : Json.Value.Complete (r.renameFields besideNewName).1.responsePaths []
      (.object [("items", .number (.int 1))]) := by
    rw [hafter]
    refine ⟨.object (by simp) fun e he => ?_, .object (by simp) fun e he => ?_⟩
    · rw [List.mem_singleton.mp he]
      exact .number _ _
    · rw [List.mem_singleton.mp he]
      exact .number _ _
  have hrecorded : r.recordedPaths besideNewName = [["items"]] := by
    rw [recordedPaths, affectedPaths_eq_map]
    cbv
  have hrestored : r.restore (r.recordedPaths besideNewName)
      (.object [("items", .number (.int 1))]) = .object [("things", .number (.int 1))] := by
    rw [hrecorded]
    cbv
  have hcovers := h r besideNewName none _ rfl rfl _ _ (by cbv) hcomplete rfl
  rw [hrestored, hpaths] at hcovers
  obtain ⟨e, he, hkey⟩ := hcovers.of_object.1 "items" (by simp)
  rw [List.mem_singleton.mp he] at hkey
  exact absurd hkey (by decide)

end FieldRename

end SchemaBridge
