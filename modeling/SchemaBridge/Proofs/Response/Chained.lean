import SchemaBridge.Proofs.Graphql.EveryField
import SchemaBridge.Proofs.Response.Moved

/-!
# Renamings one after the other

A field is renamed, and renamed again under its new name. The document is the one that a single
renaming makes, but a response comes back through keys with the name in between, which may be in
use.

* `rekey_rekey_eq_iff`: two passes, one after the other, do what a single pass does with all values
  along some paths exactly if they rename the keys of each of these paths alike;
* `FieldRename.renameFields_chained`: the documents agree;
* `FieldRename.mem_recordedPaths_chained`: the recorded paths agree too, where the first renaming is
  unambiguous;
* `FieldRename.restore_chained_iff`: when the restored responses agree, in general and where the
  single renaming is unambiguous.
-/

namespace SchemaBridge

open Graphql (Document Field Trail)

/-! ### Two passes -/

section Passes

variable {old between new : String} {first second single paths : List (List String)}

/-- A key that stays is not marked. -/
theorem not_mem_of_keyAfter_eq (hne : old ≠ new) {path : List String}
    (h : keyAfter old new first path old = old) : path ++ [old] ∉ first := by
  intro hmarked
  rw [keyAfter_of_mem hmarked] at h
  exact hne h.symm

/-- An object whose keys all stay keeps its entries in one pass, whatever their values are. -/
theorem renameIfMarked_mapValues_eq_self (hne : old ≠ new) {path : List String}
    {entries : Json.Object} (h : ∀ e ∈ entries, keyAfter old new first path e.1 = e.1)
    (f : String → Json.Value → Json.Value) :
    renameIfMarked old new first path (Entries.mapValues f entries) =
      Entries.mapValues f entries := by
  rw [renameIfMarked_eq]
  split_ifs with hmarked
  · refine renameKey_of_get?_eq_none ?_
    rw [Entries.get?_mapValues, Option.map_eq_none_iff]
    refine Entries.get?_eq_none_iff.mpr fun e he hkey => ?_
    exact not_mem_of_keyAfter_eq hne (hkey ▸ h e he) hmarked
  · rfl

/-- A key renamed twice is renamed once, if the name in between is free; the values may be changed
on the way, as long as they come out alike. -/
theorem renameKey_mapValues_renameKey_mapValues (hob : old ≠ between) (hbn : between ≠ new)
    (hon : old ≠ new) {entries : Json.Object} (hascending : entries.Ascending)
    (hbetween : Entries.get? entries between = none) {f g k : String → Json.Value → Json.Value}
    (hvalues : ∀ e ∈ entries, g (if e.1 = old then between else e.1) (f e.1 e.2) = k e.1 e.2) :
    renameKey between new
        (Entries.mapValues g (renameKey old between (Entries.mapValues f entries))) =
      renameKey old new (Entries.mapValues k entries) := by
  have hvalue : ∀ key, (Entries.get? entries key).map
      (fun w => g (if key = old then between else key) (f key w)) =
        (Entries.get? entries key).map (k key) := by
    intro key
    cases hw : Entries.get? entries key with
    | none => rfl
    | some w => exact congrArg some (hvalues _ (Entries.mem_of_get? hw))
  refine Entries.Ascending.ext ?_ ((hascending.mapValues k).renameKey old new) fun key => ?_
  · exact (((hascending.mapValues f).renameKey old between).mapValues g).renameKey between new
  simp only [get?_renameKey hbn, get?_renameKey hob, get?_renameKey hon, Entries.get?_mapValues]
  by_cases hold : key = old
  · simp [hold, hon, hob]
  by_cases hnew : key = new
  · have hrenamed := hvalue old
    have hplain := hvalue new
    rw [if_pos rfl] at hrenamed
    rw [if_neg hon.symm] at hplain
    simp [hnew, hbetween, hbn.symm, hon.symm, Function.comp_def, hrenamed, hplain]
  · by_cases hkey : key = between
    · simp [hkey, hbn, hob.symm, hbetween]
    · have hplain := hvalue key
      rw [if_neg hold] at hplain
      simp [hnew, hkey, hold, Function.comp_def, hplain]

/-- Two passes over an object rename its keys as a single one does, if they do so with each key that
is there; the values may be changed on the way, as long as they come out alike. -/
theorem renameIfMarked_renameIfMarked (hob : old ≠ between) (hbn : between ≠ new) (hon : old ≠ new)
    {path path' : List String} {entries : Json.Object} (hascending : entries.Ascending)
    {f g k : String → Json.Value → Json.Value}
    (hkeys : ∀ e ∈ entries, keyAfter between new second path'
      (keyAfter old between first path e.1) = keyAfter old new single path e.1)
    (hvalues : ∀ e ∈ entries, g (keyAfter old between first path e.1) (f e.1 e.2) = k e.1 e.2) :
    renameIfMarked between new second path' (Entries.mapValues g
        (renameIfMarked old between first path (Entries.mapValues f entries))) =
      renameIfMarked old new single path (Entries.mapValues k entries) := by
  by_cases hmoves : path ++ [old] ∈ first ∧ ∃ v, Entries.get? entries old = some v
  · -- the key is there and goes all the way, so nothing stands under the name in between
    obtain ⟨hfirst, v, hv⟩ := hmoves
    have hold := hkeys _ (Entries.mem_of_get? hv)
    rw [keyAfter_of_mem hfirst] at hold
    have hsecond : path' ++ [between] ∈ second := by
      by_contra hnot
      rw [keyAfter_of_not_mem hnot, keyAfter] at hold
      split_ifs at hold
      · exact hbn hold
      · exact hob hold.symm
    have hsingle : path ++ [old] ∈ single := by
      by_contra hnot
      rw [keyAfter_of_mem hsecond, keyAfter_of_not_mem hnot] at hold
      exact hon hold.symm
    have hbetween : Entries.get? entries between = none := by
      refine Entries.get?_eq_none_iff.mpr fun e he hkey => ?_
      have hclash := hkeys e he
      rw [hkey, keyAfter_of_ne hob.symm, keyAfter_of_mem hsecond, keyAfter_of_ne hob.symm] at hclash
      exact hbn hclash.symm
    rw [renameIfMarked_eq, if_pos hsecond, renameIfMarked_eq, if_pos hfirst, renameIfMarked_eq,
      if_pos hsingle]
    refine renameKey_mapValues_renameKey_mapValues hob hbn hon hascending hbetween fun e he => ?_
    have hvalue := hvalues e he
    split_ifs with hkey
    · rwa [hkey, keyAfter_of_mem hfirst, ← hkey] at hvalue
    · rwa [keyAfter_of_ne hkey] at hvalue
  · -- no key is renamed by any pass
    have hfirst : ∀ e ∈ entries, keyAfter old between first path e.1 = e.1 := by
      intro e he
      by_cases hkey : e.1 = old
      · rw [hkey, keyAfter_of_not_mem]
        exact fun hmarked => hmoves ⟨hmarked, e.2, hkey ▸ hascending.get?_of_mem he⟩
      · exact keyAfter_of_ne hkey path
    have hboth : ∀ e ∈ entries, keyAfter between new second path' e.1 = e.1 ∧
        keyAfter old new single path e.1 = e.1 := by
      intro e he
      have heq := hkeys e he
      rw [hfirst e he] at heq
      by_cases hkey : e.1 = old
      · rw [keyAfter_of_ne (hkey ▸ hob)] at heq
        exact ⟨keyAfter_of_ne (hkey ▸ hob) path', heq.symm⟩
      · rw [keyAfter_of_ne hkey] at heq
        exact ⟨heq, keyAfter_of_ne hkey path⟩
    have hsame : Entries.mapValues (fun key v => g key (f key v)) entries =
        Entries.mapValues k entries := Entries.mapValues_congr fun e he => by
      have hvalue := hvalues e he
      rwa [hfirst e he] at hvalue
    rw [renameIfMarked_mapValues_eq_self hob hfirst, Entries.mapValues_mapValues, hsame,
      renameIfMarked_mapValues_eq_self hbn fun e he => (hboth e he).1,
      renameIfMarked_mapValues_eq_self hon fun e he => (hboth e he).2]

/-- Two passes over a value at a path do what a single one does, if they rename the keys of the
paths that it is along as that one does. -/
theorem rekey_rekey_of_keysAfter_eq (hob : old ≠ between) (hbn : between ≠ new) (hon : old ≠ new)
    (h : ∀ p ∈ paths, keysAfter between new second [] (keysAfter old between first [] p) =
      keysAfter old new single [] p)
    {v : Json.Value} (hordered : v.Ordered) {path : List String} (hfollows : v.Follows paths path) :
    rekey between new second (keysAfter old between first [] path)
        (rekey old between first path v) = rekey old new single path v := by
  induction hordered generalizing path with
  | null => rfl
  | boolean b => rfl
  | number n => rfl
  | string s => rfl
  | array _ ih =>
      rw [rekey_array, rekey_array, rekey_array, List.map_map]
      exact congrArg _ (List.map_congr_left fun w hw => ih w hw (hfollows.of_array w hw))
  | @object entries ascending _ ih =>
      have hcontinued := hfollows.of_object
      rw [rekey_object, rekey_object, rekey_object]
      refine congrArg _ (renameIfMarked_renameIfMarked hob hbn hon ascending (fun e he => ?_)
        fun e he => ?_)
      · have hpath := h _ (hcontinued e he).1
        rw [keysAfter_concat, keysAfter_concat, keysAfter_concat, List.nil_append, List.nil_append,
          List.append_singleton_inj] at hpath
        exact hpath.2
      · have hvalue := ih e he (hcontinued e he).2
        rwa [keysAfter_concat, List.nil_append] at hvalue

/-- **Two passes against one.** Two passes, one after the other, do what a single pass does with all
values along some paths exactly if they rename the keys of each of these paths alike. -/
theorem rekey_rekey_eq_iff (hob : old ≠ between) (hbn : between ≠ new) (hon : old ≠ new)
    (hclosed : ∀ p ∈ paths, ∀ q, q ≠ [] → q <+: p → q ∈ paths) :
    (∀ v : Json.Value, v.canonical = v → v.Follows paths [] →
        rekey between new second [] (rekey old between first [] v) = rekey old new single [] v) ↔
      ∀ p ∈ paths, keysAfter between new second [] (keysAfter old between first [] p) =
        keysAfter old new single [] p := by
  constructor
  · intro h p hp
    have heq := h _ (Json.Value.canonical_nest p) (Json.Value.follows_nest (hclosed p hp))
    rw [rekey_nest, rekey_nest, rekey_nest] at heq
    exact Json.Value.nest_injective heq
  · intro h v hcanonical hfollows
    exact rekey_rekey_of_keysAfter_eq hob hbn hon h (Json.Value.ordered_of_canonical hcanonical)
      hfollows

end Passes

namespace FieldRename

variable {a b c : String} {d : Document}

/-! ### Documents and recorded paths -/

/-- If no field has the name in between, renaming a field twice renames it once. -/
theorem renameFields_chained (h : d.Lacks b) :
    ((⟨b, c⟩ : FieldRename).renameFields ((⟨a, b⟩ : FieldRename).renameFields d).1).1 =
      ((⟨a, c⟩ : FieldRename).renameFields d).1 := by
  simp only [renameFields_eq_mapFields]
  rw [Document.mapFields_mapFields]
  refine Document.mapFields_congr (h.imp fun head hname => ?_)
  by_cases ha : head.name = a
  · simp [renameField, Graphql.onlyNamed, ha]
  · simp [renameField, Graphql.onlyNamed, ha, hname]

/-- The new name makes no difference to which paths are affected. -/
theorem affectedPaths_eq (a b c : String) (d : Document) :
    (⟨a, b⟩ : FieldRename).affectedPaths d = (⟨a, c⟩ : FieldRename).affectedPaths d := rfl

/-- If no field has the name in between, the second renaming affects the fields that the first one
does. -/
theorem mem_affectedPaths_chained (h : d.Lacks b) {p : List String} :
    p ∈ (⟨b, c⟩ : FieldRename).affectedPaths ((⟨a, b⟩ : FieldRename).renameFields d).1 ↔
      p ∈ (⟨a, b⟩ : FieldRename).renamedPaths d := by
  have haffects : ∀ t ∈ d.allTrails,
      ((⟨b, c⟩ : FieldRename).Affects ((⟨a, b⟩ : FieldRename).renameField t.head) ↔
        (⟨a, b⟩ : FieldRename).Affects t.head) := by
    intro t ht
    have hname : t.head.name ≠ b := Document.EveryField.head h ht
    by_cases ha : t.head.name = a
    · simp [renameField, Graphql.onlyNamed, Affects, ha]
    · simp [renameField, Graphql.onlyNamed, Affects, ha, hname]
  rw [mem_affectedPaths, mem_renamedPaths, renameFields_eq_mapFields, Document.allTrails_mapFields]
  constructor
  · rintro ⟨t', ht', hhead, rfl⟩
    obtain ⟨t, ht, rfl⟩ := List.mem_map.mp ht'
    exact ⟨t, ht, (haffects t ht).mp hhead, rfl⟩
  · rintro ⟨t, ht, hhead, rfl⟩
    exact ⟨_, List.mem_map_of_mem ht, (haffects t ht).mpr hhead, rfl⟩

/-- Where a renaming is unambiguous, the recorded paths are those of the affected fields in the
renamed document. -/
theorem Unambiguous.mem_renamedPaths_iff {r : FieldRename} (h : r.Unambiguous d) (p : List String) :
    p ∈ r.renamedPaths d ↔ p ∈ r.recordedPaths d := by
  refine (r.mem_recordedPaths_iff_of_made_up (fun x hx _ htrace => absurd ?_ htrace) p).symm
  rw [counterparts_eq_map] at hx
  obtain ⟨t, ht, rfl⟩ := List.mem_map.mp hx
  exact h.imp_right fun h => h.1.separates ht

/-- Where the first renaming is unambiguous, the second one affects the translated paths. -/
theorem pathAfter_mem_affectedPaths_chained (hlacks : d.Lacks b)
    (hshare : (⟨a, b⟩ : FieldRename).Unshared d) (hclash : (⟨a, b⟩ : FieldRename).Unclashing d)
    {p : List String} (hp : d.Reaches p) :
    (⟨a, b⟩ : FieldRename).pathAfter d p ∈
        (⟨b, c⟩ : FieldRename).affectedPaths ((⟨a, b⟩ : FieldRename).renameFields d).1 ↔
      p ∈ (⟨a, b⟩ : FieldRename).affectedPaths d := by
  have hunambiguous : (⟨a, b⟩ : FieldRename).Unambiguous d := .inr ⟨hshare, hclash⟩
  rw [mem_affectedPaths_chained hlacks, hunambiguous.mem_renamedPaths_iff, mem_recordedPaths]
  constructor
  · rintro ⟨q, hq, heq⟩
    have hreach : d.Reaches q := .inr (mem_responsePaths_of_affected _ hq)
    exact pathAfter_injective hshare hclash hp hreach heq ▸ hq
  · exact fun h => ⟨p, h, rfl⟩

/-- Where the first renaming is unambiguous, the translations of a path through both are that of the
single renaming. -/
theorem pathAfter_pathAfter_chained (hlacks : d.Lacks b)
    (hshare : (⟨a, b⟩ : FieldRename).Unshared d) (hclash : (⟨a, b⟩ : FieldRename).Unclashing d)
    {p : List String} (hp : d.Reaches p) :
    (⟨b, c⟩ : FieldRename).pathAfter ((⟨a, b⟩ : FieldRename).renameFields d).1
        ((⟨a, b⟩ : FieldRename).pathAfter d p) = (⟨a, c⟩ : FieldRename).pathAfter d p := by
  induction p using List.reverseRecOn with
  | nil => rfl
  | append_singleton p key ih =>
      have hreach : d.Reaches p := Document.reaches_of_concat (hp.resolve_left (by simp))
      have haffected := pathAfter_mem_affectedPaths_chained (c := c) hlacks hshare hclash hp
      rw [pathAfter_concat] at haffected
      rw [pathAfter_concat, pathAfter_concat, pathAfter_concat, ih hreach,
        affectedPaths_eq a c b]
      simp only [haffected]
      by_cases hkey : p ++ [key] ∈ (⟨a, b⟩ : FieldRename).affectedPaths d
      · rw [if_pos hkey, if_pos hkey]
      · rw [if_neg hkey, if_neg hkey, if_neg hkey]

/-- Where the first renaming is unambiguous, the second records what the single renaming does. -/
theorem mem_recordedPaths_chained (hlacks : d.Lacks b)
    (hshare : (⟨a, b⟩ : FieldRename).Unshared d) (hclash : (⟨a, b⟩ : FieldRename).Unclashing d)
    {p : List String} :
    p ∈ (⟨b, c⟩ : FieldRename).recordedPaths ((⟨a, b⟩ : FieldRename).renameFields d).1 ↔
      p ∈ (⟨a, c⟩ : FieldRename).recordedPaths d := by
  have hunambiguous : (⟨a, b⟩ : FieldRename).Unambiguous d := .inr ⟨hshare, hclash⟩
  have hreach : ∀ {q}, q ∈ (⟨a, b⟩ : FieldRename).affectedPaths d → d.Reaches q := fun hq =>
    .inr (mem_responsePaths_of_affected _ hq)
  rw [mem_recordedPaths, mem_recordedPaths]
  constructor
  · rintro ⟨q', hq', rfl⟩
    rw [mem_affectedPaths_chained hlacks, hunambiguous.mem_renamedPaths_iff, mem_recordedPaths]
      at hq'
    obtain ⟨q, hq, rfl⟩ := hq'
    exact ⟨q, hq, (pathAfter_pathAfter_chained hlacks hshare hclash (hreach hq)).symm⟩
  · rintro ⟨q, hq, rfl⟩
    exact ⟨_, (pathAfter_mem_affectedPaths_chained hlacks hshare hclash (hreach hq)).mpr hq,
      pathAfter_pathAfter_chained hlacks hshare hclash (hreach hq)⟩

/-! ### Keys on the way back -/

/-- At the paths that an unambiguous renaming records, the new name may be replaced by any other
name: the translation of a path becomes that of the renaming to the other name. -/
theorem Unambiguous.keysAfter_pathAfter (hac : a ≠ c) (h : (⟨a, c⟩ : FieldRename).Unambiguous d)
    (b : String) {p : List String} (hp : d.Reaches p) :
    keysAfter c b ((⟨a, c⟩ : FieldRename).recordedPaths d) []
        ((⟨a, c⟩ : FieldRename).pathAfter d p) = (⟨a, b⟩ : FieldRename).pathAfter d p := by
  obtain ⟨hshare, hclash⟩ := h.resolve_left hac
  induction p using List.reverseRecOn with
  | nil => rfl
  | append_singleton p key ih =>
      have hmem : p ++ [key] ∈ d.responsePaths := hp.resolve_left (by simp)
      have hreach := Document.reaches_of_concat hmem
      have hrecorded := concat_mem_recordedPaths_iff hshare hclash hreach
      rw [pathAfter_concat, pathAfter_concat, keysAfter_concat, List.nil_append, ih hreach,
        affectedPaths_eq a b c, List.append_singleton_inj]
      refine ⟨rfl, ?_⟩
      by_cases hkey : p ++ [key] ∈ (⟨a, c⟩ : FieldRename).affectedPaths d
      · obtain rfl := eq_oldName_of_affected _ hkey
        rw [if_pos hkey, if_pos hkey, keyAfter_of_mem (hrecorded.mpr hkey)]
      · rw [if_neg hkey, if_neg hkey]
        by_cases hnew : key = c
        · refine keyAfter_of_not_mem (fun hmarked => ?_) key
          exact hclash.not_mem (hrecorded.mp hmarked) (hnew ▸ hmem)
        · exact keyAfter_of_ne hnew _

/-- The keys that lead to a value of a response to the document after a renaming by way of another
name, once it has come back through both renamings. -/
def keysBack (a b c : String) (d : Document) (p : List String) : List String :=
  keysAfter b a ((⟨a, b⟩ : FieldRename).recordedPaths d) []
    (keysAfter c b
      ((⟨b, c⟩ : FieldRename).recordedPaths ((⟨a, b⟩ : FieldRename).renameFields d).1) [] p)

/-- Where the single renaming is unambiguous, keys come back alike exactly if the first renaming is
unambiguous as well. -/
theorem Unambiguous.keysBack_eq_iff (hab : a ≠ b) (hbc : b ≠ c) (hac : a ≠ c) (hlacks : d.Lacks b)
    (h : (⟨a, c⟩ : FieldRename).Unambiguous d) :
    (∀ p ∈ ((⟨a, c⟩ : FieldRename).renameFields d).1.responsePaths,
        keysBack a b c d p = keysAfter c a ((⟨a, c⟩ : FieldRename).recordedPaths d) [] p) ↔
      (⟨a, b⟩ : FieldRename).Unambiguous d := by
  obtain ⟨hshare, hclash⟩ := h.resolve_left hac
  rw [h.responsePaths_eq]
  constructor
  · intro hback
    refine .inr ⟨hshare, (unclashing_iff _).mpr fun p haffected hmem => ?_⟩
    replace haffected : p ++ [a] ∈ (⟨a, c⟩ : FieldRename).affectedPaths d := haffected
    replace hmem : p ++ [b] ∈ d.responsePaths := hmem
    have hother : p ++ [b] ∉ (⟨a, c⟩ : FieldRename).affectedPaths d := fun h =>
      hab (eq_oldName_of_affected _ h).symm
    have hrecorded := (⟨a, c⟩ : FieldRename).concat_mem_recordedPaths_of_affected haffected
    -- the key in between would have to stay for the field beside, and to go on to the old name
    have hkept := hback _ (List.mem_map_of_mem hmem)
    have hrenamed := hback _ (List.mem_map_of_mem (mem_responsePaths_of_affected _ haffected))
    rw [pathAfter_concat, if_neg hother, keysBack, keysAfter_concat, keysAfter_concat,
      keysAfter_concat, List.append_singleton_inj, List.nil_append, List.nil_append,
      keyAfter_of_ne hbc, keyAfter_of_ne hbc] at hkept
    rw [pathAfter_concat, if_pos haffected, keysBack, keysAfter_concat, keysAfter_concat,
      keysAfter_concat, List.append_singleton_inj, List.nil_append, List.nil_append,
      keyAfter_of_mem hrecorded] at hrenamed
    have hunmarked := not_mem_of_keyAfter_eq hab.symm hkept.2
    rw [keyAfter_of_not_mem hunmarked, keyAfter] at hrenamed
    split_ifs at hrenamed
    · exact hab hrenamed.2.symm
    · exact hac hrenamed.2.symm
  · intro hfirst p hp
    obtain ⟨hshare', hclash'⟩ := hfirst.resolve_left hab
    obtain ⟨q, hq, rfl⟩ := List.mem_map.mp hp
    rw [keysBack, keysAfter_congr fun _ => mem_recordedPaths_chained hlacks hshare' hclash',
      h.keysAfter_pathAfter hac b (.inr hq), hfirst.keysAfter_pathAfter hab a (.inr hq),
      h.keysAfter_pathAfter hac a (.inr hq)]

/-! ### Two renamings against one -/

/-- The request under two renamings, and its way back through both of them. -/
theorem outcome_request_chained (values : Option Json.Object) :
    ∃ chained, ((Rule.sequence [(⟨a, b⟩ : FieldRename).toRule,
        (⟨b, c⟩ : FieldRename).toRule]).request d values).outcome = .ok chained ∧
      chained.document =
        ((⟨b, c⟩ : FieldRename).renameFields ((⟨a, b⟩ : FieldRename).renameFields d).1).1 ∧
      chained.values = values ∧
      ∀ v, (chained.restore v).outcome =
        .ok ((⟨a, b⟩ : FieldRename).restore (recordedPaths ⟨a, b⟩ d)
          ((⟨b, c⟩ : FieldRename).restore (recordedPaths ⟨b, c⟩ (renameFields ⟨a, b⟩ d).1) v)) :=
  ⟨_, rfl, rfl, rfl, fun _ => rfl⟩

/-- **Two renamings against one.** A field is renamed and renamed again, and no field has the name
in between. The document is the one that a single renaming makes. Responses are restored alike, as
long as their keys are on response paths, exactly if the keys of each of these paths come back
alike; and where the single renaming is unambiguous, exactly if the first of the two is
unambiguous as well, so that the name in between is no key beside a field that has the old name.
-/
theorem restore_chained_iff (hab : a ≠ b) (hbc : b ≠ c) (hac : a ≠ c) (hlacks : d.Lacks b)
    (values : Option Json.Object) :
    ∃ chained direct,
      ((Rule.sequence [(⟨a, b⟩ : FieldRename).toRule,
        (⟨b, c⟩ : FieldRename).toRule]).request d values).outcome = .ok chained ∧
      ((Rule.sequence [(⟨a, c⟩ : FieldRename).toRule]).request d values).outcome = .ok direct ∧
      chained.document = direct.document ∧ chained.values = direct.values ∧
      ((∀ v : Json.Value, v.canonical = v → v.Follows direct.document.responsePaths [] →
          (chained.restore v).outcome = (direct.restore v).outcome) ↔
        ∀ p ∈ direct.document.responsePaths,
          keysBack a b c d p = keysAfter c a ((⟨a, c⟩ : FieldRename).recordedPaths d) [] p) ∧
      ((⟨a, c⟩ : FieldRename).Unambiguous d →
        ((∀ v : Json.Value, v.canonical = v → v.Follows direct.document.responsePaths [] →
            (chained.restore v).outcome = (direct.restore v).outcome) ↔
          (⟨a, b⟩ : FieldRename).Unambiguous d)) := by
  obtain ⟨chained, ok, hdocument, hvalues, hchained⟩ :=
    outcome_request_chained (a := a) (b := b) (c := c) (d := d) values
  have hclosed : ∀ p ∈ ((⟨a, c⟩ : FieldRename).renameFields d).1.responsePaths,
      ∀ q, q ≠ [] → q <+: p → q ∈ ((⟨a, c⟩ : FieldRename).renameFields d).1.responsePaths :=
    fun p hp q => Document.prefix_mem_responsePaths hp
  have hrestores : (∀ v : Json.Value, v.canonical = v →
      v.Follows ((⟨a, c⟩ : FieldRename).renameFields d).1.responsePaths [] →
        (chained.restore v).outcome = .ok (restore ⟨a, c⟩ (recordedPaths ⟨a, c⟩ d) v)) ↔
      ∀ p ∈ ((⟨a, c⟩ : FieldRename).renameFields d).1.responsePaths,
        keysBack a b c d p = keysAfter c a ((⟨a, c⟩ : FieldRename).recordedPaths d) [] p := by
    simp only [hchained, restore_recordedPaths, Except.ok.injEq, keysBack]
    exact rekey_rekey_eq_iff hbc.symm hab.symm hac.symm hclosed
  exact ⟨chained, _, ok, rfl, hdocument.trans (renameFields_chained hlacks), hvalues, hrestores,
    fun h => hrestores.trans (h.keysBack_eq_iff hab hbc hac hlacks)⟩

/-- `{ node { things { things } } items: other { goods: id } }`. -/
def aliasedElsewhere : Document :=
  ⟨[.operation ⟨none, [.field ⟨none, "node", [], []⟩ [.field ⟨none, "things", [], []⟩
      [.field ⟨none, "things", [], []⟩ []]],
    .field ⟨some "items", "other", [], []⟩ [.field ⟨some "goods", "id", [], []⟩ []]]⟩]⟩

/-- A response to the document with goods in place of things, one of which is missing. -/
def goodsAndItems : Json.Value :=
  .object [("items", .object [("goods", .boolean true)]),
    ("node", .object [("goods", .array [.null, .object [("goods", .string "a")]])])]

/-- Aliases that are not beside a renamed field do no harm. -/
theorem restore_chained_iff_elsewhere :
    aliasedElsewhere.Lacks "items" ∧
    (⟨"things", "goods"⟩ : FieldRename).Unambiguous aliasedElsewhere ∧
    ∃ chained direct,
      ((Rule.sequence [(⟨"things", "items"⟩ : FieldRename).toRule,
        (⟨"items", "goods"⟩ : FieldRename).toRule]).request aliasedElsewhere none).outcome =
          .ok chained ∧
      ((Rule.sequence [(⟨"things", "goods"⟩ : FieldRename).toRule]).request
        aliasedElsewhere none).outcome = .ok direct ∧
      chained.document = direct.document ∧
      (chained.restore goodsAndItems).outcome = (direct.restore goodsAndItems).outcome ∧
      (direct.restore goodsAndItems).outcome = .ok (.object
        [("items", .object [("goods", .boolean true)]),
          ("node", .object [("things", .array [.null, .object [("things", .string "a")]])])]) := by
  have hlacks : aliasedElsewhere.Lacks "items" := by
    simp [aliasedElsewhere, Document.Lacks, Document.EveryField, Graphql.EverySelection,
      Graphql.Selection.IfField, Graphql.Definition.selections]
  have hsingle : (⟨"things", "goods"⟩ : FieldRename).Unambiguous aliasedElsewhere :=
    isUnambiguous_iff.mp (by cbv)
  have hfirst : (⟨"things", "items"⟩ : FieldRename).Unambiguous aliasedElsewhere :=
    isUnambiguous_iff.mp (by cbv)
  obtain ⟨chained, direct, okChained, okDirect, hdocument, -, -, hiff⟩ := restore_chained_iff
    (by decide : "things" ≠ "items") (by decide : "items" ≠ "goods") (by decide) hlacks none
  obtain rfl : _ = direct := Except.ok.inj okDirect
  have hpaths : ((⟨"things", "goods"⟩ : FieldRename).renameFields
      aliasedElsewhere).1.responsePaths = [["node"], ["node", "goods"], ["node", "goods", "goods"],
        ["items"], ["items", "goods"]] := by
    rw [renameFields_eq_mapFields]
    cbv
  refine ⟨hlacks, hsingle, chained, _, okChained, rfl, hdocument, ?_, ?_⟩
  · refine (hiff hsingle).mpr hfirst goodsAndItems (by cbv) ?_
    change goodsAndItems.Follows ((⟨"things", "goods"⟩ : FieldRename).renameFields
      aliasedElsewhere).1.responsePaths []
    rw [hpaths]
    simp [goodsAndItems, Json.Value.follows_object_iff, Json.Value.follows_array_iff,
      Json.Value.Follows.null, Json.Value.Follows.boolean, Json.Value.Follows.string]
  · have hback : (⟨"things", "goods"⟩ : FieldRename).restore
        (recordedPaths ⟨"things", "goods"⟩ aliasedElsewhere) goodsAndItems = .object
          [("items", .object [("goods", .boolean true)]),
            ("node", .object [("things", .array [.null, .object [("things", .string "a")]])])] := by
      rw [restore_recordedPaths, recordedPaths, affectedPaths_eq_map]
      cbv
    exact congrArg Except.ok hback

/-- `{ things items: other }`: an alias beside the renamed field is the name in between. -/
def aliasedBeside : Document :=
  ⟨[.operation ⟨none, [.field ⟨none, "things", [], []⟩ [],
    .field ⟨some "items", "other", [], []⟩ []]⟩]⟩

/-- **A key may be lost on the way.** The first of the two passes gives the value of the renamed
field the key of the aliased one, in place of its value, and the second pass moves it on. -/
theorem restore_chained_ne :
    ¬ ∀ (a b c : String) (d : Document) (values : Option Json.Object) (chained direct : Adapted),
      a ≠ b → b ≠ c → a ≠ c → d.operations.length = 1 → d.Lacks b → d.Lacks c →
        ((Rule.sequence [(⟨a, b⟩ : FieldRename).toRule,
          (⟨b, c⟩ : FieldRename).toRule]).request d values).outcome = .ok chained →
        ((Rule.sequence [(⟨a, c⟩ : FieldRename).toRule]).request d values).outcome = .ok direct →
        chained.document = direct.document ∧
          ∀ v : Json.Value, v.canonical = v → v.Follows chained.document.responsePaths [] →
            (chained.restore v).outcome = (direct.restore v).outcome := by
  intro h
  let first : FieldRename := ⟨"things", "items"⟩
  let second : FieldRename := ⟨"items", "goods"⟩
  let single : FieldRename := ⟨"things", "goods"⟩
  let between : Document := (first.renameFields aliasedBeside).1
  let v : Json.Value := .object [("goods", .number (.int 1)), ("items", .number (.int 2))]
  have hlacks : ∀ name ∈ ["items", "goods"], aliasedBeside.Lacks name := by
    simp [aliasedBeside, Document.Lacks, Document.EveryField, Graphql.EverySelection,
      Graphql.Selection.IfField, Graphql.Definition.selections]
  have hbetween : between = aliasedBeside.mapFields first.renameField :=
    first.renameFields_eq_mapFields aliasedBeside
  have hpaths : (second.renameFields between).1.responsePaths = [["goods"], ["items"]] := by
    rw [renameFields_eq_mapFields, hbetween]
    cbv
  have hfollows : v.Follows (second.renameFields between).1.responsePaths [] := by
    rw [hpaths]
    simp [v, Json.Value.follows_object_iff, Json.Value.Follows.number]
  have hchained : first.restore (first.recordedPaths aliasedBeside)
      (second.restore (second.recordedPaths between) v) =
        .object [("things", .number (.int 1))] := by
    rw [recordedPaths, recordedPaths, affectedPaths_eq_map, affectedPaths_eq_map, hbetween]
    cbv
  have hdirect : single.restore (single.recordedPaths aliasedBeside) v =
      .object [("items", .number (.int 2)), ("things", .number (.int 1))] := by
    rw [recordedPaths, affectedPaths_eq_map]
    cbv
  have heq : Except.ok (first.restore (first.recordedPaths aliasedBeside)
      (second.restore (second.recordedPaths between) v)) =
        .ok (single.restore (single.recordedPaths aliasedBeside) v) :=
    (h "things" "items" "goods" aliasedBeside none _ _ (by decide) (by decide) (by decide) rfl
      (hlacks _ (by simp)) (hlacks _ (by simp)) rfl rfl).2 v (by cbv) hfollows
  rw [hchained, hdirect] at heq
  exact absurd heq (by simp)

end FieldRename

end SchemaBridge
