import SchemaBridge.Proofs.Response.Rekey
import SchemaBridge.Proofs.Response.Unambiguous
import SchemaBridge.Proofs.Rule.Request

/-!
# Operations of one document

A server executes one operation of a document, but the paths of all its operations are recorded
together.

* `Document.only`: the document with one of its operations and all its fragments;
* `rekey_eq_iff`: which marks a response can reach;
* `FieldRename.restore_alone_iff`: the other operations leave every response to an operation alone
  exactly if they neither add nor take away a recorded path that is one of its response paths;
* `FieldRename.Unambiguous.restore_alone`: they do so for every unambiguous renaming.
-/

namespace SchemaBridge

open Graphql (Document Operation Field Trail)

/-! ### One operation alone -/

namespace Graphql.Document

/-- The document with one operation, and with the fragments of another document. -/
def only (d : Document) (o : Operation) : Document :=
  ⟨.operation o :: d.fragments.map .fragment⟩

variable (d : Document) (o : Operation)

/-- There is one operation alone. -/
theorem operations_only : (d.only o).operations = [o] := by
  simp [only, operations, List.filterMap_map]

/-- All fragments are kept. -/
theorem fragments_only : (d.only o).fragments = d.fragments := by
  simp [only, fragments, List.filterMap_map]

/-- The fields that the operation selects are those that it selects beside others. -/
theorem allTrails_only : (d.only o).allTrails = d.trails o := by
  rw [allTrails, operations_only, List.flatMap_singleton, trails, fragments_only]
  rfl

end Graphql.Document

/-! ### Marks within reach -/

/-- The value in which a path leads to `null`. -/
def Json.Value.nest : List String → Json.Value
  | [] => .null
  | key :: rest => .object [(key, nest rest)]

/-- A nested value is canonical. -/
theorem Json.Value.canonical_nest (p : List String) : (nest p).canonical = nest p := by
  induction p with
  | nil => rfl
  | cons key rest ih =>
      rw [nest, canonical, canonicalEntries, canonicalEntries, ih]
      rfl

/-- A nested value is along the beginnings of its path. -/
theorem Json.Value.follows_nest {paths : List (List String)} {p base : List String}
    (h : ∀ q, q ≠ [] → q <+: p → base ++ q ∈ paths) : (nest p).Follows paths base := by
  induction p generalizing base with
  | nil => exact .null base
  | cons key rest ih =>
      refine follows_object_iff.mpr fun e he => ?_
      rw [List.mem_singleton.mp he]
      refine ⟨h [key] (by simp) ((List.prefix_cons_inj key).mpr List.nil_prefix), ?_⟩
      refine ih fun q _ hq => ?_
      rw [List.append_assoc]
      exact h (key :: q) (by simp) ((List.prefix_cons_inj key).mpr hq)

section Marks

variable {old new : String} {marked marked' : List (List String)}

/-- One pass over a nested value. -/
theorem rekey_nest_cons (base : List String) (key : String) (rest : List String) :
    rekey old new marked base (.nest (key :: rest)) =
      .object [(if key = old ∧ base ++ [old] ∈ marked then new else key,
        rekey old new marked (base ++ [key]) (.nest rest))] := by
  rw [Json.Value.nest, rekey_object, renameIfMarked_eq]
  by_cases hkey : key = old
  · subst hkey
    split_ifs with hmarked h h
    · simp [renameKey, Entries.mapValues, Entries.get?, Entries.erase, Entries.insert]
    · exact absurd ⟨rfl, hmarked⟩ h
    · exact absurd h.2 hmarked
    · rfl
  · rw [renameKey_of_get?_eq_none (by simp [Entries.mapValues, Entries.get?, hkey]), ite_self,
      if_neg fun h : key = old ∧ _ => hkey h.1]
    rfl

/-- One pass over a nested value tells whether its path is marked. -/
theorem mem_iff_of_rekey_nest_eq (hne : old ≠ new) {p base : List String}
    (h : rekey old new marked base (.nest (p ++ [old])) =
      rekey old new marked' base (.nest (p ++ [old]))) :
    base ++ p ++ [old] ∈ marked ↔ base ++ p ++ [old] ∈ marked' := by
  induction p generalizing base with
  | nil =>
      rw [List.nil_append, rekey_nest_cons, rekey_nest_cons] at h
      have hkey := (Prod.mk.inj (List.cons.inj (Json.Value.object.inj h)).1).1
      rw [List.append_nil]
      by_cases hmarked : base ++ [old] ∈ marked <;> by_cases hmarked' : base ++ [old] ∈ marked' <;>
        simp_all
  | cons key rest ih =>
      rw [List.cons_append, rekey_nest_cons, rekey_nest_cons] at h
      have hvalue := (Prod.mk.inj (List.cons.inj (Json.Value.object.inj h)).1).2
      simpa using ih hvalue

/-- Marks that agree on some paths rename the same keys in values along these paths. -/
theorem rekey_congr_of_follows {paths : List (List String)} {p : List String} {v : Json.Value}
    (hfollows : v.Follows paths p) (h : ∀ q ∈ paths, q ∈ marked ↔ q ∈ marked') :
    rekey old new marked p v = rekey old new marked' p v := by
  induction v generalizing p with
  | null => rfl
  | boolean b => rfl
  | number n => rfl
  | string s => rfl
  | array items ih =>
      rw [rekey_array, rekey_array]
      exact congrArg _ (List.map_congr_left fun v hv => ih v hv (hfollows.of_array v hv))
  | object entries ih =>
      have hbeneath : Entries.mapValues (fun k => rekey old new marked (p ++ [k])) entries =
          Entries.mapValues (fun k => rekey old new marked' (p ++ [k])) entries :=
        Entries.mapValues_congr fun e he => ih e he (hfollows.of_object e he).2
      rw [rekey_object, rekey_object, hbeneath, renameIfMarked_eq, renameIfMarked_eq]
      cases hold : Entries.get? entries old with
      | none =>
          -- a key that is missing is not renamed, whatever is marked
          rw [renameKey_of_get?_eq_none (by rw [Entries.get?_mapValues, hold, Option.map_none]),
            ite_self, ite_self]
      | some v =>
          have hmem := (hfollows.of_object _ (Entries.mem_of_get? hold)).1
          simp only [h _ hmem]

/-- Two sets of marks rename the same keys in all values along some paths exactly if they agree on
those of the paths that end in the renamed key. -/
theorem rekey_eq_iff (hne : old ≠ new) {paths : List (List String)}
    (hclosed : ∀ p ∈ paths, ∀ q, q ≠ [] → q <+: p → q ∈ paths)
    (hend : ∀ p, p ∈ marked ∨ p ∈ marked' → ∃ q, p = q ++ [old]) :
    (∀ v : Json.Value, v.canonical = v → v.Follows paths [] →
        rekey old new marked [] v = rekey old new marked' [] v) ↔
      ∀ p ∈ paths, p ∈ marked ↔ p ∈ marked' := by
  constructor
  · intro h p hp
    by_cases hmem : p ∈ marked ∨ p ∈ marked'
    · obtain ⟨q, rfl⟩ := hend p hmem
      have heq := h _ (Json.Value.canonical_nest (q ++ [old]))
        (Json.Value.follows_nest (hclosed _ hp))
      exact mem_iff_of_rekey_nest_eq hne heq
    · rw [not_or] at hmem
      exact iff_of_false hmem.1 hmem.2
  · intro h v _ hfollows
    exact rekey_congr_of_follows hfollows h

end Marks

namespace FieldRename

/-! ### Responses to one of several operations -/

/-- **Other operations leave the responses to an operation alone** exactly if the names do not
differ or the same response paths of the operation are recorded with them and without them. Requests
that rename fields do not fail. -/
theorem restore_alone_iff (r : FieldRename) (d : Document) (o : Operation)
    (values : Option Json.Object) :
    ∃ together alone, (r.toRule.request d values).outcome = .ok together ∧
      (r.toRule.request (d.only o) values).outcome = .ok alone ∧
      ((∀ v : Json.Value, v.canonical = v → v.Follows alone.document.responsePaths [] →
          (together.restore v).outcome = (alone.restore v).outcome) ↔
        r.oldName = r.newName ∨ ∀ p ∈ alone.document.responsePaths,
          p ∈ r.recordedPaths d ↔ p ∈ r.recordedPaths (d.only o)) := by
  refine ⟨_, _, r.outcome_request, r.outcome_request, ?_⟩
  simp only [Traced.outcome_pure, Except.ok.injEq, restore_recordedPaths]
  by_cases hne : r.oldName = r.newName
  · refine iff_of_true (fun v hcanonical _ => ?_) (.inl hne)
    have hordered := Json.Value.ordered_of_canonical hcanonical
    rw [hne, rekey_self _ hordered, rekey_self _ hordered]
  · rw [or_iff_right hne]
    refine rekey_eq_iff (Ne.symm hne) (fun p hp q => Document.prefix_mem_responsePaths hp) ?_
    rintro p (h | h)
    · exact r.eq_concat_of_mem_recordedPaths h
    · exact r.eq_concat_of_mem_recordedPaths h

/-- `query A { items: other }`. -/
def aliasedQuery : Operation :=
  ⟨some ⟨.query, some "A", [], []⟩, [.field ⟨some "items", "other", [], []⟩ []]⟩

/-- `query A { items: other } query B { things }`: a field of one operation has the key that a field
of the other takes. -/
def twoQueries : Document :=
  ⟨[.operation aliasedQuery,
    .operation ⟨some ⟨.query, some "B", [], []⟩, [.field ⟨none, "things", [], []⟩ []]⟩]⟩

/-- **Another operation may disturb a response.** The path recorded for a field of the operation
that is not executed is that of an aliased field of the one that is. -/
theorem restore_alone_ne :
    ¬ ∀ (r : FieldRename) (d : Document) (values : Option Json.Object) (together alone : Adapted),
      ∀ o ∈ d.operations, (r.toRule.request d values).outcome = .ok together →
        (r.toRule.request (d.only o) values).outcome = .ok alone →
        ∀ v : Json.Value, v.canonical = v → v.Follows alone.document.responsePaths [] →
          (together.restore v).outcome = (alone.restore v).outcome := by
  intro h
  let r : FieldRename := ⟨"things", "items"⟩
  have hpaths : (r.renameFields (twoQueries.only aliasedQuery)).1.responsePaths = [["items"]] := by
    rw [r.renameFields_eq_mapFields]
    cbv
  have hfollows : Json.Value.Follows
      (r.renameFields (twoQueries.only aliasedQuery)).1.responsePaths []
      (.object [("items", .null)]) := by
    rw [hpaths]
    simp [Json.Value.follows_object_iff, Json.Value.Follows.null]
  have htogether : r.restore (r.recordedPaths twoQueries) (.object [("items", .null)]) =
      .object [("things", .null)] := by
    rw [recordedPaths, affectedPaths_eq_map]
    cbv
  have halone : r.restore (r.recordedPaths (twoQueries.only aliasedQuery))
      (.object [("items", .null)]) = .object [("items", .null)] := by
    rw [recordedPaths, affectedPaths_eq_map]
    cbv
  have heq := Except.ok.inj
    (h r twoQueries none _ _ aliasedQuery List.mem_cons_self rfl rfl _ (by cbv) hfollows)
  rw [htogether, halone] at heq
  exact absurd heq (by simp)

/-! ### Unambiguous renamings -/

variable {r : FieldRename} {d : Document} {o : Operation}

/-- A renaming that is unambiguous on a document is so on each operation alone. -/
theorem Unambiguous.only (h : r.Unambiguous d) (ho : o ∈ d.operations) :
    r.Unambiguous (d.only o) := by
  have hmem : ∀ x ∈ (d.only o).occurrences, x ∈ d.occurrences := by
    intro x hx
    rw [Document.occurrences_eq_map, Document.allTrails_only] at hx
    rw [Document.occurrences_eq_map]
    exact List.map_subset _ (fun t ht => List.mem_flatMap.mpr ⟨o, ho, ht⟩) hx
  refine h.imp_right fun ⟨hshare, hclash⟩ => ⟨fun x hx haffects y hy => ?_, fun x hx haffects => ?_⟩
  · exact hshare x (hmem x hx) haffects y (hmem y hy)
  · exact fun hpath => hclash x (hmem x hx) haffects (List.map_subset _ hmem hpath)

/-- Where a renaming is unambiguous, the same response paths of an operation are recorded with the
other operations and without them. -/
theorem Unambiguous.mem_recordedPaths_only_iff (h : r.Unambiguous d) (hne : r.oldName ≠ r.newName)
    (ho : o ∈ d.operations) {p : List String}
    (hp : p ∈ (r.renameFields (d.only o)).1.responsePaths) :
    p ∈ r.recordedPaths d ↔ p ∈ r.recordedPaths (d.only o) := by
  obtain ⟨hshare, hclash⟩ := h.resolve_left hne
  obtain ⟨hshare', hclash'⟩ := (h.only ho).resolve_left hne
  rw [renameFields_eq_mapFields, Document.responsePaths_eq_map, Document.allTrails_mapFields,
    List.map_map] at hp
  obtain ⟨t, ht, rfl⟩ := List.mem_map.mp hp
  have ht' : t ∈ d.allTrails := by
    rw [Document.allTrails_only] at ht
    exact List.mem_flatMap.mpr ⟨o, ho, ht⟩
  rw [Function.comp_apply, mem_recordedPaths_iff hshare hclash ht',
    mem_recordedPaths_iff hshare' hclash' ht]

/-- Where a renaming is unambiguous, the other operations leave the responses to an operation
alone. -/
theorem Unambiguous.restore_alone (h : r.Unambiguous d) (ho : o ∈ d.operations) {v : Json.Value}
    (hordered : v.Ordered)
    (hfollows : v.Follows (r.renameFields (d.only o)).1.responsePaths []) :
    r.restore (r.recordedPaths d) v = r.restore (r.recordedPaths (d.only o)) v := by
  rw [r.restore_recordedPaths, r.restore_recordedPaths]
  by_cases hne : r.oldName = r.newName
  · rw [hne, rekey_self _ hordered, rekey_self _ hordered]
  · exact rekey_congr_of_follows hfollows fun p => h.mem_recordedPaths_only_iff hne ho

end FieldRename

end SchemaBridge
