import SchemaBridge.Proofs.Response.Recorded

/-!
# Unambiguous renamings

Where no two fields get into each other's way, the rule makes no mistake about paths.

* `FieldRename.Unambiguous`: no field keeps a key that an affected one gives up, and none has the
  key that an affected one takes. It can be tested field by field (`FieldRename.isUnambiguous_iff`);
* `FieldRename.Unambiguous.responsePaths_eq`: the response paths of the renamed document are the
  translated ones;
* `FieldRename.concat_mem_recordedPaths_iff`: a translated path is recorded exactly if the path is
  affected.
-/

namespace SchemaBridge

open Graphql (Document Operation Field Occurrence Trail)

namespace FieldRename

variable {r : FieldRename} {d : Document}

/-! ### Unambiguous renamings -/

/-- Every field that shares its response path with an affected one is affected. -/
def Unshared (r : FieldRename) (d : Document) : Prop :=
  ∀ x ∈ d.occurrences, r.Affects x.head → ∀ y ∈ d.occurrences, y.path = x.path → r.Affects y.head

/-- The names do not differ, or no affected field shares its response path with a field that is
not affected, and none has a sibling whose key is the new name. -/
def Unambiguous (r : FieldRename) (d : Document) : Prop :=
  r.oldName = r.newName ∨ (r.Unshared d ∧ r.Unclashing d)

/-- Whether a renaming is unambiguous, field by field. -/
def isUnambiguous (r : FieldRename) (d : Document) : Bool :=
  r.oldName = r.newName || d.occurrences.all fun x => !decide (r.Affects x.head) ||
    (d.occurrences.all fun y => decide (y.path = x.path → r.Affects y.head)) &&
      !d.responsePaths.contains (x.path.dropLast ++ [r.newName])

/-- The test for unambiguous renamings is exact. -/
theorem isUnambiguous_iff : r.isUnambiguous d = true ↔ r.Unambiguous d := by
  simp only [isUnambiguous, Unambiguous, Unshared, Unclashing, Bool.or_eq_true, Bool.and_eq_true,
    List.all_eq_true, List.contains_eq_mem, decide_eq_true_eq, Bool.not_eq_true',
    decide_eq_false_iff_not]
  refine or_congr_right ⟨fun h => ⟨fun x hx haffects => ?_, fun x hx haffects => ?_⟩, ?_⟩
  · exact ((h x hx).resolve_left (not_not_intro haffects)).1
  · exact ((h x hx).resolve_left (not_not_intro haffects)).2
  · rintro ⟨hshare, hclash⟩ x hx
    by_cases haffects : r.Affects x.head
    · exact .inr ⟨hshare x hx haffects, hclash x hx haffects⟩
    · exact .inl haffects

instance : Decidable (r.Unambiguous d) :=
  decidable_of_iff _ isUnambiguous_iff

/-- If no affected path is shared, no field is mistaken for an affected one. -/
theorem Unshared.separates (h : r.Unshared d) {t : Trail} (ht : t ∈ d.allTrails) :
    r.Separates d t.fields := by
  intro fs f hfs hpath
  obtain ⟨o, ho, ht⟩ := List.mem_flatMap.mp ht
  obtain ⟨u, hu, hfields⟩ := Document.exists_trail_fields_eq ht (by simp) hfs
  obtain ⟨rfl, rfl⟩ := List.append_singleton_inj.mp hfields
  obtain ⟨x, hx, haffects, hxpath⟩ := r.mem_affectedPaths.mp hpath
  have hocc : ∀ v ∈ d.allTrails, v.occurrence ∈ d.occurrences := fun v hv => by
    rw [d.occurrences_eq_map]
    exact List.mem_map_of_mem hv
  exact h _ (hocc x hx) haffects _ (hocc u (List.mem_flatMap.mpr ⟨o, ho, hu⟩)) hxpath.symm

/-- An unambiguous renaming translates the response path of every field to its path in the
renamed document. -/
theorem Unambiguous.pathAfter_eq (h : r.Unambiguous d) {t : Trail} (ht : t ∈ d.allTrails) :
    r.pathAfter d t.path = (t.mapFields r.renameField).path :=
  (r.pathAfter_eq_iff ht).mpr (h.imp_right fun h => h.1.separates ht)

/-- The response paths after an unambiguous renaming. -/
theorem Unambiguous.responsePaths_eq (h : r.Unambiguous d) :
    (r.renameFields d).1.responsePaths = d.responsePaths.map (r.pathAfter d) := by
  rw [renameFields_eq_mapFields, Document.responsePaths_eq_map, Document.allTrails_mapFields,
    d.responsePaths_eq_map, List.map_map, List.map_map]
  exact List.map_congr_left fun t ht => (h.pathAfter_eq ht).symm

/-- Different paths stay different. -/
theorem pathAfter_injective (hshare : r.Unshared d) (hclash : r.Unclashing d) {p q : List String}
    (hp : d.Reaches p) (hq : d.Reaches q) (h : r.pathAfter d q = r.pathAfter d p) : q = p := by
  obtain rfl | hp := hp
  · obtain rfl | ⟨q, key, rfl⟩ := List.eq_nil_or_concat' q
    · rfl
    · rw [pathAfter_concat] at h
      exact absurd h (by simp)
  · rw [d.responsePaths_eq_map] at hp
    obtain ⟨t, ht, rfl⟩ := List.mem_map.mp hp
    have hunambiguous : r.Unambiguous d := .inr ⟨hshare, hclash⟩
    rw [hunambiguous.pathAfter_eq ht] at h
    exact (r.eq_path_of_pathAfter_eq hclash ht hq h).1

/-- The new name is recorded at a path exactly where the old one was affected. -/
theorem concat_mem_recordedPaths_iff (hshare : r.Unshared d) (hclash : r.Unclashing d)
    {p : List String} (hp : d.Reaches p) :
    r.pathAfter d p ++ [r.newName] ∈ r.recordedPaths d ↔
      p ++ [r.oldName] ∈ r.affectedPaths d := by
  constructor
  · intro h
    obtain ⟨q, hq, heq⟩ := r.exists_of_mem_recordedPaths h
    have hreach := Document.reaches_of_concat (r.mem_responsePaths_of_affected hq)
    rwa [pathAfter_injective hshare hclash hreach hp (List.append_singleton_inj.mp heq).1]
  · exact r.concat_mem_recordedPaths_of_affected

/-- The path of a field in the renamed document is recorded exactly if the field is affected. -/
theorem mem_recordedPaths_iff (hshare : r.Unshared d) (hclash : r.Unclashing d) {t : Trail}
    (ht : t ∈ d.allTrails) :
    (t.mapFields r.renameField).path ∈ r.recordedPaths d ↔ r.Affects t.head := by
  have hunambiguous : r.Unambiguous d := .inr ⟨hshare, hclash⟩
  rw [← hunambiguous.pathAfter_eq ht]
  constructor
  · intro h
    obtain ⟨q, hq, heq⟩ := r.mem_recordedPaths.mp h
    have hreach : d.Reaches t.path := by
      refine .inr ?_
      rw [d.responsePaths_eq_map]
      exact List.mem_map_of_mem ht
    rw [pathAfter_injective hshare hclash hreach (.inr (r.mem_responsePaths_of_affected hq))
      heq] at hq
    exact hshare.separates ht t.above t.head (List.prefix_refl _) hq
  · intro h
    exact r.mem_recordedPaths.mpr ⟨_, r.mem_affectedPaths.mpr ⟨t, ht, h, rfl⟩, rfl⟩

/-- A path beneath which the old name is affected goes on with the old name there, and with no
other affected key. -/
theorem concat_mem_affectedPaths_iff {p : List String}
    (h : p ++ [r.oldName] ∈ r.affectedPaths d) (key : String) :
    p ++ [key] ∈ r.affectedPaths d ↔ key = r.oldName := by
  constructor
  · exact r.eq_oldName_of_affected
  · rintro rfl
    exact h

end FieldRename

end SchemaBridge
