import Mathlib.Data.List.Basic
import SchemaBridge.Proofs.Graphql.FieldMap
import SchemaBridge.Proofs.Response.Rekey
import SchemaBridge.Rule.FieldName

/-!
# Recorded response paths

A field that is renamed and has no alias comes back under its new name. Its response path in the
renamed document is needed to find it there, and the rule records what it takes for this path: it
gives the new name to every key at which a beginning of the old path is that of such a field.

* `FieldRename.Affects`: whether the key of a field in responses changes;
* `FieldRename.pathAfter`: the path that the rule makes of a response path;
* `FieldRename.counterparts`: the fields before and after the renaming, in pairs;
* `FieldRename.Traceable`: no field on the way to a field is mistaken for an affected one;
* `FieldRename.recordedPaths_exact`: the path recorded for a field is its path in the renamed
  document exactly if the field is traceable, with what follows for all recorded paths together.
-/

namespace SchemaBridge

open Graphql (Document Operation Field Occurrence Trail onlyNamed)

namespace FieldRename

variable (r : FieldRename)

/-! ### The renaming, field by field -/

/-- The field with the new name, if it has the old one. -/
def renameField (f : Field) : Field :=
  onlyNamed r.oldName (fun f => { f with name := r.newName }) f

/-- The field is renamed and has no alias, so that its key in responses changes. -/
def Affects (f : Field) : Prop :=
  f.alias? = none ∧ f.name = r.oldName

instance (f : Field) : Decidable (r.Affects f) :=
  inferInstanceAs (Decidable (_ ∧ _))

/-- The renamed document has its fields renamed one by one. -/
theorem renameFields_eq_mapFields (d : Document) :
    (r.renameFields d).1 = d.mapFields r.renameField := by
  have hmaps : Graphql.Visitor.Maps r.visit fun f => { f with name := r.newName } :=
    fun _ _ _ => rfl
  exact Document.editFields_eq_mapFields hmaps d r.oldName 0

/-- The key of an affected field is the old name. -/
theorem Affects.responseKey_eq {r : FieldRename} {f : Field} (h : r.Affects f) :
    f.responseKey = r.oldName := by
  rw [Field.responseKey, h.1, Option.getD_none, h.2]

/-- The key of a field after the renaming. -/
theorem responseKey_renameField (f : Field) :
    (r.renameField f).responseKey = if r.Affects f then r.newName else f.responseKey := by
  obtain ⟨alias?, name, arguments, directives⟩ := f
  by_cases hname : name = r.oldName
  · cases alias? <;> simp [renameField, onlyNamed, Affects, Field.responseKey, hname]
  · simp [renameField, onlyNamed, Affects, Field.responseKey, hname]

/-- The response path of a trail after the renaming. -/
theorem path_mapFields (t : Trail) :
    (t.mapFields r.renameField).path =
      t.fields.map fun f => if r.Affects f then r.newName else f.responseKey := by
  rw [Trail.path, Trail.fields_mapFields, List.map_map]
  exact List.map_congr_left fun f _ => r.responseKey_renameField f

/-! ### Affected paths -/

/-- The affected paths are the response paths of the affected fields, each once. -/
theorem affectedPaths_eq_map (d : Document) :
    r.affectedPaths d =
      ((d.allTrails.filter fun t => r.Affects t.head).map Trail.path).eraseDups := by
  rw [affectedPaths, Document.allTrails, List.filter_flatMap, List.map_flatMap]
  refine congrArg List.eraseDups (List.flatMap_congr fun o _ => ?_)
  rw [Document.findFields_eq_filterMap, List.filter_filterMap, List.map_filterMap,
    ← List.filterMap_eq_map, List.filterMap_filter]
  refine List.filterMap_congr fun t _ => ?_
  by_cases hname : t.head.name = r.oldName
  · by_cases halias : t.head.alias? = none
    · simp [Affects, hname, halias, Option.filter, Trail.occurrence]
    · simp [Affects, hname, halias, Option.filter, Trail.occurrence]
  · simp [Affects, hname]

/-- An affected path is the response path of an affected field. -/
theorem mem_affectedPaths {d : Document} {p : List String} :
    p ∈ r.affectedPaths d ↔ ∃ t ∈ d.allTrails, r.Affects t.head ∧ t.path = p := by
  simp only [affectedPaths_eq_map, List.mem_eraseDups, List.mem_map, List.mem_filter,
    decide_eq_true_eq, and_assoc]

/-- An affected path is a response path. -/
theorem mem_responsePaths_of_affected {d : Document} {p : List String}
    (h : p ∈ r.affectedPaths d) : p ∈ d.responsePaths := by
  obtain ⟨t, ht, -, rfl⟩ := r.mem_affectedPaths.mp h
  rw [d.responsePaths_eq_map]
  exact List.mem_map_of_mem ht

/-- An affected path ends in the old name. -/
theorem eq_oldName_of_affected {d : Document} {p : List String} {key : String}
    (h : p ++ [key] ∈ r.affectedPaths d) : key = r.oldName := by
  obtain ⟨t, -, haffects, hpath⟩ := r.mem_affectedPaths.mp h
  rw [Trail.path_eq_concat, haffects.responseKey_eq] at hpath
  exact (List.append_singleton_inj.mp hpath).2.symm

/-! ### Paths as the rule translates them -/

/-- What the rule makes of a response path: its keys as the rule takes them to be after the
renaming. -/
def pathAfter (d : Document) (p : List String) : List String :=
  r.renamedBelow (r.affectedPaths d) [] p

/-- Keys are translated one after the other. -/
theorem renamedBelow_concat (affected : List (List String)) (done p : List String)
    (key : String) :
    r.renamedBelow affected done (p ++ [key]) =
      r.renamedBelow affected done p ++
        [if done ++ p ++ [key] ∈ affected then r.newName else key] := by
  induction p generalizing done with
  | nil => simp [renamedBelow]
  | cons k rest ih =>
      rw [List.cons_append, renamedBelow, renamedBelow, ih, List.cons_append]
      simp only [List.append_assoc, List.cons_append, List.nil_append]

/-- The path of the root stays empty. -/
@[simp] theorem pathAfter_nil (d : Document) : r.pathAfter d [] = [] := rfl

/-- The last key of a path is translated by whether the whole path is affected. -/
theorem pathAfter_concat (d : Document) (p : List String) (key : String) :
    r.pathAfter d (p ++ [key]) =
      r.pathAfter d p ++ [if p ++ [key] ∈ r.affectedPaths d then r.newName else key] :=
  r.renamedBelow_concat (r.affectedPaths d) [] p key

/-- The recorded paths are the affected paths, translated. -/
theorem mem_recordedPaths {d : Document} {p : List String} :
    p ∈ r.recordedPaths d ↔ ∃ q ∈ r.affectedPaths d, r.pathAfter d q = p :=
  List.mem_map

/-- A recorded path ends in the new name, and what stands before it is translated too. -/
theorem exists_of_mem_recordedPaths {d : Document} {p : List String}
    (h : p ∈ r.recordedPaths d) :
    ∃ q, q ++ [r.oldName] ∈ r.affectedPaths d ∧ p = r.pathAfter d q ++ [r.newName] := by
  obtain ⟨p, hp, rfl⟩ := r.mem_recordedPaths.mp h
  obtain ⟨t, -, haffects, rfl⟩ := r.mem_affectedPaths.mp hp
  rw [Trail.path_eq_concat, haffects.responseKey_eq] at hp ⊢
  exact ⟨_, hp, by rw [pathAfter_concat, if_pos hp]⟩

/-- A recorded path ends in the new name. -/
theorem eq_concat_of_mem_recordedPaths {d : Document} {p : List String}
    (h : p ∈ r.recordedPaths d) : ∃ q, p = q ++ [r.newName] := by
  obtain ⟨q, -, hq⟩ := r.exists_of_mem_recordedPaths h
  exact ⟨_, hq⟩

/-- The way back of a renaming is one pass. -/
theorem restore_recordedPaths (d : Document) (v : Json.Value) :
    r.restore (r.recordedPaths d) v = rekey r.newName r.oldName (r.recordedPaths d) [] v :=
  r.restore_eq_rekey (fun _ => r.eq_concat_of_mem_recordedPaths) v

/-- An affected path is recorded with the new name at its end. -/
theorem concat_mem_recordedPaths_of_affected {d : Document} {p : List String}
    (h : p ++ [r.oldName] ∈ r.affectedPaths d) :
    r.pathAfter d p ++ [r.newName] ∈ r.recordedPaths d :=
  r.mem_recordedPaths.mpr ⟨_, h, by rw [pathAfter_concat, if_pos h]⟩

/-! ### Fields before and after the renaming -/

/-- The fields that a document selects, each with the same field of the renamed document: the
walks through an operation before and after the renaming meet the same fields in the same
order. -/
def counterparts (d : Document) : List (Trail × Trail) :=
  (d.operations.zip (r.renameFields d).1.operations).flatMap fun (o, o') =>
    (d.trails o).zip ((r.renameFields d).1.trails o')

/-- The response paths, in the renamed document, of the affected fields of a document. -/
def renamedPaths (d : Document) : List (List String) :=
  ((r.counterparts d).filter fun c => r.Affects c.1.head).map (·.2.path)

/-- Every field has a counterpart: the same trail with its fields renamed. -/
theorem counterparts_eq_map (d : Document) :
    r.counterparts d = d.allTrails.map fun t => (t, t.mapFields r.renameField) := by
  rw [counterparts, renameFields_eq_mapFields, Document.operations_mapFields,
    ← List.map_prod_left_eq_zip, List.flatMap_map, Document.allTrails, List.map_flatMap]
  simp only [Document.trails_mapFields, ← List.map_prod_left_eq_zip]

/-- The paths of the affected fields in the renamed document, from their trails. -/
theorem renamedPaths_eq_map (d : Document) :
    r.renamedPaths d = (d.allTrails.filter fun t => r.Affects t.head).map fun t =>
      (t.mapFields r.renameField).path := by
  rw [renamedPaths, counterparts_eq_map, List.filter_map, List.map_map]
  rfl

/-- A path of an affected field in the renamed document is that of its trail. -/
theorem mem_renamedPaths {d : Document} {p : List String} :
    p ∈ r.renamedPaths d ↔
      ∃ t ∈ d.allTrails, r.Affects t.head ∧ (t.mapFields r.renameField).path = p := by
  simp only [renamedPaths_eq_map, List.mem_map, List.mem_filter, decide_eq_true_eq, and_assoc]

/-! ### Fields that are recorded at their place -/

/-- Every field among some, if it shares its response path with an affected one, is affected
itself. -/
def Separates (d : Document) (fields : List Field) : Prop :=
  ∀ fs f, fs ++ [f] <+: fields →
    (fs ++ [f]).map Field.responseKey ∈ r.affectedPaths d → r.Affects f

/-- No field on the way to a field, the field included, is mistaken for an affected one, or the
names do not differ. -/
def Traceable (d : Document) (t : Trail) : Prop :=
  r.oldName = r.newName ∨ r.Separates d t.fields

/-- No fields need no separation. -/
theorem separates_nil (d : Document) : r.Separates d [] := by
  intro fs f h
  exact absurd (List.prefix_nil.mp h) (by simp)

/-- Fields are separated one after the other. -/
theorem separates_concat {d : Document} {fields : List Field} {f : Field} :
    r.Separates d (fields ++ [f]) ↔ r.Separates d fields ∧
      ((fields ++ [f]).map Field.responseKey ∈ r.affectedPaths d → r.Affects f) := by
  constructor
  · intro h
    refine ⟨fun gs g hgs => h gs g (hgs.trans (List.prefix_append _ _)), ?_⟩
    exact h fields f (List.prefix_refl _)
  · rintro ⟨hfields, hf⟩ gs g hgs
    rcases List.prefix_concat_iff.mp hgs with heq | hgs
    · obtain ⟨rfl, rfl⟩ := List.append_singleton_inj.mp heq
      exact hf
    · exact hfields gs g hgs

/-- The key that the rule takes a field to have after the renaming is the right one unless the
field is mistaken for an affected one. -/
theorem translated_key_eq_iff {d : Document} {t : Trail} (ht : t ∈ d.allTrails) :
    (if t.path ∈ r.affectedPaths d then r.newName else t.head.responseKey) =
        (if r.Affects t.head then r.newName else t.head.responseKey) ↔
      r.oldName = r.newName ∨ (t.path ∈ r.affectedPaths d → r.Affects t.head) := by
  by_cases haffects : r.Affects t.head
  · have hmem : t.path ∈ r.affectedPaths d := r.mem_affectedPaths.mpr ⟨t, ht, haffects, rfl⟩
    simp [haffects, hmem]
  · by_cases hmem : t.path ∈ r.affectedPaths d
    · have hkey : t.head.responseKey = r.oldName := by
        rw [Trail.path_eq_concat] at hmem
        exact r.eq_oldName_of_affected hmem
      simp [haffects, hmem, hkey, eq_comm]
    · simp [haffects, hmem]

/-- The path that the rule makes of the path of a field is the path of the field after the
renaming exactly if the field is traceable. -/
theorem pathAfter_eq_iff {d : Document} {t : Trail} (ht : t ∈ d.allTrails) :
    r.pathAfter d t.path = (t.mapFields r.renameField).path ↔ r.Traceable d t := by
  obtain ⟨o, ho, ht⟩ := List.mem_flatMap.mp ht
  rw [path_mapFields, Trail.path, Traceable]
  refine Document.trail_induction (motive := fun fs =>
    r.pathAfter d (fs.map Field.responseKey) =
        fs.map (fun f => if r.Affects f then r.newName else f.responseKey) ↔
      r.oldName = r.newName ∨ r.Separates d fs) ?_ (fun u hu ih => ?_) t ht
  · simp [r.separates_nil d]
  · have hkey := r.translated_key_eq_iff (List.mem_flatMap.mpr ⟨o, ho, hu⟩)
    rw [Trail.path, Trail.fields] at hkey
    rw [Trail.fields, separates_concat, or_and_left, ← ih, ← hkey]
    rw [List.map_append, List.map_append, List.map_singleton, List.map_singleton, pathAfter_concat,
      List.append_singleton_inj]

/-- No affected path has a sibling that ends in the new name. -/
def Unclashing (d : Document) : Prop :=
  ∀ x ∈ d.occurrences, r.Affects x.head → x.path.dropLast ++ [r.newName] ∉ d.responsePaths

/-- The sibling of an affected path that ends in the new name is no response path. -/
theorem Unclashing.not_mem {r : FieldRename} {d : Document} (h : r.Unclashing d)
    {p : List String} {key : String} (hp : p ++ [key] ∈ r.affectedPaths d) :
    p ++ [r.newName] ∉ d.responsePaths := by
  obtain ⟨t, ht, haffects, hpath⟩ := r.mem_affectedPaths.mp hp
  have := h t.occurrence (by
    rw [d.occurrences_eq_map]
    exact List.mem_map_of_mem ht) haffects
  rwa [Trail.occurrence, hpath, List.dropLast_concat] at this

/-- Whether keys clash can be told from the affected paths alone. -/
theorem unclashing_iff {d : Document} :
    r.Unclashing d ↔
      ∀ p, p ++ [r.oldName] ∈ r.affectedPaths d → p ++ [r.newName] ∉ d.responsePaths := by
  refine ⟨fun h p => h.not_mem, fun h x hx haffects => ?_⟩
  rw [Document.occurrences_eq_map] at hx
  obtain ⟨t, ht, rfl⟩ := List.mem_map.mp hx
  replace haffects : r.Affects t.head := haffects
  have hpath : t.path = t.above.map Field.responseKey ++ [r.oldName] := by
    rw [Trail.path_eq_concat, haffects.responseKey_eq]
  rw [Trail.occurrence, hpath, List.dropLast_concat]
  exact h _ (hpath ▸ r.mem_affectedPaths.mpr ⟨t, ht, haffects, rfl⟩)

/-- Where no key clashes, a key beside a field that the rule takes to the key of the field after the
renaming is the key of the field before it, and the field is not mistaken for an affected one. -/
theorem eq_responseKey_of_translated_eq {d : Document} (hclash : r.Unclashing d) {t : Trail}
    (ht : t ∈ d.allTrails) {key : String}
    (hmem : t.above.map Field.responseKey ++ [key] ∈ d.responsePaths)
    (h : (if t.above.map Field.responseKey ++ [key] ∈ r.affectedPaths d then r.newName else key) =
      if r.Affects t.head then r.newName else t.head.responseKey) :
    key = t.head.responseKey ∧
      (t.above.map Field.responseKey ++ [key] ∈ r.affectedPaths d → r.Affects t.head) := by
  have hpath : t.above.map Field.responseKey ++ [t.head.responseKey] = t.path := by
    rw [Trail.path_eq_concat]
  -- a key that is the right one only by chance clashes
  by_cases hkey : t.above.map Field.responseKey ++ [key] ∈ r.affectedPaths d
  · by_cases haffects : r.Affects t.head
    · rw [r.eq_oldName_of_affected hkey, haffects.responseKey_eq]
      exact ⟨rfl, fun _ => haffects⟩
    · have hnew : r.newName = t.head.responseKey := by simpa [hkey, haffects] using h
      refine absurd ?_ (hclash.not_mem hkey)
      rw [hnew, hpath, d.responsePaths_eq_map]
      exact List.mem_map_of_mem ht
  · by_cases haffects : r.Affects t.head
    · have hnew : key = r.newName := by simpa [hkey, haffects] using h
      have : t.path ∈ r.affectedPaths d := r.mem_affectedPaths.mpr ⟨t, ht, haffects, rfl⟩
      rw [← hpath] at this
      exact absurd (hnew ▸ hmem) (hclash.not_mem this)
    · have hsame : key = t.head.responseKey := by simpa [hkey, haffects] using h
      exact ⟨hsame, fun hmem => absurd hmem hkey⟩

/-- Where no key clashes, a path that the rule takes to the path of a field after the renaming is
the path of that field before it, and the fields on the way are separated. -/
theorem eq_path_of_pathAfter_eq {d : Document} (hclash : r.Unclashing d) {t : Trail}
    (ht : t ∈ d.allTrails) {q : List String} (hq : d.Reaches q)
    (h : r.pathAfter d q = (t.mapFields r.renameField).path) :
    q = t.path ∧ r.Separates d t.fields := by
  obtain ⟨o, ho, ht⟩ := List.mem_flatMap.mp ht
  rw [path_mapFields] at h
  rw [Trail.path]
  refine Document.trail_induction (motive := fun fs => ∀ q, d.Reaches q →
    r.pathAfter d q = fs.map (fun f => if r.Affects f then r.newName else f.responseKey) →
    q = fs.map Field.responseKey ∧ r.Separates d fs)
    (fun q _ h => ?_) (fun u hu ih q hq h => ?_) t ht q hq h
  · obtain rfl | ⟨q, key, rfl⟩ := List.eq_nil_or_concat' q
    · exact ⟨rfl, r.separates_nil d⟩
    · rw [pathAfter_concat] at h
      exact absurd h (by simp)
  · obtain rfl | ⟨q, key, rfl⟩ := List.eq_nil_or_concat' q
    · exact absurd h (by simp [Trail.fields])
    rw [pathAfter_concat, Trail.fields, List.map_append, List.map_singleton,
      List.append_singleton_inj] at h
    have hmem : q ++ [key] ∈ d.responsePaths := hq.resolve_left (by simp)
    obtain ⟨rfl, hseparates⟩ := ih q (Document.reaches_of_concat hmem) h.1
    obtain ⟨rfl, haffects⟩ := r.eq_responseKey_of_translated_eq hclash
      (List.mem_flatMap.mpr ⟨o, ho, hu⟩) hmem h.2
    rw [Trail.fields, separates_concat, List.map_append, List.map_singleton]
    exact ⟨rfl, hseparates, haffects⟩

/-! ### Recorded paths and paths in the renamed document -/

/-- Two sets of paths agree once each affected field that is not traceable is made up for by
others, on both sides. -/
theorem mem_recordedPaths_iff_of_made_up {d : Document}
    (h : ∀ c ∈ r.counterparts d, r.Affects c.1.head → ¬ r.Traceable d c.1 →
      c.2.path ∈ r.recordedPaths d ∧ r.pathAfter d c.1.path ∈ r.renamedPaths d) (p : List String) :
    p ∈ r.recordedPaths d ↔ p ∈ r.renamedPaths d := by
  rw [counterparts_eq_map] at h
  constructor
  · intro hp
    obtain ⟨q, hq, rfl⟩ := r.mem_recordedPaths.mp hp
    obtain ⟨t, ht, haffects, rfl⟩ := r.mem_affectedPaths.mp hq
    by_cases htrace : r.Traceable d t
    · rw [(r.pathAfter_eq_iff ht).mpr htrace]
      exact r.mem_renamedPaths.mpr ⟨t, ht, haffects, rfl⟩
    · exact (h _ (List.mem_map_of_mem ht) haffects htrace).2
  · intro hp
    obtain ⟨t, ht, haffects, rfl⟩ := r.mem_renamedPaths.mp hp
    by_cases htrace : r.Traceable d t
    · rw [← (r.pathAfter_eq_iff ht).mpr htrace]
      exact r.mem_recordedPaths.mpr ⟨_, r.mem_affectedPaths.mpr ⟨t, ht, haffects, rfl⟩, rfl⟩
    · exact (h _ (List.mem_map_of_mem ht) haffects htrace).1

/-- **Recorded paths are exact for traceable fields.** The path recorded for an affected field is
its path in the renamed document exactly if the field is traceable. All recorded paths together are
the paths of the affected fields in the renamed document exactly if each field that is not
traceable is made up for by others, on both sides; and where no key clashes, exactly if every
affected field is traceable. -/
theorem recordedPaths_exact (d : Document) :
    (∀ c ∈ r.counterparts d, r.Affects c.1.head →
      (r.pathAfter d c.1.path = c.2.path ↔ r.Traceable d c.1)) ∧
    ((∀ p, p ∈ r.recordedPaths d ↔ p ∈ r.renamedPaths d) ↔
      ∀ c ∈ r.counterparts d, r.Affects c.1.head → ¬ r.Traceable d c.1 →
        c.2.path ∈ r.recordedPaths d ∧ r.pathAfter d c.1.path ∈ r.renamedPaths d) ∧
    (r.Unclashing d → ((∀ p, p ∈ r.recordedPaths d ↔ p ∈ r.renamedPaths d) ↔
      ∀ c ∈ r.counterparts d, r.Affects c.1.head → r.Traceable d c.1)) := by
  refine ⟨?_, ⟨?_, r.mem_recordedPaths_iff_of_made_up⟩, fun hclash => ⟨?_, ?_⟩⟩
  · rw [counterparts_eq_map]
    intro c hc haffects
    obtain ⟨t, ht, rfl⟩ := List.mem_map.mp hc
    exact r.pathAfter_eq_iff ht
  · rw [counterparts_eq_map]
    intro h c hc haffects _
    obtain ⟨t, ht, rfl⟩ := List.mem_map.mp hc
    have hpath : t.path ∈ r.affectedPaths d := r.mem_affectedPaths.mpr ⟨t, ht, haffects, rfl⟩
    exact ⟨(h _).mpr (r.mem_renamedPaths.mpr ⟨t, ht, haffects, rfl⟩),
      (h _).mp (r.mem_recordedPaths.mpr ⟨_, hpath, rfl⟩)⟩
  · rw [counterparts_eq_map]
    intro h c hc haffects
    obtain ⟨t, ht, rfl⟩ := List.mem_map.mp hc
    obtain ⟨q, hq, hafter⟩ :=
      r.mem_recordedPaths.mp ((h _).mpr (r.mem_renamedPaths.mpr ⟨t, ht, haffects, rfl⟩))
    exact .inr (r.eq_path_of_pathAfter_eq hclash ht
      (.inr (r.mem_responsePaths_of_affected hq)) hafter).2
  · intro h
    exact r.mem_recordedPaths_iff_of_made_up fun c hc haffects htrace =>
      absurd (h c hc haffects) htrace

/-- `{ node { ... on A { things { id } } ... on B { things: other { things } } } }`: two fields
share a key in responses, and only one of them is renamed. -/
def sharedKey : Document :=
  ⟨[.operation ⟨none, [.field ⟨none, "node", [], []⟩
    [.inlineFragment (some "A") []
        [.field ⟨none, "things", [], []⟩ [.field ⟨none, "id", [], []⟩ []]],
      .inlineFragment (some "B") []
        [.field ⟨some "things", "other", [], []⟩ [.field ⟨none, "things", [], []⟩ []]]]]⟩]⟩

/-- **Recorded paths may miss a renamed field.** Beneath a field that shares its key with an
affected one, the key on the way is translated although it stays. -/
theorem recordedPaths_inexact :
    ¬ ∀ (r : FieldRename) (d : Document), d.operations.length = 1 →
      ∀ p, p ∈ r.recordedPaths d ↔ p ∈ r.renamedPaths d := by
  intro h
  have hrecorded : (⟨"things", "items"⟩ : FieldRename).recordedPaths sharedKey =
      [["node", "items"], ["node", "items", "items"]] := by
    rw [recordedPaths, affectedPaths_eq_map]
    cbv
  have hrenamed : (⟨"things", "items"⟩ : FieldRename).renamedPaths sharedKey =
      [["node", "items"], ["node", "things", "items"]] := by
    rw [renamedPaths_eq_map]
    cbv
  have hmem := (h ⟨"things", "items"⟩ sharedKey rfl ["node", "things", "items"]).mpr
    (by simp [hrenamed])
  rw [hrecorded] at hmem
  exact absurd hmem (by decide)

end FieldRename

end SchemaBridge
