import Mathlib.Logic.Basic
import SchemaBridge.Graphql.Edit
import SchemaBridge.Proofs.Graphql.Trail

/-!
# Documents with their fields changed one by one

Many edits change what is said about single fields, and leave the tree of selections as it is.

* `Document.mapFields`: the document with a change made to every field;
* `Document.editFields_eq_mapFields`: a visitor that makes such a change maps the fields;
* `Document.trails_mapFields`: the trails afterwards are the trails before, field by field;
* `Document.responsePaths_mapFields`: response paths stay if the keys of all fields do.
-/

namespace SchemaBridge.Graphql

/-! ### Mapping fields -/

/-- The selections with a change made to every field. -/
def mapSelections (f : Field → Field) : List Selection → List Selection
  | [] => []
  | .field head selections :: rest =>
    .field (f head) (mapSelections f selections) :: mapSelections f rest
  | .inlineFragment condition? directives selections :: rest =>
    .inlineFragment condition? directives (mapSelections f selections) :: mapSelections f rest
  | .spread fragment directives :: rest => .spread fragment directives :: mapSelections f rest

/-- Two changes made one after the other are one change. -/
theorem mapSelections_mapSelections (g f : Field → Field) (selections : List Selection) :
    mapSelections g (mapSelections f selections) = mapSelections (g ∘ f) selections := by
  induction selections using mapSelections.induct with
  | case1 => rw [mapSelections, mapSelections, mapSelections]
  | case2 head selections rest ihBeneath ihRest =>
      rw [mapSelections, mapSelections, mapSelections, ihBeneath, ihRest, Function.comp_apply]
  | case3 condition? ds selections rest ihBeneath ihRest =>
      rw [mapSelections, mapSelections, mapSelections, ihBeneath, ihRest]
  | case4 fragment ds rest ihRest => rw [mapSelections, mapSelections, mapSelections, ihRest]

/-- The operation with a change made to every field. -/
def Operation.mapFields (f : Field → Field) (o : Operation) : Operation :=
  { o with selections := mapSelections f o.selections }

/-- The fragment with a change made to every field. -/
def Fragment.mapFields (f : Field → Field) (g : Fragment) : Fragment :=
  { g with selections := mapSelections f g.selections }

/-- The definition with a change made to every field. -/
def Definition.mapFields (f : Field → Field) : Definition → Definition
  | .operation o => .operation (o.mapFields f)
  | .fragment g => .fragment (g.mapFields f)

/-- The document with a change made to every field. -/
def Document.mapFields (f : Field → Field) (d : Document) : Document :=
  ⟨d.definitions.map (Definition.mapFields f)⟩

/-- The trail with a change made to every field. -/
def Trail.mapFields (f : Field → Field) (t : Trail) : Trail :=
  ⟨t.above.map f, f t.head, mapSelections f t.selections⟩

/-- The change made to the fields of one name only. -/
def onlyNamed (name : String) (f : Field → Field) (head : Field) : Field :=
  if head.name = name then f head else head

/-! ### Visitors that map fields -/

variable {σ : Type}

/-- The visitor makes a change to a field and keeps the selections beneath it, whatever state it
is in. -/
def Visitor.Maps (visit : Visitor σ) (f : Field → Field) : Prop :=
  ∀ head selections s, ((visit head selections).run s).1 = ⟨f head, false⟩

/-- The value of a sequence is that of the second part, run where the first part ends. -/
theorem run_bind_fst {α β : Type} (x : StateM σ α) (g : α → StateM σ β) (s : σ) :
    ((x >>= g).run s).1 = ((g (x.run s).1).run (x.run s).2).1 := rfl

/-- The state of a sequence is that of the second part, run where the first part ends. -/
theorem run_bind_snd {α β : Type} (x : StateM σ α) (g : α → StateM σ β) (s : σ) :
    ((x >>= g).run s).2 = ((g (x.run s).1).run (x.run s).2).2 := rfl

/-- A visitor that maps fields, restricted to one name, maps the fields of that name. -/
theorem Visitor.Maps.ofName {visit : Visitor σ} {f : Field → Field} (h : visit.Maps f)
    (name : String) : (visit.ofName name).Maps (onlyNamed name f) := by
  intro head selections s
  rw [Visitor.ofName, onlyNamed]
  by_cases hname : head.name = name
  · rw [if_pos hname, if_pos hname]
    exact h head selections s
  · rw [if_neg hname, if_neg hname]
    rfl

/-- Selections visited by a visitor that maps fields. -/
theorem editSelections_eq_mapSelections {visit : Visitor σ} {f : Field → Field}
    (h : visit.Maps f) (name : String) (selections : List Selection) (s : σ) :
    ((editSelections name visit selections).run s).1 =
      mapSelections (onlyNamed name f) selections := by
  induction selections using editSelections.induct generalizing s with
  | case1 => rw [editSelections, mapSelections]; rfl
  | case2 head selections rest ihBeneath ihRest =>
      rw [editSelections, mapSelections]
      simp only [run_bind_fst, h.ofName name head selections s, Edited.unlessCleared,
        Bool.false_eq_true, if_false, ihBeneath, ihRest]
      rfl
  | case3 condition? ds selections rest ihBeneath ihRest =>
      rw [editSelections, mapSelections]
      simp only [run_bind_fst, ihBeneath, ihRest]
      rfl
  | case4 fragment ds rest ihRest =>
      rw [editSelections, mapSelections]
      simp only [run_bind_fst, ihRest]
      rfl

/-- What an edit of operations makes of a definition. -/
def Definition.mapOperation (f : Field → Field) : Definition → Definition
  | .operation o => .operation (o.mapFields f)
  | .fragment g => .fragment g

/-- What an edit of fragments makes of a definition. -/
def Definition.mapFragment (f : Field → Field) : Definition → Definition
  | .operation o => .operation o
  | .fragment g => .fragment (g.mapFields f)

/-- Operations visited by a visitor that maps fields. -/
theorem editOperations_eq_map {visit : Visitor σ} {f : Field → Field} (h : visit.Maps f)
    (name : String) (definitions : List Definition) (s : σ) :
    ((editOperations name visit definitions).run s).1 =
      definitions.map (Definition.mapOperation (onlyNamed name f)) := by
  induction definitions generalizing s with
  | nil => rfl
  | cons definition rest ih =>
      cases definition with
      | operation o =>
          rw [editOperations]
          simp only [run_bind_fst, editSelections_eq_mapSelections h, ih]
          rfl
      | fragment g =>
          rw [editOperations]
          simp only [run_bind_fst, ih]
          rfl

/-- Fragments visited by a visitor that maps fields. -/
theorem editFragments_eq_map {visit : Visitor σ} {f : Field → Field} (h : visit.Maps f)
    (name : String) (definitions : List Definition) (s : σ) :
    ((editFragments name visit definitions).run s).1 =
      definitions.map (Definition.mapFragment (onlyNamed name f)) := by
  induction definitions generalizing s with
  | nil => rfl
  | cons definition rest ih =>
      cases definition with
      | operation o =>
          rw [editFragments]
          simp only [run_bind_fst, ih]
          rfl
      | fragment g =>
          rw [editFragments]
          simp only [run_bind_fst, editSelections_eq_mapSelections h, ih]
          rfl

/-- A document visited by a visitor that maps fields. -/
theorem Document.editFields_eq_mapFields {visit : Visitor σ} {f : Field → Field}
    (h : visit.Maps f) (d : Document) (name : String) (s : σ) :
    ((d.editFields name visit).run s).1 = d.mapFields (onlyNamed name f) := by
  rw [editFields, mapFields]
  simp only [run_bind_fst, editOperations_eq_map h, editFragments_eq_map h]
  refine congrArg Document.mk ?_
  rw [List.map_map]
  refine List.map_congr_left fun definition _ => ?_
  cases definition <;> rfl

/-! ### Trails after a change -/

variable (f : Field → Field)

/-- The fields of a trail after a change. -/
@[simp] theorem Trail.fields_mapFields (t : Trail) : (t.mapFields f).fields = t.fields.map f := by
  simp [fields, mapFields]

/-- The operations of a document after a change. -/
@[simp] theorem Document.operations_mapFields (d : Document) :
    (d.mapFields f).operations = d.operations.map (Operation.mapFields f) := by
  obtain ⟨definitions⟩ := d
  simp only [operations, mapFields]
  induction definitions with
  | nil => rfl
  | cons definition rest ih => cases definition <;> simpa [Definition.mapFields] using ih

/-- The fragments of a document after a change. -/
@[simp] theorem Document.fragments_mapFields (d : Document) :
    (d.mapFields f).fragments = d.fragments.map (Fragment.mapFields f) := by
  obtain ⟨definitions⟩ := d
  simp only [fragments, mapFields]
  induction definitions with
  | nil => rfl
  | cons definition rest ih => cases definition <;> simpa [Definition.mapFields] using ih

/-- The fragment that a name refers to after a change. -/
theorem Fragment.named?_map (name : String) (fs : List Fragment) :
    Fragment.named? name (fs.map (Fragment.mapFields f)) =
      (Fragment.named? name fs).map (Fragment.mapFields f) := by
  induction fs with
  | nil => rfl
  | cons g rest ih =>
      rw [List.map_cons, named?, named?, ih]
      cases named? name rest with
      | some later => rfl
      | none =>
          by_cases hname : g.name = name
          · simp [mapFields, hname]
          · simp [mapFields, hname]

/-- The fragments of other names after a change. -/
theorem Fragment.without_map (name : String) (fs : List Fragment) :
    Fragment.without name (fs.map (Fragment.mapFields f)) =
      (Fragment.without name fs).map (Fragment.mapFields f) := by
  induction fs with
  | nil => rfl
  | cons g rest ih =>
      rw [List.map_cons, without, without, ih]
      by_cases hname : g.name = name
      · simp [mapFields, hname]
      · simp [mapFields, hname]

/-- The trails after a change are the trails before it, with the change made to their fields. -/
theorem Trail.track_mapFields (available : List Fragment) (above : List Field)
    (selections : List Selection) :
    tracker.track (available.map (Fragment.mapFields f)) (above.map f)
        (mapSelections f selections) =
      (tracker.track available above selections).map (Trail.mapFields f) := by
  induction available, above, selections using Tracker.track.induct tracker with
  | case1 available above => simp [Tracker.track, mapSelections]
  | case2 available above head selections rest ihBeneath ihRest =>
      rw [tracker_beneath, List.map_append, List.map_singleton] at ihBeneath
      rw [mapSelections, Tracker.track, Tracker.track, List.map_cons, List.map_append]
      exact congrArg (_ :: ·) (congrArg₂ (· ++ ·) ihBeneath ihRest)
  | case3 available above condition? ds selections rest ihInside ihRest =>
      rw [mapSelections, Tracker.track, Tracker.track, List.map_append]
      exact congrArg₂ (· ++ ·) ihInside ihRest
  | case4 available above name ds rest found ihRest =>
      have found' : Fragment.named? name (available.map (Fragment.mapFields f)) = none := by
        rw [Fragment.named?_map, found, Option.map_none]
      rw [mapSelections, tracker.track_spread_of_none found', tracker.track_spread_of_none found]
      exact ihRest
  | case5 available above name ds rest g found _ ihFragment ihRest =>
      have found' : Fragment.named? name (available.map (Fragment.mapFields f)) =
          some (g.mapFields f) := by
        rw [Fragment.named?_map, found, Option.map_some]
      rw [mapSelections, tracker.track_spread_of_some found', tracker.track_spread_of_some found,
        Fragment.without_map, List.map_append]
      exact congrArg₂ (· ++ ·) ihFragment ihRest

/-- The trails of an operation after a change. -/
theorem Document.trails_mapFields (d : Document) (o : Operation) :
    (d.mapFields f).trails (o.mapFields f) = (d.trails o).map (Trail.mapFields f) := by
  rw [trails, fragments_mapFields]
  exact Trail.track_mapFields f d.fragments [] o.selections

/-- The trails of a document after a change. -/
theorem Document.allTrails_mapFields (d : Document) :
    (d.mapFields f).allTrails = d.allTrails.map (Trail.mapFields f) := by
  rw [allTrails, allTrails, operations_mapFields, List.flatMap_map, List.map_flatMap]
  simp only [trails_mapFields]

/-- A change that keeps the keys of all fields keeps the response paths. -/
theorem Document.responsePaths_mapFields {f : Field → Field}
    (h : ∀ head, (f head).responseKey = head.responseKey) (d : Document) :
    (d.mapFields f).responsePaths = d.responsePaths := by
  rw [responsePaths_eq_map, allTrails_mapFields, responsePaths_eq_map, List.map_map]
  refine List.map_congr_left fun t _ => ?_
  rw [Function.comp_apply, Trail.path, Trail.path, Trail.fields_mapFields, List.map_map]
  exact List.map_congr_left fun head _ => h head

end SchemaBridge.Graphql
