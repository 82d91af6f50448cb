import SchemaBridge.Proofs.Graphql.Reorder
import SchemaBridge.Proofs.Graphql.WellNamed

/-!
# What holds of every field

A change of fields shows only where there is a field that it changes.

* `Document.EveryField`: all fields of a document have a property, those of its operations and those
  of its fragments, whether an operation leads to them or not;
* `Document.nodesOf_mapFields`: a change of fields leaves every field in its place;
* `Document.everyField_iff`: all fields are those at all places, so that what holds of every field
  after a change is told by the fields before it (`Document.everyField_mapFields`);
* `Document.mapFields_congr`: two changes are the same for a document if they agree on its fields;
* `Document.EveryField.head`: what holds of every field holds of those met on a walk;
* `Document.Lacks`: no field has a name. Nothing is found under it then
  (`Document.Lacks.findFields_eq_nil`), and a change of the fields of that name changes nothing
  (`Document.Lacks.mapFields_onlyNamed`).
-/

namespace SchemaBridge.Graphql

/-- If the selection is a field, it has the property. -/
def Selection.IfField (p : Field → Prop) : Selection → Prop
  | .field head _ => p head
  | .inlineFragment _ _ _ => True
  | .spread _ _ => True

/-! ### Changes that agree -/

variable {f g : Field → Field}

/-- Changes that agree on every field of a tree make the same of it. -/
theorem mapSelections_congr {selections : List Selection}
    (h : EverySelection (Selection.IfField fun head => f head = g head) selections) :
    mapSelections f selections = mapSelections g selections := by
  induction selections using mapSelections.induct with
  | case1 => rw [mapSelections, mapSelections]
  | case2 head selections rest ihBeneath ihRest =>
      rw [EverySelection] at h
      obtain ⟨hhead, hbeneath, hrest⟩ := h
      have hhead : f head = g head := hhead
      rw [mapSelections, mapSelections, hhead, ihBeneath hbeneath, ihRest hrest]
  | case3 condition? ds selections rest ihBeneath ihRest =>
      rw [EverySelection] at h
      obtain ⟨-, hbeneath, hrest⟩ := h
      rw [mapSelections, mapSelections, ihBeneath hbeneath, ihRest hrest]
  | case4 fragment ds rest ihRest =>
      rw [EverySelection] at h
      obtain ⟨-, hrest⟩ := h
      rw [mapSelections, mapSelections, ihRest hrest]

/-- The change that keeps every field keeps the tree. -/
theorem mapSelections_id (selections : List Selection) :
    mapSelections id selections = selections := by
  induction selections using mapSelections.induct with
  | case1 => rw [mapSelections]
  | case2 head selections rest ihBeneath ihRest => rw [mapSelections, ihBeneath, ihRest, id_eq]
  | case3 condition? ds selections rest ihBeneath ihRest =>
      rw [mapSelections, ihBeneath, ihRest]
  | case4 fragment ds rest ihRest => rw [mapSelections, ihRest]

namespace Document

variable {d : Document} {p : Field → Prop}

/-- Every field of a document has a property, wherever it stands. -/
def EveryField (p : Field → Prop) (d : Document) : Prop :=
  ∀ definition ∈ d.definitions, EverySelection (Selection.IfField p) definition.selections

/-- A property of every field implies what it implies of each. -/
theorem EveryField.imp {q : Field → Prop} (h : ∀ head, p head → q head) (hd : d.EveryField p) :
    d.EveryField q := by
  intro definition hdefinition
  refine (hd definition hdefinition).imp fun s hs => ?_
  cases s with
  | field head _ => exact h head hs
  | inlineFragment _ _ _ => trivial
  | spread _ _ => trivial

/-- Changes that agree on every field of a document make the same of it. -/
theorem mapFields_congr (h : d.EveryField fun head => f head = g head) :
    d.mapFields f = d.mapFields g := by
  refine congrArg Document.mk (List.map_congr_left fun definition hdefinition => ?_)
  have hselections := mapSelections_congr (h definition hdefinition)
  cases definition with
  | operation o =>
      exact congrArg (fun s => Definition.operation { o with selections := s }) hselections
  | fragment k =>
      exact congrArg (fun s => Definition.fragment { k with selections := s }) hselections

/-- A change that keeps every field of a document keeps the document. -/
theorem mapFields_eq_self (h : d.EveryField fun head => f head = head) : d.mapFields f = d := by
  obtain ⟨definitions⟩ := d
  refine (mapFields_congr (g := id) h).trans (congrArg Document.mk ?_)
  refine (List.map_congr_left fun definition _ => ?_).trans (List.map_id definitions)
  cases definition with
  | operation o => simp only [Definition.mapFields, Operation.mapFields, mapSelections_id, id_eq]
  | fragment k => simp only [Definition.mapFields, Fragment.mapFields, mapSelections_id, id_eq]

/-- Two changes made one after the other are one change. -/
theorem mapFields_mapFields (g f : Field → Field) (d : Document) :
    (d.mapFields f).mapFields g = d.mapFields (g ∘ f) := by
  refine congrArg Document.mk ?_
  rw [mapFields, List.map_map]
  refine List.map_congr_left fun definition _ => ?_
  cases definition with
  | operation o =>
      simp only [Function.comp_apply, Definition.mapFields, Operation.mapFields,
        mapSelections_mapSelections]
  | fragment k =>
      simp only [Function.comp_apply, Definition.mapFields, Fragment.mapFields,
        mapSelections_mapSelections]

end Document

/-! ### Fields in their places -/

/-- The node with a change made to its field, and to the fields beneath it. -/
def Node.mapFields (f : Field → Field) (x : Node) : Node :=
  ⟨x.place, f x.head, mapSelections f x.selections⟩

/-- A change of fields leaves every field of a tree in its place. -/
theorem nodes_mapSelections (f : Field → Field) (p : Place) (selections : List Selection) :
    nodes p (mapSelections f selections) = (nodes p selections).map (Node.mapFields f) := by
  induction p, selections using nodes.induct with
  | case1 p => rw [mapSelections, nodes, List.map_nil]
  | case2 p head selections rest ihBeneath ihRest =>
      rw [mapSelections, nodes, nodes, ihBeneath, ihRest, List.map_cons, List.map_append]
      rfl
  | case3 p condition? ds selections rest ihBeneath ihRest =>
      rw [mapSelections, nodes, nodes, ihBeneath, ihRest, List.map_append]
  | case4 p fragment ds rest ihRest => rw [mapSelections, nodes, nodes, ihRest]

/-- The fields of a tree are those at its places. -/
theorem everySelection_iff {p : Field → Prop} {q : Place} {selections : List Selection} :
    EverySelection (Selection.IfField p) selections ↔ ∀ x ∈ nodes q selections, p x.head := by
  induction q, selections using nodes.induct with
  | case1 q => simp [EverySelection, nodes]
  | case2 q head selections rest ihBeneath ihRest =>
      rw [EverySelection, nodes, ihBeneath, ihRest, List.forall_mem_cons, List.forall_mem_append]
      rfl
  | case3 q condition? ds selections rest ihBeneath ihRest =>
      rw [EverySelection, nodes, ihBeneath, ihRest, List.forall_mem_append]
      exact and_iff_right trivial
  | case4 q fragment ds rest ihRest =>
      rw [EverySelection, nodes, ihRest]
      exact and_iff_right trivial

namespace Document

variable {d : Document} {p : Field → Prop}

/-- A change of fields leaves every field of a definition in its place. -/
theorem nodesOf_mapFields (f : Field → Field) (d : Document) (k : Nat) :
    (d.mapFields f).nodesOf k = (d.nodesOf k).map (Node.mapFields f) := by
  have hget : (d.mapFields f).definitions[k]? = d.definitions[k]?.map (Definition.mapFields f) :=
    List.getElem?_map
  rw [nodesOf, nodesOf, hget]
  cases d.definitions[k]? with
  | none => rfl
  | some definition => cases definition <;> exact nodes_mapSelections f _ _

/-- The fields of a document are those at its places. -/
theorem everyField_iff : d.EveryField p ↔ ∀ k, ∀ x ∈ d.nodesOf k, p x.head := by
  constructor
  · intro h k x hx
    obtain ⟨definition, hk, hx⟩ := mem_nodesOf.mp hx
    exact everySelection_iff.mp (h definition (List.mem_of_getElem? hk)) x hx
  · intro h definition hdefinition
    obtain ⟨k, hk⟩ := List.mem_iff_getElem?.mp hdefinition
    exact everySelection_iff.mpr fun x hx => h k x (mem_nodesOf.mpr ⟨definition, hk, hx⟩)

/-- What holds of every field after a change is told by the fields before it. -/
theorem everyField_mapFields {f : Field → Field} :
    (d.mapFields f).EveryField p ↔ d.EveryField fun head => p (f head) := by
  rw [everyField_iff, everyField_iff]
  simp only [nodesOf_mapFields, List.forall_mem_map]
  rfl

/-- What holds of all fields holds of every field of a document. -/
theorem everyField_of_forall (h : ∀ head, p head) : d.EveryField p :=
  everyField_iff.mpr fun _ x _ => h x.head

end Document

/-! ### Fields met on a walk -/

/-- A property of every field of some selections, and of the fragments that they may spread, is one
of every field that is met on a walk through them. -/
theorem forall_mem_trails {p : Field → Prop} {available : List Fragment} {above : List Field}
    {selections : List Selection}
    (havailable : ∀ name k, Fragment.named? name available = some k →
      EverySelection (Selection.IfField p) k.selections)
    (h : EverySelection (Selection.IfField p) selections) :
    ∀ t ∈ Trail.tracker.track available above selections, p t.head := by
  intro t ht
  induction available, above, selections using Tracker.track.induct Trail.tracker with
  | case1 available above => simp [Tracker.track] at ht
  | case2 available above head selections rest ihBeneath ihRest =>
      rw [EverySelection] at h
      obtain ⟨hhead, hbeneath, hrest⟩ := h
      rw [Tracker.track] at ht
      rcases List.mem_cons.mp ht with rfl | ht
      · exact hhead
      rcases List.mem_append.mp ht with ht | ht
      · exact ihBeneath havailable hbeneath ht
      · exact ihRest havailable hrest ht
  | case3 available above condition? ds selections rest ihBeneath ihRest =>
      rw [EverySelection] at h
      obtain ⟨-, hbeneath, hrest⟩ := h
      rw [Tracker.track] at ht
      rcases List.mem_append.mp ht with ht | ht
      · exact ihBeneath havailable hbeneath ht
      · exact ihRest havailable hrest ht
  | case4 available above name ds rest found ihRest =>
      rw [EverySelection] at h
      rw [Trail.tracker.track_spread_of_none found] at ht
      exact ihRest havailable h.2 ht
  | case5 available above name ds rest k found _ ihFragment ihRest =>
      rw [EverySelection] at h
      rw [Trail.tracker.track_spread_of_some found] at ht
      rcases List.mem_append.mp ht with ht | ht
      · refine ihFragment (fun other j hj => ?_) (havailable name k found) ht
        exact havailable other j (Fragment.named?_of_without hj)
      · exact ihRest havailable h.2 ht

namespace Document

variable {d : Document} {p : Field → Prop}

/-- What holds of every field holds of those met on a walk. -/
theorem EveryField.head (h : d.EveryField p) {t : Trail} (ht : t ∈ d.allTrails) : p t.head := by
  obtain ⟨o, ho, ht⟩ := List.mem_flatMap.mp ht
  obtain ⟨definition, hdefinition, heq⟩ := List.mem_filterMap.mp ho
  obtain rfl : definition = .operation o := by
    cases definition with
    | operation o' => exact congrArg _ (Option.some.inj heq)
    | fragment k => exact absurd heq (by simp)
  refine forall_mem_trails (fun name k hk => ?_) (h _ hdefinition) t ht
  obtain ⟨definition, hdefinition, heq⟩ := List.mem_filterMap.mp (Fragment.mem_of_named? hk).1
  obtain rfl : definition = .fragment k := by
    cases definition with
    | operation o' => exact absurd heq (by simp)
    | fragment k' => exact congrArg _ (Option.some.inj heq)
  exact h _ hdefinition

/-! ### Names that no field has -/

/-- No field of the document has the name, neither in an operation nor in a fragment. -/
def Lacks (d : Document) (name : String) : Prop :=
  d.EveryField fun head => head.name ≠ name

/-- Nothing is found under a name that no field has. -/
theorem Lacks.findFields_eq_nil {name : String} (h : d.Lacks name) {o : Operation}
    (ho : o ∈ d.operations) : d.findFields o name = [] := by
  refine List.eq_nil_iff_forall_not_mem.mpr fun x hx => ?_
  obtain ⟨t, ht, hname, -⟩ := mem_findFields.mp hx
  exact EveryField.head h (List.mem_flatMap.mpr ⟨o, ho, ht⟩) hname

/-- A change of the fields of a name that no field has changes nothing. -/
theorem Lacks.mapFields_onlyNamed {name : String} (h : d.Lacks name) (f : Field → Field) :
    d.mapFields (onlyNamed name f) = d :=
  mapFields_eq_self (EveryField.imp (fun _ hname => if_neg hname) h)

end Document

end SchemaBridge.Graphql
