import SchemaBridge.Proofs.Graphql.Place

/-!
# The visits of an edit

An edit comes to the fields of a name one after the other. What a visit makes of a field has no say
in which fields are visited, except that the selections beneath a field may be taken away with it.

* `Visitor.Tours`: the fields that are visited among some: those that no visit takes away;
* `editSelectionsAt`, `Document.editAt`: selections and documents with what visits make of fields in
  the places of these fields, and nothing else changed;
* `Visitor.Edits`: a part of an edit, as the fields that it comes to and the value that it has.
  Parts follow each other (`Visitor.Edits.bind`);
* `Document.exists_tour_editFields`: the visits of an edit, and the document after them;
* `Document.visits_editFields`: without fields taken away all fields of the name are visited.
-/

namespace SchemaBridge.Graphql

/-! ### Visits -/

variable {σ : Type}

/-- The visitor never takes away the selections beneath a field. -/
def Visitor.Keeps (visit : Visitor σ) : Prop :=
  ∀ head selections s, ((visit head selections).run s).1.clears = false

/-- The state that a visitor is in after its visit to a field. -/
def Visitor.stateAfter (visit : Visitor σ) (s : σ) (x : Node) : σ :=
  ((visit x.head x.selections).run s).2

/-- On the way from one state to another a visitor visits some of the given fields in their order,
and all of them if it takes none away. -/
def Visitor.Visits (visit : Visitor σ) (xs : List Node) (s s' : σ) : Prop :=
  ∃ ys, ys.Sublist xs ∧ (visit.Keeps → ys = xs) ∧ s' = ys.foldl visit.stateAfter s

/-- A visit to a field: the field as it stands in the document, and what the visitor makes of it. -/
structure Visit where
  node : Node
  edited : Edited

/-- The visits to some fields one after the other. -/
def Visitor.visitsTo (visit : Visitor σ) : σ → List Node → List Visit
  | _, [] => []
  | s, x :: rest =>
    ⟨x, ((visit x.head x.selections).run s).1⟩ :: visit.visitsTo (visit.stateAfter s x) rest

/-- No visit takes the field away: none to a field above it empties its selections. -/
def Remains (visits : List Visit) (x : Node) : Prop :=
  ∀ v ∈ visits, v.edited.clears = true → ¬ x.place.Beneath v.node.place

instance (visits : List Visit) (x : Node) : Decidable (Remains visits x) :=
  inferInstanceAs (Decidable (∀ v ∈ visits, _))

/-- A visitor on its way through some fields visits these: those that none of the visits takes
away, in their order. -/
def Visitor.Tours (visit : Visitor σ) (s : σ) (xs ys : List Node) : Prop :=
  ys = xs.filter fun x => Remains (visit.visitsTo s ys) x

section Tours

variable {visit : Visitor σ} {s : σ} {xs ys xs' ys' : List Node}

/-- The fields in two parts are visited one part after the other. -/
theorem visitsTo_append (visit : Visitor σ) (s : σ) (xs ys : List Node) :
    visit.visitsTo s (xs ++ ys) =
      visit.visitsTo s xs ++ visit.visitsTo (xs.foldl visit.stateAfter s) ys := by
  induction xs generalizing s with
  | nil => rfl
  | cons x rest ih => exact congrArg _ (ih _)

/-- The visits are to the fields. -/
theorem node_mem_of_mem_visitsTo {v : Visit} (h : v ∈ visit.visitsTo s ys) : v.node ∈ ys := by
  induction ys generalizing s with
  | nil => exact absurd h List.not_mem_nil
  | cons y rest ih =>
      rcases List.mem_cons.mp h with rfl | h
      · exact List.mem_cons_self
      · exact List.mem_cons_of_mem _ (ih h)

/-- Only some of the fields are visited. -/
theorem Visitor.Tours.sublist (h : visit.Tours s xs ys) : ys.Sublist xs := by
  rw [h]
  exact List.filter_sublist

/-- All fields are visited by a visitor that takes none away. -/
theorem Visitor.Tours.eq_of_keeps (h : visit.Tours s xs ys) (hkeeps : visit.Keeps) : ys = xs := by
  have hall : ∀ s ys, ∀ v ∈ visit.visitsTo s ys, v.edited.clears = false := by
    intro s ys
    induction ys generalizing s with
    | nil => simp [visitsTo]
    | cons y rest ih => exact List.forall_mem_cons.mpr ⟨hkeeps _ _ _, ih _⟩
  refine h.trans (List.filter_eq_self.mpr fun x _ => decide_eq_true fun v hv hclears => ?_)
  rw [hall s ys v hv] at hclears
  exact absurd hclears Bool.false_ne_true

/-- A field remains after two series of visits if it remains after each. -/
theorem remains_append {visits visits' : List Visit} {x : Node} :
    Remains (visits ++ visits') x ↔ Remains visits x ∧ Remains visits' x :=
  List.forall_mem_append

/-- Visits to fields that a field does not stand beneath do not take it away. -/
theorem remains_visitsTo {x : Node} (h : ∀ y ∈ ys, ¬ x.place.Beneath y.place) :
    Remains (visit.visitsTo s ys) x :=
  fun _ hv _ => h _ (node_mem_of_mem_visitsTo hv)

/-- Without fields nothing is visited. -/
theorem Visitor.Tours.nil (visit : Visitor σ) (s : σ) : visit.Tours s [] [] :=
  rfl

/-- Fields that are apart are visited one part after the other. -/
theorem Visitor.Tours.append (hxs : visit.Tours s xs xs')
    (hys : visit.Tours (xs'.foldl visit.stateAfter s) ys ys') (h : StandApart xs ys) :
    visit.Tours s (xs ++ ys) (xs' ++ ys') := by
  have hleft : ∀ x ∈ xs, ∀ y ∈ ys', ¬ x.place.Beneath y.place :=
    fun x hx y hy => (h x hx y (hys.sublist.subset hy)).2.1
  have hright : ∀ y ∈ ys, ∀ x ∈ xs', ¬ y.place.Beneath x.place :=
    fun y hy x hx => (h x (hxs.sublist.subset hx) y hy).2.2
  rw [Visitor.Tours, visitsTo_append, List.filter_append]
  refine congr (congrArg _ ?_) ?_
  · refine hxs.trans (List.filter_congr fun x hx => decide_eq_decide.mpr ?_)
    exact (remains_append.trans (and_iff_left (remains_visitsTo (hleft x hx)))).symm
  · refine hys.trans (List.filter_congr fun y hy => decide_eq_decide.mpr ?_)
    exact (remains_append.trans (and_iff_right (remains_visitsTo (hright y hy)))).symm

/-- A field that is kept is visited, and then those beneath it. -/
theorem Visitor.Tours.cons {x : Node}
    (hxs : visit.Tours (visit.stateAfter s x) xs ys)
    (hclears : ((visit x.head x.selections).run s).1.clears = false)
    (h : ∀ y ∈ xs, ¬ x.place.Beneath y.place) : visit.Tours s (x :: xs) (x :: ys) := by
  have hkept : ∀ visits y, Remains (⟨x, ((visit x.head x.selections).run s).1⟩ :: visits) y ↔
      Remains visits y := by
    intro visits y
    refine List.forall_mem_cons.trans (and_iff_right fun hclears' => ?_)
    exact absurd (hclears.symm.trans hclears') Bool.false_ne_true
  have hself : Remains (visit.visitsTo s (x :: ys)) x :=
    (hkept _ x).mpr (remains_visitsTo fun y hy => h y (hxs.sublist.subset hy))
  rw [Visitor.Tours, List.filter_cons, if_pos (decide_eq_true hself)]
  refine congrArg (x :: ·) (hxs.trans (List.filter_congr fun y _ => decide_eq_decide.mpr ?_))
  exact (hkept _ y).symm

/-- A field that is emptied is visited, and none of those beneath it. -/
theorem Visitor.Tours.cons_of_clears {x : Node}
    (hclears : ((visit x.head x.selections).run s).1.clears = true)
    (h : ∀ y ∈ xs, y.place.Beneath x.place) : visit.Tours s (x :: xs) [x] := by
  have hself : Remains (visit.visitsTo s [x]) x :=
    remains_visitsTo fun y hy hbeneath => by
      obtain rfl := List.mem_singleton.mp hy
      exact y.place.not_from_beneath (Place.beneath_iff.mp hbeneath)
  have hnone : ∀ y ∈ xs, ¬ Remains (visit.visitsTo s [x]) y :=
    fun y hy hremains => hremains _ List.mem_cons_self hclears (h y hy)
  rw [Visitor.Tours, List.filter_cons, if_pos (decide_eq_true hself)]
  refine congrArg (x :: ·) (List.filter_eq_nil_iff.mpr fun y hy => ?_).symm
  exact fun hremains => hnone y hy (of_decide_eq_true hremains)

end Tours

/-! ### Edits at places -/

/-- What the visits make of the field at a place, if one of them is to it. -/
def editedAt? (visits : List Visit) (p : Place) : Option Edited :=
  (visits.find? fun v => v.node.place = p).map Visit.edited

/-- The field at a place with its edit, if there is one, and with the selections beneath it, unless
the edit takes them away. -/
def editFieldAt (edited? : Place → Option Edited) (p : Place) (head : Field)
    (selections : List Selection) : Selection :=
  let edited := (edited? p).getD ⟨head, false⟩
  .field edited.head (if edited.clears then [] else selections)

/-- The selections, of which the first stands at a place, with the fields at some places edited. All
other fields stay as they are. -/
def editSelectionsAt (edited? : Place → Option Edited) (p : Place) :
    List Selection → List Selection
  | [] => []
  | .field head selections :: rest =>
    editFieldAt edited? p head (editSelectionsAt edited? p.beneath selections) ::
      editSelectionsAt edited? p.next rest
  | .inlineFragment condition? directives selections :: rest =>
    .inlineFragment condition? directives (editSelectionsAt edited? p.beneath selections) ::
      editSelectionsAt edited? p.next rest
  | .spread fragment directives :: rest =>
    .spread fragment directives :: editSelectionsAt edited? p.next rest

/-- The definition with other selections. -/
def Definition.withSelections (selections : List Selection) : Definition → Definition
  | .operation o => .operation { o with selections }
  | .fragment f => .fragment { f with selections }

/-- Some of the definitions, of which the first has an index, with the fields at some places
edited. -/
def editDefinitionsAt (keep : Definition → Bool) (edited? : Place → Option Edited) :
    Nat → List Definition → List Definition
  | _, [] => []
  | k, definition :: rest =>
    (if keep definition then
      definition.withSelections (editSelectionsAt edited? (.root k) definition.selections)
    else definition) :: editDefinitionsAt keep edited? (k + 1) rest

/-- The document with the edits of some visits made to the fields at their places, and nothing else
changed. -/
def Document.editAt (d : Document) (visits : List Visit) : Document :=
  ⟨editDefinitionsAt (fun _ => true) (editedAt? visits) 0 d.definitions⟩

/-- The edits at the places of some fields are those that the visits make. -/
def EditsAs (edited? : Place → Option Edited) (visits : List Visit) (xs : List Node) : Prop :=
  ∀ x ∈ xs, edited? x.place = editedAt? visits x.place

/-- A place that is not visited is not edited. -/
theorem editedAt?_eq_none {visits : List Visit} {p : Place}
    (h : ∀ v ∈ visits, v.node.place ≠ p) : editedAt? visits p = none := by
  rw [editedAt?, List.find?_eq_none.mpr fun v hv => by simpa using h v hv]
  rfl

/-- The edits of two series of visits. -/
theorem editedAt?_append (visits visits' : List Visit) (p : Place) :
    editedAt? (visits ++ visits') p = (editedAt? visits p).or (editedAt? visits' p) := by
  rw [editedAt?, List.find?_append, Option.map_or]
  rfl

/-- A field that is not edited stays. -/
theorem editFieldAt_of_none {edited? : Place → Option Edited} {p : Place} (h : edited? p = none)
    (head : Field) (selections : List Selection) :
    editFieldAt edited? p head selections = .field head selections := by
  rw [editFieldAt, h]
  rfl

/-- A field that is edited. -/
theorem editFieldAt_of_some {edited? : Place → Option Edited} {p : Place} {edited : Edited}
    (h : edited? p = some edited) (head : Field) (selections : List Selection) :
    editFieldAt edited? p head selections =
      .field edited.head (if edited.clears then [] else selections) := by
  rw [editFieldAt, h]
  rfl

/-- The edit of the first visit, and those of the others. -/
theorem editedAt?_cons (v : Visit) (visits : List Visit) (p : Place) :
    editedAt? (v :: visits) p = if v.node.place = p then some v.edited else editedAt? visits p := by
  by_cases hp : v.node.place = p <;> simp [editedAt?, hp]

section EditsAs

variable {visit : Visitor σ} {s : σ} {xs ys xs' ys' : List Node} {edited? : Place → Option Edited}

/-- Edits at fields in two parts are made by the visits to each part. -/
theorem editsAs_append (h : StandApart xs ys) (hxs : xs'.Sublist xs) (hys : ys'.Sublist ys) :
    EditsAs edited? (visit.visitsTo s (xs' ++ ys')) (xs ++ ys) ↔
      EditsAs edited? (visit.visitsTo s xs') xs ∧
        EditsAs edited? (visit.visitsTo (xs'.foldl visit.stateAfter s) ys') ys := by
  have hleft : ∀ x ∈ xs,
      editedAt? (visit.visitsTo (xs'.foldl visit.stateAfter s) ys') x.place = none :=
    fun x hx => editedAt?_eq_none fun v hv heq =>
      (h x hx _ (hys.subset (node_mem_of_mem_visitsTo hv))).1 heq.symm
  have hright : ∀ y ∈ ys, editedAt? (visit.visitsTo s xs') y.place = none :=
    fun y hy => editedAt?_eq_none fun v hv =>
      (h _ (hxs.subset (node_mem_of_mem_visitsTo hv)) y hy).1
  rw [EditsAs, visitsTo_append, List.forall_mem_append]
  refine and_congr (forall₂_congr fun x hx => ?_) (forall₂_congr fun y hy => ?_)
  · rw [editedAt?_append, hleft x hx, Option.or_none]
  · rw [editedAt?_append, hright y hy, Option.none_or]

/-- Edits at a field that is visited first, and at others. -/
theorem editsAs_cons {v : Visit} {visits : List Visit} (h : ∀ y ∈ xs, v.node.place ≠ y.place) :
    EditsAs edited? (v :: visits) (v.node :: xs) ↔
      edited? v.node.place = some v.edited ∧ EditsAs edited? visits xs := by
  rw [EditsAs, List.forall_mem_cons, editedAt?_cons, if_pos rfl]
  refine and_congr_right fun _ => forall₂_congr fun y hy => ?_
  rw [editedAt?_cons, if_neg (h y hy)]

end EditsAs

/-! ### Parts of an edit -/

/-- A computation is the part of an edit that comes to some fields: it visits those of the name that
none of its visits takes away, and its value has the edits of these visits. -/
def Visitor.Edits {α : Type} (visit : Visitor σ) (name : String) (xs : List Node)
    (x : StateM σ α) (value : (Place → Option Edited) → α) : Prop :=
  ∀ s, ∃ ys, visit.Tours s (named name xs) ys ∧ (x.run s).2 = ys.foldl visit.stateAfter s ∧
    ∀ edited?, EditsAs edited? (visit.visitsTo s ys) xs → (x.run s).1 = value edited?

section Edits

variable {α β : Type} {visit : Visitor σ} {name : String} {xs ys : List Node}

/-- A value by itself is no part of an edit. -/
theorem edits_pure (visit : Visitor σ) (name : String) (a : α) :
    visit.Edits name [] (pure a) fun _ => a :=
  fun s => ⟨[], .nil visit s, rfl, fun _ _ => rfl⟩

/-- Parts of an edit that come to fields apart from each other follow each other. -/
theorem Visitor.Edits.bind {x : StateM σ α} {f : (Place → Option Edited) → α}
    {g : α → StateM σ β} {k : α → (Place → Option Edited) → β} (hx : visit.Edits name xs x f)
    (hg : ∀ edited?, visit.Edits name ys (g (f edited?)) (k (f edited?))) (h : StandApart xs ys) :
    visit.Edits name (xs ++ ys) (x >>= g) fun edited? => k (f edited?) edited? := by
  intro s
  obtain ⟨xs', htour, hstate, hvalue⟩ := hx s
  -- The second part goes on from the value that the first one has by its own visits.
  have hfirst := hvalue (editedAt? (visit.visitsTo s xs')) fun _ _ => rfl
  obtain ⟨ys', htour', hstate', hvalue'⟩ := hg _ (xs'.foldl visit.stateAfter s)
  rw [← hfirst] at hstate' hvalue'
  refine ⟨xs' ++ ys', ?_, ?_, fun edited? hedits => ?_⟩
  · rw [named_append]
    exact htour.append htour' (h.named name)
  · rw [run_bind_snd, hstate, hstate', List.foldl_append]
  · have hsub := htour.sublist.trans List.filter_sublist
    have hsub' := htour'.sublist.trans List.filter_sublist
    obtain ⟨hleft, hright⟩ := (editsAs_append h hsub hsub').mp hedits
    rw [run_bind_fst, hstate, hvalue' edited? hright, hvalue edited? hleft]

/-- Making something else of a value comes to no other fields. -/
theorem Visitor.Edits.map {x : StateM σ α} {f : (Place → Option Edited) → α} (g : α → β)
    (hx : visit.Edits name xs x f) :
    visit.Edits name xs (x >>= fun a => pure (g a)) fun edited? => g (f edited?) := by
  intro s
  obtain ⟨ys, htour, hstate, hvalue⟩ := hx s
  exact ⟨ys, htour, hstate, fun edited? hedits => congrArg g (hvalue edited? hedits)⟩

/-- Making one thing of the values of two parts comes to no other fields. -/
theorem Visitor.Edits.map₂ {γ : Type} {x : StateM σ α} {f : (Place → Option Edited) → α}
    {y : StateM σ β} {f' : (Place → Option Edited) → β} (g : α → β → γ)
    (hx : visit.Edits name xs x f) (hy : visit.Edits name ys y f') (h : StandApart xs ys) :
    visit.Edits name (xs ++ ys) (x >>= fun a => y >>= fun b => pure (g a b))
      fun edited? => g (f edited?) (f' edited?) :=
  hx.bind (k := fun a edited? => g a (f' edited?)) (fun _ => hy.map _) h

/-- The edit of a field: the visit, if the field has the name, and then the edits beneath it. -/
def Visitor.editField (visit : Visitor σ) (name : String) (head : Field)
    (selections : List Selection) (beneath : StateM σ (List Selection)) : StateM σ Selection := do
  let edited ← visit.ofName name head selections
  let selections' ← edited.unlessCleared beneath
  return .field edited.head selections'

section Field

variable {head : Field} {selections : List Selection} {beneath : StateM σ (List Selection)} {s : σ}

/-- A field of another name stays, and the edits beneath it are made. -/
theorem run_editField_of_ne (hname : head.name ≠ name) :
    (visit.editField name head selections beneath).run s =
      (.field head (beneath.run s).1, (beneath.run s).2) := by
  rw [Visitor.editField, Visitor.ofName, if_neg hname]
  rfl

/-- Without the selections beneath a field no edits are made there. -/
theorem run_editField_of_clears (hname : head.name = name)
    (hclears : ((visit head selections).run s).1.clears = true) :
    (visit.editField name head selections beneath).run s =
      (.field ((visit head selections).run s).1.head [], ((visit head selections).run s).2) := by
  rw [Visitor.editField, Visitor.ofName, if_pos hname]
  refine Prod.ext ?_ ?_
  · simp only [run_bind_fst, Edited.unlessCleared, if_pos hclears]
    rfl
  · simp only [run_bind_snd, Edited.unlessCleared, if_pos hclears]
    rfl

/-- The edits beneath a field go on from the state after the visit to it. -/
theorem run_editField_of_keeps (hname : head.name = name)
    (hclears : ((visit head selections).run s).1.clears = false) :
    (visit.editField name head selections beneath).run s =
      (.field ((visit head selections).run s).1.head
          (beneath.run ((visit head selections).run s).2).1,
        (beneath.run ((visit head selections).run s).2).2) := by
  have hkept : ¬ ((visit head selections).run s).1.clears = true := by simp [hclears]
  rw [Visitor.editField, Visitor.ofName, if_pos hname]
  refine Prod.ext ?_ ?_
  · simp only [run_bind_fst, Edited.unlessCleared, if_neg hkept]
    rfl
  · simp only [run_bind_snd, Edited.unlessCleared, if_neg hkept]
    rfl

/-- The part of an edit that comes to a field and to those beneath it. -/
theorem Visitor.Edits.field (p : Place) {f : (Place → Option Edited) → List Selection}
    (h : visit.Edits name (nodes p.beneath selections) beneath f) :
    visit.Edits name (⟨p, head, selections⟩ :: nodes p.beneath selections)
      (visit.editField name head selections beneath)
      fun edited? => editFieldAt edited? p head (f edited?) := by
  intro s
  have hbeneath : ∀ y ∈ nodes p.beneath selections, y.place.Beneath p :=
    fun y hy => Place.beneath_iff.mpr (from_of_mem_nodes hy)
  have hne : ∀ y ∈ nodes p.beneath selections, p ≠ y.place := by
    rintro y hy rfl
    exact y.place.not_from_beneath (from_of_mem_nodes hy)
  -- The name is asked for before the visit, so what the visit makes of it does not matter.
  by_cases hname : head.name = name
  · rw [named_cons_of_eq hname]
    cases hclears : ((visit head selections).run s).1.clears with
    | true =>
        rw [run_editField_of_clears hname hclears]
        refine ⟨[⟨p, head, selections⟩], .cons_of_clears hclears fun y hy => ?_, rfl,
          fun edited? hedits => ?_⟩
        · exact hbeneath y (mem_named.mp hy).1
        · obtain ⟨hself, -⟩ := (editsAs_cons hne).mp hedits
          dsimp only
          rw [editFieldAt_of_some hself, if_pos hclears]
    | false =>
        obtain ⟨ys, htour, hstate, hvalue⟩ := h ((visit head selections).run s).2
        rw [run_editField_of_keeps hname hclears]
        refine ⟨⟨p, head, selections⟩ :: ys, htour.cons hclears fun y hy habove => ?_, hstate,
          fun edited? hedits => ?_⟩
        · have hfrom := Place.beneath_iff.mp (hbeneath y (mem_named.mp hy).1)
          exact p.not_from_beneath (habove.from hfrom)
        · obtain ⟨hself, hrest⟩ := (editsAs_cons hne).mp hedits
          dsimp only
          rw [editFieldAt_of_some hself, if_neg (by simp [hclears]), hvalue edited? hrest]
  · rw [named_cons_of_ne hname, run_editField_of_ne hname]
    obtain ⟨ys, htour, hstate, hvalue⟩ := h s
    refine ⟨ys, htour, hstate, fun edited? hedits => ?_⟩
    obtain ⟨hself, hrest⟩ := List.forall_mem_cons.mp hedits
    have hsub : ys.Sublist (nodes p.beneath selections) := htour.sublist.trans List.filter_sublist
    have hnone : edited? p = none := hself.trans <| editedAt?_eq_none fun v hv heq =>
      hne _ (hsub.subset (node_mem_of_mem_visitsTo hv)) heq.symm
    dsimp only
    rw [editFieldAt_of_none hnone, hvalue edited? hrest]

end Field

/-- An edit of selections comes to the fields in them. -/
theorem edits_editSelections (visit : Visitor σ) (name : String) (p : Place)
    (selections : List Selection) :
    visit.Edits name (nodes p selections) (editSelections name visit selections)
      fun edited? => editSelectionsAt edited? p selections := by
  induction p, selections using nodes.induct with
  | case1 p =>
      rw [editSelections, nodes]
      simp only [editSelectionsAt]
      exact edits_pure visit name []
  | case2 p head selections rest ihBeneath ihRest =>
      rw [editSelections, nodes]
      simp only [editSelectionsAt]
      exact (Visitor.Edits.field p ihBeneath).map₂ List.cons ihRest
        (standApart_cons_next p head selections rest)
  | case3 p condition? ds selections rest ihBeneath ihRest =>
      rw [editSelections, nodes]
      simp only [editSelectionsAt]
      exact ihBeneath.map₂ (.inlineFragment condition? ds · :: ·) ihRest
        (standApart_beneath_next p selections rest)
  | case4 p fragment ds rest ihRest =>
      rw [editSelections, nodes]
      simp only [editSelectionsAt]
      exact ihRest.map _

/-! ### Edits of definitions -/

/-- The definition with the selections in it edited. -/
def Definition.edit (name : String) (visit : Visitor σ) (definition : Definition) :
    StateM σ Definition := do
  return definition.withSelections (← editSelections name visit definition.selections)

/-- The definitions with some of them edited. -/
def editWhere (keep : Definition → Bool) (name : String) (visit : Visitor σ) :
    List Definition → StateM σ (List Definition)
  | [] => return []
  | definition :: rest =>
    (if keep definition then definition.edit name visit else pure definition) >>= fun edited =>
      editWhere keep name visit rest >>= fun rest' => pure (edited :: rest')

/-- Operations are edited as some of the definitions. -/
theorem editOperations_eq (name : String) (visit : Visitor σ) (definitions : List Definition) :
    editOperations name visit definitions =
      editWhere Definition.isOperation name visit definitions := by
  induction definitions with
  | nil => rfl
  | cons definition rest ih =>
      cases definition <;> rw [editOperations, editWhere, ih] <;> rfl

/-- Fragments are edited as the others. -/
theorem editFragments_eq (name : String) (visit : Visitor σ) (definitions : List Definition) :
    editFragments name visit definitions =
      editWhere (fun definition => !definition.isOperation) name visit definitions := by
  induction definitions with
  | nil => rfl
  | cons definition rest ih =>
      cases definition <;> rw [editFragments, editWhere, ih] <;> rfl

/-- An edit of some definitions comes to the fields in them. -/
theorem edits_editWhere (visit : Visitor σ) (name : String) (keep : Definition → Bool) (k : Nat)
    (definitions : List Definition) :
    visit.Edits name (nodesWhere keep k definitions) (editWhere keep name visit definitions)
      fun edited? => editDefinitionsAt keep edited? k definitions := by
  induction definitions generalizing k with
  | nil => exact edits_pure visit name []
  | cons definition rest ih =>
      rw [nodesWhere, editWhere]
      simp only [editDefinitionsAt]
      cases hkeep : keep definition with
      | true =>
        simp only [if_true]
        exact ((edits_editSelections visit name (.root k) definition.selections).map
          (definition.withSelections ·)).map₂ List.cons (ih (k + 1))
          (standApart_nodesWhere definition rest k.lt_succ_self)
      | false => exact (ih (k + 1)).map (definition :: ·)

/-- Other selections do not make a definition one of the other kind. -/
@[simp] theorem Definition.isOperation_withSelections (definition : Definition)
    (selections : List Selection) :
    (definition.withSelections selections).isOperation = definition.isOperation := by
  cases definition <;> rfl

/-- Edits of operations leave the fields of fragments. -/
theorem fragmentNodes_editDefinitionsAt (edited? : Place → Option Edited) (k : Nat)
    (definitions : List Definition) :
    nodesWhere (fun definition => !definition.isOperation) k
        (editDefinitionsAt Definition.isOperation edited? k definitions) =
      nodesWhere (fun definition => !definition.isOperation) k definitions := by
  induction definitions generalizing k with
  | nil => rfl
  | cons definition rest ih =>
      rw [editDefinitionsAt, nodesWhere, nodesWhere, ih]
      cases hkind : definition.isOperation <;> simp [hkind]

/-- Edits of operations and then of fragments are edits of all definitions. -/
theorem editDefinitionsAt_editDefinitionsAt (edited? : Place → Option Edited) (k : Nat)
    (definitions : List Definition) :
    editDefinitionsAt (fun definition => !definition.isOperation) edited? k
        (editDefinitionsAt Definition.isOperation edited? k definitions) =
      editDefinitionsAt (fun _ => true) edited? k definitions := by
  induction definitions generalizing k with
  | nil => rfl
  | cons definition rest ih =>
      rw [editDefinitionsAt, editDefinitionsAt, editDefinitionsAt, ih]
      cases hkind : definition.isOperation <;> simp [hkind]

namespace Document

/-- An edit of a document comes to the fields of its operations, and then to those of its
fragments. -/
theorem edits_editFields (visit : Visitor σ) (d : Document) (name : String) :
    visit.Edits name (nodesWhere Definition.isOperation 0 d.definitions ++
        nodesWhere (fun definition => !definition.isOperation) 0 d.definitions)
      (d.editFields name visit)
      fun edited? => ⟨editDefinitionsAt (fun _ => true) edited? 0 d.definitions⟩ := by
  rw [editFields, editOperations_eq]
  simp only [editFragments_eq, ← editDefinitionsAt_editDefinitionsAt]
  refine (edits_editWhere visit name _ 0 d.definitions).bind
    (k := fun definitions edited? => Document.mk (editDefinitionsAt
      (fun definition => !definition.isOperation) edited? 0 definitions))
    (fun edited? => ?_) (standApart_operations_fragments 0 d.definitions)
  rw [← fragmentNodes_editDefinitionsAt edited?]
  exact (edits_editWhere visit name _ 0 _).map Document.mk

/-- An edit visits the fields of its name that none of its visits takes away, in their order, and
changes the document at these fields only. -/
theorem exists_tour_editFields (visit : Visitor σ) (d : Document) (name : String) (s : σ) :
    ∃ ys, visit.Tours s (d.visited name) ys ∧
      (d.editFields name visit).run s =
        (d.editAt (visit.visitsTo s ys), ys.foldl visit.stateAfter s) := by
  obtain ⟨ys, htour, hstate, hvalue⟩ := edits_editFields visit d name s
  refine ⟨ys, htour, Prod.ext ?_ hstate⟩
  exact hvalue (editedAt? (visit.visitsTo s ys)) fun _ _ => rfl

/-- **An edit visits every field of its name once**, all operations before all fragments, except
for fields that a visit above them takes away. -/
theorem visits_editFields (visit : Visitor σ) (d : Document) (name : String) (s : σ) :
    visit.Visits (d.visited name) s ((d.editFields name visit).run s).2 := by
  obtain ⟨ys, htour, hrun⟩ := exists_tour_editFields visit d name s
  exact ⟨ys, htour.sublist, htour.eq_of_keeps, congrArg Prod.snd hrun⟩

end Document

end Edits

end SchemaBridge.Graphql
