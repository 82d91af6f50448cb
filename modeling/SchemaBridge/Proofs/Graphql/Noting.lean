import SchemaBridge.Proofs.Graphql.Visits

/-!
# Visitors that take notes

Which fields is a visitor given, and in which form? A visitor that takes notes writes down every
field before its visit, and makes of it what it would make without notes.

* `Visitor.noting`: a visitor with notes of the fields that it is given;
* `Notes`, `notes_editFields`: an edit with notes ends as the edit without them does;
* `foldl_stateAfter_noting`: the notes after some visits are of the fields visited;
* `Document.editFields_exact`: the fields that a visitor is given in an edit, and the document
  afterwards.
-/

namespace SchemaBridge.Graphql

variable {σ : Type}

/-- The field as it is selected, with the selections beneath it. -/
def Node.selection (x : Node) : Selection :=
  .field x.head x.selections

/-- The visitor with a note of every field that it is given. -/
def Visitor.noting (visit : Visitor σ) : Visitor (σ × List Selection) :=
  fun head selections p =>
    let (edited, s) := (visit head selections).run p.1
    (edited, s, p.2 ++ [.field head selections])

/-- A computation that takes notes ends as the one without notes does. -/
def Notes {α : Type} (x : StateM (σ × List Selection) α) (y : StateM σ α) : Prop :=
  ∀ s notes, ((x.run (s, notes)).1, (x.run (s, notes)).2.1) = y.run s

section Notes

variable {α β : Type}

/-- A value by itself needs no notes. -/
theorem notes_pure (a : α) : Notes (σ := σ) (pure a) (pure a) :=
  fun _ _ => rfl

/-- Notes may be taken of each part of a sequence. -/
theorem Notes.bind {x : StateM (σ × List Selection) α} {y : StateM σ α}
    {f : α → StateM (σ × List Selection) β} {g : α → StateM σ β} (h : Notes x y)
    (hf : ∀ a, Notes (f a) (g a)) : Notes (x >>= f) (y >>= g) := by
  intro s notes
  have hrest := hf (x.run (s, notes)).1 (x.run (s, notes)).2.1 (x.run (s, notes)).2.2
  have hfirst := h s notes
  show _ = (g (y.run s).1).run (y.run s).2
  rw [← hfirst]
  exact hrest

variable {visit : Visitor σ}

/-- A visit with a note makes of a field what the visit makes. -/
theorem notes_ofName (name : String) (head : Field) (selections : List Selection) :
    Notes (visit.noting.ofName name head selections) (visit.ofName name head selections) := by
  intro s notes
  rw [Visitor.ofName, Visitor.ofName]
  split_ifs <;> rfl

/-- An edit of selections with notes does what it does without. -/
theorem notes_editSelections (name : String) (selections : List Selection) :
    Notes (editSelections name visit.noting selections) (editSelections name visit selections) := by
  induction selections using editSelections.induct with
  | case1 =>
      rw [editSelections, editSelections]
      exact notes_pure []
  | case2 head selections rest ihBeneath ihRest =>
      rw [editSelections, editSelections]
      refine (notes_ofName name head selections).bind fun edited => ?_
      refine .bind ?_ fun _ => ihRest.bind fun _ => notes_pure _
      rw [Edited.unlessCleared, Edited.unlessCleared]
      split_ifs
      · exact notes_pure []
      · exact ihBeneath
  | case3 condition? ds selections rest ihBeneath ihRest =>
      rw [editSelections, editSelections]
      exact ihBeneath.bind fun _ => ihRest.bind fun _ => notes_pure _
  | case4 fragment ds rest ihRest =>
      rw [editSelections, editSelections]
      exact ihRest.bind fun _ => notes_pure _

/-- An edit of some definitions with notes does what it does without. -/
theorem notes_editWhere (keep : Definition → Bool) (name : String)
    (definitions : List Definition) :
    Notes (editWhere keep name visit.noting definitions)
      (editWhere keep name visit definitions) := by
  induction definitions with
  | nil => exact notes_pure []
  | cons definition rest ih =>
      rw [editWhere, editWhere]
      refine .bind ?_ fun _ => ih.bind fun _ => notes_pure _
      split_ifs
      · rw [Definition.edit, Definition.edit]
        exact (notes_editSelections name definition.selections).bind fun _ => notes_pure _
      · exact notes_pure definition

/-- An edit of a document with notes does what it does without. -/
theorem notes_editFields (d : Document) (name : String) :
    Notes (d.editFields name visit.noting) (d.editFields name visit) := by
  simp only [Document.editFields, editOperations_eq, editFragments_eq]
  exact (notes_editWhere _ name _).bind fun _ =>
    (notes_editWhere _ name _).bind fun _ => notes_pure _

/-- The notes after some visits are of the fields visited, in their order. -/
theorem foldl_stateAfter_noting (s : σ) (notes : List Selection) (ys : List Node) :
    ys.foldl visit.noting.stateAfter (s, notes) =
      (ys.foldl visit.stateAfter s, notes ++ ys.map Node.selection) := by
  induction ys generalizing s notes with
  | nil => exact congrArg (s, ·) (List.append_nil notes).symm
  | cons y rest ih =>
      rw [List.foldl_cons, List.foldl_cons, List.map_cons, List.append_cons]
      exact ih _ _

/-- Notes do not change the visits. -/
theorem visitsTo_noting (s : σ) (notes : List Selection) (ys : List Node) :
    visit.noting.visitsTo (s, notes) ys = visit.visitsTo s ys := by
  induction ys generalizing s notes with
  | nil => rfl
  | cons y rest ih => exact congrArg _ (ih _ _)

/-- Notes do not change which fields are visited. -/
theorem tours_noting {s : σ} {notes : List Selection} {xs ys : List Node} :
    visit.noting.Tours (s, notes) xs ys ↔ visit.Tours s xs ys := by
  rw [Visitor.Tours, visitsTo_noting, Visitor.Tours]

end Notes

/-- **An edit visits what it should, and changes nothing else.** Whatever a visitor makes of the
fields that it is given, it is given these, one after the other and each once, as they stand in the
document before the edit: the fields of the name, in the order in which they stand, those of all
operations before those of all fragments, without the fields beneath one whose selections a visit
has emptied. The document afterwards is the one before, with what the visitor makes of these fields
in their places. -/
theorem Document.editFields_exact (visit : Visitor σ) (d : Document) (name : String) (s : σ) :
    ∃ ys : List Node,
      ys = (d.visited name).filter (fun x => ∀ v ∈ visit.visitsTo s ys,
        v.edited.clears = true → ¬ x.place.Beneath v.node.place) ∧
      (ys.map Node.place).Nodup ∧
      (d.editFields name visit.noting).run (s, []) =
        (d.editAt (visit.visitsTo s ys), ys.foldl visit.stateAfter s, ys.map Node.selection) ∧
      (d.editFields name visit).run s =
        (d.editAt (visit.visitsTo s ys), ys.foldl visit.stateAfter s) := by
  obtain ⟨ys, htour, hrun⟩ := d.exists_tour_editFields visit.noting name (s, [])
  rw [foldl_stateAfter_noting, visitsTo_noting, List.nil_append] at hrun
  have htour := tours_noting.mp htour
  refine ⟨ys, htour, ?_, hrun, ?_⟩
  · exact (d.nodup_place_visited name).sublist (htour.sublist.map Node.place)
  · rw [← notes_editFields d name s [], hrun]

end SchemaBridge.Graphql
