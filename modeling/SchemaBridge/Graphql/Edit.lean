import SchemaBridge.Graphql.Document

/-!
# Editing fields

A visit to every field with a name, wherever it stands in a document. Spreads are not followed:
each fragment is visited where it is defined, so every field is visited once.

* `Edited`: what a visitor makes of a field;
* `editSelections`: the edited selections; a field is visited before the fields beneath it;
* `Document.editFields`: the edited document, all operations before all fragments.

A visitor may keep a state from one visit to the next.
-/

namespace SchemaBridge.Graphql

/-- What a visitor makes of a field, and whether the selections beneath it go away. -/
structure Edited where
  head : Field
  clears : Bool

/-- A visitor of fields: it sees a field and the selections beneath it. -/
abbrev Visitor (σ : Type) := Field → List Selection → StateM σ Edited

/-- The visit to a field if it has the name; any other field stays as it is. -/
def Visitor.ofName {σ : Type} (visit : Visitor σ) (name : String) : Visitor σ :=
  fun head selections =>
    if head.name = name then visit head selections else pure ⟨head, false⟩

/-- The edited selections beneath a field, unless they go away with the edit of the field. -/
def Edited.unlessCleared {σ : Type} (edited : Edited) (beneath : StateM σ (List Selection)) :
    StateM σ (List Selection) :=
  if edited.clears then pure [] else beneath

/-- The edited selections. A field is chosen by the name that it has before the visit, and the
fields beneath it are visited after it. -/
def editSelections {σ : Type} (name : String) (visit : Visitor σ) :
    List Selection → StateM σ (List Selection)
  | [] => return []
  | .field head selections :: rest => do
    let edited ← visit.ofName name head selections
    let selections' ← edited.unlessCleared (editSelections name visit selections)
    let rest' ← editSelections name visit rest
    return .field edited.head selections' :: rest'
  | .inlineFragment condition? directives selections :: rest => do
    let selections' ← editSelections name visit selections
    let rest' ← editSelections name visit rest
    return .inlineFragment condition? directives selections' :: rest'
  | .spread fragment directives :: rest => do
    let rest' ← editSelections name visit rest
    return .spread fragment directives :: rest'

/-- The definitions with their operations edited. -/
def editOperations {σ : Type} (name : String) (visit : Visitor σ) :
    List Definition → StateM σ (List Definition)
  | [] => return []
  | .operation o :: rest => do
    let selections ← editSelections name visit o.selections
    let rest' ← editOperations name visit rest
    return .operation { o with selections } :: rest'
  | .fragment f :: rest => do
    let rest' ← editOperations name visit rest
    return .fragment f :: rest'

/-- The definitions with their fragments edited. -/
def editFragments {σ : Type} (name : String) (visit : Visitor σ) :
    List Definition → StateM σ (List Definition)
  | [] => return []
  | .fragment f :: rest => do
    let selections ← editSelections name visit f.selections
    let rest' ← editFragments name visit rest
    return .fragment { f with selections } :: rest'
  | .operation o :: rest => do
    let rest' ← editFragments name visit rest
    return .operation o :: rest'

/-- The document with every field of a name edited. -/
def Document.editFields {σ : Type} (d : Document) (name : String) (visit : Visitor σ) :
    StateM σ Document := do
  let definitions ← editOperations name visit d.definitions
  let definitions ← editFragments name visit definitions
  return ⟨definitions⟩

end SchemaBridge.Graphql
