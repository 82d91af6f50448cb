import SchemaBridge.Proofs.Graphql.FieldMap
import SchemaBridge.Proofs.Graphql.TypeGrammar
import SchemaBridge.Proofs.Variables.Effect

/-!
# Documents whose names are names

A text that stands where the grammar wants a name need not be one. In a document that was read every
such text is a name; in one that was changed that is to be shown.

* `IsName`: a text is a name;
* `EverySelection`: all selections of a tree have a property;
* `Document.WellNamed`: fields, their arguments and the types of variables are named by names;
* `Document.WellNamed.mapFields`: a change of fields that keeps names keeps them in the document;
* `Document.ofField`: a document with one field, whose names are those of the field.
-/

namespace SchemaBridge.Graphql

/-- The text is a name. -/
def IsName (s : String) : Prop :=
  isName s.toList = true

instance (s : String) : Decidable (IsName s) :=
  inferInstanceAs (Decidable (_ = _))

/-! ### Trees of selections -/

/-- A property holds of every selection that stands in a tree. -/
def EverySelection (p : Selection → Prop) : List Selection → Prop
  | [] => True
  | .field head selections :: rest =>
    p (.field head selections) ∧ EverySelection p selections ∧ EverySelection p rest
  | .inlineFragment condition? directives selections :: rest =>
    p (.inlineFragment condition? directives selections) ∧ EverySelection p selections ∧
      EverySelection p rest
  | .spread fragment directives :: rest =>
    p (.spread fragment directives) ∧ EverySelection p rest

/-- The selection with a change made to every field. -/
def Selection.mapFields (f : Field → Field) : Selection → Selection
  | .field head selections => .field (f head) (mapSelections f selections)
  | .inlineFragment condition? directives selections =>
    .inlineFragment condition? directives (mapSelections f selections)
  | .spread fragment directives => .spread fragment directives

/-- A property that a change of fields keeps in every selection is kept in a tree. -/
theorem EverySelection.mapSelections {p : Selection → Prop} {f : Field → Field}
    (h : ∀ s, p s → p (s.mapFields f)) {selections : List Selection}
    (hp : EverySelection p selections) : EverySelection p (mapSelections f selections) := by
  induction selections using Graphql.mapSelections.induct with
  | case1 => rwa [Graphql.mapSelections]
  | case2 head selections rest ihBeneath ihRest =>
      rw [EverySelection] at hp
      rw [Graphql.mapSelections, EverySelection]
      exact ⟨h _ hp.1, ihBeneath hp.2.1, ihRest hp.2.2⟩
  | case3 condition? ds selections rest ihBeneath ihRest =>
      rw [EverySelection] at hp
      rw [Graphql.mapSelections, EverySelection]
      exact ⟨h _ hp.1, ihBeneath hp.2.1, ihRest hp.2.2⟩
  | case4 fragment ds rest ihRest =>
      rw [EverySelection] at hp
      rw [Graphql.mapSelections, EverySelection]
      exact ⟨hp.1, ihRest hp.2⟩

/-- A property of every selection implies what it implies of each. -/
theorem EverySelection.imp {p q : Selection → Prop} (h : ∀ s, p s → q s)
    {selections : List Selection} (hp : EverySelection p selections) :
    EverySelection q selections := by
  induction selections using EverySelection.induct with
  | case1 => rw [EverySelection]; trivial
  | case2 head selections rest ihBeneath ihRest =>
      rw [EverySelection] at hp ⊢
      exact ⟨h _ hp.1, ihBeneath hp.2.1, ihRest hp.2.2⟩
  | case3 condition? ds selections rest ihBeneath ihRest =>
      rw [EverySelection] at hp ⊢
      exact ⟨h _ hp.1, ihBeneath hp.2.1, ihRest hp.2.2⟩
  | case4 fragment ds rest ihRest =>
      rw [EverySelection] at hp ⊢
      exact ⟨h _ hp.1, ihRest hp.2⟩

/-! ### Names in documents -/

/-- The name of a field and the names of its arguments are names. -/
structure Field.WellNamed (f : Field) : Prop where
  name : IsName f.name
  arguments : ∀ argument ∈ f.arguments, IsName argument.1

/-- If the selection is a field, it is named by names. -/
def Selection.WellNamed : Selection → Prop
  | .field head _ => head.WellNamed
  | .inlineFragment _ _ _ => True
  | .spread _ _ => True

/-- The variables that a definition declares; a fragment declares none. -/
def Definition.variableDefinitions : Definition → List VariableDefinition
  | .operation o => o.variableDefinitions
  | .fragment _ => []

/-- The names of all fields of a document, of their arguments, and of the types of variables are
names. -/
structure Document.WellNamed (d : Document) : Prop where
  fields : ∀ definition ∈ d.definitions, EverySelection Selection.WellNamed definition.selections
  types : ∀ definition ∈ d.definitions, ∀ v ∈ definition.variableDefinitions, v.type.WellNamed

/-- A change of fields that keeps names keeps them in the document. -/
theorem Document.WellNamed.mapFields {f : Field → Field}
    (h : ∀ head : Field, head.WellNamed → (f head).WellNamed) {d : Document} (hd : d.WellNamed) :
    (d.mapFields f).WellNamed := by
  have hselection : ∀ s : Selection, s.WellNamed → (s.mapFields f).WellNamed := by
    intro s hs
    cases s with
    | field head selections => exact h head hs
    | inlineFragment condition? ds selections => trivial
    | spread fragment ds => trivial
  constructor
  · intro definition hdefinition
    obtain ⟨before, hbefore, rfl⟩ := List.mem_map.mp hdefinition
    have hfields := (hd.fields before hbefore).mapSelections hselection
    cases before <;> exact hfields
  · intro definition hdefinition
    obtain ⟨before, hbefore, rfl⟩ := List.mem_map.mp hdefinition
    have htypes := hd.types before hbefore
    cases before <;> exact htypes

/-! ### One field alone -/

/-- The document with one field. -/
def Document.ofField (head : Field) : Document :=
  ⟨[.operation ⟨none, [.field head []]⟩]⟩

/-- A change of fields changes the one that is there. -/
theorem Document.mapFields_ofField (f : Field → Field) (head : Field) :
    (ofField head).mapFields f = ofField (f head) := by
  simp only [ofField, mapFields, List.map_cons, List.map_nil, Definition.mapFields,
    Operation.mapFields, mapSelections]

/-- The names of the document are those of the field. -/
theorem Document.wellNamed_ofField {head : Field} : (ofField head).WellNamed ↔ head.WellNamed := by
  have hselection : EverySelection Selection.WellNamed [.field head []] ↔ head.WellNamed := by
    simp only [EverySelection, Selection.WellNamed, and_true]
  constructor
  · intro h
    exact hselection.mp (h.fields _ List.mem_cons_self)
  · intro h
    constructor
    · intro definition hdefinition
      obtain rfl := List.mem_singleton.mp hdefinition
      exact hselection.mpr h
    · intro definition hdefinition
      obtain rfl := List.mem_singleton.mp hdefinition
      exact fun v hv => absurd hv List.not_mem_nil

end SchemaBridge.Graphql
