import SchemaBridge.Proofs.Graphql.WellNamed

/-!
# Documents as the grammar forms them

The types of documents admit more than the grammar does: names that are no names, braces without
selections, a mark after a mark. What the grammar forms has none of that.

* `Literal.Formed`: a literal in which all names are names, and which has variables only where these
  may stand;
* `Field.Formed`, `Selection.Formed`, `Operation.Formed`, `Fragment.Formed`: the nouns of the
  grammar;
* `Document.Formed`: a document as the grammar forms it;
* `Document.Formed.wellNamed`: such a document is well named.
-/

namespace SchemaBridge.Graphql

/-- A literal as the grammar forms it; a constant one holds no variables. -/
inductive Literal.Formed (constant : Bool) : Literal → Prop where
  | reference {variableName : String} (free : constant = false) (name : IsName variableName) :
      Formed constant (.reference variableName)
  | int (n : Int) : Formed constant (.int n)
  | float (x : Double) : Formed constant (.float x)
  | infinite (negative : Bool) : Formed constant (.infinite negative)
  | string (s : String) : Formed constant (.string s)
  | boolean (b : Bool) : Formed constant (.boolean b)
  | null : Formed constant .null
  | enumeration {name : String} (isName : IsName name) : Formed constant (.enumeration name)
  | list {items : List Literal} (values : ∀ item ∈ items, Formed constant item) :
      Formed constant (.list items)
  | object {entries : List (String × Literal)} (keys : ∀ entry ∈ entries, IsName entry.1)
      (values : ∀ entry ∈ entries, Formed constant entry.2) : Formed constant (.object entries)

/-- Arguments as the grammar forms them. -/
structure Arguments.Formed (arguments : Arguments) : Prop where
  names : ∀ argument ∈ arguments, IsName argument.1
  values : ∀ argument ∈ arguments, argument.2.Formed false

/-- A directive as the grammar forms it. -/
structure Directive.Formed (d : Directive) : Prop where
  name : IsName d.name
  arguments : Arguments.Formed d.arguments

/-- A field as the grammar forms it. -/
structure Field.Formed (f : Field) : Prop where
  label : ∀ label ∈ f.alias?, IsName label
  name : IsName f.name
  arguments : Arguments.Formed f.arguments
  directives : ∀ d ∈ f.directives, d.Formed

/-- A selection as the grammar forms it, the selections beneath it apart. After the three dots `on`
is no name of a fragment. -/
def Selection.Formed : Selection → Prop
  | .field head _ => head.Formed
  | .spread fragment directives =>
    IsName fragment ∧ fragment ≠ "on" ∧ ∀ d ∈ directives, d.Formed
  | .inlineFragment condition? directives selections =>
    (∀ condition ∈ condition?, IsName condition) ∧ (∀ d ∈ directives, d.Formed) ∧ selections ≠ []

/-- Selections between braces as the grammar forms them. -/
structure SelectionSet.Formed (selections : List Selection) : Prop where
  every : EverySelection Selection.Formed selections
  nonempty : selections ≠ []

/-- The definition of a variable as the grammar forms it. -/
structure VariableDefinition.Formed (v : VariableDefinition) : Prop where
  name : IsName v.name
  type : v.type.WellNamed
  marks : v.type.MarkedOnce
  default : ∀ value ∈ v.default?, value.Formed true

/-- The header of an operation as the grammar forms it. -/
structure OperationHeader.Formed (h : OperationHeader) : Prop where
  name : ∀ name ∈ h.name?, IsName name
  definitions : ∀ v ∈ h.variableDefinitions, v.Formed
  directives : ∀ d ∈ h.directives, d.Formed

/-- An operation as the grammar forms it. -/
structure Operation.Formed (o : Operation) : Prop where
  header : ∀ header ∈ o.header?, header.Formed
  selections : SelectionSet.Formed o.selections

/-- A fragment as the grammar forms it. -/
structure Fragment.Formed (f : Fragment) : Prop where
  name : IsName f.name
  condition : IsName f.condition
  directives : ∀ d ∈ f.directives, d.Formed
  selections : SelectionSet.Formed f.selections

/-- A definition as the grammar forms it. -/
def Definition.Formed : Definition → Prop
  | .operation o => o.Formed
  | .fragment f => f.Formed

/-- A document as the grammar forms it. -/
structure Document.Formed (d : Document) : Prop where
  definitions : ∀ definition ∈ d.definitions, definition.Formed
  nonempty : d.definitions ≠ []

/-- A field as the grammar forms it is well named. -/
theorem Field.Formed.wellNamed {f : Field} (h : f.Formed) : f.WellNamed :=
  ⟨h.name, h.arguments.names⟩

/-- A document as the grammar forms it is well named. -/
theorem Document.Formed.wellNamed {d : Document} (h : d.Formed) : d.WellNamed := by
  have hselection : ∀ s : Selection, s.Formed → s.WellNamed := by
    intro s hs
    cases s with
    | field head selections => exact Field.Formed.wellNamed hs
    | spread fragment ds => trivial
    | inlineFragment condition? ds selections => trivial
  constructor
  · intro definition hdefinition
    cases definition with
    | operation o => exact (h.definitions _ hdefinition).selections.every.imp hselection
    | fragment f => exact (h.definitions _ hdefinition).selections.every.imp hselection
  · intro definition hdefinition v hv
    cases definition with
    | fragment f => exact absurd hv List.not_mem_nil
    | operation o =>
        have ho : o.Formed := h.definitions _ hdefinition
        rw [Definition.variableDefinitions, Operation.variableDefinitions] at hv
        cases hheader : o.header? with
        | none => rw [hheader] at hv; exact absurd hv List.not_mem_nil
        | some header =>
            rw [hheader] at hv
            exact ((ho.header header hheader).definitions v hv).type

end SchemaBridge.Graphql
