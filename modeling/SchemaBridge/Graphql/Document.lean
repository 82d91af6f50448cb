import SchemaBridge.Decimal.Double
import SchemaBridge.Entries
import SchemaBridge.Graphql.TypeRef

/-!
# Executable documents

Operations and fragments, with all that a client may write in them.

* `Literal`: argument values and default values;
* `Field`: what a selection says about one field, its own selections apart;
* `Selection`: fields with their selections, fragment spreads and inline fragments;
* `Operation`, `Fragment`, `Document`: the definitions.

`Field.responseKey` is the key of a field in a response, and `Fragment.named?` is the fragment
that a spread refers to.
-/

namespace SchemaBridge.Graphql

/-- An argument value or default value. The entries of an object have ascending keys. A number
beyond the finite range is kept as an infinity. -/
inductive Literal where
  | reference (variableName : String)
  | int (value : Int)
  | float (value : Double)
  | infinite (negative : Bool)
  | string (value : String)
  | boolean (value : Bool)
  | null
  | enumeration (name : String)
  | list (items : List Literal)
  | object (entries : List (String × Literal))
deriving Repr, Inhabited

/-- Arguments in the order of the text; a name may occur more than once. -/
abbrev Arguments := List (String × Literal)

/-- A directive such as `@include(if: $x)`. -/
structure Directive where
  name : String
  arguments : Arguments
deriving Repr

/-- A field as it is selected, apart from the selections beneath it. -/
structure Field where
  alias? : Option String
  name : String
  arguments : Arguments
  directives : List Directive
deriving Repr

/-- The key under which the value of a field appears in a response. -/
def Field.responseKey (f : Field) : String :=
  f.alias?.getD f.name

/-- One selection of a selection set. -/
inductive Selection where
  | field (head : Field) (selections : List Selection)
  | spread (fragment : String) (directives : List Directive)
  | inlineFragment (condition? : Option String) (directives : List Directive)
      (selections : List Selection)
deriving Repr

/-- The declaration of a variable. -/
structure VariableDefinition where
  name : String
  type : TypeRef
  default? : Option Literal
deriving Repr

/-- What an operation does. -/
inductive OperationKind where
  | query
  | mutation
  | subscription
deriving DecidableEq, Repr

/-- What stands before the selections of an operation. -/
structure OperationHeader where
  kind : OperationKind
  name? : Option String
  variableDefinitions : List VariableDefinition
  directives : List Directive
deriving Repr

/-- An operation. One without a header is written as its selections alone, and cannot declare
variables. -/
structure Operation where
  header? : Option OperationHeader
  selections : List Selection
deriving Repr

/-- A named fragment. -/
structure Fragment where
  name : String
  condition : String
  directives : List Directive
  selections : List Selection
deriving Repr

/-- A definition of a document. -/
inductive Definition where
  | operation (operation : Operation)
  | fragment (fragment : Fragment)
deriving Repr

/-- A document: its definitions in the order of the text. -/
structure Document where
  definitions : List Definition
deriving Repr

/-- The operations of a document in order. -/
def Document.operations (d : Document) : List Operation :=
  d.definitions.filterMap fun
    | .operation o => some o
    | .fragment _ => none

/-- The fragments of a document in order. -/
def Document.fragments (d : Document) : List Fragment :=
  d.definitions.filterMap fun
    | .operation _ => none
    | .fragment f => some f

/-- The fragment that a name refers to: the last one defined under it. -/
def Fragment.named? (name : String) : List Fragment → Option Fragment
  | [] => none
  | f :: rest =>
    match Fragment.named? name rest with
    | some later => some later
    | none => if f.name = name then some f else none

/-- The fragments whose name is another one. -/
def Fragment.without (name : String) : List Fragment → List Fragment
  | [] => []
  | f :: rest =>
    if f.name = name then Fragment.without name rest else f :: Fragment.without name rest

/-! ### Fragments by name -/

/-- Leaving out a name does not lengthen a list of fragments. -/
theorem Fragment.length_without_le (name : String) (fs : List Fragment) :
    (Fragment.without name fs).length ≤ fs.length := by
  induction fs with
  | nil => simp [Fragment.without]
  | cons f rest ih =>
    by_cases h : f.name = name
    · simp [Fragment.without, h]
      omega
    · simp [Fragment.without, h, ih]

/-- Leaving out a name that refers to a fragment shortens the list. -/
theorem Fragment.length_without_lt {name : String} {fs : List Fragment} {f : Fragment}
    (h : Fragment.named? name fs = some f) : (Fragment.without name fs).length < fs.length := by
  induction fs with
  | nil => simp [Fragment.named?] at h
  | cons g rest ih =>
    by_cases hg : g.name = name
    · have := Fragment.length_without_le name rest
      simp [Fragment.without, hg]
      omega
    · cases hr : Fragment.named? name rest with
      | none => simp [Fragment.named?, hr, hg] at h
      | some later =>
        simp only [Fragment.named?, hr, Option.some.injEq] at h
        have := ih (h ▸ hr)
        simp [Fragment.without, hg, this]

end SchemaBridge.Graphql
