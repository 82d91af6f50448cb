import SchemaBridge.Graphql.Occurrence
import SchemaBridge.Registry
import SchemaBridge.Rule

/-!
# Retyping arguments

An argument of a field has another type on the server. A variable that an operation passes as
that argument is declared with the new type, if it was declared with the old one, and a value
that the caller supplies for it is converted. Literal arguments are left alone.

* `ArgumentRetype.targets`: the variables that an operation passes as the argument;
* `ArgumentRetype.redeclared`: those of them that are declared with the old type;
* `ArgumentRetype.retypeVariables`: the document with their types changed;
* `ArgumentRetype.convertValues`: the values converted, each only once although several
  operations may declare the variable.
-/

namespace SchemaBridge

open Graphql (Document Operation Field Occurrence TypeRef VariableDefinition)

/-- A conversion of the values that a caller supplies. -/
abbrev Converter := Json.Value → Except Cause Json.Value

/-- The rule that the argument `argument` of `field` has the type `newType` on the server instead
of `oldType`, with a conversion of the values if one is needed. -/
structure ArgumentRetype where
  field : String
  argument : String
  oldType : TypeRef
  newType : TypeRef
  converter? : Option Converter

namespace ArgumentRetype

/-! ### The variables in question -/

/-- The variable that a field passes as the argument. The first argument of the name counts. -/
def variableOf? (r : ArgumentRetype) (f : Field) : Option String :=
  match Entries.get? f.arguments r.argument with
  | some (.reference variableName) => some variableName
  | _ => none

/-- The event of a field that passes a literal as the argument. -/
def literalEvent? (r : ArgumentRetype) (found : Occurrence) : Option Event :=
  match Entries.get? found.head.arguments r.argument with
  | none => none
  | some (.reference _) => none
  | some _ => some (.literalArgument r.field r.argument found.path)

/-- The variables that an operation passes as the argument, in the order in which it first does
so. -/
def targets (r : ArgumentRetype) (d : Document) (o : Operation) : List String :=
  ((d.findFields o r.field).filterMap fun found => r.variableOf? found.head).eraseDups

/-- The variables of an operation that are to be declared with the new type. -/
def redeclaredIn (r : ArgumentRetype) (d : Document) (o : Operation) : List String :=
  match o.header? with
  | none => []
  | some header => (r.targets d o).filter fun name =>
    ((definitionOf? header.variableDefinitions name).map (·.type)) = some r.oldType

/-- The variables to be declared with the new type, operation by operation. -/
def redeclared (r : ArgumentRetype) (d : Document) : List String :=
  d.operations.flatMap (r.redeclaredIn d)

/-! ### The document -/

/-- The definitions with the new type for some variables. -/
def retypeDefinitions (r : ArgumentRetype) (definitions : List VariableDefinition)
    (names : List String) : List VariableDefinition :=
  names.foldl (fun ds name => (retypeFirst? name r.oldType r.newType ds).getD ds) definitions

/-- An operation of a document with the new types. -/
def retypeOperation (r : ArgumentRetype) (d : Document) (o : Operation) : Operation :=
  { o with header? := o.header?.map fun header =>
      { header with
        variableDefinitions :=
          r.retypeDefinitions header.variableDefinitions (r.redeclaredIn d o) } }

/-- A definition of a document with the new types. -/
def retypeDefinition (r : ArgumentRetype) (d : Document) :
    Graphql.Definition → Graphql.Definition
  | .operation o => .operation (r.retypeOperation d o)
  | .fragment f => .fragment f

/-- The document with the new types. -/
def retypeVariables (r : ArgumentRetype) (d : Document) : Document :=
  ⟨d.definitions.map (r.retypeDefinition d)⟩

/-! ### The values -/

/-- The values after the conversion for one variable that was declared with the new type, and
whether a value was converted. `converted` are the variables whose values were before. -/
def convertValue (r : ArgumentRetype) (name : String) (converted : List String)
    (values : Option Json.Object) : Traced (Option Json.Object × Bool) :=
  match r.converter?, suppliedValue? values name with
  | some convert, some value =>
    if name ∈ converted then return (values, false)
    else
      match convert value with
      | .error cause => Traced.fail (.coercion name cause)
      | .ok value' => do
        Traced.report [.valueCoerced name]
        return (replaceSupplied values name value', true)
  | _, _ => return (values, false)

/-- The values after the conversions for variables that were declared with the new type, one
after the other. A value is converted once. -/
def convertValues (r : ArgumentRetype) (converted : List String) (values : Option Json.Object) :
    List String → Traced (Option Json.Object)
  | [] => return values
  | name :: rest => do
    Traced.report [.variableRetyped name r.oldType r.newType]
    let (values', done) ← r.convertValue name converted values
    r.convertValues (if done then name :: converted else converted) values' rest

/-! ### The rule -/

/-- The events of looking for the variables of one operation. -/
def searchEvents (r : ArgumentRetype) (d : Document) (o : Operation) : List Event :=
  d.skippedSpreads o ++ (d.findFields o r.field).filterMap r.literalEvent?

/-- The rule for an exchange. Responses do not depend on the types of arguments. -/
def toRule (r : ArgumentRetype) : Rule where
  request document values := do
    Traced.report (document.operations.flatMap (r.searchEvents document))
    let converted ← r.convertValues [] values (r.redeclared document)
    return ⟨r.retypeVariables document, converted, pure⟩

/-- A description of the rule by its parts. -/
def describe (r : ArgumentRetype) : String :=
  "FieldArgTypeRewriter \x7b field_name: " ++ Text.quoted r.field ++
    ", arg_name: " ++ Text.quoted r.argument ++
    ", old_type: " ++ Text.quoted r.oldType.display ++
    ", new_type: " ++ Text.quoted r.newType.display ++
    ", coerce_variable: " ++
    (if r.converter?.isSome then "Some(\"Fn(..)\")" else "None") ++ " \x7d"

end ArgumentRetype

end SchemaBridge
