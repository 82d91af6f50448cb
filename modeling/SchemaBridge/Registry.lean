import SchemaBridge.Graphql.Document
import SchemaBridge.Json.Value

/-!
# Variable registries

The variables that one operation declares, together with the values that the caller supplies.

* `definitionOf?`, `retypeFirst?`: the definition that counts for a name, and its type;
* `suppliedValue?`, `replaceSupplied`: the value for a name;
* `Registry.definition?`, `Registry.declaredType?`, `Registry.value?`: looking things up;
* `Registry.retype?`: declares a variable with another type, if its type is the expected one;
* `Registry.replaceValue`: replaces the value of a variable, if one was supplied.

Neither definitions nor values are added or taken away.
-/

namespace SchemaBridge

open Graphql (VariableDefinition TypeRef)

/-- The first definition of a variable. -/
def definitionOf? (definitions : List VariableDefinition) (name : String) :
    Option VariableDefinition :=
  definitions.find? fun v => v.name = name

/-- The definitions with another type for the first definition of a variable, if it is declared
with the old type. -/
def retypeFirst? (name : String) (oldType newType : TypeRef) :
    List VariableDefinition → Option (List VariableDefinition)
  | [] => none
  | v :: rest =>
    if v.name = name then
      if v.type = oldType then some ({ v with type := newType } :: rest) else none
    else (retypeFirst? name oldType newType rest).map (v :: ·)

/-- The value that the caller supplies for a variable. -/
def suppliedValue? (values : Option Json.Object) (name : String) : Option Json.Value :=
  values.bind fun vs => vs.get? name

/-- The supplied values with another one for a variable that has one. -/
def replaceSupplied (values : Option Json.Object) (name : String) (value : Json.Value) :
    Option Json.Object :=
  values.map fun vs => vs.replace name value

/-- The variables of an operation, with the values supplied for them, if any were. -/
structure Registry where
  definitions : List VariableDefinition
  values : Option Json.Object

namespace Registry

/-- The first definition of a variable. -/
def definition? (r : Registry) (name : String) : Option VariableDefinition :=
  definitionOf? r.definitions name

/-- The type that a variable is declared with. -/
def declaredType? (r : Registry) (name : String) : Option TypeRef :=
  (r.definition? name).map (·.type)

/-- The value supplied for a variable. -/
def value? (r : Registry) (name : String) : Option Json.Value :=
  suppliedValue? r.values name

/-- The registry with another type for a variable; `none` if the variable is not declared with
the old type. -/
def retype? (r : Registry) (name : String) (oldType newType : TypeRef) : Option Registry :=
  (retypeFirst? name oldType newType r.definitions).map fun definitions =>
    { r with definitions }

/-- The registry with the value of a variable replaced by what `f` makes of it. If no value was
supplied the result is `none` and `f` is not run; if `f` fails, so does the replacement. -/
def replaceValue {m : Type → Type} [Monad m] (r : Registry) (name : String)
    (f : Json.Value → m Json.Value) : m (Option Registry) :=
  match r.value? name with
  | none => return none
  | some value => do
    let value' ← f value
    return some { r with values := replaceSupplied r.values name value' }

end Registry

end SchemaBridge
