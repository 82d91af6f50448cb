import SchemaBridge.Graphql.Edit
import SchemaBridge.Rule

/-!
# Renaming arguments

An argument of a field has another name on the server. Every field with the name is visited, in
operations and fragments, and its first argument with the old name is renamed in place. A field
that has an argument with the new name already is left alone, so no argument is given twice.

* `ArgumentRename.renameIn`: the field after the rule;
* `ArgumentRename.eventsIn`: what is reported about a field;
* `ArgumentRename.renameArguments`: the renamed document, with the events.
-/

namespace SchemaBridge

open Graphql (Document Field Arguments)

/-- The rule that the argument `oldName` of `field` is named `newName` on the server. -/
structure ArgumentRename where
  field : String
  oldName : String
  newName : String
deriving DecidableEq, Repr

/-- Whether an argument with a name is given. -/
def hasArgument (name : String) (arguments : Arguments) : Bool :=
  arguments.any fun (k, _) => k = name

/-- The arguments with the first one of a name renamed. -/
def renameFirst (old new : String) : Arguments → Arguments
  | [] => []
  | (k, v) :: rest => if k = old then (new, v) :: rest else (k, v) :: renameFirst old new rest

namespace ArgumentRename

/-- The field after the rule. -/
def renameIn (r : ArgumentRename) (f : Field) : Field :=
  if hasArgument r.newName f.arguments then f
  else { f with arguments := renameFirst r.oldName r.newName f.arguments }

/-- What is reported about a field. -/
def eventsIn (r : ArgumentRename) (f : Field) : List Event :=
  if hasArgument r.newName f.arguments then [.argumentKept r.field r.oldName r.newName]
  else if hasArgument r.oldName f.arguments then
    [.argumentRenamed r.field r.oldName r.newName]
  else []

/-- The visitor that applies the rule and collects the events. -/
def visit (r : ArgumentRename) : Graphql.Visitor (List Event) := fun head _ events =>
  (⟨r.renameIn head, false⟩, events ++ r.eventsIn head)

/-- The document with the arguments renamed, and the events in the order of the visits. -/
def renameArguments (r : ArgumentRename) (d : Document) : Document × List Event :=
  (d.editFields r.field r.visit).run []

/-- The rule for an exchange. Responses do not depend on the names of arguments. -/
def toRule (r : ArgumentRename) : Rule where
  request document values := do
    let (renamed, events) := r.renameArguments document
    Traced.report events
    return ⟨renamed, values, pure⟩

end ArgumentRename

end SchemaBridge
