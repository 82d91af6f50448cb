import SchemaBridge.Graphql.Edit
import SchemaBridge.Graphql.Occurrence
import SchemaBridge.Rule

/-!
# Renaming fields

A field has another name on the server. Every field with the old name is renamed in the request.
A field without an alias then comes back under its new name, so the response paths of these
fields are recorded, and the key at the end of each is renamed back in the response.

* `FieldRename.recordedPaths`: the response paths of the renamed fields without an alias, in
  terms of the renamed document;
* `FieldRename.renameFields`: the renamed document;
* `renameKeyAt`: renames a key of the object at a path, in every element of a list on the way;
* `FieldRename.restore`: renames the keys at all recorded paths, deepest first, so that the keys
  on the way to a path still have their new names.
-/

namespace SchemaBridge

open Graphql (Document Operation Field)

/-- The rule that a field named `oldName` is named `newName` on the server. -/
structure FieldRename where
  oldName : String
  newName : String
deriving DecidableEq, Repr

/-! ### Keys of a response -/

/-- The object with its entry under one key moved to another key, where it replaces what is
there. -/
def renameKey (old new : String) (o : Json.Object) : Json.Object :=
  match Entries.get? o old with
  | none => o
  | some value => Entries.insert (Entries.erase o old) new value

mutual

/-- The value with a key renamed in the object at a path. Lists are entered without a step of
the path. -/
def renameKeyAt (old new : String) (path : List String) : Json.Value → Json.Value
  | .array items => .array (renameKeyInItems old new path items)
  | .object entries =>
    match path with
    | [] => .object (renameKey old new entries)
    | key :: rest => .object (renameKeyInEntries old new key rest entries)
  | .null => .null
  | .boolean b => .boolean b
  | .number n => .number n
  | .string s => .string s

/-- The items with a key renamed at a path. -/
def renameKeyInItems (old new : String) (path : List String) :
    List Json.Value → List Json.Value
  | [] => []
  | v :: rest => renameKeyAt old new path v :: renameKeyInItems old new path rest

/-- The entries with a key renamed at a path beneath the entry under `key`. -/
def renameKeyInEntries (old new : String) (key : String) (path : List String) :
    List (String × Json.Value) → List (String × Json.Value)
  | [] => []
  | (k, v) :: rest =>
    (k, if k = key then renameKeyAt old new path v else v) ::
      renameKeyInEntries old new key path rest

end

namespace FieldRename

/-! ### The request -/

/-- The response paths of the fields that are to be renamed and have no alias, each once, in
terms of the document as it is. -/
def affectedPaths (r : FieldRename) (d : Document) : List (List String) :=
  (d.operations.flatMap fun o =>
    ((d.findFields o r.oldName).filter fun found => found.head.alias?.isNone).map
      (·.path)).eraseDups

/-- The keys of a path below `done` as they are after the renaming: the last key of an affected
path has the new name. -/
def renamedBelow (r : FieldRename) (affected : List (List String)) (done : List String) :
    List String → List String
  | [] => []
  | key :: rest =>
    (if done ++ [key] ∈ affected then r.newName else key) ::
      r.renamedBelow affected (done ++ [key]) rest

/-- The response paths of the renamed fields that have no alias, in terms of the document after
the renaming. -/
def recordedPaths (r : FieldRename) (d : Document) : List (List String) :=
  let affected := r.affectedPaths d
  affected.map (r.renamedBelow affected [])

/-- The visitor that gives fields the new name and counts them. -/
def visit (r : FieldRename) : Graphql.Visitor Nat := fun head _ count =>
  (⟨{ head with name := r.newName }, false⟩, count + 1)

/-- The document with the fields renamed, and their number. -/
def renameFields (r : FieldRename) (d : Document) : Document × Nat :=
  (d.editFields r.oldName r.visit).run 0

/-! ### The response -/

/-- The value with the key at the end of a recorded path renamed back. -/
def restorePath (r : FieldRename) (value : Json.Value) (path : List String) : Json.Value :=
  if path.isEmpty then value else renameKeyAt r.newName r.oldName path.dropLast value

/-- The paths with the longest first; paths of one length keep their order. -/
def deepestFirst (paths : List (List String)) : List (List String) :=
  paths.mergeSort fun p q => q.length ≤ p.length

/-- The response with the keys at all recorded paths renamed back. -/
def restore (r : FieldRename) (paths : List (List String)) (response : Json.Value) :
    Json.Value :=
  (deepestFirst paths).foldl r.restorePath response

/-! ### The rule -/

/-- The events of looking for the fields. -/
def walkEvents (d : Document) : List Event :=
  d.operations.flatMap d.skippedSpreads

/-- The rule for an exchange. -/
def toRule (r : FieldRename) : Rule where
  request document values := do
    Traced.report (walkEvents document)
    let (renamed, count) := r.renameFields document
    Traced.report [.fieldsRenamed count r.oldName r.newName]
    return ⟨renamed, values, fun response =>
      pure (r.restore (r.recordedPaths document) response)⟩

end FieldRename

end SchemaBridge
