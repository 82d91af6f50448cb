import SchemaBridge.Graphql.Document
import SchemaBridge.Log

/-!
# Fields as they are executed

The fields that an operation selects, in the order of the text, with the fragments that it
spreads written out at their spreads.

* `walk`: every field met on the way with its response path, and every spread that leads
  nowhere;
* `Document.findFields`: the fields with a name;
* `Document.skippedSpreads`: why spreads were not followed.

A fragment is written out with the fragments that are still available; its own name is not
among them, so a fragment that spreads itself is expanded once a chain and the walk ends.
-/

namespace SchemaBridge.Graphql

/-- A field met on a walk: the field, the selections beneath it, and the response keys that lead
to it, its own included. -/
structure Occurrence where
  head : Field
  selections : List Selection
  path : List String
deriving Repr

/-- One step of a walk. -/
inductive Step where
  /-- A field was met. -/
  | field (occurrence : Occurrence)
  /-- A spread was not followed, since its fragment is not available. -/
  | skipped (fragment : String)
deriving Repr

/-- The steps through selections that stand at a response path. Inline fragments and spreads add
nothing to the path. -/
def walk (available : List Fragment) (path : List String) : List Selection → List Step
  | [] => []
  | .field head selections :: rest =>
    .field ⟨head, selections, path ++ [head.responseKey]⟩ ::
      (walk available (path ++ [head.responseKey]) selections ++ walk available path rest)
  | .inlineFragment _ _ selections :: rest =>
    walk available path selections ++ walk available path rest
  | .spread name _ :: rest =>
    match found : Fragment.named? name available with
    | none => .skipped name :: walk available path rest
    | some fragment =>
      have := Fragment.length_without_lt found
      walk (Fragment.without name available) path fragment.selections ++ walk available path rest
termination_by selections => (available.length, sizeOf selections)

namespace Document

/-- The steps through an operation of a document. -/
def walk (d : Document) (o : Operation) : List Step :=
  Graphql.walk d.fragments [] o.selections

/-- The fields with a name that an operation selects. -/
def findFields (d : Document) (o : Operation) (name : String) : List Occurrence :=
  (d.walk o).filterMap fun
    | .field occurrence => if occurrence.head.name = name then some occurrence else none
    | .skipped _ => none

/-- Why the spread of an unavailable fragment was not followed: a fragment of the document is
being expanded already. -/
def skippedEvent (d : Document) (fragment : String) : Event :=
  if (Fragment.named? fragment d.fragments).isSome then .cyclicSpread fragment
  else .undefinedSpread fragment

/-- The events of the spreads that were not followed in an operation. -/
def skippedSpreads (d : Document) (o : Operation) : List Event :=
  (d.walk o).filterMap fun
    | .field _ => none
    | .skipped fragment => some (d.skippedEvent fragment)

end Document

end SchemaBridge.Graphql
