import SchemaBridge.Graphql.Document
import SchemaBridge.Traced

/-!
# Rules

A rule adapts the request of an exchange to another schema, and says how the response is to be
restored to the shape that was asked for.

* `Adapted`: a request after a rule, with the way back for its response;
* `Rule`: what a rule does to a request;
* `Rule.sequence`: rules one after the other as one rule. Each sees the request that the one
  before it made, and the way back passes through them in reverse order.
-/

namespace SchemaBridge

/-- The way back for a response. -/
abbrev Restore := Json.Value → Traced Json.Value

/-- A request after a rule: the document, the variables, and the way back. -/
structure Adapted where
  document : Graphql.Document
  values : Option Json.Object
  restore : Restore

/-- A rule, as what it does to the document and variables of a request. -/
structure Rule where
  request : Graphql.Document → Option Json.Object → Traced Adapted

/-- The rule that changes nothing. -/
def Rule.identity : Rule where
  request document values := pure ⟨document, values, pure⟩

/-- One rule and then another. -/
def Rule.followedBy (first second : Rule) : Rule where
  request document values := do
    let a ← first.request document values
    let b ← second.request a.document a.values
    return ⟨b.document, b.values, fun response => do a.restore (← b.restore response)⟩

/-- Rules one after the other. -/
def Rule.sequence : List Rule → Rule
  | [] => .identity
  | rule :: rest => rule.followedBy (.sequence rest)

end SchemaBridge
