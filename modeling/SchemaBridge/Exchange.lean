import SchemaBridge.Graphql.Printer
import SchemaBridge.Graphql.Reader
import SchemaBridge.Rule

/-!
# Exchanges

One request and the one response to it, under a list of rules.

* `Exchange.request`: reads the query, applies the rules in order and prints the document;
* `Exchange.response`: takes the way back that the request left behind;
* `Exchange.responseBody`: the same for a response with its envelope, of which only `data`
  changes;
* `Exchange.phase`: an exchange goes from `new` over `requestDone` to `responseDone`, or to
  `failed` at the first failure. A call out of turn changes nothing.
-/

namespace SchemaBridge

open Graphql (Document)

/-- Where an exchange stands: after a request it holds the way back. -/
inductive Stage where
  | fresh
  | sent (restore : Restore)
  | finished
  | failed

/-- A list of rules with the state of the one exchange that they serve. -/
structure Exchange where
  rules : List Rule
  stage : Stage

/-- A request as it is sent to the server. -/
structure SentRequest where
  query : String
  values : Option Json.Object

namespace Exchange

/-- An exchange that has not begun. -/
def start (rules : List Rule) : Exchange :=
  ⟨rules, .fresh⟩

/-- The phase that an exchange is in. -/
def phase (e : Exchange) : Phase :=
  match e.stage with
  | .fresh => .new
  | .sent _ => .requestDone
  | .finished => .responseDone
  | .failed => .failed

/-- The request under the rules, with the way back for its response. -/
def adapt (rules : List Rule) (query : String) (values : Option Json.Object) :
    Traced Adapted :=
  match Document.read? query with
  | none => Traced.fail .malformedQuery
  | some document => do
    let adapted ← (Rule.sequence rules).request document values
    Traced.report [.requestAdapted rules.length adapted.document.definitions.length]
    return adapted

/-- Makes the request of an exchange. -/
def request (e : Exchange) (query : String) (values : Option Json.Object) :
    Exchange × Traced SentRequest :=
  match e.stage with
  | .fresh =>
    let result := adapt e.rules query values
    match result.outcome with
    | .error failure => ({ e with stage := .failed }, ⟨.error failure, result.log⟩)
    | .ok adapted =>
      ({ e with stage := .sent adapted.restore },
        ⟨.ok ⟨adapted.document.print, adapted.values⟩, result.log⟩)
  | _ => (e, Traced.fail (.outOfTurn .request e.phase))

/-- Takes the response of an exchange. -/
def response (e : Exchange) (data : Json.Value) : Exchange × Traced Json.Value :=
  match e.stage with
  | .sent restore =>
    let result := restore data
    match result.outcome with
    | .error failure => ({ e with stage := .failed }, ⟨.error failure, result.log⟩)
    | .ok restored =>
      ({ e with stage := .finished },
        ⟨.ok restored, result.log ++ [.responseRestored e.rules.length]⟩)
  | _ => (e, Traced.fail (.outOfTurn .response e.phase))

/-- The key of an envelope under which the data stands. -/
def dataKey : String := "data"

/-- Takes the response of an exchange with its envelope. An envelope without data is kept as it
is, and what is no object counts as the data itself. -/
def responseBody (e : Exchange) (body : Json.Value) : Exchange × Traced Json.Value :=
  match body with
  | .object entries =>
    match Entries.get? entries dataKey with
    | some data =>
      let (e', result) := e.response data
      (e', do return .object (Entries.insert (Entries.erase entries dataKey) dataKey (← result)))
    | none =>
      let (e', result) := e.response .null
      (e', do
        let _ ← result
        return .object entries)
  | body => e.response body

end Exchange

end SchemaBridge
