import SchemaBridge.Exchange
import SchemaBridge.Proofs.Outcome
import SchemaBridge.Rule.ArgumentName
import SchemaBridge.Rule.ArgumentType
import SchemaBridge.Rule.FieldName

/-!
# Requests that succeed

What a request leaves behind, if it does not fail.

* `ArgumentRetype.request_eq_ok`, `ArgumentRename.outcome_request`, `FieldRename.outcome_request`:
  the outcome of a request under one rule;
* `Rule.followedBy_eq_ok`: the outcome under two rules;
* `Exchange.outcome_request_start`, `Exchange.request_start`, `Exchange.outcome_response_sent`: an
  exchange sends what its rules have made of a request, keeps their way back, and takes it.
-/

namespace SchemaBridge

open Graphql (Document)

/-! ### One rule -/

section

variable {d : Document} {values : Option Json.Object} {adapted : Adapted}

/-- A request under a rule for types succeeds if the values can be converted. -/
theorem ArgumentRetype.request_eq_ok {r : ArgumentRetype} :
    (r.toRule.request d values).outcome = .ok adapted ↔
      ∃ values', (r.convertValues [] values (r.redeclared d)).outcome = .ok values' ∧
        adapted = ⟨r.retypeVariables d, values', pure⟩ := by
  constructor
  · intro h
    obtain ⟨_, -, h⟩ := Traced.outcome_bind_eq_ok.mp h
    obtain ⟨values', hvalues, h⟩ := Traced.outcome_bind_eq_ok.mp h
    exact ⟨values', hvalues, (Except.ok.inj h).symm⟩
  · rintro ⟨values', hvalues, rfl⟩
    refine Traced.outcome_bind_eq_ok.mpr ⟨(), rfl, ?_⟩
    exact Traced.outcome_bind_eq_ok.mpr ⟨values', hvalues, rfl⟩

/-- A request under a rule for types, from the variables that it redeclares. -/
theorem ArgumentRetype.request_of_redeclared {r : ArgumentRetype} {names : List String}
    {values' : Option Json.Object} (hnames : r.redeclared d = names)
    (hvalues : (r.convertValues [] values names).outcome = .ok values') :
    (r.toRule.request d values).outcome = .ok ⟨r.retypeVariables d, values', pure⟩ := by
  subst hnames
  exact request_eq_ok.mpr ⟨values', hvalues, rfl⟩

/-- A request under a rule for names of arguments succeeds. -/
theorem ArgumentRename.outcome_request (r : ArgumentRename) :
    (r.toRule.request d values).outcome = .ok ⟨(r.renameArguments d).1, values, pure⟩ := rfl

/-- A request under a rule for names of fields succeeds, and records paths for the way back. -/
theorem FieldRename.outcome_request (r : FieldRename) :
    (r.toRule.request d values).outcome = .ok ⟨(r.renameFields d).1, values,
      fun response => pure (r.restore (r.recordedPaths d) response)⟩ := rfl

/-! ### Rules in sequence -/

/-- A request under two rules succeeds if the first rule does, and then the second one on what the
first has made of the request. The way back passes through the second rule first. -/
theorem Rule.followedBy_eq_ok {first second : Rule} :
    ((first.followedBy second).request d values).outcome = .ok adapted ↔
      ∃ a b, (first.request d values).outcome = .ok a ∧
        (second.request a.document a.values).outcome = .ok b ∧
        adapted = ⟨b.document, b.values, fun response => b.restore response >>= a.restore⟩ := by
  constructor
  · intro h
    obtain ⟨a, ha, h⟩ := Traced.outcome_bind_eq_ok.mp h
    obtain ⟨b, hb, h⟩ := Traced.outcome_bind_eq_ok.mp h
    exact ⟨a, b, ha, hb, (Except.ok.inj h).symm⟩
  · rintro ⟨a, b, ha, hb, rfl⟩
    refine Traced.outcome_bind_eq_ok.mpr ⟨a, ha, ?_⟩
    exact Traced.outcome_bind_eq_ok.mpr ⟨b, hb, rfl⟩

/-! ### An exchange -/

section Start

variable {rules : List Rule} {query : String}

/-- A query that is read is adapted as its document is. -/
theorem Exchange.outcome_adapt (hread : Document.read? query = some d)
    (ok : ((Rule.sequence rules).request d values).outcome = .ok adapted) :
    (adapt rules query values).outcome = .ok adapted := by
  simp only [adapt, hread]
  rw [Traced.outcome_bind_eq_ok]
  exact ⟨adapted, ok, rfl⟩

/-- After a request that succeeds an exchange keeps the way back. -/
theorem Exchange.request_start (hread : Document.read? query = some d)
    (ok : ((Rule.sequence rules).request d values).outcome = .ok adapted) :
    ((Exchange.start rules).request query values).1 = ⟨rules, .sent adapted.restore⟩ := by
  simp only [start, request, outcome_adapt hread ok]

/-- What an exchange sends for a query that is read. -/
theorem Exchange.outcome_request_start (hread : Document.read? query = some d)
    (ok : ((Rule.sequence rules).request d values).outcome = .ok adapted) :
    ((Exchange.start rules).request query values).2.outcome =
      .ok ⟨adapted.document.print, adapted.values⟩ := by
  simp only [start, request, outcome_adapt hread ok]

end Start

/-- A response to a request takes the way back. -/
theorem Exchange.outcome_response_sent (rules : List Rule) (restore : Restore) (v : Json.Value) :
    ((⟨rules, .sent restore⟩ : Exchange).response v).2.outcome = (restore v).outcome := by
  rw [response]
  cases h : (restore v).outcome <;> simp [h]

end

end SchemaBridge
