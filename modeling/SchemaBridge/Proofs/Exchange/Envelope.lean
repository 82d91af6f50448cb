import SchemaBridge.Proofs.Exchange.Invocation
import SchemaBridge.Proofs.Exchange.Run
import SchemaBridge.Proofs.Json.Entries

/-!
# Responses with their envelopes

A response that comes with its envelope is restored as its data would be by itself. The rules do not
see the envelope, and what they make of missing data is not kept.

* `Exchange.Answers`: one call leaves the same exchange as another, reports the same and fails with
  the same failure, or both succeed and what they return is related;
* `Exchange.Refilled`: an envelope with other data, and the same otherwise;
* `Exchange.responseBody_answers`: the call for an envelope answers as the call for its data, in
  every phase and under all rules.
-/

namespace SchemaBridge

/-- Computations with the same outcome and the same events are the same. -/
theorem Traced.ext {α : Type} {x y : Traced α} (outcome : x.outcome = y.outcome)
    (log : x.log = y.log) : x = y := by
  cases x
  cases y
  cases outcome
  cases log
  rfl

namespace Exchange

variable {α β : Type}

/-- A call answers as another one does: the exchange after it and its log are the same, and both
fail with the same failure or return values that are related. -/
structure Answers (R : α → β → Prop) (asked : Exchange × Traced α) (answer : Exchange × Traced β) :
    Prop where
  after : answer.1 = asked.1
  log : answer.2.log = asked.2.log
  outcome : Agree R asked.2.outcome answer.2.outcome

/-- A call that passes data on answers as the response for these data. -/
theorem Relays.answers {call : Exchange → Exchange × Traced α} {data : Json.Value}
    {wrap : Json.Value → α} (h : Relays call data wrap) {R : Json.Value → α → Prop}
    (hwrap : ∀ v, R v (wrap v)) (e : Exchange) : Answers R (e.response data) (call e) :=
  ⟨h.after e, h.log e, h.outcome e ▸ Agree.map hwrap _⟩

/-! ### Calls out of turn -/

/-- A response out of turn is rejected, whatever it is. -/
theorem response_of_phase_ne {e : Exchange} (h : e.phase ≠ .requestDone) (data : Json.Value) :
    e.response data = (e, Traced.fail (.outOfTurn .response e.phase)) := by
  obtain ⟨rules, stage⟩ := e
  cases stage with
  | fresh => rfl
  | sent restore => exact absurd rfl h
  | finished => rfl
  | failed => rfl

/-- A response with its envelope is rejected out of turn just as the response is. -/
theorem responseBody_of_phase_ne {e : Exchange} (h : e.phase ≠ .requestDone) (body : Json.Value) :
    e.responseBody body = (e, Traced.fail (.outOfTurn .response e.phase)) := by
  obtain ⟨data, wrap, hrelays⟩ := exists_relays_responseBody body
  refine Prod.ext ?_ (Traced.ext ?_ ?_)
  · rw [hrelays.after, response_of_phase_ne h]
  · rw [hrelays.outcome, response_of_phase_ne h]
    rfl
  · rw [hrelays.log, response_of_phase_ne h]

/-! ### Envelopes -/

/-- Entries with what was restored as their data: all others are the same. In an envelope that was
read the keys ascend, and they are the same in the same order. -/
structure Refilled (before : Json.Object) (restored : Json.Value) (after : Json.Object) : Prop where
  data : Entries.get? after dataKey = some restored
  others : ∀ key, key ≠ dataKey → Entries.get? after key = Entries.get? before key
  keys : before.Ascending → after.map Prod.fst = before.map Prod.fst

/-- An envelope that has data is refilled. -/
theorem refilled_refill {entries : Json.Object} {data : Json.Value}
    (hdata : Entries.get? entries dataKey = some data) (restored : Json.Value) :
    Refilled entries restored (refill entries restored) := by
  refine ⟨Entries.get?_insert_self _ _ _, fun key hkey => ?_, fun hascending => ?_⟩
  · rw [refill, Entries.get?_insert_of_ne _ _ hkey.symm, Entries.get?_erase_of_ne _ hkey.symm]
  · rw [refill, hascending.insert_erase hdata, Entries.map_fst_replace]

/-- **The call for an envelope answers as the call for its data.** An envelope that has data is
refilled with what these are restored to. An envelope without data answers as the call for `null`,
and is returned as it is, whatever was made of `null`. What is no object is the response itself. If
no response is awaited both calls are rejected alike, and leave the exchange as it is. -/
theorem responseBody_answers (e : Exchange) :
    (∀ entries data, Entries.get? entries dataKey = some data →
      Answers (fun restored body => ∃ after, body = .object after ∧ Refilled entries restored after)
        (e.response data) (e.responseBody (.object entries))) ∧
    (∀ entries, Entries.get? entries dataKey = none →
      Answers (fun _ body => body = .object entries)
        (e.response .null) (e.responseBody (.object entries))) ∧
    (∀ body, (∀ entries, body ≠ .object entries) → e.responseBody body = e.response body) ∧
    (e.phase ≠ .requestDone → ∀ body data,
      e.responseBody body = (e, Traced.fail (.outOfTurn .response e.phase)) ∧
        e.response data = (e, Traced.fail (.outOfTurn .response e.phase))) := by
  refine ⟨fun entries data hdata => ?_, fun entries hdata => ?_, fun body hbody => ?_,
    fun hphase body data => ?_⟩
  · exact (relays_responseBody_of_data hdata).answers
      (fun restored => ⟨_, rfl, refilled_refill hdata restored⟩) e
  · exact (relays_responseBody_of_no_data hdata).answers
      (R := fun _ body => body = .object entries) (fun _ => rfl) e
  · exact responseBody_of_not_object hbody e
  · exact ⟨responseBody_of_phase_ne hphase body, response_of_phase_ne hphase data⟩

/-- An exchange under one rule, whose request has been made. -/
def awaiting (restore : Restore) : Exchange :=
  ⟨[⟨fun document values => pure ⟨document, values, restore⟩⟩], .sent restore⟩

/-- A way back that puts data in a list, and fails without data. -/
def listed : Restore
  | .null => Traced.fail (.coercion "data" (.text "missing"))
  | data => pure (.array [data])

/-- Data are replaced in their envelope; without data a way back may fail, or what it makes of
`null` is not kept; and before the request every response is rejected. -/
theorem responseBody_answers_awaiting :
    (∃ after, ((awaiting listed).responseBody
        (.object [("data", .boolean true), ("errors", .array [])])).2.outcome = .ok (.object after) ∧
      Refilled [("data", .boolean true), ("errors", .array [])] (.array [.boolean true]) after) ∧
    ((awaiting listed).responseBody (.object [("errors", .array [])])).2.outcome =
      .error (.coercion "data" (.text "missing")) ∧
    ((awaiting listed).responseBody (.object [("errors", .array [])])).1.phase = .failed ∧
    ((awaiting fun _ => pure (.boolean true)).responseBody
      (.object [("errors", .array [])])).2.outcome = .ok (.object [("errors", .array [])]) ∧
    ((awaiting listed).responseBody (.boolean true)).2.outcome = .ok (.array [.boolean true]) ∧
    (start []).phase ≠ .requestDone ∧
    (start []).responseBody (.object [("data", .boolean true)]) =
      (start [], Traced.fail (.outOfTurn .response .new)) := by
  obtain ⟨hdata, hmissing, hbare, -⟩ := responseBody_answers (awaiting listed)
  have hfull := hdata [("data", .boolean true), ("errors", .array [])] _ rfl
  have hfailed := hmissing [("errors", .array [])] rfl
  have hkept := (responseBody_answers (awaiting fun _ => pure (.boolean true))).2.1
    [("errors", .array [])] rfl
  have hnew : (start []).phase ≠ .requestDone := Phase.noConfusion
  refine ⟨?_, ?_, ?_, ?_, ?_, hnew, ?_⟩
  · obtain ⟨_, herror, -⟩ | ⟨restored, body, hrestored, hbody, after, rfl, hafter⟩ :=
      hfull.outcome.error_or_ok
    · cases herror
    · cases hrestored
      exact ⟨after, hbody, hafter⟩
  · obtain ⟨_, herror, hbody⟩ | ⟨_, _, hrestored, -⟩ := hfailed.outcome.error_or_ok
    · cases herror
      exact hbody
    · cases hrestored
  · exact congrArg phase hfailed.after
  · obtain ⟨_, herror, -⟩ | ⟨_, _, -, hbody, rfl⟩ := hkept.outcome.error_or_ok
    · cases herror
    · exact hbody
  · rw [hbare _ fun _ => Json.Value.noConfusion]
    rfl
  · exact ((responseBody_answers (start [])).2.2.2 hnew _ .null).1

end Exchange

end SchemaBridge
