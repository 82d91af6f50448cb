import SchemaBridge.Proofs.Rule.Request

/-!
# Runs of an exchange

An exchange may be called in any order and any number of times. It makes one request and takes one
response; every other call is rejected.

* `Call`, `Exchange.perform`: the three calls, and what they return;
* `Exchange.Relays`: every call for the response passes some data on, and returns something with
  what is restored (`Exchange.exists_relays_perform`);
* `Exchange.Performs`: all that a call can do (`Exchange.performs`);
* `Exchange.history`: a run, call by call;
* `Exchange.Step.Lawful`: what holds of every call of every run (`Exchange.lawful_of_mem_history`);
* `Exchange.pairwise_history`: once an exchange is spent every later call is rejected.
-/

namespace SchemaBridge

open Graphql (Document)

/-! ### Calls -/

/-- A call to an exchange, with its arguments. -/
inductive Call where
  | request (query : String) (values : Option Json.Object)
  | response (data : Json.Value)
  | responseBody (body : Json.Value)

/-- What a call that succeeds returns. -/
inductive Reply where
  | request (sent : SentRequest)
  | response (restored : Json.Value)

/-- The side of an exchange that a call is for. -/
def Call.side : Call → Side
  | request .. => .request
  | response .. | responseBody .. => .response

/-- The phase in which it is the turn of a side. -/
def Side.turn : Side → Phase
  | request => .new
  | response => .requestDone

/-- The phase after the call for a side, if it succeeds. -/
def Side.done : Side → Phase
  | request => .requestDone
  | response => .responseDone

/-- A move from one phase to another. -/
inductive Phase.Moves : Phase → Phase → Prop
  | request : Moves .new .requestDone
  | response : Moves .requestDone .responseDone
  | requestFailed : Moves .new .failed
  | responseFailed : Moves .requestDone .failed

/-- No call is left to make. -/
def Phase.Spent (phase : Phase) : Prop :=
  phase = .responseDone ∨ phase = .failed

/-- Making something else of a value keeps failures. -/
theorem Traced.outcome_bind_pure {α β : Type} (x : Traced α) (f : α → β) :
    (x >>= fun a => pure (f a)).outcome = x.outcome.map f := by
  rw [outcome_bind]
  cases x.outcome <;> rfl

/-- Making something else of a value reports nothing. -/
theorem Traced.log_bind_pure {α β : Type} (x : Traced α) (f : α → β) :
    (x >>= fun a => pure (f a)).log = x.log := by
  cases hx : x.outcome with
  | error failure => rw [log_bind_of_error _ hx]
  | ok a => rw [log_bind_of_ok _ hx, log_pure, List.append_nil]

namespace Exchange

/-- The exchange after a call, and what the call returns. -/
def perform (e : Exchange) : Call → Exchange × Traced Reply
  | .request query values =>
    ((e.request query values).1, do return .request (← (e.request query values).2))
  | .response data => ((e.response data).1, do return .response (← (e.response data).2))
  | .responseBody body => ((e.responseBody body).1, do return .response (← (e.responseBody body).2))

/-- A call passes data on as the response, and makes its result of what is restored. -/
structure Relays {α : Type} (call : Exchange → Exchange × Traced α) (data : Json.Value)
    (wrap : Json.Value → α) : Prop where
  after : ∀ e, (call e).1 = (e.response data).1
  outcome : ∀ e, (call e).2.outcome = (e.response data).2.outcome.map wrap
  log : ∀ e, (call e).2.log = (e.response data).2.log

/-- A response is passed on as it is. -/
theorem relays_response (data : Json.Value) : Relays (response · data) data id where
  after _ := rfl
  outcome _ := Except.map_id ▸ rfl
  log _ := rfl

/-- The entries of an envelope with other data. -/
def refill (entries : Json.Object) (data : Json.Value) : Json.Object :=
  Entries.insert (Entries.erase entries dataKey) dataKey data

/-- An envelope passes on its data, and what is restored is put in their place. -/
theorem relays_responseBody_of_data {entries : Json.Object} {data : Json.Value}
    (hdata : Entries.get? entries dataKey = some data) :
    Relays (responseBody · (.object entries)) data fun v => .object (refill entries v) := by
  refine ⟨fun e => ?_, fun e => ?_, fun e => ?_⟩ <;> simp only [responseBody, hdata]
  · exact Traced.outcome_bind_pure _ _
  · exact Traced.log_bind_pure _ _

/-- An envelope without data passes on nothing, and stays what it is. -/
theorem relays_responseBody_of_no_data {entries : Json.Object}
    (hdata : Entries.get? entries dataKey = none) :
    Relays (responseBody · (.object entries)) .null fun _ => .object entries := by
  refine ⟨fun e => ?_, fun e => ?_, fun e => ?_⟩ <;> simp only [responseBody, hdata]
  · exact Traced.outcome_bind_pure _ _
  · exact Traced.log_bind_pure _ _

/-- What is no object is passed on as it is. -/
theorem responseBody_of_not_object {body : Json.Value} (h : ∀ entries, body ≠ .object entries)
    (e : Exchange) : e.responseBody body = e.response body := by
  cases body with
  | null => rfl
  | boolean b => rfl
  | number n => rfl
  | string s => rfl
  | array items => rfl
  | object entries => exact absurd rfl (h entries)

/-- Every response with its envelope passes on some data, and returns something with what is
restored. -/
theorem exists_relays_responseBody (body : Json.Value) :
    ∃ data wrap, Relays (responseBody · body) data wrap := by
  by_cases h : ∃ entries, body = .object entries
  · obtain ⟨entries, rfl⟩ := h
    cases hdata : Entries.get? entries dataKey with
    | some data => exact ⟨_, _, relays_responseBody_of_data hdata⟩
    | none => exact ⟨_, _, relays_responseBody_of_no_data hdata⟩
  · have hresponse : (responseBody · body) = (response · body) :=
      funext (responseBody_of_not_object (not_exists.mp h))
    exact ⟨body, id, hresponse ▸ relays_response body⟩

/-- Every call for the response passes on some data, and makes its reply of what is restored. -/
theorem exists_relays_perform {call : Call} (h : call.side = .response) :
    ∃ data wrap, Relays (perform · call) data wrap := by
  cases call with
  | request query values => cases h
  | response data =>
      exact ⟨data, .response, fun _ => rfl, fun _ => Traced.outcome_bind_pure _ _,
        fun _ => Traced.log_bind_pure _ _⟩
  | responseBody body =>
      obtain ⟨data, wrap, hbody⟩ := exists_relays_responseBody body
      refine ⟨data, fun v => .response (wrap v), hbody.after, fun e => ?_, fun e => ?_⟩
      · refine (Traced.outcome_bind_pure _ _).trans ?_
        rw [hbody.outcome e]
        cases (e.response data).2.outcome <;> rfl
      · exact (Traced.log_bind_pure _ _).trans (hbody.log e)

/-! ### What a call can do -/

/-- A query that cannot be read runs no rule. -/
theorem adapt_of_unread {query : String} (h : Document.read? query = none) (rules : List Rule)
    (values : Option Json.Object) : adapt rules query values = Traced.fail .malformedQuery := by
  simp only [adapt, h]

/-- A fresh exchange is new. -/
theorem phase_of_fresh {e : Exchange} (h : e.stage = .fresh) : e.phase = .new := by
  rw [phase, h]

/-- An exchange that holds the way back has made its request. -/
theorem phase_of_sent {e : Exchange} {restore : Restore} (h : e.stage = .sent restore) :
    e.phase = .requestDone := by
  rw [phase, h]

/-- All that a call can do: the exchange after it, its outcome and its log. -/
inductive Performs (e : Exchange) :
    Call → Exchange → Except Failure Reply → List Event → Prop
  /-- It is not the turn of the side that the call is for. -/
  | outOfTurn {call} : e.phase ≠ call.side.turn →
      Performs e call e (.error (.outOfTurn call.side e.phase)) []
  /-- The request has been made, and the way back is kept. -/
  | requested {query values adapted} (reply : Reply) : e.stage = .fresh →
      (adapt e.rules query values).outcome = .ok adapted →
      Performs e (.request query values) { e with stage := .sent adapted.restore } (.ok reply)
        (adapt e.rules query values).log
  /-- The query could not be read, or a rule has failed on it. -/
  | requestFailed {query values failure} : e.stage = .fresh →
      (adapt e.rules query values).outcome = .error failure →
      Performs e (.request query values) { e with stage := .failed } (.error failure)
        (adapt e.rules query values).log
  /-- The response has taken the way back. -/
  | restored {call restore data v} (reply : Reply) : call.side = .response →
      e.stage = .sent restore → (restore data).outcome = .ok v →
      Performs e call { e with stage := .finished } (.ok reply)
        ((restore data).log ++ [.responseRestored e.rules.length])
  /-- A rule has failed on the response. -/
  | restoreFailed {call restore data failure} : call.side = .response →
      e.stage = .sent restore → (restore data).outcome = .error failure →
      Performs e call { e with stage := .failed } (.error failure) (restore data).log

/-- What a call for the request does is one of these. -/
theorem performs_request (e : Exchange) (query : String) (values : Option Json.Object) :
    Performs e (.request query values) (e.perform (.request query values)).1
      (e.perform (.request query values)).2.outcome (e.perform (.request query values)).2.log := by
  rw [perform, Traced.outcome_bind_pure, Traced.log_bind_pure]
  obtain ⟨rules, stage⟩ := e
  cases stage with
  | fresh =>
      cases h : (adapt rules query values).outcome with
      | error failure =>
          simp only [request, h]
          exact .requestFailed rfl h
      | ok adapted =>
          simp only [request, h]
          exact .requested _ rfl h
  | sent restore => exact .outOfTurn (by rintro ⟨⟩)
  | finished => exact .outOfTurn (by rintro ⟨⟩)
  | failed => exact .outOfTurn (by rintro ⟨⟩)

/-- What a call for the response does is one of these. -/
theorem performs_response (e : Exchange) {call : Call} (hside : call.side = .response) :
    Performs e call (e.perform call).1 (e.perform call).2.outcome (e.perform call).2.log := by
  obtain ⟨data, wrap, hrelays⟩ := exists_relays_perform hside
  rw [hrelays.after, hrelays.outcome, hrelays.log]
  have hrejected : ∀ e : Exchange, e.phase ≠ .requestDone →
      Performs e call e (.error (.outOfTurn .response e.phase)) [] := by
    intro e h
    have hturn : e.phase ≠ call.side.turn := by rwa [hside]
    have hperforms := Performs.outOfTurn hturn
    rwa [hside] at hperforms
  obtain ⟨rules, stage⟩ := e
  cases stage with
  | fresh => exact hrejected ⟨rules, .fresh⟩ (by rintro ⟨⟩)
  | sent restore =>
      cases h : (restore data).outcome with
      | error failure =>
          simp only [response, h]
          exact .restoreFailed hside rfl h
      | ok v =>
          simp only [response, h]
          exact .restored _ hside rfl h
  | finished => exact hrejected ⟨rules, .finished⟩ (by rintro ⟨⟩)
  | failed => exact hrejected ⟨rules, .failed⟩ (by rintro ⟨⟩)

/-- What a call does is one of these. -/
theorem performs (e : Exchange) (call : Call) :
    Performs e call (e.perform call).1 (e.perform call).2.outcome (e.perform call).2.log := by
  cases call with
  | request query values => exact performs_request e query values
  | response data => exact performs_response e rfl
  | responseBody body => exact performs_response e rfl

/-! ### Runs -/

/-- One call of a run: the exchange before it and after it, its outcome and its log. -/
structure Step where
  call : Call
  before : Exchange
  after : Exchange
  outcome : Except Failure Reply
  log : List Event

namespace Step

/-- The call is rejected: it fails with the phase that the exchange is in, runs no rule and leaves
the exchange as it is. -/
structure Rejected (s : Step) : Prop where
  after : s.after = s.before
  outcome : s.outcome = .error (.outOfTurn s.call.side s.before.phase)
  log : s.log = []

/-- The call is admitted: it succeeds and the exchange goes on, or it fails and so does the
exchange. -/
def Admitted (s : Step) : Prop :=
  (s.after.phase = s.call.side.done ∧ ∃ reply, s.outcome = .ok reply) ∨
    (s.after.phase = .failed ∧ ∃ failure, s.outcome = .error failure)

/-- What holds of every call. -/
structure Lawful (s : Step) : Prop where
  /-- A call out of turn is rejected. -/
  rejected : s.before.phase ≠ s.call.side.turn → s.Rejected
  /-- A call in its turn is admitted. -/
  admitted : s.before.phase = s.call.side.turn → s.Admitted
  /-- A query that cannot be read runs no rule. -/
  unread : ∀ query values, s.call = .request query values → Document.read? query = none →
    s.log = []

end Step

/-- One call to an exchange. -/
def step (e : Exchange) (call : Call) : Step :=
  ⟨call, e, (e.perform call).1, (e.perform call).2.outcome, (e.perform call).2.log⟩

/-- A run: calls to an exchange one after the other. -/
def history (e : Exchange) : List Call → List Step
  | [] => []
  | call :: rest => e.step call :: history (e.step call).after rest

/-- The exchange after a run. -/
def afterAll (e : Exchange) (calls : List Call) : Exchange :=
  calls.foldl (fun e call => (e.step call).after) e

/-! ### What holds of every call -/

namespace Step

variable {s : Step}

/-- What a call does is lawful. -/
theorem lawful_of_performs (h : Performs s.before s.call s.after s.outcome s.log) :
    s.Lawful := by
  obtain ⟨call, before, after, outcome, log⟩ := s
  dsimp only at h
  cases h with
  | outOfTurn hturn => exact ⟨fun _ => ⟨rfl, rfl, rfl⟩, fun h => absurd h hturn, fun _ _ _ _ => rfl⟩
  | requested reply hfresh hadapt =>
      refine ⟨fun h => absurd (phase_of_fresh hfresh) h, fun _ => .inl ⟨rfl, reply, rfl⟩, ?_⟩
      rintro query values ⟨⟩ hread
      rw [adapt_of_unread hread] at hadapt
      cases hadapt
  | requestFailed hfresh hadapt =>
      refine ⟨fun h => absurd (phase_of_fresh hfresh) h, fun _ => .inr ⟨rfl, _, rfl⟩, ?_⟩
      rintro query values ⟨⟩ hread
      exact congrArg Traced.log (adapt_of_unread hread _ _)
  | restored reply hside hsent hrestore =>
      refine ⟨fun h => absurd (phase_of_sent hsent) (by rwa [hside] at h),
        fun _ => .inl ⟨by rw [hside]; rfl, reply, rfl⟩, ?_⟩
      rintro query values ⟨⟩
      cases hside
  | restoreFailed hside hsent hrestore =>
      refine ⟨fun h => absurd (phase_of_sent hsent) (by rwa [hside] at h),
        fun _ => .inr ⟨rfl, _, rfl⟩, ?_⟩
      rintro query values ⟨⟩
      cases hside

/-- A lawful call leaves the phase as it is or moves it on. -/
theorem Lawful.moves (h : s.Lawful) :
    s.after.phase = s.before.phase ∨ s.before.phase.Moves s.after.phase := by
  by_cases hturn : s.before.phase = s.call.side.turn
  · refine .inr ?_
    rw [hturn]
    obtain ⟨hafter, -⟩ | ⟨hafter, -⟩ := h.admitted hturn <;> rw [hafter] <;> cases s.call.side
    · exact .request
    · exact .response
    · exact .requestFailed
    · exact .responseFailed
  · exact .inl (congrArg phase (h.rejected hturn).after)

/-- A lawful call succeeds exactly if it moves the phase on to the end of one side. -/
theorem Lawful.ok_iff (h : s.Lawful) :
    (∃ reply, s.outcome = .ok reply) ↔ s.after.phase ≠ s.before.phase ∧
      (s.after.phase = .requestDone ∨ s.after.phase = .responseDone) := by
  by_cases hturn : s.before.phase = s.call.side.turn
  · obtain ⟨hafter, hok⟩ | ⟨hafter, failure, herror⟩ := h.admitted hturn
    · refine iff_of_true hok ?_
      rw [hafter, hturn]
      cases s.call.side <;> simp [Side.done, Side.turn]
    · refine iff_of_false ?_ ?_
      · rintro ⟨reply, hok⟩
        exact absurd (herror.symm.trans hok) nofun
      · rw [hafter]
        simp
  · obtain ⟨hafter, herror, -⟩ := h.rejected hturn
    refine iff_of_false ?_ fun hmoves => hmoves.1 (congrArg phase hafter)
    rintro ⟨reply, hok⟩
    exact absurd (herror.symm.trans hok) nofun

end Step

/-- It is nobody's turn in an exchange that is spent. -/
theorem turn_ne_of_spent {e : Exchange} (h : e.phase.Spent) (side : Side) :
    e.phase ≠ side.turn := by
  obtain h | h := h <;> rw [h] <;> cases side <;> nofun

/-- Every call to an exchange is lawful. -/
theorem lawful_step (e : Exchange) (call : Call) : (e.step call).Lawful :=
  Step.lawful_of_performs (e.performs call)

/-- Every call of a run is lawful. -/
theorem lawful_of_mem_history {e : Exchange} {calls : List Call} {s : Step}
    (h : s ∈ e.history calls) : s.Lawful := by
  induction calls generalizing e with
  | nil => exact absurd h List.not_mem_nil
  | cons call rest ih =>
      rcases List.mem_cons.mp h with rfl | h
      · exact e.lawful_step call
      · exact ih h

/-- Every call to an exchange that is spent is rejected. -/
theorem rejected_of_spent {e : Exchange} (h : e.phase.Spent) {calls : List Call} {s : Step}
    (hs : s ∈ e.history calls) : s.Rejected := by
  induction calls with
  | nil => exact absurd hs List.not_mem_nil
  | cons call rest ih =>
      have hrejected := (e.lawful_step call).rejected (turn_ne_of_spent h call.side)
      have hafter : (e.step call).after = e := hrejected.after
      rw [history, hafter] at hs
      rcases List.mem_cons.mp hs with rfl | hs
      · exact hrejected
      · exact ih hs

/-- Once an exchange is spent every later call of a run is rejected. -/
theorem pairwise_history (e : Exchange) (calls : List Call) :
    (e.history calls).Pairwise fun s t => s.after.phase.Spent → t.Rejected := by
  induction calls generalizing e with
  | nil => exact .nil
  | cons call rest ih => exact (ih _).cons fun t ht hspent => rejected_of_spent hspent ht

end Exchange

end SchemaBridge
