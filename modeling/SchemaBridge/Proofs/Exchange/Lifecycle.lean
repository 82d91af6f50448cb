import SchemaBridge.Proofs.Exchange.Invocation
import SchemaBridge.Proofs.Exchange.Run

/-!
# The life of an exchange

Which rules have been run by the time that an exchange is in a phase? The request side of every rule
has been run once, in order, and the response side once, in reverse order, up to the first failure.

* `Lifecycle`: the reports of rules by phase;
* `Exchange.lifecycle_afterAll`: they are so after every run of an exchange with watched rules;
* `Exchange.observed_history`: such an exchange does what it does without being watched;
* `Exchange.one_shot`: every run of an exchange, call by call and as a whole.
-/

namespace SchemaBridge

open Graphql (Document)

/-- The reports of the rules of an exchange by the time that it is in a phase. -/
inductive Lifecycle (labels : List String) : Phase → List Event → Prop
  /-- No rule has been run. -/
  | new : Lifecycle labels .new []
  /-- Every rule has succeeded on the request. -/
  | requestDone {requests} : Invoked .request labels true requests →
      Lifecycle labels .requestDone requests
  /-- Every rule has succeeded on the request, and then on the response. -/
  | responseDone {requests responses} : Invoked .request labels true requests →
      Invoked .response labels.reverse true responses →
      Lifecycle labels .responseDone (requests ++ responses)
  /-- The query could not be read. -/
  | unread : Lifecycle labels .failed []
  /-- A rule has failed on the request. -/
  | requestFailed {requests} : Invoked .request labels false requests →
      Lifecycle labels .failed requests
  /-- Every rule has succeeded on the request, and then one has failed on the response. -/
  | responseFailed {requests responses} : Invoked .request labels true requests →
      Invoked .response labels.reverse false responses →
      Lifecycle labels .failed (requests ++ responses)

/-- By any phase every rule has been run at most once for each time that it is listed, on either
side. -/
theorem Lifecycle.runsOf_le {labels : List String} {phase : Phase} {events : List Event}
    (h : Lifecycle labels phase events) (side : Side) (label : String) :
    runsOf side label events ≤ labels.count label := by
  have honly : ∀ {succeeded requests}, Invoked .request labels succeeded requests →
      runsOf side label requests ≤ labels.count label := by
    intro succeeded requests h
    cases side with
    | request => exact h.runsOf_le label
    | response =>
        rw [h.runsOf_of_ne (by decide) label]
        exact Nat.zero_le _
  have hboth : ∀ {succeeded requests responses}, Invoked .request labels true requests →
      Invoked .response labels.reverse succeeded responses →
      runsOf side label (requests ++ responses) ≤ labels.count label := by
    intro succeeded requests responses h h'
    rw [runsOf_append]
    cases side with
    | request =>
        rw [h'.runsOf_of_ne (by decide) label, Nat.add_zero]
        exact h.runsOf_le label
    | response =>
        rw [h.runsOf_of_ne (by decide) label, Nat.zero_add, ← List.count_reverse]
        exact h'.runsOf_le label
  cases h with
  | new => exact Nat.zero_le _
  | requestDone hrequests => exact honly hrequests
  | responseDone hrequests hresponses => exact hboth hrequests hresponses
  | unread => exact Nat.zero_le _
  | requestFailed hrequests => exact honly hrequests
  | responseFailed hrequests hresponses => exact hboth hrequests hresponses

namespace Exchange

/-! ### Watched exchanges -/

/-- The rules of an exchange are watched, and by now these are their reports. -/
structure Watched (labels : List String) (e : Exchange) (events : List Event) : Prop where
  rules : (Rule.sequence e.rules).Watches labels
  restore : ∀ restore, e.stage = .sent restore →
    ∀ response, (restore response).Invokes .response labels.reverse
  lifecycle : Lifecycle labels e.phase events

/-- The reports of a request are those of its rules. -/
theorem adapt_invokes {rules : List Rule} {labels : List String} {query : String} {d : Document}
    (h : (Rule.sequence rules).Watches labels) (hread : Document.read? query = some d)
    (values : Option Json.Object) : (adapt rules query values).Invokes .request labels := by
  have hrest : ∀ adapted : Adapted,
      (do Traced.report [.requestAdapted rules.length adapted.document.definitions.length]
          return adapted : Traced Adapted).Invokes .request [] := fun _ => .done
  simp only [adapt, hread]
  rw [← List.append_nil labels]
  exact (h.request d values).bind fun adapted _ => hrest adapted

/-- The way back that a request leaves behind reports its rules in reverse order. -/
theorem restore_invokes {rules : List Rule} {labels : List String} {query : String}
    {values : Option Json.Object} {adapted : Adapted} (h : (Rule.sequence rules).Watches labels)
    (ok : (adapt rules query values).outcome = .ok adapted) (response : Json.Value) :
    (adapted.restore response).Invokes .response labels.reverse := by
  cases hread : Document.read? query with
  | none =>
      rw [adapt_of_unread hread] at ok
      cases ok
  | some d =>
      simp only [adapt, hread] at ok
      obtain ⟨a, ha, ok⟩ := Traced.outcome_bind_eq_ok.mp ok
      obtain rfl := Except.ok.inj ok
      exact h.restore d values a ha response

variable {labels : List String} {e : Exchange} {events : List Event}

/-- An exchange that is new has run no rule. -/
theorem Watched.of_fresh (h : e.Watched labels events) (hfresh : e.stage = .fresh) :
    events = [] := by
  have hlifecycle := h.lifecycle
  rw [phase_of_fresh hfresh] at hlifecycle
  cases hlifecycle
  rfl

/-- An exchange that has made its request has run the request side of all rules. -/
theorem Watched.of_sent (h : e.Watched labels events) {restore : Restore}
    (hsent : e.stage = .sent restore) : Invoked .request labels true events := by
  have hlifecycle := h.lifecycle
  rw [phase_of_sent hsent] at hlifecycle
  cases hlifecycle with
  | requestDone hrequests => exact hrequests

/-- One call keeps the reports in step with the phase. -/
theorem Watched.step (h : e.Watched labels events) (call : Call) :
    (e.step call).after.Watched labels (events ++ reports (e.step call).log) := by
  have hperforms := e.performs call
  rw [Exchange.step]
  dsimp only
  generalize (e.perform call).1 = after, (e.perform call).2.outcome = outcome,
    (e.perform call).2.log = log at hperforms ⊢
  cases hperforms with
  | outOfTurn hturn =>
      rw [reports, List.filter_nil, List.append_nil]
      exact h
  | @requested query values adapted reply hfresh hadapt =>
      rw [h.of_fresh hfresh, List.nil_append]
      refine ⟨h.rules, ?_, .requestDone ?_⟩
      · rintro restore ⟨⟩ response
        exact restore_invokes h.rules hadapt response
      · cases hread : Document.read? query with
        | none =>
            rw [adapt_of_unread hread] at hadapt
            cases hadapt
        | some d =>
            have hinvokes := adapt_invokes h.rules hread values
            rwa [Traced.Invokes, hadapt] at hinvokes
  | @requestFailed query values failure hfresh hadapt =>
      rw [h.of_fresh hfresh, List.nil_append]
      refine ⟨h.rules, by rintro _ ⟨⟩, ?_⟩
      cases hread : Document.read? query with
      | none =>
          rw [adapt_of_unread hread]
          exact .unread
      | some d =>
          have hinvokes := adapt_invokes h.rules hread values
          rw [Traced.Invokes, hadapt] at hinvokes
          exact .requestFailed hinvokes
  | @restored _ restore data v reply hside hsent hrestore =>
      refine ⟨h.rules, by rintro _ ⟨⟩, ?_⟩
      have hinvokes := h.restore restore hsent data
      rw [Traced.Invokes, hrestore] at hinvokes
      have hreports : reports ((restore data).log ++ [.responseRestored e.rules.length]) =
          reports (restore data).log := by
        rw [reports_append]
        exact List.append_nil _
      rw [hreports]
      exact .responseDone (h.of_sent hsent) hinvokes
  | @restoreFailed _ restore data failure hside hsent hrestore =>
      refine ⟨h.rules, by rintro _ ⟨⟩, ?_⟩
      have hinvokes := h.restore restore hsent data
      rw [Traced.Invokes, hrestore] at hinvokes
      exact .responseFailed (h.of_sent hsent) hinvokes

/-- The reports of a whole run are in step with the phase at its end. -/
theorem Watched.afterAll (h : e.Watched labels events) (calls : List Call) :
    (e.afterAll calls).Watched labels
      (events ++ (e.history calls).flatMap fun s => reports s.log) := by
  induction calls generalizing e events with
  | nil =>
      rw [history, List.flatMap_nil, List.append_nil]
      exact h
  | cons call rest ih =>
      rw [history, List.flatMap_cons, ← List.append_assoc]
      exact ih (h.step call)

end Exchange

/-! ### Watched and unwatched -/

/-- Two exchanges stand at the same point, and their ways back have the same outcomes. -/
inductive Stage.Agrees : Stage → Stage → Prop
  | fresh : Agrees .fresh .fresh
  | sent {restore restore'} : Restore.Agrees restore restore' →
      Agrees (.sent restore) (.sent restore')
  | finished : Agrees .finished .finished
  | failed : Agrees .failed .failed

namespace Exchange

/-- What can be seen of a call from outside: the phases before and after it, and its outcome. -/
def Step.observed (s : Step) : Call × Phase × Phase × Except Failure Reply :=
  (s.call, s.before.phase, s.after.phase, s.outcome)

/-- Two exchanges do the same, and may report different events. -/
structure Agrees (e e' : Exchange) : Prop where
  rules : (Rule.sequence e.rules).Agrees (Rule.sequence e'.rules)
  stage : Stage.Agrees e.stage e'.stage

/-- Rules that do the same make the same of a query. -/
theorem agree_adapt {rules rules' : List Rule}
    (h : (Rule.sequence rules).Agrees (Rule.sequence rules')) (query : String)
    (values : Option Json.Object) :
    Agree Adapted.Agrees (adapt rules query values).outcome
      (adapt rules' query values).outcome := by
  simp only [adapt]
  cases Document.read? query with
  | none => exact .error _
  | some d => exact (h d values).bind fun _ _ ha => .ok ha

variable {e e' : Exchange}

/-- Exchanges that do the same are in the same phase. -/
theorem Agrees.phase_eq (h : e.Agrees e') : e.phase = e'.phase := by
  obtain ⟨rules, stage⟩ := e
  obtain ⟨rules', stage'⟩ := e'
  cases h.stage <;> rfl

/-- Requests of exchanges that do the same have the same outcome, and leave exchanges that do the
same. -/
theorem Agrees.request (h : e.Agrees e') (query : String) (values : Option Json.Object) :
    (e.request query values).1.Agrees (e'.request query values).1 ∧
      (e.request query values).2.outcome = (e'.request query values).2.outcome := by
  obtain ⟨rules, stage⟩ := e
  obtain ⟨rules', stage'⟩ := e'
  obtain ⟨hrules, hstage⟩ := h
  cases hstage with
  | fresh =>
      simp only [Exchange.request]
      obtain ⟨failure, hx, hx'⟩ | ⟨a, a', hx, hx', ha⟩ :=
        (agree_adapt hrules query values).error_or_ok
      · rw [hx, hx']
        exact ⟨⟨hrules, .failed⟩, rfl⟩
      · rw [hx, hx']
        refine ⟨⟨hrules, .sent ha.restore⟩, ?_⟩
        dsimp only
        rw [ha.document, ha.values]
  | sent hrestore => exact ⟨⟨hrules, .sent hrestore⟩, rfl⟩
  | finished => exact ⟨⟨hrules, .finished⟩, rfl⟩
  | failed => exact ⟨⟨hrules, .failed⟩, rfl⟩

/-- Responses of exchanges that do the same have the same outcome, and leave exchanges that do the
same. -/
theorem Agrees.response (h : e.Agrees e') (data : Json.Value) :
    (e.response data).1.Agrees (e'.response data).1 ∧
      (e.response data).2.outcome = (e'.response data).2.outcome := by
  obtain ⟨rules, stage⟩ := e
  obtain ⟨rules', stage'⟩ := e'
  obtain ⟨hrules, hstage⟩ := h
  cases hstage with
  | fresh => exact ⟨⟨hrules, .fresh⟩, rfl⟩
  | @sent restore restore' hrestore =>
      simp only [Exchange.response, hrestore data]
      cases (restore' data).outcome with
      | error failure => exact ⟨⟨hrules, .failed⟩, rfl⟩
      | ok v => exact ⟨⟨hrules, .finished⟩, rfl⟩
  | finished => exact ⟨⟨hrules, .finished⟩, rfl⟩
  | failed => exact ⟨⟨hrules, .failed⟩, rfl⟩

/-- Calls to exchanges that do the same have the same outcome, and leave exchanges that do the
same. -/
theorem Agrees.step (h : e.Agrees e') (call : Call) :
    (e.step call).after.Agrees (e'.step call).after ∧
      (e.step call).outcome = (e'.step call).outcome := by
  cases hside : call.side with
  | request =>
      cases call with
      | request query values =>
          obtain ⟨hafter, houtcome⟩ := h.request query values
          refine ⟨hafter, ?_⟩
          rw [Exchange.step, Exchange.step, perform, perform, Traced.outcome_bind_pure,
            Traced.outcome_bind_pure, houtcome]
      | response data => cases hside
      | responseBody body => cases hside
  | response =>
      obtain ⟨data, wrap, hrelays⟩ := exists_relays_perform hside
      obtain ⟨hafter, houtcome⟩ := h.response data
      rw [Exchange.step, Exchange.step, hrelays.after, hrelays.after, hrelays.outcome,
        hrelays.outcome, houtcome]
      exact ⟨hafter, rfl⟩

/-- Runs of exchanges that do the same look the same from outside. -/
theorem Agrees.history (h : e.Agrees e') (calls : List Call) :
    (e.history calls).map Step.observed = (e'.history calls).map Step.observed := by
  induction calls generalizing e e' with
  | nil => rfl
  | cons call rest ih =>
      obtain ⟨hafter, houtcome⟩ := h.step call
      have hobserved : (e.step call).observed = (e'.step call).observed := by
        rw [Step.observed, Step.observed, hafter.phase_eq, houtcome]
        exact congrArg (fun phase => (call, phase, _)) h.phase_eq
      rw [Exchange.history, Exchange.history, List.map_cons, List.map_cons, hobserved, ih hafter]

/-! ### The life of an exchange -/

/-- **An exchange serves once.** Take any rules, whether they fail or not, and any calls. Every call
leaves the phase as it is or moves it on from the new exchange over its request to its response, or
to failure; it is rejected out of its turn, with the phase that the exchange is in, without running
any rule and without effect on the exchange; it succeeds exactly if it moves the phase on to the end
of one side. Once the response is done or a call has failed, every later call is rejected. All this
holds of the rules as they are and of the rules watched, and watching them changes nothing that can
be seen from outside. It tells which rules have been run by the end: their request sides in order
and their ways back in reverse order, up to the first failure, each at most once. -/
theorem one_shot (rules : List (String × Rule)) (calls : List Call) :
    let plain := (start (rules.map Prod.snd)).history calls
    let watched := (start (rules.map fun w => w.2.watched w.1)).history calls
    let events := watched.flatMap fun s => reports s.log
    (∀ s ∈ plain ++ watched, s.Lawful ∧
      (s.after.phase = s.before.phase ∨ s.before.phase.Moves s.after.phase) ∧
      ((∃ reply, s.outcome = .ok reply) ↔ s.after.phase ≠ s.before.phase ∧
        (s.after.phase = .requestDone ∨ s.after.phase = .responseDone))) ∧
    (plain.Pairwise fun s t => s.after.phase.Spent → t.Rejected) ∧
    (watched.Pairwise fun s t => s.after.phase.Spent → t.Rejected) ∧
    watched.map Step.observed = plain.map Step.observed ∧
    Lifecycle (rules.map Prod.fst)
      ((start (rules.map fun w => w.2.watched w.1)).afterAll calls).phase events ∧
    ∀ side label, runsOf side label events ≤ (rules.map Prod.fst).count label := by
  intro plain watched events
  have hstart : (start (rules.map fun w => w.2.watched w.1)).Watched (rules.map Prod.fst) [] :=
    ⟨Rule.watches_sequence rules, by rintro _ ⟨⟩, .new⟩
  have hagrees : (start (rules.map fun w => w.2.watched w.1)).Agrees (start (rules.map Prod.snd)) :=
    ⟨Rule.agrees_sequence rules, .fresh⟩
  have hlifecycle := (hstart.afterAll calls).lifecycle
  refine ⟨fun s hs => ?_, pairwise_history _ calls, pairwise_history _ calls, hagrees.history calls,
    hlifecycle, hlifecycle.runsOf_le⟩
  have hlawful : s.Lawful :=
    (List.mem_append.mp hs).elim lawful_of_mem_history lawful_of_mem_history
  exact ⟨hlawful, hlawful.moves, hlawful.ok_iff⟩

end Exchange

end SchemaBridge
