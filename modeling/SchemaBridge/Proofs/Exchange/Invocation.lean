import SchemaBridge.Proofs.Rule.Request

/-!
# Rules that are watched

Which rules does an exchange run, and in which order? A rule that is watched reports that it has
been run, on either side of the exchange, and whether it has succeeded. Nothing else is changed.

* `Rule.watched`: a rule that reports its own runs and nothing else;
* `Invoked`: the reports of rules run in an order, up to the first one that fails. Each is run once
  (`Invoked.runsOf_le`);
* `Rule.Watches`: the request side of a rule reports some rules in their order, and its way back
  reports them in reverse order. That is so for watched rules in sequence (`watches_sequence`);
* `Rule.Agrees`: two rules do the same and may report different events. A watched rule agrees with
  the rule (`Rule.agrees_watched`), and so do sequences of them (`Rule.agrees_sequence`).
-/

namespace SchemaBridge

/-! ### Reports -/

/-- The report that a rule has been run on one side of an exchange. -/
def invoked (side : Side) (label : String) (succeeded : Bool) : Event :=
  .note (if succeeded then .debug else .error) side.callName label

/-- The reports of rules in a log, without the events of the exchange itself. -/
def reports (log : List Event) : List Event :=
  log.filter fun
    | .note .. => true
    | _ => false

/-- The reports of a log in two parts. -/
theorem reports_append (log log' : List Event) :
    reports (log ++ log') = reports log ++ reports log' :=
  List.filter_append ..

/-- The reports of rules run one after the other, and whether all have succeeded: none is run after
the first one that fails. -/
inductive Invoked (side : Side) : List String → Bool → List Event → Prop
  | done : Invoked side [] true []
  | failed (label : String) (rest : List String) :
      Invoked side (label :: rest) false [invoked side label false]
  | next {label rest succeeded events} : Invoked side rest succeeded events →
      Invoked side (label :: rest) succeeded (invoked side label true :: events)

/-- After rules that have all succeeded others are run. -/
theorem Invoked.append {side : Side} {labels labels' : List String} {succeeded : Bool}
    {events events' : List Event} (h : Invoked side labels true events)
    (h' : Invoked side labels' succeeded events') :
    Invoked side (labels ++ labels') succeeded (events ++ events') := by
  induction labels generalizing events with
  | nil =>
      cases h
      exact h'
  | cons label rest ih =>
      cases h with
      | next hrest => exact .next (ih hrest)

/-- After a rule that has failed no other one is run. -/
theorem Invoked.append_of_failed {side : Side} {labels : List String} {events : List Event}
    (h : Invoked side labels false events) (labels' : List String) :
    Invoked side (labels ++ labels') false events := by
  induction labels generalizing events with
  | nil => cases h
  | cons label rest ih =>
      cases h with
      | failed => exact .failed label (rest ++ labels')
      | next hrest => exact .next (ih hrest)

/-- How often a rule has been run on a side, as the reports tell. -/
def runsOf (side : Side) (label : String) (events : List Event) : Nat :=
  events.countP fun event => event = invoked side label true ∨ event = invoked side label false

/-- A report tells the side, the rule and whether it has succeeded. -/
theorem invoked_eq_iff {side side' : Side} {label label' : String} {succeeded succeeded' : Bool} :
    invoked side label succeeded = invoked side' label' succeeded' ↔
      side = side' ∧ label = label' ∧ succeeded = succeeded' := by
  cases side <;> cases side' <;> cases succeeded <;> cases succeeded' <;>
    simp [invoked, Side.callName]

/-- One more report counts for its rule on its side. -/
theorem runsOf_cons (side side' : Side) (label label' : String) (succeeded : Bool)
    (events : List Event) :
    runsOf side label (invoked side' label' succeeded :: events) =
      runsOf side label events + if side' = side ∧ label' = label then 1 else 0 := by
  rw [runsOf, List.countP_cons, runsOf]
  simp only [invoked_eq_iff, decide_eq_true_eq]
  cases succeeded <;> simp

/-- The runs in two parts. -/
theorem runsOf_append (side : Side) (label : String) (events events' : List Event) :
    runsOf side label (events ++ events') = runsOf side label events + runsOf side label events' :=
  List.countP_append

/-- Every rule is run at most once for each time that it is listed. -/
theorem Invoked.runsOf_le {side : Side} {labels : List String} {succeeded : Bool}
    {events : List Event} (h : Invoked side labels succeeded events) (label : String) :
    runsOf side label events ≤ labels.count label := by
  induction h with
  | done => exact Nat.zero_le _
  | failed first rest =>
      rw [runsOf_cons, List.count_cons]
      by_cases hlabel : first = label <;> simp [hlabel, runsOf]
  | next _ ih =>
      rw [runsOf_cons, List.count_cons]
      simpa using ih

/-- No rule is run on the other side. -/
theorem Invoked.runsOf_of_ne {side side' : Side} {labels : List String} {succeeded : Bool}
    {events : List Event} (h : Invoked side labels succeeded events) (hne : side ≠ side')
    (label : String) : runsOf side' label events = 0 := by
  induction h with
  | done => rfl
  | failed first rest => rw [runsOf_cons, if_neg fun h => hne h.1, runsOf, List.countP_nil]
  | next _ ih => rw [runsOf_cons, if_neg fun h => hne h.1, ih]

namespace Traced

variable {α β : Type}

/-- The computation with a report in place of its own events. -/
def watched (side : Side) (label : String) (x : Traced α) : Traced α :=
  ⟨x.outcome, [invoked side label x.outcome.isOk]⟩

/-- The reports of the computation are those of rules run one after the other. -/
def Invokes (side : Side) (labels : List String) (x : Traced α) : Prop :=
  Invoked side labels x.outcome.isOk (reports x.log)

/-- A value by itself runs no rules. -/
theorem invokes_pure (side : Side) (a : α) : (pure a : Traced α).Invokes side [] :=
  .done

/-- A watched computation is one run. -/
theorem invokes_watched (side : Side) (label : String) (x : Traced α) :
    (x.watched side label).Invokes side [label] := by
  obtain ⟨outcome, log⟩ := x
  cases outcome with
  | error failure => exact .failed label []
  | ok a => exact .next .done

/-- The rules of a sequence are run one after the other. -/
theorem Invokes.bind {side : Side} {labels labels' : List String} {x : Traced α} {f : α → Traced β}
    (h : x.Invokes side labels) (h' : ∀ a, x.outcome = .ok a → (f a).Invokes side labels') :
    (x >>= f).Invokes side (labels ++ labels') := by
  rw [Invokes] at h
  cases hx : x.outcome with
  | error failure =>
      rw [hx] at h
      rw [Invokes, outcome_bind, log_bind_of_error f hx, hx]
      exact h.append_of_failed labels'
  | ok a =>
      rw [hx] at h
      rw [Invokes, outcome_bind, log_bind_of_ok f hx, hx, reports_append]
      exact h.append (h' a hx)

end Traced

/-! ### Watched rules -/

namespace Rule

/-- A rule that reports its own runs, and nothing else. -/
def watched (label : String) (rule : Rule) : Rule where
  request document values := do
    let a ← (rule.request document values).watched .request label
    return { a with restore := fun response => (a.restore response).watched .response label }

/-- The request side of the rule reports some rules in their order, and its way back reports them in
reverse order. -/
structure Watches (labels : List String) (rule : Rule) : Prop where
  request : ∀ document values, (rule.request document values).Invokes .request labels
  restore : ∀ document values a, (rule.request document values).outcome = .ok a →
    ∀ response, (a.restore response).Invokes .response labels.reverse

/-- The rule that changes nothing runs no rules. -/
theorem watches_identity : identity.Watches [] where
  request _ _ := Traced.invokes_pure .request _
  restore _ _ _ ok _ := by
    obtain rfl := Except.ok.inj ok
    exact Traced.invokes_pure .response _

/-- A watched rule reports itself. -/
theorem watches_watched (label : String) (rule : Rule) : (rule.watched label).Watches [label] where
  request document values :=
    (Traced.invokes_watched .request label _).bind fun _ _ => Traced.invokes_pure .request _
  restore document values a ok response := by
    obtain ⟨a, -, ha⟩ := Traced.outcome_bind_eq_ok.mp ok
    obtain rfl := Except.ok.inj ha
    exact Traced.invokes_watched .response label (a.restore response)

/-- One rule and then another report the rules of both; on the way back those of the second come
first. -/
theorem Watches.followedBy {labels labels' : List String} {first second : Rule}
    (h : first.Watches labels) (h' : second.Watches labels') :
    (first.followedBy second).Watches (labels ++ labels') where
  request document values := by
    have hrest : ∀ a : Adapted,
        (do let b ← second.request a.document a.values
            return (⟨b.document, b.values, fun response => do
              a.restore (← b.restore response)⟩ : Adapted)).Invokes .request labels' := by
      intro a
      rw [← List.append_nil labels']
      exact (h'.request a.document a.values).bind fun _ _ => Traced.invokes_pure .request _
    exact (h.request document values).bind fun a _ => hrest a
  restore document values a ok response := by
    obtain ⟨a, b, ha, hb, rfl⟩ := followedBy_eq_ok.mp ok
    rw [List.reverse_append]
    exact (h'.restore _ _ b hb response).bind fun v _ => h.restore _ _ a ha v

/-- Watched rules one after the other report all of them. -/
theorem watches_sequence (rules : List (String × Rule)) :
    (sequence (rules.map fun w => w.2.watched w.1)).Watches (rules.map Prod.fst) := by
  induction rules with
  | nil => exact watches_identity
  | cons w rest ih => exact (watches_watched w.1 w.2).followedBy ih

end Rule

/-! ### Rules that do the same -/

/-- Both outcomes are the same failure, or values that are related. -/
inductive Agree {α β : Type} (R : α → β → Prop) : Except Failure α → Except Failure β → Prop
  | error (failure : Failure) : Agree R (.error failure) (.error failure)
  | ok {a b} : R a b → Agree R (.ok a) (.ok b)

/-- Outcomes that agree are the same failure, or values that are related. -/
theorem Agree.error_or_ok {α β : Type} {R : α → β → Prop} {outcome : Except Failure α}
    {outcome' : Except Failure β} (h : Agree R outcome outcome') :
    (∃ failure, outcome = .error failure ∧ outcome' = .error failure) ∨
      ∃ a b, outcome = .ok a ∧ outcome' = .ok b ∧ R a b := by
  cases h with
  | error failure => exact .inl ⟨failure, rfl, rfl⟩
  | ok hab => exact .inr ⟨_, _, rfl, rfl, hab⟩

/-- Outcomes agree if one is made of what the other returns. -/
theorem Agree.map {α β : Type} {R : α → β → Prop} {f : α → β} (h : ∀ a, R a (f a))
    (outcome : Except Failure α) : Agree R outcome (outcome.map f) := by
  cases outcome with
  | error failure => exact .error failure
  | ok a => exact .ok (h a)

/-- Sequences agree if their parts do. -/
theorem Agree.bind {α β α' β' : Type} {R : α → α' → Prop} {S : β → β' → Prop} {x : Traced α}
    {x' : Traced α'} {f : α → Traced β} {f' : α' → Traced β'} (h : Agree R x.outcome x'.outcome)
    (h' : ∀ a a', R a a' → Agree S (f a).outcome (f' a').outcome) :
    Agree S (x >>= f).outcome (x' >>= f').outcome := by
  rw [Traced.outcome_bind, Traced.outcome_bind]
  generalize x.outcome = outcome, x'.outcome = outcome' at h ⊢
  cases h with
  | error failure => exact .error failure
  | ok hab => exact h' _ _ hab

/-- Two ways back with the same outcomes. -/
def Restore.Agrees (restore restore' : Restore) : Prop :=
  ∀ response, (restore response).outcome = (restore' response).outcome

/-- Two requests with the same document and values, and ways back with the same outcomes. -/
structure Adapted.Agrees (a a' : Adapted) : Prop where
  document : a.document = a'.document
  values : a.values = a'.values
  restore : Restore.Agrees a.restore a'.restore

namespace Rule

/-- The rules do the same, and may report different events. -/
def Agrees (rule rule' : Rule) : Prop :=
  ∀ document values, Agree Adapted.Agrees (rule.request document values).outcome
    (rule'.request document values).outcome

/-- A watched rule does what the rule does. -/
theorem agrees_watched (label : String) (rule : Rule) : (rule.watched label).Agrees rule := by
  intro document values
  rw [watched, Traced.outcome_bind, Traced.watched]
  cases (rule.request document values).outcome with
  | error failure => exact .error failure
  | ok a => exact .ok ⟨rfl, rfl, fun _ => rfl⟩

/-- Sequences of rules that do the same do the same. -/
theorem Agrees.followedBy {first first' second second' : Rule} (h : first.Agrees first')
    (h' : second.Agrees second') :
    (first.followedBy second).Agrees (first'.followedBy second') := by
  intro document values
  refine (h document values).bind fun a a' ha => ?_
  rw [ha.document, ha.values]
  refine (h' a'.document a'.values).bind fun b b' hb =>
    .ok ⟨hb.document, hb.values, fun response => ?_⟩
  rw [Traced.outcome_bind, Traced.outcome_bind, hb.restore response]
  exact congrArg _ (funext ha.restore)

/-- Watched rules one after the other do what the rules do. -/
theorem agrees_sequence (rules : List (String × Rule)) :
    (sequence (rules.map fun w => w.2.watched w.1)).Agrees (sequence (rules.map Prod.snd)) := by
  induction rules with
  | nil => exact fun _ _ => .ok ⟨rfl, rfl, fun _ => rfl⟩
  | cons w rest ih => exact (agrees_watched w.1 w.2).followedBy ih

end Rule

end SchemaBridge
