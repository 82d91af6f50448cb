import SchemaBridge.Coercion
import SchemaBridge.Log

/-!
# Traced computations

Computations that may fail and that report events on the way.

* `Phase`: where an exchange is in its life;
* `Failure`, `Cause`: what can go wrong in an exchange, and why a value cannot be converted;
* `Traced`: an outcome with the events up to it. In a sequence the events of the parts follow
  each other, and nothing runs after a failure.
-/

namespace SchemaBridge

/-- Where an exchange is in its life. -/
inductive Phase where
  | new
  | requestDone
  | responseDone
  | failed
deriving DecidableEq, Repr

/-- The word for a phase. -/
def Phase.word : Phase → String
  | new => "New"
  | requestDone => "RequestDone"
  | responseDone => "ResponseDone"
  | failed => "Failed"

/-- The two sides of an exchange. -/
inductive Side where
  | request
  | response
deriving DecidableEq, Repr

/-- The name of the call for a side. -/
def Side.callName : Side → String
  | request => "rewrite_request"
  | response => "rewrite_response"

/-- Why the value of a variable cannot be converted. -/
inductive Cause where
  | coercion (error : CoercionError)
  | text (message : String)

/-- The wording of a cause. -/
def Cause.message : Cause → String
  | coercion error => error.message
  | text message => message

/-- What can go wrong in an exchange. -/
inductive Failure where
  /-- A call that the phase of the exchange does not admit. -/
  | outOfTurn (attempted : Side) (phase : Phase)
  /-- The query is no document. -/
  | malformedQuery
  /-- The value of a variable cannot be converted. -/
  | coercion (variableName : String) (cause : Cause)

/-- The wording of a failure. For a query that is no document only the kind of failure is
told. -/
def Failure.message : Failure → String
  | outOfTurn attempted phase =>
    "`" ++ attempted.callName ++ "` is not allowed while the handler is in the `" ++ phase.word ++
      "` state. A RewriteHandler rewrites exactly one request followed by exactly one response."
  | malformedQuery => "query parse error"
  | coercion variableName cause =>
    "Failed to coerce the value of variable `$" ++ variableName ++ "`: " ++ cause.message

/-- An outcome, and the events reported up to it in order. -/
structure Traced (α : Type) where
  outcome : Except Failure α
  log : List Event

namespace Traced

/-- A failure without events. -/
def fail {α : Type} (failure : Failure) : Traced α :=
  ⟨.error failure, []⟩

/-- Events and nothing else. -/
def report (events : List Event) : Traced Unit :=
  ⟨.ok (), events⟩

/-- One computation after another: a failure of the first is the outcome. -/
def andThen {α β : Type} (x : Traced α) (f : α → Traced β) : Traced β :=
  match x.outcome with
  | .error failure => ⟨.error failure, x.log⟩
  | .ok a => ⟨(f a).outcome, x.log ++ (f a).log⟩

instance : Monad Traced where
  pure a := ⟨.ok a, []⟩
  bind := andThen

/-! ### Outcomes and events of a sequence -/

/-- A value by itself. -/
@[simp] theorem outcome_pure {α : Type} (a : α) : (pure a : Traced α).outcome = .ok a := rfl

/-- A value by itself reports nothing. -/
@[simp] theorem log_pure {α : Type} (a : α) : (pure a : Traced α).log = [] := rfl

/-- The outcome of a sequence. -/
@[simp] theorem outcome_bind {α β : Type} (x : Traced α) (f : α → Traced β) :
    (x >>= f).outcome = x.outcome.bind fun a => (f a).outcome := by
  show (andThen x f).outcome = _
  unfold andThen
  cases x.outcome <;> rfl

/-- A sequence whose first part succeeds reports the events of both. -/
theorem log_bind_of_ok {α β : Type} {x : Traced α} {a : α} (f : α → Traced β)
    (h : x.outcome = .ok a) : (x >>= f).log = x.log ++ (f a).log := by
  show (andThen x f).log = _
  simp [andThen, h]

/-- A sequence whose first part fails reports the events of that part alone. -/
theorem log_bind_of_error {α β : Type} {x : Traced α} {failure : Failure} (f : α → Traced β)
    (h : x.outcome = .error failure) : (x >>= f).log = x.log := by
  show (andThen x f).log = _
  simp [andThen, h]

end Traced

end SchemaBridge
