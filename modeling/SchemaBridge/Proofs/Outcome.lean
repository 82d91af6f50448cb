import SchemaBridge.Traced

/-!
# Outcomes that succeed

A computation that is made of others succeeds exactly if its parts do.

* `map_eq_ok_iff`, `bind_eq_ok_iff`: for outcomes by themselves;
* `Traced.outcome_bind_eq_ok`: for computations that report events on the way.
-/

namespace SchemaBridge

section

variable {ε α β : Type} {x : Except ε α} {b : β}

/-- What is made of an outcome succeeds if the outcome does. -/
theorem map_eq_ok_iff {f : α → β} : x.map f = .ok b ↔ ∃ a, x = .ok a ∧ f a = b := by
  cases x with
  | error e => simp [Except.map]
  | ok a => simp [Except.map]

/-- A sequence succeeds if its first part does, and then its second part. -/
theorem bind_eq_ok_iff {f : α → Except ε β} :
    (x >>= f) = .ok b ↔ ∃ a, x = .ok a ∧ f a = .ok b := by
  cases x with
  | error e => simp [bind, Except.bind]
  | ok a => simp [bind, Except.bind]

end

/-- A sequence that reports events succeeds if its first part does, and then its second part. -/
theorem Traced.outcome_bind_eq_ok {α β : Type} {x : Traced α} {f : α → Traced β} {b : β} :
    (x >>= f).outcome = .ok b ↔ ∃ a, x.outcome = .ok a ∧ (f a).outcome = .ok b := by
  rw [outcome_bind]
  exact bind_eq_ok_iff

end SchemaBridge
