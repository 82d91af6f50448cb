/-!
# Reading from the front of a list

A reader takes a value off the front of a list of characters or tokens and hands back what is
left. The rest is known to be shorter than a bound, so a reader may call itself on it: the
bound is the length of the input where something is always taken, and one more where nothing
need be.

* `Front`: a value, the rest, and the fact that the rest is shorter than the bound.
-/

namespace SchemaBridge.Text

/-- What follows an item is shorter than the whole list. -/
theorem length_lt_cons {β : Type} (b : β) (rest : List β) : rest.length < (b :: rest).length :=
  Nat.lt_succ_self rest.length

/-- What follows an item is not longer than the whole list. -/
theorem length_le_cons {β : Type} (b : β) (rest : List β) : rest.length ≤ (b :: rest).length :=
  Nat.le_succ rest.length

/-- What follows two items is shorter than the whole list. -/
theorem length_lt_cons_cons {β : Type} (b c : β) (rest : List β) :
    rest.length < (b :: c :: rest).length :=
  Nat.lt_trans (length_lt_cons c rest) (length_lt_cons b (c :: rest))

/-- A value read from the front of a list of `β`, with the rest of the list. -/
structure Front (β α : Type) (bound : Nat) where
  value : α
  rest : List β
  below : rest.length < bound

namespace Front

variable {β α γ : Type} {bound : Nat}

/-- What was read, under a function. -/
def map (f : α → γ) (r : Front β α bound) : Front β γ bound :=
  ⟨f r.value, r.rest, r.below⟩

/-- What was read, with a greater bound on the rest. -/
def widen {greater : Nat} (r : Front β α bound) (h : bound ≤ greater) : Front β α greater :=
  ⟨r.value, r.rest, Nat.lt_of_lt_of_le r.below h⟩

end Front

end SchemaBridge.Text
