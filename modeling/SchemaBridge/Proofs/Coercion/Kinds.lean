import SchemaBridge.Coercion

/-!
# Kinds of values

A coercion takes values to one kind, and a value of that kind stays as it is. So converting a value
a second time changes nothing.

* `Coercion.Makes`: the values of the kind that a coercion makes;
* `convert?_of_makes`, `makes_of_convert?`: these are kept, and nothing else is made, but for
  `null`;
* `apply_projects`: a coercion is a projection onto its kind, and its errors tell what it refused.
-/

namespace SchemaBridge.Coercion

open Json (Value)

/-- The values of the kind that a coercion makes. -/
inductive Makes : Coercion → Value → Prop
  | integer (n : Int) : Makes .toInteger (.number (.int n))
  | number (n : Json.Number) : Makes .toFloat (.number n)
  | string (s : String) : Makes .toText (.string s)
  | boolean (b : Bool) : Makes .toBoolean (.boolean b)

/-- Arrays and objects. -/
inductive Compound : Value → Prop
  | array (items : List Value) : Compound (.array items)
  | object (entries : List (String × Value)) : Compound (.object entries)

variable {c : Coercion} {v w : Value}

/-! ### What is converted -/

/-- The value `null` is of no kind that a coercion makes. -/
theorem Makes.ne_null (h : c.Makes v) : v ≠ .null := by
  rintro rfl
  cases h

/-- A value of the kind that a coercion makes is kept. -/
theorem convert?_of_makes (h : c.Makes v) : c.convert? v = some v := by
  cases h with
  | integer n => rfl
  | number n => rfl
  | string s => rfl
  | boolean b => rfl

/-- Arrays and objects are not converted. -/
theorem convert?_of_compound (h : Compound v) : c.convert? v = none := by
  cases h with
  | array items => cases c <;> rfl
  | object entries => cases c <;> rfl

/-! ### What is made -/

/-- A value that is converted to an integer becomes one. -/
theorem makes_of_integer? (h : integer? v = some w) : toInteger.Makes w := by
  rw [integer?.eq_def] at h
  split at h
  · next n => exact Option.some.inj h ▸ .integer n
  · next x =>
      obtain ⟨n, -, rfl⟩ := Option.map_eq_some_iff.mp h
      exact .integer n
  · next s =>
      obtain ⟨n, -, rfl⟩ := Option.map_eq_some_iff.mp h
      exact .integer n
  · cases h

/-- A value that is converted to a number becomes one. -/
theorem makes_of_float? (h : float? v = some w) : toFloat.Makes w := by
  rw [float?.eq_def] at h
  split at h
  · next n => exact Option.some.inj h ▸ .number n
  · next s =>
      obtain ⟨x, -, rfl⟩ := Option.map_eq_some_iff.mp h
      exact .number (.float x)
  · cases h

/-- A value that is converted to a string becomes one. -/
theorem makes_of_text? (h : text? v = some w) : toText.Makes w := by
  rw [text?.eq_def] at h
  split at h
  · next s => exact Option.some.inj h ▸ .string s
  · next n => exact Option.some.inj h ▸ .string n.text
  · next b => exact Option.some.inj h ▸ .string _
  · cases h

/-- A value that is converted to a boolean becomes one. -/
theorem makes_of_boolean? (h : boolean? v = some w) : toBoolean.Makes w := by
  rw [boolean?.eq_def] at h
  split at h
  · next b => exact Option.some.inj h ▸ .boolean b
  · next n => exact Option.some.inj h ▸ .boolean (isNonzero n)
  · next s =>
      obtain ⟨b, -, rfl⟩ := Option.map_eq_some_iff.mp h
      exact .boolean b
  · cases h

/-- A value that is converted is of the kind that the coercion makes afterwards, unless it was
`null`. -/
theorem makes_of_convert? (h : c.convert? v = some w) (hne : v ≠ .null) : c.Makes w := by
  cases c with
  | toInteger => exact makes_of_integer? (convert?.eq_2 v hne ▸ h)
  | toFloat => exact makes_of_float? (convert?.eq_3 v hne ▸ h)
  | toText => exact makes_of_text? (convert?.eq_4 v hne ▸ h)
  | toBoolean => exact makes_of_boolean? (convert?.eq_5 v hne ▸ h)

/-- Only `null` is converted to `null`. -/
theorem eq_null_iff_of_convert? (h : c.convert? v = some w) : w = .null ↔ v = .null := by
  constructor
  · intro hw
    by_cases hv : v = .null
    · exact hv
    · exact absurd hw (makes_of_convert? h hv).ne_null
  · rintro rfl
    exact (Option.some.inj h).symm

/-- What was converted is kept by the same coercion. -/
theorem convert?_convert? (h : c.convert? v = some w) : c.convert? w = some w := by
  by_cases hv : v = .null
  · obtain rfl := (eq_null_iff_of_convert? h).mpr hv
    rfl
  · exact convert?_of_makes (makes_of_convert? h hv)

/-! ### Outcomes -/

/-- A coercion succeeds with what it converts a value to. -/
theorem apply_eq_ok_iff : c.apply v = .ok w ↔ c.convert? v = some w := by
  rw [apply]
  cases c.convert? v with
  | none => simp
  | some u => simp

/-- A coercion fails on what it does not convert, with an error that carries the value. -/
theorem apply_eq_error_iff {e : CoercionError} :
    c.apply v = .error e ↔ c.convert? v = none ∧ e = ⟨c, v⟩ := by
  rw [apply]
  cases c.convert? v with
  | none => simp [eq_comm]
  | some u => simp

/-- **A coercion is a projection.** It makes `null` of `null` only, values of its kind of all others
that it takes, and nothing else of what it made. It keeps all values of its kind, and refuses arrays
and objects. Its errors carry the coercion and the value. -/
theorem apply_projects (c : Coercion) (v : Value) :
    (∀ w, c.apply v = .ok w →
      (w = .null ↔ v = .null) ∧ (w ≠ .null → c.Makes w) ∧ c.apply w = .ok w) ∧
    (c.Makes v → c.apply v = .ok v) ∧
    (Compound v → c.apply v = .error ⟨c, v⟩) ∧
    ∀ e, c.apply v = .error e → e = ⟨c, v⟩ := by
  refine ⟨fun w h => ?_, fun h => ?_, fun h => ?_, fun e h => (apply_eq_error_iff.mp h).2⟩
  · have hw := apply_eq_ok_iff.mp h
    have hnull := eq_null_iff_of_convert? hw
    refine ⟨hnull, fun hne => ?_, apply_eq_ok_iff.mpr (convert?_convert? hw)⟩
    exact makes_of_convert? hw (mt hnull.mpr hne)
  · exact apply_eq_ok_iff.mpr (convert?_of_makes h)
  · exact apply_eq_error_iff.mpr ⟨convert?_of_compound h, rfl⟩

/-- A number in a string becomes a number, which stays, and an array is refused. -/
theorem apply_projects_numberInString :
    toInteger.apply (.string " -7 ") = .ok (.number (.int (-7))) ∧
      toInteger.Makes (.number (.int (-7))) ∧
      toInteger.apply (.number (.int (-7))) = .ok (.number (.int (-7))) ∧
      Compound (.array [.string "7"]) ∧
      toInteger.apply (.array [.string "7"]) = .error ⟨.toInteger, .array [.string "7"]⟩ := by
  have hread : toInteger.apply (.string " -7 ") = .ok (.number (.int (-7))) := rfl
  obtain ⟨-, hmakes, -⟩ := (apply_projects toInteger (.string " -7 ")).1 _ hread
  have hinteger : toInteger.Makes (.number (.int (-7))) := hmakes (by simp)
  have harray : Compound (.array [.string "7"]) := .array _
  exact ⟨hread, hinteger, (apply_projects toInteger _).2.1 hinteger, harray,
    (apply_projects toInteger _).2.2.1 harray⟩

end SchemaBridge.Coercion
