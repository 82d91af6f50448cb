import SchemaBridge.Proofs.Json.Entries
import SchemaBridge.Proofs.Variables.Agreement

/-!
# Conversions in any order

The values of several variables are converted one after the other. In what order that happens, and
how often a variable is named, does not matter: every conversion starts from the value that the
caller supplies.

* `ArgumentRetype.Converts`: the conversion for a variable does not fail;
* `ArgumentRetype.valuesAfter`: the values after the conversions, all at once;
* `ArgumentRetype.convertValues_eq_ok_iff`: conversions one after the other have the result of
  conversions all at once;
* `ArgumentRetype.convertValues_congr`: the same variables in another order have the same result.
-/

namespace SchemaBridge

namespace ArgumentRetype

variable {r : ArgumentRetype} {values values' : Option Json.Object} {name : String}

/-! ### Conversions all at once -/

/-- What the value of a variable is converted to; `none` if there is no conversion, no value, or the
conversion fails. -/
def convertedValue? (r : ArgumentRetype) (values : Option Json.Object) (name : String) :
    Option Json.Value :=
  r.converter?.bind fun convert =>
    (suppliedValue? values name).bind fun value => (convert value).toOption

/-- Nothing is to be converted for a variable: there is no conversion, or no value. -/
def Exempt (r : ArgumentRetype) (values : Option Json.Object) (name : String) : Prop :=
  r.converter? = none ∨ suppliedValue? values name = none

/-- The conversion for a variable does not fail. -/
def Converts (r : ArgumentRetype) (values : Option Json.Object) (name : String) : Prop :=
  r.Exempt values name ∨ ∃ y, r.convertedValue? values name = some y

/-- The values of the variables with a property converted, all at once. -/
def valuesAfter (r : ArgumentRetype) (values : Option Json.Object) (p : String → Prop)
    [DecidablePred p] : Option Json.Object :=
  values.map (Entries.mapValues fun k v =>
    if p k then (r.convertedValue? values k).getD v else v)

/-- Without anything to be converted there is no converted value. -/
theorem Exempt.convertedValue?_eq_none (h : r.Exempt values name) :
    r.convertedValue? values name = none := by
  obtain h | h := h
  · rw [convertedValue?, h, Option.bind_none]
  · simp [convertedValue?, h]

/-- It only matters which of the variables that have converted values have the property. -/
theorem valuesAfter_congr {p q : String → Prop} [DecidablePred p] [DecidablePred q]
    (h : ∀ k, r.convertedValue? values k ≠ none → (p k ↔ q k)) :
    r.valuesAfter values p = r.valuesAfter values q := by
  refine congrArg (fun f => values.map (Entries.mapValues f)) ?_
  funext k v
  by_cases hk : r.convertedValue? values k = none
  · simp [hk]
  · simp [h k hk]

/-- Without variables all values stay. -/
theorem valuesAfter_false : (r.valuesAfter values fun _ => False) = values := by
  cases values with
  | none => rfl
  | some vs => exact congrArg some (Entries.mapValues_eq_self fun _ _ => rfl)

/-- The converted value of one variable does not depend on the value of another one. -/
theorem convertedValue?_replaceSupplied {target : String} (hne : target ≠ name) (y : Json.Value) :
    r.convertedValue? (replaceSupplied values target y) name = r.convertedValue? values name := by
  rw [convertedValue?, suppliedValue?_replaceSupplied, if_neg hne, convertedValue?]

/-- Whether the conversion for one variable fails does not depend on the value of another one. -/
theorem converts_replaceSupplied {target : String} (hne : target ≠ name) (y : Json.Value) :
    r.Converts (replaceSupplied values target y) name ↔ r.Converts values name := by
  rw [Converts, Exempt, convertedValue?_replaceSupplied hne, suppliedValue?_replaceSupplied,
    if_neg hne, Converts, Exempt]

/-- The value of one variable can be converted before those of the others. -/
theorem valuesAfter_replaceSupplied {target : String} {y : Json.Value}
    (hy : r.convertedValue? values target = some y) {p q : String → Prop} [DecidablePred p]
    [DecidablePred q] (hp : ¬ p target) (hq : q target) (h : ∀ k, k ≠ target → (p k ↔ q k)) :
    r.valuesAfter (replaceSupplied values target y) p = r.valuesAfter values q := by
  have hvalue : ∀ k v, (if p k then
        (r.convertedValue? (replaceSupplied values target y) k).getD (if k = target then y else v)
      else if k = target then y else v) =
        if q k then (r.convertedValue? values k).getD v else v := by
    intro k v
    by_cases hk : k = target
    · simp [hk, hp, hq, hy]
    · simp only [if_neg hk, convertedValue?_replaceSupplied (Ne.symm hk), h k hk]
  rw [valuesAfter, valuesAfter]
  simp only [← hvalue]
  cases values with
  | none => rfl
  | some vs =>
      refine congrArg some ?_
      show Entries.mapValues _ (Entries.replace vs target y) = _
      rw [Entries.replace_eq_mapValues, Entries.mapValues_mapValues]

/-! ### Conversions one after the other -/

/-- The conversion for one variable, if it does not fail: the value is replaced, or there was
nothing to be done. -/
theorem convertValue_eq_ok_iff {converted : List String} {p : Option Json.Object × Bool} :
    (r.convertValue name converted values).outcome = .ok p ↔
      (name ∉ converted ∧ ∃ y, r.convertedValue? values name = some y ∧
        p = (replaceSupplied values name y, true)) ∨
      ((name ∈ converted ∨ r.Exempt values name) ∧ p = (values, false)) := by
  rw [convertValue, convertedValue?, Exempt]
  cases r.converter? with
  | none => simp [eq_comm]
  | some convert =>
      cases suppliedValue? values name with
      | none => simp [eq_comm]
      | some x =>
          by_cases hmem : name ∈ converted
          · simp [hmem, eq_comm]
          · cases hy : convert x with
            | error cause => simp [hmem, hy, Traced.fail, Except.toOption]
            | ok y => simp [hmem, hy, Except.toOption, eq_comm, Except.bind, Traced.report]

/-- A variable for which nothing is to be done makes no difference to the values. -/
theorem valuesAfter_cons_of_exempt {target : String} {rest converted : List String}
    (h : target ∈ converted ∨ r.Exempt values target) :
    (r.valuesAfter values fun k => k ∈ target :: rest ∧ k ∉ converted) =
      r.valuesAfter values fun k => k ∈ rest ∧ k ∉ converted := by
  refine valuesAfter_congr fun k hk => ?_
  by_cases htarget : k = target
  · subst htarget
    have hmem : k ∈ converted := h.resolve_right fun h => hk h.convertedValue?_eq_none
    simp [hmem]
  · simp [htarget]

/-- The value of a variable can be converted before those of the variables that follow. -/
theorem valuesAfter_cons_of_some {target : String} {rest converted : List String} {y : Json.Value}
    (hmem : target ∉ converted) (hy : r.convertedValue? values target = some y) :
    (r.valuesAfter values fun k => k ∈ target :: rest ∧ k ∉ converted) =
      r.valuesAfter (replaceSupplied values target y) fun k =>
        k ∈ rest ∧ k ∉ target :: converted :=
  (valuesAfter_replaceSupplied hy (by simp) (by simp [hmem]) fun k hk => by simp [hk]).symm

/-- Conversions one after the other, of values that have not been converted before, have the result
of conversions all at once. -/
theorem convertValues_eq_ok_iff {names converted : List String} :
    (r.convertValues converted values names).outcome = .ok values' ↔
      (∀ name ∈ names, name ∉ converted → r.Converts values name) ∧
        values' = r.valuesAfter values fun k => k ∈ names ∧ k ∉ converted := by
  induction names generalizing converted values with
  | nil =>
      have hnone :
          (r.valuesAfter values fun k => k ∈ ([] : List String) ∧ k ∉ converted) = values :=
        (valuesAfter_congr fun k _ => by simp).trans valuesAfter_false
      rw [hnone]
      exact ⟨fun ok => ⟨by simp, (Except.ok.inj ok).symm⟩, fun h => congrArg _ h.2.symm⟩
  | cons target rest ih =>
      simp only [convertValues_cons_eq_ok, convertValue_eq_ok_iff]
      constructor
      · rintro ⟨p, ⟨hmem, y, hy, rfl⟩ | ⟨hstays, rfl⟩, hrest⟩
        · obtain ⟨hconverts, rfl⟩ := ih.mp hrest
          refine ⟨fun name hname hnot => ?_, (valuesAfter_cons_of_some hmem hy).symm⟩
          by_cases htarget : target = name
          · exact htarget ▸ .inr ⟨y, hy⟩
          · refine (converts_replaceSupplied htarget y).mp (hconverts name ?_ ?_)
            · exact (List.mem_cons.mp hname).resolve_left (Ne.symm htarget)
            · simp [Ne.symm htarget, hnot]
        · obtain ⟨hconverts, rfl⟩ := ih.mp hrest
          refine ⟨fun name hname hnot => ?_, (valuesAfter_cons_of_exempt hstays).symm⟩
          rcases List.mem_cons.mp hname with rfl | hname
          · exact .inl (hstays.resolve_left hnot)
          · exact hconverts name hname hnot
      · rintro ⟨hconverts, rfl⟩
        have hrest : ∀ name ∈ rest, name ∉ converted → r.Converts values name :=
          fun name hname => hconverts name (List.mem_cons_of_mem _ hname)
        by_cases hstays : target ∈ converted ∨ r.Exempt values target
        · exact ⟨_, .inr ⟨hstays, rfl⟩, ih.mpr ⟨hrest, valuesAfter_cons_of_exempt hstays⟩⟩
        · obtain ⟨hmem, hexempt⟩ := not_or.mp hstays
          obtain ⟨y, hy⟩ := (hconverts target List.mem_cons_self hmem).resolve_left hexempt
          refine ⟨_, .inl ⟨hmem, y, hy, rfl⟩, ih.mpr ⟨fun name hname hnot => ?_,
            valuesAfter_cons_of_some hmem hy⟩⟩
          obtain ⟨htarget, hnot⟩ := not_or.mp (List.mem_cons.not.mp hnot)
          exact (converts_replaceSupplied (Ne.symm htarget) y).mpr (hrest name hname hnot)

/-- **The order of conversions does not matter.** Conversions for the same variables succeed
together, and then with the same values. -/
theorem convertValues_congr {names names' : List String}
    (h : ∀ name, name ∈ names ↔ name ∈ names') :
    (r.convertValues [] values names).outcome = .ok values' ↔
      (r.convertValues [] values names').outcome = .ok values' := by
  rw [convertValues_eq_ok_iff, convertValues_eq_ok_iff]
  simp only [h]

end ArgumentRetype

end SchemaBridge
