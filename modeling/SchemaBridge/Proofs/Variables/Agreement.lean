import SchemaBridge.Proofs.Rule.Request
import SchemaBridge.Proofs.Variables.Declaration
import SchemaBridge.RuleSpec

/-!
# Declarations and values

All operations of a document share the values that the caller supplies, while each declares its own
variables.

* `ArgumentRetype.convertValue_eq`, `ArgumentRetype.convertValue_cases`: what becomes of the value
  of one variable;
* `ArgumentRetype.suppliedValue?_convertValues_of_mem`, `…_of_not_mem`: among any number of
  variables each value is converted once, and the others stay;
* `ArgumentRetype.value_agrees`: after a request that succeeds a value is converted exactly if some
  operation declares its variable with the new type in place of the old one.
-/

namespace SchemaBridge

open Graphql (Document Operation)

/-- What is supplied after the value of one variable has been replaced. -/
theorem suppliedValue?_replaceSupplied (values : Option Json.Object) (target name : String)
    (v : Json.Value) :
    suppliedValue? (replaceSupplied values target v) name =
      if target = name then (suppliedValue? values name).map fun _ => v
      else suppliedValue? values name := by
  cases values with
  | none => simp [suppliedValue?, replaceSupplied]
  | some vs => exact Entries.get?_replace vs target name v

namespace ArgumentRetype

variable {r : ArgumentRetype} {convert : Converter}

/-! ### The values -/

/-- All that happens to the value of a variable, unless its conversion fails: it is converted, and
that is reported, if there is a conversion and a value is supplied that has not been converted
before; otherwise nothing happens. -/
theorem convertValue_eq {name : String} {converted : List String}
    {values : Option Json.Object} {p : Option Json.Object × Bool}
    (ok : (r.convertValue name converted values).outcome = .ok p) :
    (∃ convert x y, r.converter? = some convert ∧ suppliedValue? values name = some x ∧
        name ∉ converted ∧ convert x = .ok y ∧ r.convertValue name converted values =
          ⟨.ok (replaceSupplied values name y, true), [.valueCoerced name]⟩) ∨
      ((r.converter? = none ∨ suppliedValue? values name = none ∨ name ∈ converted) ∧
        r.convertValue name converted values = pure (values, false)) := by
  rw [convertValue] at ok ⊢
  cases hconvert : r.converter? with
  | none => exact .inr ⟨.inl rfl, rfl⟩
  | some convert =>
      cases hx : suppliedValue? values name with
      | none => exact .inr ⟨.inr (.inl rfl), rfl⟩
      | some x =>
          by_cases hmem : name ∈ converted
          · exact .inr ⟨.inr (.inr hmem), if_pos hmem⟩
          · rw [hconvert, hx] at ok
            simp only [if_neg hmem] at ok ⊢
            cases hy : convert x with
            | error cause => rw [hy] at ok; cases ok
            | ok y => exact .inl ⟨convert, x, y, rfl, rfl, hmem, hy, rfl⟩

/-- The value of a variable is converted if one is supplied that has not been converted before;
otherwise all values stay. -/
theorem convertValue_cases (hconvert : r.converter? = some convert) {name : String}
    {converted : List String} {values values' : Option Json.Object} {done : Bool}
    (ok : (r.convertValue name converted values).outcome = .ok (values', done)) :
    (∃ x y, suppliedValue? values name = some x ∧ name ∉ converted ∧ convert x = .ok y ∧
        values' = replaceSupplied values name y ∧ done = true) ∨
      ((suppliedValue? values name = none ∨ name ∈ converted) ∧ values' = values ∧
        done = false) := by
  obtain ⟨convert', x, y, hconvert', hx, hmem, hy, heq⟩ | ⟨hstays, heq⟩ := convertValue_eq ok
  · obtain rfl : convert = convert' := Option.some.inj (hconvert.symm.trans hconvert')
    rw [heq] at ok
    obtain ⟨rfl, rfl⟩ := Prod.mk.inj (Except.ok.inj ok)
    exact .inl ⟨x, y, hx, hmem, hy, rfl, rfl⟩
  · rw [heq] at ok
    obtain ⟨rfl, rfl⟩ := Prod.mk.inj (Except.ok.inj ok)
    exact .inr ⟨hstays.resolve_left (by simp [hconvert]), rfl, rfl⟩

/-- Conversions for variables one after the other: the first one, and those for the rest. -/
theorem convertValues_cons_eq_ok {name : String} {rest converted : List String}
    {values values' : Option Json.Object} :
    (r.convertValues converted values (name :: rest)).outcome = .ok values' ↔
      ∃ p, (r.convertValue name converted values).outcome = .ok p ∧
        (r.convertValues (if p.2 then name :: converted else converted) p.1 rest).outcome =
          .ok values' := by
  rw [convertValues, Traced.outcome_bind_eq_ok]
  constructor
  · rintro ⟨_, -, ok⟩
    exact Traced.outcome_bind_eq_ok.mp ok
  · intro ok
    exact ⟨(), rfl, Traced.outcome_bind_eq_ok.mpr ok⟩

/-- A value stays that belongs to none of the variables, or has been converted before. -/
theorem suppliedValue?_convertValues_of_not_mem (hconvert : r.converter? = some convert)
    {names converted : List String} {values values' : Option Json.Object}
    (ok : (r.convertValues converted values names).outcome = .ok values') {name : String}
    (h : name ∉ names ∨ name ∈ converted) :
    suppliedValue? values' name = suppliedValue? values name := by
  induction names generalizing converted values with
  | nil =>
      obtain rfl := Except.ok.inj ok
      rfl
  | cons target rest ih =>
      obtain ⟨⟨next, done⟩, hfirst, hrest⟩ := convertValues_cons_eq_ok.mp ok
      obtain ⟨x, y, -, htarget, -, rfl, rfl⟩ | ⟨-, rfl, rfl⟩ := convertValue_cases hconvert hfirst
      · have hne : target ≠ name := by
          rintro rfl
          exact h.elim (fun h => h List.mem_cons_self) htarget
        have hrest' := ih hrest (h.imp (fun h hmem => h (List.mem_cons_of_mem _ hmem))
          (List.mem_cons_of_mem _))
        rw [hrest', suppliedValue?_replaceSupplied, if_neg hne]
      · exact ih hrest (h.imp_left fun h hmem => h (List.mem_cons_of_mem _ hmem))

/-- The value of one of the variables is converted once, if it has not been before. -/
theorem suppliedValue?_convertValues_of_mem (hconvert : r.converter? = some convert)
    {names converted : List String} {values values' : Option Json.Object}
    (ok : (r.convertValues converted values names).outcome = .ok values') {name : String}
    (hmem : name ∈ names) (hconverted : name ∉ converted) {x : Json.Value}
    (hx : suppliedValue? values name = some x) :
    ∃ y, convert x = .ok y ∧ suppliedValue? values' name = some y := by
  induction names generalizing converted values with
  | nil => exact absurd hmem List.not_mem_nil
  | cons target rest ih =>
      obtain ⟨⟨next, done⟩, hfirst, hrest⟩ := convertValues_cons_eq_ok.mp ok
      by_cases htarget : target = name
      · subst htarget
        obtain ⟨x', y, hx', -, hy, rfl, rfl⟩ | ⟨h, -, -⟩ := convertValue_cases hconvert hfirst
        · -- the variables that follow leave what has been converted
          obtain rfl : x = x' := Option.some.inj (hx.symm.trans hx')
          refine ⟨y, hy, ?_⟩
          rw [suppliedValue?_convertValues_of_not_mem hconvert hrest (.inr (by simp)),
            suppliedValue?_replaceSupplied, if_pos rfl, hx, Option.map_some]
        · exact absurd h (by simp [hx, hconverted])
      · have hrest' := (List.mem_cons.mp hmem).resolve_left (Ne.symm htarget)
        obtain ⟨x', y, -, -, -, rfl, rfl⟩ | ⟨-, rfl, rfl⟩ := convertValue_cases hconvert hfirst
        · refine ih hrest hrest' (by simp [Ne.symm htarget, hconverted]) ?_
          rw [suppliedValue?_replaceSupplied, if_neg htarget, hx]
        · exact ih hrest hrest' hconverted hx

/-! ### Declarations and values together -/

/-- Every operation has a counterpart after a request that succeeds: the same operation, retyped. -/
theorem zip_operations_eq_map {d : Document} {values : Option Json.Object} {adapted : Adapted}
    (ok : (r.toRule.request d values).outcome = .ok adapted) :
    d.operations.zip adapted.document.operations =
      d.operations.map fun o => (o, r.retypeOperation d o) := by
  obtain ⟨_, -, rfl⟩ := request_eq_ok.mp ok
  rw [operations_retypeVariables, ← List.map_prod_left_eq_zip]

/-- **Declared types and supplied values change together.** After a request that succeeds under a
rule with a conversion, take any variable for which a value was supplied. In each operation, paired
here with itself after the request, either its declaration has gone from the old type to the new
one, and then the value that is sent is the converted one, or its definition is as before. If it is
as before in all operations, the value is sent as it was supplied. -/
theorem value_agrees {d : Document} {values : Option Json.Object} {adapted : Adapted}
    (hconvert : r.converter? = some convert) (hne : r.oldType ≠ r.newType)
    (ok : (r.toRule.request d values).outcome = .ok adapted) {name : String} {x : Json.Value}
    (hx : suppliedValue? values name = some x) :
    (∀ c ∈ d.operations.zip adapted.document.operations,
      (r.Redeclares c.1 c.2 name ∧
        ∃ y, convert x = .ok y ∧ suppliedValue? adapted.values name = some y) ∨
      (¬ r.Redeclares c.1 c.2 name ∧ c.2.definition? name = c.1.definition? name)) ∧
    ((∀ c ∈ d.operations.zip adapted.document.operations, ¬ r.Redeclares c.1 c.2 name) →
      suppliedValue? adapted.values name = some x) := by
  rw [zip_operations_eq_map ok]
  obtain ⟨values', hvalues, rfl⟩ := request_eq_ok.mp ok
  refine ⟨fun c hc => ?_, fun h => ?_⟩
  · obtain ⟨o, ho, rfl⟩ := List.mem_map.mp hc
    rw [r.redeclares_iff hne, r.definition?_retypeOperation hne]
    by_cases hmem : name ∈ r.redeclaredIn d o
    · refine .inl ⟨hmem, ?_⟩
      exact suppliedValue?_convertValues_of_mem hconvert hvalues
        (List.mem_flatMap.mpr ⟨o, ho, hmem⟩) List.not_mem_nil hx
    · exact .inr ⟨hmem, if_neg hmem⟩
  · rw [← hx]
    refine suppliedValue?_convertValues_of_not_mem hconvert hvalues (.inl fun hmem => ?_)
    obtain ⟨o, ho, hmem⟩ := List.mem_flatMap.mp hmem
    exact h _ (List.mem_map_of_mem ho) ((r.redeclares_iff hne).mpr hmem)

/-- The argument `identifier` of `things` is an integer instead of a string. -/
def identifierAsInteger : ArgumentRetype :=
  ⟨"things", "identifier", .nonNull (.named "String"), .nonNull (.named "Int"),
    some Coercion.toInteger.toConverter⟩

/-- `query A($v: String!) { things(identifier: $v) }`. -/
def passingQuery : Operation :=
  ⟨some ⟨.query, some "A", [⟨"v", .nonNull (.named "String"), none⟩], []⟩,
    [.field ⟨none, "things", [("identifier", .reference "v")], []⟩ []]⟩

/-- `query B($v: String!) { other(x: $v) }`. -/
def otherQuery : Operation :=
  ⟨some ⟨.query, some "B", [⟨"v", .nonNull (.named "String"), none⟩], []⟩,
    [.field ⟨none, "other", [("x", .reference "v")], []⟩ []]⟩

/-- One operation passes its variable as the argument, and another one declares a variable of the
same name. -/
def sharedVariable : Document :=
  ⟨[.operation passingQuery, .operation otherQuery]⟩

/-- The request for both operations succeeds, and sends an integer. -/
theorem request_sharedVariable :
    (identifierAsInteger.toRule.request sharedVariable (some [("v", .string "123")])).outcome =
      .ok ⟨identifierAsInteger.retypeVariables sharedVariable, some [("v", .number (.int 123))],
        pure⟩ := by
  have hredeclared : identifierAsInteger.redeclared sharedVariable = ["v"] := by cbv
  exact request_of_redeclared hredeclared rfl

/-- The two types of the rule differ. -/
theorem identifierAsInteger_types_ne :
    identifierAsInteger.oldType ≠ identifierAsInteger.newType := by
  decide

/-- The operation that passes the variable sends its value as an integer. -/
theorem value_agrees_sharedVariable :
    identifierAsInteger.converter? = some Coercion.toInteger.toConverter ∧
      identifierAsInteger.oldType ≠ identifierAsInteger.newType ∧
      ∃ adapted, (identifierAsInteger.toRule.request sharedVariable
          (some [("v", .string "123")])).outcome = .ok adapted ∧
        suppliedValue? (some [("v", .string "123")]) "v" = some (.string "123") ∧
        ∃ y, Coercion.toInteger.toConverter (.string "123") = .ok y ∧
          suppliedValue? adapted.values "v" = some y := by
  refine ⟨rfl, identifierAsInteger_types_ne, _, request_sharedVariable, rfl, ?_⟩
  have hmem : "v" ∈ identifierAsInteger.redeclaredIn sharedVariable passingQuery := by
    have : identifierAsInteger.redeclaredIn sharedVariable passingQuery = ["v"] := by cbv
    rw [this]
    exact List.mem_cons_self
  have hredeclares := (identifierAsInteger.redeclares_iff identifierAsInteger_types_ne).mpr hmem
  have hsupplied : suppliedValue? (some [("v", .string "123")]) "v" = some (.string "123") := rfl
  obtain ⟨hall, -⟩ := value_agrees rfl identifierAsInteger_types_ne request_sharedVariable hsupplied
  obtain ⟨-, h⟩ | ⟨h, -⟩ := hall (passingQuery, _) List.mem_cons_self
  · exact h
  · exact absurd hredeclares h

/-- **A value may change although a declaration stays.** The operations of a document share the
values that the caller supplies: a value that one of them needs converted is converted for another
one that still declares its variable with the old type. -/
theorem value_disagrees :
    ¬ ∀ (r : ArgumentRetype) (convert : Converter) (d : Document) (values : Option Json.Object)
      (adapted : Adapted), r.converter? = some convert → r.oldType ≠ r.newType →
      (∀ o ∈ d.operations, ∀ header, o.header? = some header →
        (header.variableDefinitions.map (·.name)).Nodup) →
      (r.toRule.request d values).outcome = .ok adapted →
      ∀ c ∈ d.operations.zip adapted.document.operations, ∀ name x,
        c.1.declaredType? name ≠ none → suppliedValue? values name = some x →
        (r.Redeclares c.1 c.2 name →
          ∃ y, convert x = .ok y ∧ suppliedValue? adapted.values name = some y) ∧
        (¬ r.Redeclares c.1 c.2 name → suppliedValue? adapted.values name = some x) := by
  intro h
  have hdistinct : ∀ o ∈ sharedVariable.operations, ∀ header, o.header? = some header →
      (header.variableDefinitions.map (·.name)).Nodup := by
    intro o ho header hheader
    rcases List.mem_cons.mp ho with rfl | ho
    · obtain rfl := Option.some.inj hheader
      exact List.pairwise_singleton _ "v"
    · rw [List.mem_singleton.mp ho] at hheader
      obtain rfl := Option.some.inj hheader
      exact List.pairwise_singleton _ "v"
  have hkept : ¬ identifierAsInteger.Redeclares otherQuery
      (identifierAsInteger.retypeOperation sharedVariable otherQuery) "v" := by
    rw [redeclares_iff _ identifierAsInteger_types_ne]
    have : identifierAsInteger.redeclaredIn sharedVariable otherQuery = [] := by cbv
    rw [this]
    exact List.not_mem_nil
  have hvalue := (h identifierAsInteger _ sharedVariable _ _ rfl identifierAsInteger_types_ne
    hdistinct request_sharedVariable (otherQuery, _)
    (List.mem_cons_of_mem _ List.mem_cons_self) "v" (.string "123") (by decide) rfl).2 hkept
  cases hvalue

end ArgumentRetype

end SchemaBridge
