import SchemaBridge.Proofs.Graphql.Reachability
import SchemaBridge.Proofs.Json.Entries
import SchemaBridge.Proofs.Variables.Agreement

/-!
# What a rule for types changes

Nothing but the types of some definitions, and the values of their variables.

* `ArgumentRetype.Retypes`: a definition of an operation is to change, told without the rule: it is
  the first of its name, has the old type, and a field within reach passes its variable;
* `getElem?_retypeFirst?`, `ArgumentRetype.getElem?_retypeDefinitions`: definitions after the rule,
  one by one;
* `ArgumentRetype.mem_redeclared_iff`: the variables that the rule redeclares;
* `ArgumentRetype.count_log_convertValues`: each value is converted once;
* `ArgumentRetype.request_effect`: everything that a request changes, and nothing else.
-/

namespace SchemaBridge

open Graphql (Document Operation TypeRef VariableDefinition Node)

/-! ### Definitions one by one -/

/-- No definition before an index has the name. -/
def FirstAt (definitions : List VariableDefinition) (j : Nat) (name : String) : Prop :=
  name ∉ (definitions.take j).map (·.name)

instance (definitions : List VariableDefinition) (j : Nat) (name : String) :
    Decidable (FirstAt definitions j name) :=
  inferInstanceAs (Decidable (name ∉ (definitions.take j).map (·.name)))

/-- The first definition of all is the first of its name. -/
theorem firstAt_zero (definitions : List VariableDefinition) (name : String) :
    FirstAt definitions 0 name :=
  List.not_mem_nil

/-- A name is first among more definitions if it is first among fewer, and the new one has another
name. -/
theorem firstAt_succ {v : VariableDefinition} {rest : List VariableDefinition} {j : Nat}
    {name : String} :
    FirstAt (v :: rest) (j + 1) name ↔ v.name ≠ name ∧ FirstAt rest j name := by
  simp [FirstAt, eq_comm]

/-- Only the names of definitions tell which one is the first of a name. -/
theorem firstAt_congr {definitions definitions' : List VariableDefinition}
    (h : definitions.map (·.name) = definitions'.map (·.name)) {j : Nat} {name : String} :
    FirstAt definitions j name ↔ FirstAt definitions' j name := by
  rw [FirstAt, FirstAt, List.map_take, List.map_take, h]

/-- The type of a variable is that of its first definition. -/
theorem typeIn?_eq_some_iff {definitions : List VariableDefinition} {name : String}
    {type : TypeRef} :
    typeIn? definitions name = some type ↔ ∃ j v, definitions[j]? = some v ∧ v.name = name ∧
      v.type = type ∧ FirstAt definitions j name := by
  induction definitions with
  | nil => simp [typeIn?, definitionOf?]
  | cons v rest ih =>
      rw [typeIn?_cons]
      by_cases hname : v.name = name
      · rw [if_pos hname]
        constructor
        · intro h
          exact ⟨0, v, rfl, hname, Option.some.inj h, firstAt_zero _ _⟩
        · rintro ⟨j, w, hj, -, rfl, hfirst⟩
          cases j with
          | zero =>
              obtain rfl : v = w := Option.some.inj hj
              rfl
          | succ j => exact absurd hname (firstAt_succ.mp hfirst).1
      · rw [if_neg hname, ih]
        constructor
        · rintro ⟨j, w, hj, hw, htype, hfirst⟩
          exact ⟨j + 1, w, hj, hw, htype, firstAt_succ.mpr ⟨hname, hfirst⟩⟩
        · rintro ⟨j, w, hj, hw, htype, hfirst⟩
          cases j with
          | zero =>
              obtain rfl : v = w := Option.some.inj hj
              exact absurd hw hname
          | succ j => exact ⟨j, w, hj, hw, htype, (firstAt_succ.mp hfirst).2⟩

/-- The definitions after one variable has been redeclared: its first definition has the new type if
it had the old one, and every other stays. -/
theorem getElem?_retypeFirst? (definitions : List VariableDefinition) (target : String)
    (old new : TypeRef) (j : Nat) :
    ((retypeFirst? target old new definitions).getD definitions)[j]? =
      definitions[j]?.map fun v =>
        if v.name = target ∧ v.type = old ∧ FirstAt definitions j v.name then { v with type := new }
        else v := by
  induction definitions generalizing j with
  | nil => simp [retypeFirst?]
  | cons v rest ih =>
      by_cases htarget : v.name = target
      · subst htarget
        have hlater : ∀ w : VariableDefinition, ∀ i,
            ¬ (w.name = v.name ∧ w.type = old ∧ FirstAt (v :: rest) (i + 1) w.name) := by
          rintro w i ⟨hname, -, hfirst⟩
          exact (firstAt_succ.mp hfirst).1 hname.symm
        by_cases hold : v.type = old
        · rw [retypeFirst?, if_pos rfl, if_pos hold, Option.getD_some]
          cases j with
          | zero => simp [hold, firstAt_zero]
          | succ j => simp [hlater]
        · rw [retypeFirst?, if_pos rfl, if_neg hold, Option.getD_none]
          cases j with
          | zero => simp [hold]
          | succ j => simp [hlater]
      · have hrest : ((retypeFirst? target old new rest).map (v :: ·)).getD (v :: rest) =
            v :: (retypeFirst? target old new rest).getD rest := by
          cases retypeFirst? target old new rest <;> rfl
        rw [retypeFirst?, if_neg htarget, hrest]
        cases j with
        | zero => simp [htarget]
        | succ j =>
            rw [List.getElem?_cons_succ, ih, List.getElem?_cons_succ]
            refine Option.map_congr fun w _ => ?_
            refine if_congr (and_congr_right fun hname => and_congr_right fun _ => ?_) rfl rfl
            rw [firstAt_succ, hname, and_iff_right htarget]

/-- Redeclaring a variable keeps the names. -/
theorem map_name_retypeFirst? (definitions : List VariableDefinition) (target : String)
    (old new : TypeRef) :
    ((retypeFirst? target old new definitions).getD definitions).map (·.name) =
      definitions.map (·.name) := by
  refine List.ext_getElem? fun j => ?_
  rw [List.getElem?_map, getElem?_retypeFirst?, List.getElem?_map, Option.map_map]
  refine Option.map_congr fun v _ => ?_
  rw [Function.comp_apply]
  split_ifs <;> rfl

/-- The definitions that an operation has; one without a header has none. -/
def Graphql.Operation.variableDefinitions (o : Operation) : List VariableDefinition :=
  (o.header?.map (·.variableDefinitions)).getD []

/-- The operation with other definitions, if it has a header. -/
def Graphql.Operation.withVariableDefinitions (o : Operation)
    (definitions : List VariableDefinition) : Operation :=
  { o with header? := o.header?.map fun header =>
      { header with variableDefinitions := definitions } }

/-- The type of a variable is looked up among the definitions of the operation. -/
theorem Graphql.Operation.declaredType?_eq (o : Operation) (name : String) :
    o.declaredType? name = typeIn? o.variableDefinitions name := by
  rw [declaredType?, variableDefinitions]
  cases o.header? <;> rfl

namespace ArgumentRetype

variable (r : ArgumentRetype)

/-- The definitions after some variables have been redeclared: the first definitions of their names
have the new type if they had the old one, and all others stay. -/
theorem getElem?_retypeDefinitions (definitions : List VariableDefinition) (names : List String)
    (j : Nat) :
    (r.retypeDefinitions definitions names)[j]? = definitions[j]?.map fun v =>
      if v.name ∈ names ∧ v.type = r.oldType ∧ FirstAt definitions j v.name then
        { v with type := r.newType }
      else v := by
  rw [retypeDefinitions]
  induction names generalizing definitions with
  | nil => simp
  | cons target rest ih =>
      rw [List.foldl_cons, ih, getElem?_retypeFirst?, Option.map_map]
      refine Option.map_congr fun v _ => ?_
      rw [Function.comp_apply]
      simp only [firstAt_congr (map_name_retypeFirst? definitions target r.oldType r.newType)]
      by_cases hfirst : v.type = r.oldType ∧ FirstAt definitions j v.name
      · by_cases htarget : v.name = target
        · have hmem : v.name ∈ target :: rest := htarget ▸ List.mem_cons_self
          have hnew : (if v.name = target ∧ v.type = r.oldType ∧ FirstAt definitions j v.name then
              { v with type := r.newType } else v) = { v with type := r.newType } :=
            if_pos ⟨htarget, hfirst⟩
          rw [hnew]
          exact (ite_self _).trans (if_pos ⟨hmem, hfirst⟩).symm
        · simp [hfirst, htarget]
      · simp [hfirst]

/-- There are as many definitions as before. -/
theorem length_retypeDefinitions (definitions : List VariableDefinition) (names : List String) :
    (r.retypeDefinitions definitions names).length = definitions.length := by
  rw [retypeDefinitions]
  induction names generalizing definitions with
  | nil => rfl
  | cons target rest ih =>
      have hfirst := congrArg List.length
        (map_name_retypeFirst? definitions target r.oldType r.newType)
      rw [List.length_map, List.length_map] at hfirst
      rw [List.foldl_cons, ih, hfirst]

/-! ### What is to change -/

/-- An operation passes a variable as the argument: some field of the name that it selects has the
variable as the value of its first argument of that name. -/
def Passes (d : Document) (k : Nat) (name : String) : Prop :=
  ∃ x, d.Selects k x ∧ x.head.name = r.field ∧
    Entries.get? x.head.arguments r.argument = some (.reference name)

/-- A definition of an operation is to have the new type: it is the first of its name, it has the
old type, and the operation passes its variable as the argument. -/
structure Retypes (d : Document) (k : Nat) (o : Operation) (j : Nat) (v : VariableDefinition) :
    Prop where
  first : FirstAt o.variableDefinitions j v.name
  declared : v.type = r.oldType
  passed : r.Passes d k v.name

/-- A definition of a variable is to have the new type in some operation. -/
def Redeclared (d : Document) (name : String) : Prop :=
  ∃ k o j v, d.definitions[k]? = some (.operation o) ∧ o.variableDefinitions[j]? = some v ∧
    v.name = name ∧ r.Retypes d k o j v

variable {r} {d : Document} {k : Nat} {o : Operation}

/-- A field passes a variable if its first argument of the name refers to it. -/
theorem variableOf?_eq_some_iff {f : Graphql.Field} {name : String} :
    r.variableOf? f = some name ↔
      Entries.get? f.arguments r.argument = some (.reference name) := by
  rw [variableOf?]
  split
  · next h => simp [h]
  · next h =>
      constructor
      · intro hnone
        exact absurd hnone (by simp)
      · intro hsome
        exact absurd hsome (h name)

/-- The rule aims at the variables that an operation passes. -/
theorem mem_targets_iff (hk : d.definitions[k]? = some (.operation o)) {name : String} :
    name ∈ r.targets d o ↔ r.Passes d k name := by
  rw [targets, List.mem_eraseDups, List.mem_filterMap, Document.findFields_eq_map hk]
  constructor
  · rintro ⟨x, hx, hname⟩
    obtain ⟨m, hm, rfl⟩ := List.mem_map.mp hx
    obtain ⟨hfield, hselects⟩ := (Document.mem_found_iff hk).mp (List.mem_map_of_mem hm)
    exact ⟨m.node, hselects, hfield, variableOf?_eq_some_iff.mp hname⟩
  · rintro ⟨x, hselects, hfield, hname⟩
    obtain ⟨m, hm, rfl⟩ := List.mem_map.mp ((Document.mem_found_iff hk).mpr ⟨hfield, hselects⟩)
    exact ⟨m.occurrence, List.mem_map_of_mem hm, variableOf?_eq_some_iff.mpr hname⟩

/-- A variable is redeclared by an operation if a definition of it is to have the new type. -/
theorem mem_redeclaredIn_iff (hk : d.definitions[k]? = some (.operation o)) {name : String} :
    name ∈ r.redeclaredIn d o ↔
      ∃ j v, o.variableDefinitions[j]? = some v ∧ v.name = name ∧ r.Retypes d k o j v := by
  rw [mem_redeclaredIn, mem_targets_iff hk, o.declaredType?_eq, typeIn?_eq_some_iff]
  constructor
  · rintro ⟨hpasses, j, v, hj, rfl, htype, hfirst⟩
    exact ⟨j, v, hj, rfl, hfirst, htype, hpasses⟩
  · rintro ⟨j, v, hj, rfl, hfirst, htype, hpasses⟩
    exact ⟨hpasses, j, v, hj, rfl, htype, hfirst⟩

/-- A variable is redeclared by the rule if some operation redeclares it. -/
theorem mem_redeclared_iff {name : String} : name ∈ r.redeclared d ↔ r.Redeclared d name := by
  rw [redeclared, List.mem_flatMap]
  constructor
  · rintro ⟨o, ho, hname⟩
    obtain ⟨definition, hmem, hdefinition⟩ := List.mem_filterMap.mp ho
    cases definition with
    | fragment f => exact absurd hdefinition (by simp)
    | operation o' =>
        obtain rfl : o' = o := Option.some.inj hdefinition
        obtain ⟨k, hk⟩ := List.mem_iff_getElem?.mp hmem
        obtain ⟨j, v, hj, hv, hretypes⟩ := (mem_redeclaredIn_iff hk).mp hname
        exact ⟨k, o', j, v, hk, hj, hv, hretypes⟩
  · rintro ⟨k, o, j, v, hk, hj, hv, hretypes⟩
    refine ⟨o, ?_, (mem_redeclaredIn_iff hk).mpr ⟨j, v, hj, hv, hretypes⟩⟩
    exact List.mem_filterMap.mpr ⟨_, List.mem_of_getElem? hk, rfl⟩

/-! ### Operations after the rule -/

/-- The rule gives an operation other definitions and changes nothing else in it. -/
theorem retypeOperation_eq_withVariableDefinitions (d : Document) (o : Operation) :
    r.retypeOperation d o =
      o.withVariableDefinitions
        (r.retypeDefinitions o.variableDefinitions (r.redeclaredIn d o)) := by
  rw [retypeOperation, Operation.withVariableDefinitions, Operation.variableDefinitions]
  cases o.header? <;> rfl

/-- A definition after the rule has the new type if it is to have it, and is as before otherwise. -/
theorem getElem?_retypeDefinitions_redeclaredIn (hk : d.definitions[k]? = some (.operation o))
    {j : Nat} {v : VariableDefinition} (hj : o.variableDefinitions[j]? = some v) :
    (r.Retypes d k o j v →
        (r.retypeDefinitions o.variableDefinitions (r.redeclaredIn d o))[j]? =
          some { v with type := r.newType }) ∧
      (¬ r.Retypes d k o j v →
        (r.retypeDefinitions o.variableDefinitions (r.redeclaredIn d o))[j]? = some v) := by
  rw [getElem?_retypeDefinitions, hj, Option.map_some]
  have hiff : (v.name ∈ r.redeclaredIn d o ∧ v.type = r.oldType ∧
      FirstAt o.variableDefinitions j v.name) ↔ r.Retypes d k o j v := by
    constructor
    · rintro ⟨hmem, htype, hfirst⟩
      obtain ⟨hpasses, -⟩ := r.mem_redeclaredIn.mp hmem
      exact ⟨hfirst, htype, (mem_targets_iff hk).mp hpasses⟩
    · intro h
      exact ⟨(mem_redeclaredIn_iff hk).mpr ⟨j, v, hj, rfl, h⟩, h.declared, h.first⟩
  constructor
  · intro h
    rw [if_pos (hiff.mpr h)]
  · intro h
    rw [if_neg (hiff.not.mpr h)]

/-! ### Values -/

/-- The keys of supplied values, if there are any values. -/
def suppliedNames? (values : Option Json.Object) : Option (List String) :=
  values.map (·.map Prod.fst)

/-- The values of one variable are replaced in place. -/
theorem suppliedNames?_convertValue {name : String} {converted : List String}
    {values values' : Option Json.Object} {done : Bool}
    (ok : (r.convertValue name converted values).outcome = .ok (values', done)) :
    suppliedNames? values' = suppliedNames? values := by
  obtain ⟨convert, x, y, -, -, -, -, heq⟩ | ⟨-, heq⟩ := convertValue_eq ok
  · rw [heq] at ok
    obtain ⟨rfl, -⟩ := Prod.mk.inj (Except.ok.inj ok)
    cases values with
    | none => rfl
    | some vs => exact congrArg some (Entries.map_fst_replace vs name y)
  · rw [heq] at ok
    obtain ⟨rfl, -⟩ := Prod.mk.inj (Except.ok.inj ok)
    rfl

/-- Values are neither added nor taken away. -/
theorem suppliedNames?_convertValues {names converted : List String}
    {values values' : Option Json.Object}
    (ok : (r.convertValues converted values names).outcome = .ok values') :
    suppliedNames? values' = suppliedNames? values := by
  induction names generalizing converted values with
  | nil =>
      obtain rfl := Except.ok.inj ok
      rfl
  | cons target rest ih =>
      obtain ⟨⟨next, done⟩, hfirst, hrest⟩ := convertValues_cons_eq_ok.mp ok
      exact (ih hrest).trans (suppliedNames?_convertValue hfirst)

/-- No value is supplied for a variable that is not among the keys. -/
theorem suppliedValue?_eq_none_iff {values : Option Json.Object} {name : String} :
    suppliedValue? values name = none ↔
      ∀ keys, suppliedNames? values = some keys → name ∉ keys := by
  cases values with
  | none => simp [suppliedValue?, suppliedNames?]
  | some vs =>
      rw [suppliedValue?, Option.bind_some, Entries.get?_eq_none_iff]
      constructor
      · intro h keys hkeys hmem
        obtain rfl := Option.some.inj hkeys
        obtain ⟨e, he, hkey⟩ := List.mem_map.mp hmem
        exact h e he hkey
      · intro h e he hkey
        exact h _ rfl (hkey ▸ List.mem_map_of_mem he)

/-- Without a conversion nothing happens to the value of a variable. -/
theorem convertValue_of_converter?_eq_none (h : r.converter? = none) (name : String)
    (converted : List String) (values : Option Json.Object) :
    r.convertValue name converted values = pure (values, false) := by
  rw [convertValue, h]

/-! ### Conversions in the log -/

/-- The conversion for one variable is reported if there is one. -/
theorem log_convertValue {name : String} {converted : List String}
    {values values' : Option Json.Object} {done : Bool}
    (ok : (r.convertValue name converted values).outcome = .ok (values', done)) :
    (r.convertValue name converted values).log = if done then [.valueCoerced name] else [] := by
  obtain ⟨convert, x, y, -, -, -, -, heq⟩ | ⟨-, heq⟩ := convertValue_eq ok
  · rw [heq] at ok ⊢
    obtain ⟨-, rfl⟩ := Prod.mk.inj (Except.ok.inj ok)
    rfl
  · rw [heq] at ok ⊢
    obtain ⟨-, rfl⟩ := Prod.mk.inj (Except.ok.inj ok)
    rfl

/-- The log of conversions for variables one after the other: for each that the variable is declared
with the new type, and whether its value is converted. -/
theorem log_convertValues_cons {name : String} {rest converted : List String}
    {values next : Option Json.Object} {done : Bool}
    (ok : (r.convertValue name converted values).outcome = .ok (next, done)) :
    (r.convertValues converted values (name :: rest)).log =
      .variableRetyped name r.oldType r.newType :: (if done then [.valueCoerced name] else []) ++
        (r.convertValues (if done then name :: converted else converted) next rest).log := by
  rw [convertValues, Traced.log_bind_of_ok _ rfl, Traced.log_bind_of_ok _ ok, log_convertValue ok]
  rfl

/-- **A value is converted once.** Among any number of variables the conversion for one of them is
reported once if it is among them, has not been converted before and has a value, and never
otherwise. -/
theorem count_log_convertValues {convert : Converter} (hconvert : r.converter? = some convert)
    {names converted : List String} {values values' : Option Json.Object}
    (ok : (r.convertValues converted values names).outcome = .ok values') (name : String) :
    (r.convertValues converted values names).log.count (.valueCoerced name) =
      if name ∈ names ∧ name ∉ converted ∧ suppliedValue? values name ≠ none then 1 else 0 := by
  induction names generalizing converted values with
  | nil => simp [convertValues]
  | cons target rest ih =>
      obtain ⟨⟨next, done⟩, hfirst, hrest⟩ := convertValues_cons_eq_ok.mp ok
      have hnext : suppliedValue? next name = none ↔ suppliedValue? values name = none := by
        rw [suppliedValue?_eq_none_iff, suppliedValue?_eq_none_iff,
          suppliedNames?_convertValue hfirst]
      rw [log_convertValues_cons hfirst, List.count_append, ih hrest]
      simp only [ne_eq, hnext]
      obtain ⟨x, y, hx, htarget, -, -, rfl⟩ | ⟨htarget, -, rfl⟩ :=
        convertValue_cases hconvert hfirst
      · by_cases heq : target = name
        · subst heq
          simp [hx, htarget]
        · simp [heq, Ne.symm heq]
      · by_cases heq : target = name
        · subst heq
          obtain hx | hmem := htarget
          · simp [hx]
          · simp [hmem]
        · simp [Ne.symm heq]

/-- Without a conversion all values stay, and none is reported. -/
theorem convertValues_of_converter?_eq_none (h : r.converter? = none)
    {names converted : List String} {values values' : Option Json.Object}
    (ok : (r.convertValues converted values names).outcome = .ok values') :
    values' = values ∧ ∀ name,
      (r.convertValues converted values names).log.count (.valueCoerced name) = 0 := by
  induction names generalizing converted values with
  | nil => exact ⟨(Except.ok.inj ok).symm, fun _ => rfl⟩
  | cons target rest ih =>
      obtain ⟨⟨next, done⟩, hfirst, hrest⟩ := convertValues_cons_eq_ok.mp ok
      have hstays := hfirst
      rw [convertValue_of_converter?_eq_none h] at hstays
      obtain ⟨rfl, rfl⟩ := Prod.mk.inj (Except.ok.inj hstays)
      obtain ⟨hvalues, hcount⟩ := ih hrest
      refine ⟨hvalues, fun name => ?_⟩
      rw [log_convertValues_cons hfirst, List.count_append, hcount]
      simp

/-- Looking for variables reports no conversion. -/
theorem valueCoerced_notMem_searchEvents (r : ArgumentRetype) (d : Document) (o : Operation)
    (name : String) : .valueCoerced name ∉ r.searchEvents d o := by
  rw [searchEvents, List.mem_append, not_or]
  constructor
  · intro h
    obtain ⟨step, -, hstep⟩ := List.mem_filterMap.mp h
    cases step with
    | field x => cases hstep
    | skipped fragment =>
        rw [Option.some.injEq, Document.skippedEvent] at hstep
        split_ifs at hstep
  · intro h
    obtain ⟨x, -, hx⟩ := List.mem_filterMap.mp h
    rw [literalEvent?] at hx
    split at hx <;> cases hx

/-- The conversions that a request reports are those of its values. -/
theorem count_log_request {values : Option Json.Object} {adapted : Adapted}
    (ok : (r.toRule.request d values).outcome = .ok adapted) (name : String) :
    (r.toRule.request d values).log.count (.valueCoerced name) =
      (r.convertValues [] values (r.redeclared d)).log.count (.valueCoerced name) := by
  obtain ⟨values', hvalues, -⟩ := request_eq_ok.mp ok
  have hsearch : (d.operations.flatMap (r.searchEvents d)).count (.valueCoerced name) = 0 := by
    rw [List.count_eq_zero]
    intro h
    obtain ⟨o, -, h⟩ := List.mem_flatMap.mp h
    exact valueCoerced_notMem_searchEvents r d o name h
  have hlog : (r.toRule.request d values).log = d.operations.flatMap (r.searchEvents d) ++
      (r.convertValues [] values (r.redeclared d)).log := by
    rw [toRule]
    simp only
    rw [Traced.log_bind_of_ok _ rfl, Traced.log_bind_of_ok _ hvalues, Traced.log_pure,
      List.append_nil]
    rfl
  rw [hlog, List.count_append, hsearch, Nat.zero_add]

/-! ### Everything that a request changes -/

/-- The definitions of a document after the rule: fragments stay, and of an operation only the types
of the definitions change that are to change. -/
theorem definitions_retypeVariables (r : ArgumentRetype) (d : Document) (k : Nat) :
    (∀ f, d.definitions[k]? = some (.fragment f) →
      (r.retypeVariables d).definitions[k]? = some (.fragment f)) ∧
    ∀ o, d.definitions[k]? = some (.operation o) → ∃ vs,
      (r.retypeVariables d).definitions[k]? = some (.operation (o.withVariableDefinitions vs)) ∧
      vs.length = o.variableDefinitions.length ∧
      ∀ j v, o.variableDefinitions[j]? = some v →
        (r.Retypes d k o j v → vs[j]? = some { v with type := r.newType }) ∧
        (¬ r.Retypes d k o j v → vs[j]? = some v) := by
  have hget : (r.retypeVariables d).definitions[k]? =
      d.definitions[k]?.map (r.retypeDefinition d) := List.getElem?_map ..
  refine ⟨fun f hk => ?_, fun o hk => ⟨_, ?_, r.length_retypeDefinitions _ _, fun j v hj =>
    getElem?_retypeDefinitions_redeclaredIn hk hj⟩⟩
  · rw [hget, hk]
    rfl
  · rw [hget, hk, Option.map_some, retypeDefinition, retypeOperation_eq_withVariableDefinitions]

/-- **The effect of a rule for types.** A request that succeeds changes the types of those
definitions of operations that are the first of their name, have the old type, and belong to a
variable that some field within reach of the operation passes as the argument; everything else in
the document stays. The values keep their keys. Under a rule with a conversion the value of a
variable that was redeclared in some operation is the converted one, and its conversion is reported
once; all other values are as they were supplied. -/
theorem request_effect {values : Option Json.Object} {adapted : Adapted}
    (ok : (r.toRule.request d values).outcome = .ok adapted) :
    (adapted.document.definitions.length = d.definitions.length ∧
      ∀ k,
        (∀ f, d.definitions[k]? = some (.fragment f) →
          adapted.document.definitions[k]? = some (.fragment f)) ∧
        ∀ o, d.definitions[k]? = some (.operation o) → ∃ vs,
          adapted.document.definitions[k]? = some (.operation (o.withVariableDefinitions vs)) ∧
          vs.length = o.variableDefinitions.length ∧
          ∀ j v, o.variableDefinitions[j]? = some v →
            (r.Retypes d k o j v → vs[j]? = some { v with type := r.newType }) ∧
            (¬ r.Retypes d k o j v → vs[j]? = some v)) ∧
    suppliedNames? adapted.values = suppliedNames? values ∧
    ∀ name,
      (∀ convert x, r.converter? = some convert → r.Redeclared d name →
        suppliedValue? values name = some x →
        (∃ y, convert x = .ok y ∧ suppliedValue? adapted.values name = some y) ∧
          (r.toRule.request d values).log.count (.valueCoerced name) = 1) ∧
      (r.converter? = none ∨ ¬ r.Redeclared d name ∨ suppliedValue? values name = none →
        suppliedValue? adapted.values name = suppliedValue? values name ∧
          (r.toRule.request d values).log.count (.valueCoerced name) = 0) := by
  obtain ⟨values', hvalues, rfl⟩ := request_eq_ok.mp ok
  refine ⟨⟨List.length_map .., definitions_retypeVariables r d⟩,
    suppliedNames?_convertValues hvalues, fun name => ⟨fun convert x hconvert hname hx => ?_, ?_⟩⟩
  · rw [count_log_request ok, count_log_convertValues hconvert hvalues]
    have hmem := mem_redeclared_iff.mpr hname
    refine ⟨suppliedValue?_convertValues_of_mem hconvert hvalues hmem List.not_mem_nil hx, ?_⟩
    simp [hmem, hx]
  · intro h
    rw [count_log_request ok]
    cases hconvert : r.converter? with
    | none =>
        obtain ⟨rfl, hcount⟩ := convertValues_of_converter?_eq_none hconvert hvalues
        exact ⟨rfl, hcount name⟩
    | some convert =>
        rw [count_log_convertValues hconvert hvalues]
        obtain h | h | h := h
        · exact absurd (hconvert.symm.trans h) (Option.some_ne_none convert)
        · have hmem : name ∉ r.redeclared d := mem_redeclared_iff.not.mpr h
          refine ⟨suppliedValue?_convertValues_of_not_mem hconvert hvalues (.inl hmem), ?_⟩
          simp [hmem]
        · refine ⟨h ▸ ?_, by simp [h]⟩
          rw [suppliedValue?_eq_none_iff, suppliedNames?_convertValues hvalues]
          exact suppliedValue?_eq_none_iff.mp h

/-- `query A($v: String!, $v: String!) { ...Passing }`. -/
def declaringTwice : Operation :=
  ⟨some ⟨.query, some "A", [⟨"v", .nonNull (.named "String"), none⟩,
    ⟨"v", .nonNull (.named "String"), none⟩], []⟩, [.spread "Passing" []]⟩

/-- A query that declares its variable twice and passes it in a fragment that spreads itself,
`Passing on T { things(identifier: $v) ...Passing }`, and one that passes a variable of the same
name. -/
def passedTwice : Document :=
  ⟨[.operation declaringTwice,
    .fragment ⟨"Passing", "T", [],
      [.field ⟨none, "things", [("identifier", .reference "v")], []⟩ [], .spread "Passing" []]⟩,
    .operation passingQuery]⟩

/-- The value that both operations pass is converted once, and of the two definitions of its
variable the second one stays. -/
theorem request_effect_passedTwice :
    ∃ adapted, (identifierAsInteger.toRule.request passedTwice
        (some [("v", .string "123")])).outcome = .ok adapted ∧
      suppliedValue? adapted.values "v" = some (.number (.int 123)) ∧
      (identifierAsInteger.toRule.request passedTwice
        (some [("v", .string "123")])).log.count (.valueCoerced "v") = 1 ∧
      ∃ vs, adapted.document.definitions[0]? =
          some (.operation (declaringTwice.withVariableDefinitions vs)) ∧
        vs[1]? = some ⟨"v", .nonNull (.named "String"), none⟩ := by
  have hredeclared : identifierAsInteger.redeclared passedTwice = ["v", "v"] := by cbv
  have ok : (identifierAsInteger.toRule.request passedTwice (some [("v", .string "123")])).outcome =
      .ok ⟨identifierAsInteger.retypeVariables passedTwice, some [("v", .number (.int 123))],
        pure⟩ :=
    request_of_redeclared hredeclared rfl
  have hname : identifierAsInteger.Redeclared passedTwice "v" := by
    rw [← mem_redeclared_iff, hredeclared]
    exact List.mem_cons_self
  obtain ⟨⟨-, hdefinitions⟩, -, hvalues⟩ := request_effect ok
  obtain ⟨-, hcount⟩ := (hvalues "v").1 _ _ rfl hname rfl
  obtain ⟨vs, hvs, -, hentries⟩ := (hdefinitions 0).2 declaringTwice rfl
  refine ⟨_, ok, rfl, hcount, vs, hvs, (hentries 1 _ rfl).2 fun h => ?_⟩
  exact absurd h.first (by decide)

end ArgumentRetype

end SchemaBridge
