import Mathlib.Data.List.Basic
import Mathlib.Tactic.SplitIfs
import SchemaBridge.Proofs.Graphql.Trail
import SchemaBridge.Rule.ArgumentType

/-!
# Variables declared with another type

* `Operation.definition?`, `Operation.declaredType?`: the definition of a variable in an operation,
  and the type that it is declared with;
* `ArgumentRetype.operations_retypeVariables`: the operations are retyped one by one, and response
  paths have no part in it (`ArgumentRetype.responsePaths_retypeVariables`);
* `ArgumentRetype.definition?_retypeOperation`: an operation declares those variables with the new
  type that are to be redeclared, and defines the others as before;
* `ArgumentRetype.redeclares_iff`: so a variable is to be redeclared exactly if its declaration
  goes from the old type to the new one.
-/

namespace SchemaBridge

open Graphql (Document Operation TypeRef VariableDefinition)

/-! ### Declared types -/

/-- The type of the first definition of a variable. -/
def typeIn? (definitions : List VariableDefinition) (name : String) : Option TypeRef :=
  (definitionOf? definitions name).map (·.type)

/-- The first definition of a variable in an operation. -/
def Graphql.Operation.definition? (o : Operation) (name : String) : Option VariableDefinition :=
  o.header?.bind fun header => definitionOf? header.variableDefinitions name

/-- The type that an operation declares a variable with. -/
def Graphql.Operation.declaredType? (o : Operation) (name : String) : Option TypeRef :=
  o.header?.bind fun header => typeIn? header.variableDefinitions name

/-- The first of several definitions counts. -/
theorem definitionOf?_cons (v : VariableDefinition) (rest : List VariableDefinition)
    (name : String) :
    definitionOf? (v :: rest) name = if v.name = name then some v else definitionOf? rest name := by
  rw [definitionOf?, List.find?_cons]
  by_cases h : v.name = name
  · simp [h]
  · simp [h, definitionOf?]

/-- The type of the first of several definitions counts. -/
theorem typeIn?_cons (v : VariableDefinition) (rest : List VariableDefinition) (name : String) :
    typeIn? (v :: rest) name = if v.name = name then some v.type else typeIn? rest name := by
  rw [typeIn?, definitionOf?_cons]
  split_ifs <;> rfl

/-- A variable is declared with the type of its definition. -/
theorem Graphql.Operation.declaredType?_eq_map (o : Operation) (name : String) :
    o.declaredType? name = (o.definition? name).map (·.type) := by
  rw [declaredType?, definition?, Option.map_bind]
  rfl

/-- The definitions after one variable has been redeclared, if it had the old type. -/
theorem definitionOf?_retypeFirst? (definitions : List VariableDefinition) (target name : String)
    (old new : TypeRef) :
    definitionOf? ((retypeFirst? target old new definitions).getD definitions) name =
      if target = name ∧ typeIn? definitions name = some old then
        (definitionOf? definitions name).map fun v => { v with type := new }
      else definitionOf? definitions name := by
  induction definitions with
  | nil => simp [retypeFirst?, definitionOf?]
  | cons v rest ih =>
      by_cases htarget : v.name = target
      · subst htarget
        by_cases hold : v.type = old
        · rw [retypeFirst?, if_pos rfl, if_pos hold, Option.getD_some, definitionOf?_cons,
            definitionOf?_cons, typeIn?_cons]
          by_cases hname : v.name = name
          · simp [hname, hold]
          · simp [hname]
        · rw [retypeFirst?, if_pos rfl, if_neg hold, Option.getD_none, typeIn?_cons]
          by_cases hname : v.name = name
          · simp [hname, hold]
          · simp [hname]
      · have hrest : ((retypeFirst? target old new rest).map (v :: ·)).getD (v :: rest) =
            v :: (retypeFirst? target old new rest).getD rest := by
          cases retypeFirst? target old new rest <;> rfl
        rw [retypeFirst?, if_neg htarget, hrest, definitionOf?_cons, definitionOf?_cons,
          typeIn?_cons, ih]
        by_cases hname : v.name = name
        · have hne : target ≠ name := fun h => htarget (hname.trans h.symm)
          simp [hname, hne]
        · simp [hname]

/-- A definition of the old type has the new one after it has been redeclared. -/
theorem map_type_retype {definition? : Option VariableDefinition} {old : TypeRef}
    (h : definition?.map (·.type) = some old) (new : TypeRef) :
    (definition?.map fun v => { v with type := new }).map (·.type) = some new := by
  obtain ⟨v, rfl, -⟩ := Option.map_eq_some_iff.mp h
  rfl

/-- The types after one variable has been redeclared, if it had the old type. -/
theorem typeIn?_retypeFirst? (definitions : List VariableDefinition) (target name : String)
    (old new : TypeRef) :
    typeIn? ((retypeFirst? target old new definitions).getD definitions) name =
      if target = name ∧ typeIn? definitions name = some old then some new
      else typeIn? definitions name := by
  rw [typeIn?, definitionOf?_retypeFirst?]
  split_ifs with h
  · exact map_type_retype h.2 new
  · rfl

namespace ArgumentRetype

variable (r : ArgumentRetype)

/-! ### The document -/

/-- The operations are retyped one by one. -/
theorem operations_retypeVariables (d : Document) :
    (r.retypeVariables d).operations = d.operations.map (r.retypeOperation d) := by
  simp only [Document.operations, retypeVariables, List.filterMap_map, List.map_filterMap]
  refine List.filterMap_congr fun definition _ => ?_
  cases definition <;> rfl

/-- The fragments stay. -/
theorem fragments_retypeVariables (d : Document) :
    (r.retypeVariables d).fragments = d.fragments := by
  simp only [Document.fragments, retypeVariables, List.filterMap_map]
  refine List.filterMap_congr fun definition _ => ?_
  cases definition <;> rfl

/-- Declarations have no part in response paths. -/
theorem responsePaths_retypeVariables (d : Document) :
    (r.retypeVariables d).responsePaths = d.responsePaths := by
  have htrails : ∀ o, (r.retypeVariables d).trails (r.retypeOperation d o) = d.trails o := by
    intro o
    rw [Document.trails, fragments_retypeVariables]
    rfl
  rw [Document.responsePaths_eq_map, Document.responsePaths_eq_map, Document.allTrails,
    operations_retypeVariables, List.flatMap_map]
  simp only [htrails]
  rfl

/-! ### The operations -/

/-- The definitions after variables have been redeclared one after the other: none is redeclared
twice, as the types differ. -/
theorem definitionOf?_retypeDefinitions (hne : r.oldType ≠ r.newType)
    (definitions : List VariableDefinition) (names : List String) (name : String) :
    definitionOf? (r.retypeDefinitions definitions names) name =
      if name ∈ names ∧ typeIn? definitions name = some r.oldType then
        (definitionOf? definitions name).map fun v => { v with type := r.newType }
      else definitionOf? definitions name := by
  rw [retypeDefinitions]
  induction names generalizing definitions with
  | nil => simp
  | cons target rest ih =>
      rw [List.foldl_cons, ih, typeIn?_retypeFirst?, definitionOf?_retypeFirst?]
      by_cases htarget : target = name
      · subst htarget
        by_cases hold : typeIn? definitions target = some r.oldType
        · simp [hold, Ne.symm hne]
        · simp [hold]
      · simp [htarget, Ne.symm htarget]

/-- The variables to be redeclared are passed as the argument, and have the old type. -/
theorem mem_redeclaredIn {d : Document} {o : Operation} {name : String} :
    name ∈ r.redeclaredIn d o ↔
      name ∈ r.targets d o ∧ o.declaredType? name = some r.oldType := by
  rw [redeclaredIn, Operation.declaredType?]
  cases o.header? with
  | none => simp
  | some header => simp [typeIn?]

/-- An operation defines the variables that are to be redeclared with the new type, and all others
as before. -/
theorem definition?_retypeOperation (hne : r.oldType ≠ r.newType) (d : Document) (o : Operation)
    (name : String) :
    (r.retypeOperation d o).definition? name =
      if name ∈ r.redeclaredIn d o then
        (o.definition? name).map fun v => { v with type := r.newType }
      else o.definition? name := by
  have hmem : name ∈ r.redeclaredIn d o ↔
      name ∈ r.targets d o ∧ o.declaredType? name = some r.oldType := r.mem_redeclaredIn
  rw [Operation.declaredType?] at hmem
  rw [Operation.definition?, retypeOperation, Operation.definition?]
  cases hheader : o.header? with
  | none => simp
  | some header =>
      rw [hheader, Option.bind_some] at hmem
      rw [Option.map_some, Option.bind_some, Option.bind_some,
        r.definitionOf?_retypeDefinitions hne]
      exact if_congr ⟨fun h => h.1, fun h => ⟨h, (hmem.mp h).2⟩⟩ rfl rfl

/-- An operation declares the variables with the new type that are to be redeclared. -/
theorem declaredType?_retypeOperation (hne : r.oldType ≠ r.newType) (d : Document) (o : Operation)
    (name : String) :
    (r.retypeOperation d o).declaredType? name =
      if name ∈ r.redeclaredIn d o then some r.newType else o.declaredType? name := by
  rw [Operation.declaredType?_eq_map, r.definition?_retypeOperation hne]
  split_ifs with hmem
  · have hold := (r.mem_redeclaredIn.mp hmem).2
    rw [Operation.declaredType?_eq_map] at hold
    exact map_type_retype hold r.newType
  · exact (o.declaredType?_eq_map name).symm

/-- The declaration of a variable goes from the old type to the new one. -/
def Redeclares (o o' : Operation) (name : String) : Prop :=
  o.declaredType? name = some r.oldType ∧ o'.declaredType? name = some r.newType

/-- A variable is to be redeclared exactly if its declaration goes from the old type to the new
one. -/
theorem redeclares_iff (hne : r.oldType ≠ r.newType) {d : Document} {o : Operation}
    {name : String} :
    r.Redeclares o (r.retypeOperation d o) name ↔ name ∈ r.redeclaredIn d o := by
  rw [Redeclares, r.declaredType?_retypeOperation hne]
  constructor
  · rintro ⟨hold, hnew⟩
    by_contra hmem
    rw [if_neg hmem, hold] at hnew
    exact hne (Option.some.inj hnew)
  · intro hmem
    exact ⟨(r.mem_redeclaredIn.mp hmem).2, if_pos hmem⟩

end ArgumentRetype

end SchemaBridge
