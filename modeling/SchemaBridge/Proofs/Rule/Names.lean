import SchemaBridge.Proofs.Graphql.WellNamed
import SchemaBridge.Proofs.Rule.Frame

/-!
# Names that rules write

A rule specification is refused if one of its names is blank, or one of its types is no type.
Nothing else is asked of names, so it depends on the specification whether a rule writes names only.

* `FieldRename.wellNamed_iff`, `ArgumentRename.wellNamed_iff`: when a renaming keeps all documents
  well named;
* `RuleSpec.Describes`: what is made of a specification that is accepted;
* `RuleSpec.WritesNames`: the condition on a specification;
* `wellNamed_adaptAll`: any number of such rules keep a document well named.
-/

namespace SchemaBridge

open Graphql (Document Field Selection VariableDefinition TypeRef IsName)

/-! ### One rule -/

namespace FieldRename

variable (r : FieldRename)

/-- A renaming of fields keeps names if the new name is one, or the old name is none and so does not
occur. -/
theorem wellNamed_renameFields (h : IsName r.oldName → IsName r.newName) {d : Document}
    (hd : d.WellNamed) : (r.renameFields d).1.WellNamed := by
  rw [r.renameFields_eq_mapFields]
  refine hd.mapFields fun head hhead => ?_
  rw [renameField, Graphql.onlyNamed]
  split_ifs with hname
  · exact ⟨h (hname ▸ hhead.name), hhead.arguments⟩
  · exact hhead

/-- A renaming of fields keeps all documents well named exactly if it makes names of names. -/
theorem wellNamed_iff :
    (∀ d : Document, d.WellNamed → (r.renameFields d).1.WellNamed) ↔
      (IsName r.oldName → IsName r.newName) := by
  refine ⟨fun h hold => ?_, fun h d => r.wellNamed_renameFields h⟩
  -- a document with one field, which has the old name
  have hbefore : Field.WellNamed ⟨none, r.oldName, [], []⟩ := ⟨hold, by simp⟩
  have hafter := h _ (Document.wellNamed_ofField.mpr hbefore)
  rw [r.renameFields_eq_mapFields, Document.mapFields_ofField] at hafter
  have hname := (Document.wellNamed_ofField.mp hafter).name
  rwa [renameField, Graphql.onlyNamed, if_pos rfl] at hname

end FieldRename

namespace ArgumentRename

variable (r : ArgumentRename)

/-- An argument after a renaming was there before, or is the first one of the old name. -/
theorem mem_renameFirst {old new : String} {arguments : Graphql.Arguments}
    {argument : String × Graphql.Literal} (h : argument ∈ renameFirst old new arguments) :
    argument ∈ arguments ∨ (argument.1 = new ∧ (old, argument.2) ∈ arguments) := by
  induction arguments with
  | nil => exact .inl h
  | cons a rest ih =>
      obtain ⟨k, v⟩ := a
      rw [renameFirst] at h
      split_ifs at h with hold
      · rcases List.mem_cons.mp h with rfl | h
        · exact .inr ⟨rfl, hold ▸ List.mem_cons_self⟩
        · exact .inl (List.mem_cons_of_mem _ h)
      · rcases List.mem_cons.mp h with rfl | h
        · exact .inl List.mem_cons_self
        · exact (ih h).imp (List.mem_cons_of_mem _) fun h => ⟨h.1, List.mem_cons_of_mem _ h.2⟩

/-- A renaming of arguments keeps names if the new name is one, or the field or the old name is none
and so does not occur. -/
theorem wellNamed_renameArguments (h : IsName r.field → IsName r.oldName → IsName r.newName)
    {d : Document} (hd : d.WellNamed) : (r.renameArguments d).1.WellNamed := by
  rw [r.renameArguments_eq_mapFields]
  refine hd.mapFields fun head hhead => ?_
  rw [Graphql.onlyNamed, renameIn]
  split_ifs with hfield hnew
  · exact hhead
  · refine ⟨hhead.name, fun argument hargument => ?_⟩
    obtain hmem | ⟨hname, hmem⟩ := mem_renameFirst hargument
    · exact hhead.arguments argument hmem
    · exact hname ▸ h (hfield ▸ hhead.name) (hhead.arguments _ hmem)
  · exact hhead

/-- A renaming of arguments keeps all documents well named exactly if it makes names of names. -/
theorem wellNamed_iff :
    (∀ d : Document, d.WellNamed → (r.renameArguments d).1.WellNamed) ↔
      (IsName r.field → IsName r.oldName → IsName r.newName) := by
  refine ⟨fun h hfield hold => ?_, fun h d => r.wellNamed_renameArguments h⟩
  by_cases hsame : r.oldName = r.newName
  · exact hsame ▸ hold
  -- a document with one field, which has the old name as that of its argument
  have hbefore : Field.WellNamed ⟨none, r.field, [(r.oldName, .null)], []⟩ :=
    ⟨hfield, by simpa using hold⟩
  have hafter := h _ (Document.wellNamed_ofField.mpr hbefore)
  rw [r.renameArguments_eq_mapFields, Document.mapFields_ofField] at hafter
  refine (Document.wellNamed_ofField.mp hafter).arguments (r.newName, .null) ?_
  simp [Graphql.onlyNamed, renameIn, hasArgument, renameFirst, hsame]

end ArgumentRename

/-- A definition of a variable after the rule has the type that it had, or the new one. -/
theorem ArgumentRetype.mem_retypeDefinitions {r : ArgumentRetype}
    {definitions : List VariableDefinition} {names : List String} {v : VariableDefinition}
    (h : v ∈ r.retypeDefinitions definitions names) :
    ∃ w ∈ definitions, v = w ∨ v = { w with type := r.newType } := by
  obtain ⟨j, hj⟩ := List.mem_iff_getElem?.mp h
  obtain ⟨w, hw, heq⟩ := Option.map_eq_some_iff.mp
    ((r.getElem?_retypeDefinitions definitions names j).symm.trans hj)
  refine ⟨w, List.mem_of_getElem? hw, ?_⟩
  split_ifs at heq
  · exact .inr heq.symm
  · exact .inl heq.symm

/-- A type that is well named keeps names wherever it is put. -/
theorem ArgumentRetype.wellNamed_retypeVariables {r : ArgumentRetype} (h : r.newType.WellNamed)
    {d : Document} (hd : d.WellNamed) : (r.retypeVariables d).WellNamed := by
  constructor
  · intro definition hdefinition
    obtain ⟨before, hbefore, rfl⟩ := List.mem_map.mp hdefinition
    have hfields := hd.fields before hbefore
    cases before <;> exact hfields
  · intro definition hdefinition v hv
    obtain ⟨before, hbefore, rfl⟩ := List.mem_map.mp hdefinition
    cases before with
    | fragment f => exact absurd hv List.not_mem_nil
    | operation o =>
        obtain ⟨header?, selections⟩ := o
        cases header? with
        | none => exact absurd hv List.not_mem_nil
        | some header =>
            obtain ⟨w, hw, heq | heq⟩ := mem_retypeDefinitions hv
            · exact heq ▸ hd.types _ hbefore w hw
            · exact heq ▸ h

namespace StandardRule

/-- The rule writes names only, as long as it finds names only, and types as they are read. -/
def WritesNames : StandardRule → Prop
  | argumentType r => r.newType.WellNamed ∧ r.newType.MarkedOnce
  | argumentName r => IsName r.field → IsName r.oldName → IsName r.newName
  | fieldName r => IsName r.oldName → IsName r.newName

/-- A rule that writes names keeps a document well named. -/
theorem wellNamed_adapt {rule : StandardRule} (h : rule.WritesNames) {d : Document}
    (hd : d.WellNamed) : (rule.adapt d).WellNamed := by
  cases rule with
  | argumentType r => exact ArgumentRetype.wellNamed_retypeVariables h.1 hd
  | argumentName r => exact r.wellNamed_renameArguments h hd
  | fieldName r => exact r.wellNamed_renameFields h hd

end StandardRule

/-! ### Specifications -/

/-- A name that is required is kept as it is. -/
theorem eq_of_requireName {kind : RuleKind} {option name name' : String}
    (h : requireName kind option name = .ok name') : name' = name := by
  rw [requireName] at h
  split_ifs at h
  exact (Except.ok.inj h).symm

/-- A type that is required is read from its text. -/
theorem parse_of_requireType {text : String} {type : TypeRef} (h : requireType text = .ok type) :
    TypeRef.parse text = .ok type := by
  rw [requireType] at h
  cases hparse : TypeRef.parse text with
  | error e => rw [hparse] at h; cases h
  | ok type' =>
      rw [hparse] at h
      exact congrArg Except.ok (Except.ok.inj h)

namespace RuleSpec

/-- The rule has the names of the specification, and types that are read from its texts. -/
def Describes : RuleSpec → StandardRule → Prop
  | argumentType field argument oldType newType _, .argumentType r =>
    r.field = field ∧ r.argument = argument ∧ TypeRef.parse oldType = .ok r.oldType ∧
      TypeRef.parse newType = .ok r.newType
  | argumentName field oldName newName, .argumentName r => r = ⟨field, oldName, newName⟩
  | fieldName oldName newName, .fieldName r => r = ⟨oldName, newName⟩
  | _, _ => False

/-- A specification that is accepted describes the rule that it is made into. -/
theorem describes_of_build {spec : RuleSpec} {rule : StandardRule}
    (hbuild : spec.build = .ok rule) : spec.Describes rule := by
  cases spec with
  | argumentType field argument oldType newType coercion? =>
      obtain ⟨r, hmake, hrule⟩ := bind_eq_ok_iff.mp hbuild
      obtain rfl := Except.ok.inj hrule
      obtain ⟨argument', hargument, hmake⟩ := bind_eq_ok_iff.mp hmake
      obtain ⟨field', hfield, hmake⟩ := bind_eq_ok_iff.mp hmake
      obtain ⟨newType', hnew, hmake⟩ := bind_eq_ok_iff.mp hmake
      obtain ⟨oldType', hold, hmake⟩ := bind_eq_ok_iff.mp hmake
      obtain rfl := Except.ok.inj hmake
      exact ⟨eq_of_requireName hfield, eq_of_requireName hargument, parse_of_requireType hold,
        parse_of_requireType hnew⟩
  | argumentName field oldName newName =>
      obtain ⟨r, hmake, hrule⟩ := bind_eq_ok_iff.mp hbuild
      obtain rfl := Except.ok.inj hrule
      obtain ⟨field', hfield, hmake⟩ := bind_eq_ok_iff.mp hmake
      obtain ⟨newName', hnew, hmake⟩ := bind_eq_ok_iff.mp hmake
      obtain ⟨oldName', hold, hmake⟩ := bind_eq_ok_iff.mp hmake
      obtain rfl := Except.ok.inj hmake
      rw [Describes, eq_of_requireName hfield, eq_of_requireName hnew, eq_of_requireName hold]
  | fieldName oldName newName =>
      obtain ⟨r, hmake, hrule⟩ := bind_eq_ok_iff.mp hbuild
      obtain rfl := Except.ok.inj hrule
      obtain ⟨newName', hnew, hmake⟩ := bind_eq_ok_iff.mp hmake
      obtain ⟨oldName', hold, hmake⟩ := bind_eq_ok_iff.mp hmake
      obtain rfl := Except.ok.inj hmake
      rw [Describes, eq_of_requireName hnew, eq_of_requireName hold]

/-- The new name of a field or of an argument is a name, unless a name that the rule looks for is
none. Nothing is asked of types, which are read before they are written. -/
def WritesNames : RuleSpec → Prop
  | argumentType _ _ _ _ _ => True
  | argumentName field oldName newName => IsName field → IsName oldName → IsName newName
  | fieldName oldName newName => IsName oldName → IsName newName

/-- The rule that a specification describes writes names if the specification says so. -/
theorem Describes.writesNames {spec : RuleSpec} {rule : StandardRule} (hrule : spec.Describes rule)
    (h : spec.WritesNames) : rule.WritesNames := by
  cases spec with
  | argumentType field argument oldType newType coercion? =>
      cases rule with
      | argumentType r => exact (TypeRef.parse_eq_ok_iff.mp hrule.2.2.2).wellNamed_markedOnce
      | argumentName r => exact absurd hrule id
      | fieldName r => exact absurd hrule id
  | argumentName field oldName newName =>
      cases rule with
      | argumentType r => exact absurd hrule id
      | argumentName r =>
          rw [Describes] at hrule
          exact hrule ▸ h
      | fieldName r => exact absurd hrule id
  | fieldName oldName newName =>
      cases rule with
      | argumentType r => exact absurd hrule id
      | argumentName r => exact absurd hrule id
      | fieldName r =>
          rw [Describes] at hrule
          exact hrule ▸ h

/-- Every rule of a list comes from one of the specifications. -/
theorem exists_of_mem_buildAll {specs : List RuleSpec} {rules : List StandardRule}
    (hbuild : buildAll specs = .ok rules) {rule : StandardRule} (hrule : rule ∈ rules) :
    ∃ spec ∈ specs, spec.build = .ok rule := by
  rw [buildAll] at hbuild
  induction specs generalizing rules with
  | nil =>
      obtain rfl := Except.ok.inj hbuild
      exact absurd hrule List.not_mem_nil
  | cons spec rest ih =>
      rw [List.mapM_cons] at hbuild
      obtain ⟨first, hfirst, hbuild⟩ := bind_eq_ok_iff.mp hbuild
      obtain ⟨others, hothers, hbuild⟩ := bind_eq_ok_iff.mp hbuild
      obtain rfl := Except.ok.inj hbuild
      rcases List.mem_cons.mp hrule with rfl | hrule
      · exact ⟨spec, List.mem_cons_self, hfirst⟩
      · obtain ⟨spec', hspec, hrule⟩ := ih hothers hrule
        exact ⟨spec', List.mem_cons_of_mem _ hspec, hrule⟩

end RuleSpec

/-! ### Any rules -/

/-- Rules that write names keep a document well named. -/
theorem wellNamed_adaptAll {rules : List StandardRule} (h : ∀ rule ∈ rules, rule.WritesNames)
    {d : Document} (hd : d.WellNamed) : (adaptAll rules d).WellNamed := by
  rw [adaptAll]
  induction rules generalizing d with
  | nil => exact hd
  | cons rule rest ih =>
      exact ih (fun other hother => h other (List.mem_cons_of_mem _ hother))
        (StandardRule.wellNamed_adapt (h rule List.mem_cons_self) hd)

/-- The document that rules leave, if they make a request without failing. -/
theorem document_of_sequence {rules : List StandardRule} {d : Document}
    {values : Option Json.Object} {adapted : Adapted}
    (ok : ((Rule.sequence (rules.map StandardRule.toRule)).request d values).outcome =
      .ok adapted) : adapted.document = adaptAll rules d := by
  induction rules generalizing d values adapted with
  | nil =>
      obtain rfl := Except.ok.inj ok
      rfl
  | cons rule rest ih =>
      obtain ⟨a, b, ha, hb, rfl⟩ := Rule.followedBy_eq_ok.mp ok
      rw [(StandardRule.of_request ha).1] at hb
      show b.document = adaptAll rest (rule.adapt d)
      exact ih hb

end SchemaBridge
