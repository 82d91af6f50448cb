import SchemaBridge.Proofs.Graphql.EveryField
import SchemaBridge.Proofs.Graphql.Reprint
import SchemaBridge.Proofs.Rule.Names

/-!
# Rules that find no field

Every rule looks for the fields of one name. Where no field has that name, the rule might as well
not be there.

* `RuleSpec.target`, `StandardRule.target`: the name that a rule looks for;
* `StandardRule.request_of_lacks`: a rule that finds no field keeps the document and the variables,
  and its way back keeps every response;
* `sequence_of_lacks`: so does any list of such rules, since each of them sees the document that the
  first one saw;
* `Exchange.unchanged_of_lacks`: an exchange under such rules passes both of its sides on.
-/

namespace SchemaBridge

open Graphql (Document Operation Field IsName)

/-- The name of the fields that a specification speaks about. -/
def RuleSpec.target : RuleSpec → String
  | argumentType field _ _ _ _ => field
  | argumentName field _ _ => field
  | fieldName oldName _ => oldName

/-- The name of the fields that a rule looks for. -/
def StandardRule.target : StandardRule → String
  | argumentType r => r.field
  | argumentName r => r.field
  | fieldName r => r.oldName

/-- A rule looks for the fields that its specification speaks about. -/
theorem RuleSpec.Describes.target_eq {spec : RuleSpec} {rule : StandardRule}
    (h : spec.Describes rule) : rule.target = spec.target := by
  cases spec with
  | argumentType field argument oldType newType coercion? =>
      cases rule with
      | argumentType r => exact h.1
      | argumentName r => exact absurd h id
      | fieldName r => exact absurd h id
  | argumentName field oldName newName =>
      cases rule with
      | argumentType r => exact absurd h id
      | argumentName r =>
          rw [Describes] at h
          rw [StandardRule.target, h, target]
      | fieldName r => exact absurd h id
  | fieldName oldName newName =>
      cases rule with
      | argumentType r => exact absurd h id
      | argumentName r => exact absurd h id
      | fieldName r =>
          rw [Describes] at h
          rw [StandardRule.target, h, target]

/-! ### One rule -/

section

variable {d : Document}

/-- Fields that are not there are not renamed. -/
theorem FieldRename.renameFields_of_lacks {r : FieldRename} (h : d.Lacks r.oldName) :
    (r.renameFields d).1 = d := by
  rw [renameFields_eq_mapFields]
  exact h.mapFields_onlyNamed fun f => { f with name := r.newName }

/-- No paths are recorded for fields that are not there. -/
theorem FieldRename.recordedPaths_of_lacks {r : FieldRename} (h : d.Lacks r.oldName) :
    r.recordedPaths d = [] := by
  refine List.eq_nil_iff_forall_not_mem.mpr fun p hp => ?_
  obtain ⟨q, hq, -⟩ := r.mem_recordedPaths.mp hp
  obtain ⟨t, ht, haffects, -⟩ := r.mem_affectedPaths.mp hq
  exact Document.EveryField.head h ht haffects.2

/-- Without recorded paths a response is kept. -/
theorem FieldRename.restore_nil (r : FieldRename) (v : Json.Value) : r.restore [] v = v :=
  (r.restore_eq_rekey (fun _ hp => absurd hp List.not_mem_nil) v).trans (rekey_nil [] v)

/-- Arguments of fields that are not there are not renamed. -/
theorem ArgumentRename.renameArguments_of_lacks {r : ArgumentRename} (h : d.Lacks r.field) :
    (r.renameArguments d).1 = d := by
  rw [renameArguments_eq_mapFields]
  exact h.mapFields_onlyNamed r.renameIn

/-- No variable is passed to fields that are not there. -/
theorem ArgumentRetype.redeclared_of_lacks {r : ArgumentRetype} (h : d.Lacks r.field) :
    r.redeclared d = [] := by
  refine List.flatMap_eq_nil_iff.mpr fun o ho => ?_
  refine List.eq_nil_iff_forall_not_mem.mpr fun name hname => ?_
  rw [r.mem_redeclaredIn, targets, h.findFields_eq_nil ho] at hname
  simp at hname

/-- Without variables to be redeclared all variables are declared as before. -/
theorem ArgumentRetype.retypeVariables_eq_self {r : ArgumentRetype} (h : r.redeclared d = []) :
    r.retypeVariables d = d := by
  refine congrArg Document.mk ((List.map_congr_left fun definition hdefinition => ?_).trans
    (List.map_id d.definitions))
  cases definition with
  | fragment f => rfl
  | operation o =>
      have ho : o ∈ d.operations := List.mem_filterMap.mpr ⟨_, hdefinition, rfl⟩
      obtain ⟨header?, selections⟩ := o
      rw [retypeDefinition, retypeOperation, List.flatMap_eq_nil_iff.mp h _ ho]
      cases header? <;> rfl

/-- Without variables to be redeclared a rule for types keeps the request, whatever the values are,
and every response. -/
theorem ArgumentRetype.request_of_redeclared_eq_nil {r : ArgumentRetype} (h : r.redeclared d = [])
    (values : Option Json.Object) :
    (r.toRule.request d values).outcome = .ok ⟨d, values, pure⟩ := by
  rw [request_of_redeclared h rfl, retypeVariables_eq_self h]

/-- A rule that finds no field keeps the request, whatever the values are, and every response. -/
theorem StandardRule.request_of_lacks {rule : StandardRule} (h : d.Lacks rule.target)
    (values : Option Json.Object) :
    (rule.toRule.request d values).outcome = .ok ⟨d, values, pure⟩ := by
  cases rule with
  | argumentType r =>
      exact ArgumentRetype.request_of_redeclared_eq_nil
        (ArgumentRetype.redeclared_of_lacks h) values
  | argumentName r =>
      refine r.outcome_request.trans ?_
      rw [ArgumentRename.renameArguments_of_lacks h]
  | fieldName r =>
      refine r.outcome_request.trans ?_
      rw [FieldRename.renameFields_of_lacks h, FieldRename.recordedPaths_of_lacks h]
      simp only [r.restore_nil]

end

/-! ### Any rules -/

/-- Rules of which none finds a field keep the request and every response. Each of them sees the
document that the first one saw. -/
theorem sequence_of_lacks {rules : List StandardRule} {d : Document}
    (h : ∀ rule ∈ rules, d.Lacks rule.target) (values : Option Json.Object) :
    ((Rule.sequence (rules.map StandardRule.toRule)).request d values).outcome =
      .ok ⟨d, values, pure⟩ := by
  induction rules with
  | nil => rfl
  | cons rule rest ih =>
      refine Rule.followedBy_eq_ok.mpr
        ⟨⟨d, values, pure⟩, ⟨d, values, pure⟩, ?_, ih fun other hother => ?_, rfl⟩
      · exact StandardRule.request_of_lacks (h rule List.mem_cons_self) values
      · exact h other (List.mem_cons_of_mem _ hother)

/-- **Rules that find no field change nothing.** Suppose that no field of a query, in any
operation or fragment, has a name that one of the rules looks for, however many rules of whatever
kinds there are. Then the request succeeds for all values of the variables, also for those that a
rule could not convert; the query is printed as it was read, and goes out with the values that
were supplied. Every response comes back as it is, whatever keys it has. -/
theorem Exchange.unchanged_of_lacks {specs : List RuleSpec} {e : Exchange}
    (hspecs : Exchange.ofSpecs specs = .ok e) {query : String} {d : Document}
    (hread : Document.read? query = some d) (hlacks : ∀ spec ∈ specs, d.Lacks spec.target)
    (values : Option Json.Object) :
    (e.request query values).2.outcome = .ok ⟨d.print, values⟩ ∧
      (e.request query values).1.phase = .requestDone ∧
      ∀ response : Json.Value,
        ((e.request query values).1.response response).2.outcome = .ok response := by
  obtain ⟨rules, hbuild, hstart⟩ := bind_eq_ok_iff.mp hspecs
  obtain rfl := Except.ok.inj hstart
  have htargets : ∀ rule ∈ rules, d.Lacks rule.target := by
    intro rule hrule
    obtain ⟨spec, hspec, hrule⟩ := RuleSpec.exists_of_mem_buildAll hbuild hrule
    rw [(RuleSpec.describes_of_build hrule).target_eq]
    exact hlacks spec hspec
  have ok := sequence_of_lacks htargets values
  refine ⟨outcome_request_start hread ok, ?_, fun response => ?_⟩
  · rw [request_start hread ok]
    rfl
  · rw [request_start hread ok, outcome_response_sent]
    rfl

/-- `query ($n: ID) { other(first: $n) { things: id ...Rest } } fragment Rest on Other { items:
name }`. -/
def otherFields : Document :=
  ⟨[.operation ⟨some ⟨.query, none, [⟨"n", .named "ID", none⟩], []⟩,
      [.field ⟨none, "other", [("first", .reference "n")], []⟩
        [.field ⟨some "things", "id", [], []⟩ [], .spread "Rest" []]]⟩,
    .fragment ⟨"Rest", "Other", [], [.field ⟨some "items", "name", [], []⟩ []]⟩]⟩

/-- The document is formed by the grammar. -/
theorem formed_otherFields : otherFields.Formed := by
  have haliased : ∀ label name, IsName label → IsName name →
      (⟨some label, name, [], []⟩ : Field).Formed := fun label name hlabel hname =>
    ⟨by simpa using hlabel, hname, ⟨by simp, by simp⟩, by simp⟩
  have hother : (⟨none, "other", [("first", .reference "n")], []⟩ : Field).Formed := by
    refine ⟨by simp, by decide, ⟨?_, ?_⟩, by simp⟩
    · simpa using (by decide : IsName "first")
    · simpa using Graphql.Literal.Formed.reference rfl (by decide)
  have hheader : (⟨.query, none, [⟨"n", .named "ID", none⟩], []⟩ :
      Graphql.OperationHeader).Formed := by
    refine ⟨by simp, fun v hv => ?_, by simp⟩
    obtain rfl := List.mem_singleton.mp hv
    exact ⟨by decide, (by decide : IsName "ID"), trivial, by simp⟩
  refine ⟨?_, by simp [otherFields]⟩
  simp only [otherFields, List.forall_mem_cons, Graphql.Definition.Formed]
  refine ⟨⟨fun header hh => Option.some.inj hh ▸ hheader, ?_, by simp⟩,
    ⟨by decide, by decide, by simp, ?_, by simp⟩, by simp⟩
  · simp only [Graphql.EverySelection, Graphql.Selection.Formed, and_true]
    exact ⟨hother, haliased _ _ (by decide) (by decide), by decide, by decide, by simp⟩
  · simp only [Graphql.EverySelection, Graphql.Selection.Formed, and_true]
    exact haliased _ _ (by decide) (by decide)

/-- One rule of each kind; the first one converts integers. -/
def otherTargets : List RuleSpec :=
  [.argumentType "things" "first" "ID" "Int" (some .toInteger),
    .argumentName "things" "first" "limit", .fieldName "items" "things"]

/-- The rules can be built. -/
theorem exists_ofSpecs_otherTargets : ∃ e, Exchange.ofSpecs otherTargets = .ok e := by
  have hnew : requireType "Int" = .ok (.named "Int") := by cbv
  have hold : requireType "ID" = .ok (.named "ID") := by cbv
  have hmake : ∀ converter?, ArgumentRetype.make "things" "first" "ID" "Int" converter? =
      .ok ⟨"things", "first", .named "ID", .named "Int", converter?⟩ := by
    intro converter?
    rw [ArgumentRetype.make, hnew, hold]
    rfl
  rw [Exchange.ofSpecs, RuleSpec.buildAll, otherTargets, List.mapM_cons, RuleSpec.build, hmake]
  exact ⟨_, rfl⟩

/-- The names of the rules are only those of aliases, so that a value which is no integer and a
response with these keys pass. -/
theorem Exchange.unchanged_of_lacks_aliases :
    ∃ e, Exchange.ofSpecs otherTargets = .ok e ∧
      Document.read? otherFields.print = some otherFields ∧
      (∀ spec ∈ otherTargets, otherFields.Lacks spec.target) ∧
      Coercion.toInteger.apply (.string "no number") = .error ⟨.toInteger, .string "no number"⟩ ∧
      (e.request otherFields.print (some [("n", .string "no number")])).2.outcome =
        .ok ⟨otherFields.print, some [("n", .string "no number")]⟩ ∧
      ((e.request otherFields.print (some [("n", .string "no number")])).1.response
        (.object [("items", .null), ("things", .null)])).2.outcome =
          .ok (.object [("items", .null), ("things", .null)]) := by
  obtain ⟨e, hspecs⟩ := exists_ofSpecs_otherTargets
  have hread : Document.read? otherFields.print = some otherFields := by
    obtain ⟨tokens, hscan, hnesting⟩ := Option.map_eq_some_iff.mp
      (by cbv : otherFields.scan.map (Graphql.withinNesting Graphql.maxNesting) = some true)
    have hreread : otherFields.reread = otherFields := by cbv
    exact formed_otherFields.read?_print_eq_some_iff.mpr ⟨⟨tokens, hscan, hnesting⟩, hreread.symm⟩
  have hlacks : ∀ spec ∈ otherTargets, otherFields.Lacks spec.target := by
    simp [otherTargets, otherFields, RuleSpec.target, Document.Lacks, Document.EveryField,
      Graphql.EverySelection, Graphql.Selection.IfField, Graphql.Definition.selections]
  obtain ⟨hsent, -, hback⟩ := Exchange.unchanged_of_lacks hspecs hread hlacks
    (some [("n", .string "no number")])
  exact ⟨e, hspecs, hread, hlacks, rfl, hsent, hback _⟩

end SchemaBridge
