import SchemaBridge.Proofs.Rule.Absent
import SchemaBridge.Proofs.Rule.ArgumentNames

/-!
# Rules that have nothing left to change

A rule makes all its changes in one request. What it leaves behind has nothing left for it to
change, although there may be a second argument of the old name, or a second definition of a
variable.

* `StandardRule.Settled`: nothing in a document is left for a rule to change;
* `StandardRule.settled_adapt`: that is so in the document after the rule;
* `StandardRule.request_of_settled`: such a document passes through the rule as it is, and with it
  all values;
* `StandardRule.request_idempotent`: so a second request under the same rule changes nothing, and
  converts nothing.
-/

namespace SchemaBridge

open Graphql (Document Operation Field)
open ArgumentRetype (passedTwice)

/-! ### One rule, twice -/

namespace ArgumentRename

variable {r : ArgumentRename} {f g : Field}

/-- There is something to rename in a field: it has the name, and is given the old argument but not
the new one. -/
def Concerns (r : ArgumentRename) (f : Field) : Prop :=
  f.name = r.field ∧ r.oldName ∈ f.argumentNames ∧ r.newName ∉ f.argumentNames

/-- The rule leaves nothing to rename in a field. -/
theorem Renames.not_concerns (h : r.Renames f g) : ¬ r.Concerns g := by
  rintro ⟨hname, hold, hnew⟩
  cases h with
  | other hother => exact hother hname
  | taken _ htaken => exact hnew htaken
  | lacking _ hlacking => exact hlacking hold
  | renamed => exact hnew (by simp [Graphql.Field.argumentNames])

/-- Where there is nothing to rename the rule keeps a field. -/
theorem Renames.eq_self (h : r.Renames f g) (hf : ¬ r.Concerns f) : g = f := by
  cases h with
  | other => rfl
  | taken => rfl
  | lacking => rfl
  | renamed _ hnew => exact absurd ⟨rfl, by simp [Graphql.Field.argumentNames], hnew⟩ hf

end ArgumentRename

namespace ArgumentRetype

variable {r : ArgumentRetype}

/-- The rule redeclares no variable exactly if no definition is to have the new type. -/
theorem redeclared_eq_nil_iff {d : Document} :
    r.redeclared d = [] ↔ ∀ name, ¬ r.Redeclared d name := by
  simp only [List.eq_nil_iff_forall_not_mem, mem_redeclared_iff]

/-- Operations pass the same variables after the rule. -/
theorem targets_retypeVariables (r : ArgumentRetype) (d : Document) (o : Operation) :
    r.targets (r.retypeVariables d) (r.retypeOperation d o) = r.targets d o := by
  have hwalk : (r.retypeVariables d).walk (r.retypeOperation d o) = d.walk o := by
    rw [Document.walk, fragments_retypeVariables]
    rfl
  rw [targets, Document.findFields, hwalk]
  rfl

/-- The rule leaves no variable to be redeclared: of those that are passed none is declared with the
old type any more, as the types differ. -/
theorem redeclared_retypeVariables (hne : r.oldType ≠ r.newType) (d : Document) :
    r.redeclared (r.retypeVariables d) = [] := by
  rw [redeclared, operations_retypeVariables, List.flatMap_eq_nil_iff]
  intro o' ho'
  obtain ⟨o, -, rfl⟩ := List.mem_map.mp ho'
  refine List.eq_nil_iff_forall_not_mem.mpr fun name hname => ?_
  rw [r.mem_redeclaredIn, r.targets_retypeVariables, r.declaredType?_retypeOperation hne] at hname
  obtain ⟨hpassed, htype⟩ := hname
  split_ifs at htype with hmem
  · exact hne (Option.some.inj htype).symm
  · exact hmem (r.mem_redeclaredIn.mpr ⟨hpassed, htype⟩)

end ArgumentRetype

/-- The field has another name after the rule, if the names differ. -/
theorem FieldRename.name_renameField_ne {r : FieldRename} (hne : r.oldName ≠ r.newName)
    (f : Field) : (r.renameField f).name ≠ r.oldName := by
  rw [renameField, Graphql.onlyNamed]
  split_ifs with hname
  · exact hne.symm
  · exact hname

/-- A field that has the new name already keeps it. -/
theorem FieldRename.renameField_eq_self {r : FieldRename} (h : r.oldName = r.newName) (f : Field) :
    r.renameField f = f := by
  rw [renameField, Graphql.onlyNamed, ← h]
  split_ifs with hname
  · rw [← hname]
  · rfl

/-! ### Any rule -/

namespace StandardRule

/-- Nothing in a document is left for a rule to change: no definition of a variable is to have the
new type, there is no field with an argument to be renamed, and none with the old name. -/
def Settled : StandardRule → Document → Prop
  | argumentType r, d => ∀ name, ¬ r.Redeclared d name
  | argumentName r, d => d.EveryField fun f => ¬ r.Concerns f
  | fieldName r, d => r.oldName = r.newName ∨ d.Lacks r.oldName

/-- If the rule is one for types, they differ. -/
def TypesDiffer : StandardRule → Prop
  | argumentType r => r.oldType ≠ r.newType
  | argumentName _ => True
  | fieldName _ => True

variable {rule : StandardRule} {d : Document}

/-- A rule leaves a document in which nothing is left for it to change. -/
theorem settled_adapt (hne : rule.TypesDiffer) (d : Document) : rule.Settled (rule.adapt d) := by
  cases rule with
  | argumentType r =>
      exact ArgumentRetype.redeclared_eq_nil_iff.mp
        (ArgumentRetype.redeclared_retypeVariables hne d)
  | argumentName r =>
      rw [adapt, Settled, r.renameArguments_eq_mapFields, Document.everyField_mapFields]
      exact Document.everyField_of_forall fun f =>
        (ArgumentRename.renames_onlyNamed f).not_concerns
  | fieldName r =>
      by_cases hsame : r.oldName = r.newName
      · exact .inl hsame
      · refine .inr ?_
        rw [adapt, r.renameFields_eq_mapFields, Document.Lacks, Document.everyField_mapFields]
        exact Document.everyField_of_forall (FieldRename.name_renameField_ne hsame)

/-- A document in which nothing is left to change passes through a rule as it is, and so do all
values. -/
theorem request_of_settled (h : rule.Settled d) (values : Option Json.Object) :
    ∃ restore, (rule.toRule.request d values).outcome = .ok ⟨d, values, restore⟩ := by
  cases rule with
  | argumentType r =>
      exact ⟨_, ArgumentRetype.request_of_redeclared_eq_nil
        (ArgumentRetype.redeclared_eq_nil_iff.mpr h) values⟩
  | argumentName r =>
      have hkeeps : (r.renameArguments d).1 = d := by
        rw [r.renameArguments_eq_mapFields]
        exact Document.mapFields_eq_self
          (h.imp fun f hf => (ArgumentRename.renames_onlyNamed f).eq_self hf)
      exact ⟨_, r.outcome_request.trans (by rw [hkeeps])⟩
  | fieldName r =>
      have hkeeps : (r.renameFields d).1 = d := by
        obtain hsame | hlacks := h
        · rw [r.renameFields_eq_mapFields]
          exact Document.mapFields_eq_self
            (Document.everyField_of_forall (FieldRename.renameField_eq_self hsame))
        · exact FieldRename.renameFields_of_lacks hlacks
      exact ⟨_, r.outcome_request.trans (by rw [hkeeps])⟩

/-- **A rule changes nothing a second time.** Suppose that a request under a rule succeeds; if it is
a rule for types, they are to differ. Then nothing in the document is left for the rule to change,
and a second request under it, of that document with those values, succeeds and keeps both. A rule
for types converts nothing in it: no conversion is reported, and whatever conversion the rule had,
and whatever values there were, the second request would keep them. -/
theorem request_idempotent {values : Option Json.Object} {adapted : Adapted}
    (hne : rule.TypesDiffer) (ok : (rule.toRule.request d values).outcome = .ok adapted) :
    rule.Settled adapted.document ∧
      (∃ restore, (rule.toRule.request adapted.document adapted.values).outcome =
        .ok ⟨adapted.document, adapted.values, restore⟩) ∧
      ∀ r, rule = .argumentType r →
        (∀ name, (r.toRule.request adapted.document adapted.values).log.count
          (.valueCoerced name) = 0) ∧
        ∀ converter? values', (({ r with converter? } : ArgumentRetype).toRule.request
          adapted.document values').outcome = .ok ⟨adapted.document, values', pure⟩ := by
  have hsettled : rule.Settled adapted.document := by
    rw [(of_request ok).1]
    exact settled_adapt hne d
  refine ⟨hsettled, request_of_settled hsettled _, ?_⟩
  rintro r rfl
  have hredeclared := ArgumentRetype.redeclared_eq_nil_iff.mpr hsettled
  refine ⟨fun name => ?_, fun converter? values' => ?_⟩
  · rw [ArgumentRetype.count_log_request
      (ArgumentRetype.request_of_redeclared_eq_nil hredeclared _), hredeclared]
    rfl
  · exact ArgumentRetype.request_of_redeclared_eq_nil
      (r := { r with converter? }) hredeclared values'

/-- The argument `identifier` of `things` is an integer instead of a string. Only strings are
converted, to their length. -/
def identifierAsLength : ArgumentRetype :=
  ⟨"things", "identifier", .nonNull (.named "String"), .nonNull (.named "Int"), some fun
    | .string s => .ok (.number (.int s.length))
    | _ => .error (.text "no string")⟩

/-- A variable is defined twice by an operation, and is passed by two: its value is converted once,
and could not be converted a second time. -/
theorem request_idempotent_passedTwice :
    (argumentType identifierAsLength).TypesDiffer ∧
      ∃ adapted, ((argumentType identifierAsLength).toRule.request passedTwice
          (some [("v", .string "123")])).outcome = .ok adapted ∧
        adapted.values = some [("v", .number (.int 3))] ∧
        (identifierAsLength.converter?.map fun convert =>
          (convert (.number (.int 3))).toOption.isSome) = some false ∧
        ∃ restore, ((argumentType identifierAsLength).toRule.request adapted.document
          adapted.values).outcome = .ok ⟨adapted.document, adapted.values, restore⟩ := by
  have hne : (argumentType identifierAsLength).TypesDiffer := by
    rw [TypesDiffer]
    decide
  have hredeclared : identifierAsLength.redeclared passedTwice = ["v", "v"] := by cbv
  have ok : ((argumentType identifierAsLength).toRule.request passedTwice
      (some [("v", .string "123")])).outcome =
        .ok ⟨identifierAsLength.retypeVariables passedTwice, some [("v", .number (.int 3))],
          pure⟩ :=
    ArgumentRetype.request_of_redeclared hredeclared rfl
  exact ⟨hne, _, ok, rfl, by cbv, (request_idempotent hne ok).2.1⟩

end StandardRule

end SchemaBridge
