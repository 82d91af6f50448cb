import Mathlib.Data.List.Lattice
import SchemaBridge.Proofs.Graphql.EveryField
import SchemaBridge.Proofs.Response.RoundTrip

/-!
# Rules about different fields

Two rules that speak about different fields may be applied in either order: what the one looks for
the other neither makes nor takes away.

* `Graphql.Within`: a change concerns the fields of some names, and leaves them with names among
  these. Changes within different names can be made in either order (`Graphql.Within.comp_comm`);
* `ArgumentRetype.retypeVariables_mapFields`, `ArgumentRetype.redeclared_mapFields`: a rule for
  types does not see a change of other fields;
* `StandardRule.within_change`: a rule changes fields within the names that it speaks about;
* `StandardRule.outcome_request`: a request as the document and the values that the rule makes;
* `StandardRule.requests_commute`: requests under two rules about different fields, of which one at
  most is for types, come to the same in either order.
-/

namespace SchemaBridge

open Graphql (Document Operation Field onlyNamed)
open ArgumentRetype (identifierAsInteger)

/-! ### Changes of different fields -/

namespace Graphql

/-- A change concerns only fields of some names, and leaves them with names among these. -/
structure Within (names : List String) (f : Field → Field) : Prop where
  keeps : ∀ head, head.name ∉ names → f head = head
  stays : ∀ head, head.name ∈ names → (f head).name ∈ names

/-- Changes within different names can be made in either order. -/
theorem Within.comp_comm {names others : List String} {f g : Field → Field} (hf : Within names f)
    (hg : Within others g) (h : names.Disjoint others) : g ∘ f = f ∘ g := by
  funext head
  rw [Function.comp_apply, Function.comp_apply]
  by_cases hhead : head.name ∈ names
  · rw [hg.keeps head (h hhead), hg.keeps (f head) (h (hf.stays head hhead))]
  · have hafter : (g head).name ∉ names := by
      by_cases hother : head.name ∈ others
      · exact fun hmem => h hmem (hg.stays head hother)
      · rwa [hg.keeps head hother]
    rw [hf.keeps head hhead, hf.keeps (g head) hafter]

end Graphql

/-! ### Rules for types and changes of other fields -/

namespace ArgumentRetype

variable (r : ArgumentRetype) {names : List String} {g : Field → Field}

/-- The variable that a field passes as the argument, if it has the name. -/
def passedBy? (f : Field) : Option String :=
  if f.name = r.field then r.variableOf? f else none

/-- The variables that an operation passes, by the trails that lead to them. -/
theorem targets_eq (d : Document) (o : Operation) :
    r.targets d o = ((d.trails o).filterMap fun t => r.passedBy? t.head).eraseDups := by
  rw [targets, Document.findFields_eq_filterMap, List.filterMap_filterMap]
  refine congrArg List.eraseDups (List.filterMap_congr fun t _ => ?_)
  rw [passedBy?]
  split_ifs <;> rfl

variable {r}

/-- A change of other fields keeps the variable that a field passes. -/
theorem passedBy?_of_within (hg : Graphql.Within names g) (hfield : r.field ∉ names) (f : Field) :
    r.passedBy? (g f) = r.passedBy? f := by
  by_cases hname : f.name ∈ names
  · have hbefore : f.name ≠ r.field := fun h => hfield (h ▸ hname)
    have hafter : (g f).name ≠ r.field := fun h => hfield (h ▸ hg.stays f hname)
    rw [passedBy?, passedBy?, if_neg hbefore, if_neg hafter]
  · rw [hg.keeps f hname]

/-- After a change of other fields an operation redeclares the same variables, in the same order. -/
theorem redeclaredIn_mapFields (hg : Graphql.Within names g) (hfield : r.field ∉ names)
    (d : Document) (o : Operation) :
    r.redeclaredIn (d.mapFields g) (o.mapFields g) = r.redeclaredIn d o := by
  have htargets : r.targets (d.mapFields g) (o.mapFields g) = r.targets d o := by
    rw [targets_eq, targets_eq, Document.trails_mapFields, List.filterMap_map]
    refine congrArg List.eraseDups (List.filterMap_congr fun t _ => ?_)
    exact passedBy?_of_within hg hfield t.head
  rw [redeclaredIn, redeclaredIn, htargets]
  rfl

/-- After a change of other fields the same variables are redeclared, in the same order. -/
theorem redeclared_mapFields (hg : Graphql.Within names g) (hfield : r.field ∉ names)
    (d : Document) : r.redeclared (d.mapFields g) = r.redeclared d := by
  rw [redeclared, redeclared, Document.operations_mapFields, List.flatMap_map]
  exact List.flatMap_congr fun o _ => redeclaredIn_mapFields hg hfield d o

/-- Variables can be redeclared before a change of other fields, or after it. -/
theorem retypeVariables_mapFields (hg : Graphql.Within names g) (hfield : r.field ∉ names)
    (d : Document) : r.retypeVariables (d.mapFields g) = (r.retypeVariables d).mapFields g := by
  refine congrArg Document.mk ?_
  rw [Document.mapFields, List.map_map, retypeVariables, List.map_map]
  refine List.map_congr_left fun definition _ => ?_
  cases definition with
  | fragment f => rfl
  | operation o =>
      refine congrArg Graphql.Definition.operation ?_
      show r.retypeOperation (d.mapFields g) (o.mapFields g) = (r.retypeOperation d o).mapFields g
      rw [retypeOperation, redeclaredIn_mapFields hg hfield]
      rfl

/-- The value of a variable fails to be converted for one reason only: its conversion fails. -/
theorem exists_cause_of_convertValue {name : String} {converted : List String}
    {values : Option Json.Object} {failure : Failure}
    (h : (r.convertValue name converted values).outcome = .error failure) :
    ∃ cause, failure = .coercion name cause := by
  rw [convertValue] at h
  split at h
  · next convert value _ _ =>
      by_cases hmem : name ∈ converted
      · rw [if_pos hmem] at h
        cases h
      · rw [if_neg hmem] at h
        cases hy : convert value with
        | error cause =>
            rw [hy] at h
            exact ⟨cause, (Except.error.inj h).symm⟩
        | ok y =>
            rw [hy] at h
            cases h
  · cases h

/-- Values fail to be converted for one reason only: the conversion for a variable fails. -/
theorem exists_cause_of_convertValues {converted names : List String}
    {values : Option Json.Object} {failure : Failure}
    (h : (r.convertValues converted values names).outcome = .error failure) :
    ∃ name cause, failure = .coercion name cause := by
  induction names generalizing converted values with
  | nil => cases h
  | cons name rest ih =>
      have hcons : (r.convertValues converted values (name :: rest)).outcome =
          (r.convertValue name converted values).outcome.bind fun p =>
            (r.convertValues (if p.2 then name :: converted else converted) p.1 rest).outcome := by
        rw [convertValues, Traced.outcome_bind, Traced.report, Except.bind, Traced.outcome_bind]
      rw [hcons] at h
      cases hfirst : (r.convertValue name converted values).outcome with
      | error failure' =>
          rw [hfirst] at h
          obtain rfl := Except.error.inj h
          obtain ⟨cause, rfl⟩ := exists_cause_of_convertValue hfirst
          exact ⟨name, cause, rfl⟩
      | ok p =>
          rw [hfirst] at h
          exact ih h

end ArgumentRetype

/-! ### Requests under one rule -/

namespace StandardRule

/-- The kind of a rule. -/
def kind : StandardRule → RuleKind
  | argumentType _ => .argumentType
  | argumentName _ => .argumentName
  | fieldName _ => .fieldName

/-- The names of fields that a rule speaks about. -/
def fieldNames : StandardRule → List String
  | argumentType r => [r.field]
  | argumentName r => [r.field]
  | fieldName r => [r.oldName, r.newName]

/-- What a rule changes in a field. -/
def change : StandardRule → Field → Field
  | argumentType _ => id
  | argumentName r => onlyNamed r.field r.renameIn
  | fieldName r => r.renameField

/-- A rule changes fields within the names that it speaks about. -/
theorem within_change (rule : StandardRule) : Graphql.Within rule.fieldNames rule.change := by
  cases rule with
  | argumentType r => exact ⟨fun _ _ => rfl, fun _ h => h⟩
  | argumentName r =>
      refine ⟨fun head h => if_neg (List.mem_singleton.not.mp h), fun head h => ?_⟩
      rw [change, onlyNamed, if_pos (List.mem_singleton.mp h), ArgumentRename.renameIn]
      split_ifs <;> exact h
  | fieldName r =>
      refine ⟨fun head h => if_neg fun hold => h (List.mem_cons.mpr (.inl hold)), fun head h => ?_⟩
      rw [change, FieldRename.renameField, onlyNamed]
      split_ifs with hold
      · exact List.mem_cons_of_mem _ List.mem_cons_self
      · exact h

/-- A rule that is not one for types makes its change to every field. -/
theorem adapt_eq_mapFields {rule : StandardRule} (h : rule.kind ≠ .argumentType) (d : Document) :
    rule.adapt d = d.mapFields rule.change := by
  cases rule with
  | argumentType r => exact absurd rfl h
  | argumentName r => exact r.renameArguments_eq_mapFields d
  | fieldName r => exact r.renameFields_eq_mapFields d

/-- The values that a rule sends with a document, unless it fails. -/
def convert : StandardRule → Document → Option Json.Object → Except Failure (Option Json.Object)
  | argumentType r, d, values => (r.convertValues [] values (r.redeclared d)).outcome
  | argumentName _, _, values => .ok values
  | fieldName _, _, values => .ok values

/-- A rule for types is one for the type of some argument. -/
theorem exists_eq_argumentType {rule : StandardRule} (h : rule.kind = .argumentType) :
    ∃ r, rule = .argumentType r := by
  cases rule with
  | argumentType r => exact ⟨r, rfl⟩
  | argumentName r => cases h
  | fieldName r => cases h

/-- A rule that is not one for types sends the values as they are. -/
theorem convert_of_kind_ne {rule : StandardRule} (h : rule.kind ≠ .argumentType) (d : Document)
    (values : Option Json.Object) : rule.convert d values = .ok values := by
  cases rule with
  | argumentType r => exact absurd rfl h
  | argumentName r => rfl
  | fieldName r => rfl

/-- A rule fails to send values for one reason only: the conversion for a variable fails. -/
theorem exists_cause_of_convert {rule : StandardRule} {d : Document} {values : Option Json.Object}
    {failure : Failure} (h : rule.convert d values = .error failure) :
    ∃ name cause, failure = .coercion name cause := by
  cases rule with
  | argumentType r => exact ArgumentRetype.exists_cause_of_convertValues h
  | argumentName r => cases h
  | fieldName r => cases h

/-- The way back that a rule leaves behind for a document. -/
def wayBack : StandardRule → Document → Restore
  | argumentType _, _ => pure
  | argumentName _, _ => pure
  | fieldName r, d => fun response => pure (r.restore (r.recordedPaths d) response)

/-- A request under a rule fails if the values cannot be converted, and makes its document, its
values and its way back otherwise. -/
theorem outcome_request (rule : StandardRule) (d : Document) (values : Option Json.Object) :
    (rule.toRule.request d values).outcome =
      (rule.convert d values).map fun values' => ⟨rule.adapt d, values', rule.wayBack d⟩ := by
  cases rule with
  | argumentType r =>
      rw [toRule, ArgumentRetype.toRule, convert]
      simp only [Traced.outcome_bind, Traced.report]
      cases (r.convertValues [] values (r.redeclared d)).outcome <;> rfl
  | argumentName r => rfl
  | fieldName r => rfl

/-- A request under one rule and then another, as the documents and the values that they make. -/
theorem outcome_sequence_pair (a b : StandardRule) (d : Document) (values : Option Json.Object) :
    ∃ restore, ((Rule.sequence [a.toRule, b.toRule]).request d values).outcome =
      ((a.convert d values).bind (b.convert (a.adapt d))).map fun values' =>
        ⟨b.adapt (a.adapt d), values', restore⟩ := by
  refine ⟨fun response => b.wayBack (a.adapt d) response >>= a.wayBack d, ?_⟩
  simp only [Rule.sequence, Rule.followedBy, Rule.identity, Traced.outcome_bind, outcome_request]
  cases a.convert d values with
  | error failure => rfl
  | ok v =>
      simp only [Except.map, Except.bind]
      cases b.convert (a.adapt d) v with
      | error failure => rfl
      | ok values' => rfl

/-! ### Requests under two rules -/

variable {a b : StandardRule}

/-- Documents can be adapted by rules about different fields in either order. -/
theorem adapt_comm (hnames : a.fieldNames.Disjoint b.fieldNames) (hb : b.kind ≠ .argumentType)
    (d : Document) : b.adapt (a.adapt d) = a.adapt (b.adapt d) := by
  rw [adapt_eq_mapFields hb, adapt_eq_mapFields hb]
  by_cases ha : a.kind = .argumentType
  · obtain ⟨r, rfl⟩ := exists_eq_argumentType ha
    exact (ArgumentRetype.retypeVariables_mapFields b.within_change
      (hnames List.mem_cons_self) d).symm
  · rw [adapt_eq_mapFields ha, adapt_eq_mapFields ha, Document.mapFields_mapFields,
      Document.mapFields_mapFields, a.within_change.comp_comm b.within_change hnames]

/-- A rule sends the same values after a change of other fields. -/
theorem convert_adapt (hnames : a.fieldNames.Disjoint b.fieldNames) (hb : b.kind ≠ .argumentType)
    (d : Document) (values : Option Json.Object) :
    a.convert (b.adapt d) values = a.convert d values := by
  by_cases ha : a.kind = .argumentType
  · obtain ⟨r, rfl⟩ := exists_eq_argumentType ha
    rw [adapt_eq_mapFields hb, convert, convert,
      ArgumentRetype.redeclared_mapFields b.within_change (hnames List.mem_cons_self)]
  · rw [convert_of_kind_ne ha, convert_of_kind_ne ha]

/-- Two requests come to the same: both fail with the same error of a conversion, or both make the
same document and the same values. -/
inductive SameRequest : Except Failure Adapted → Except Failure Adapted → Prop
  | coercion (name : String) (cause : Cause) :
      SameRequest (.error (.coercion name cause)) (.error (.coercion name cause))
  | adapted (d : Document) (values : Option Json.Object) (restore restore' : Restore) :
      SameRequest (.ok ⟨d, values, restore⟩) (.ok ⟨d, values, restore'⟩)

/-- What comes to the same does so either way. -/
theorem SameRequest.symm {x y : Except Failure Adapted} (h : SameRequest x y) :
    SameRequest y x := by
  cases h with
  | coercion => exact .coercion _ _
  | adapted => exact .adapted _ _ _ _

/-- What comes to the same as a request that is made makes the same document and values. -/
theorem SameRequest.exists_eq_ok {x y : Except Failure Adapted} {adapted : Adapted}
    (h : SameRequest x y) (ok : x = .ok adapted) :
    ∃ restore, y = .ok ⟨adapted.document, adapted.values, restore⟩ := by
  cases h with
  | coercion => cases ok
  | adapted d values restore restore' =>
      cases ok
      exact ⟨restore', rfl⟩

/-- What comes to the same as a request that fails does so with the same error. -/
theorem SameRequest.eq_error {x y : Except Failure Adapted} {failure : Failure}
    (h : SameRequest x y) (failed : x = .error failure) : y = .error failure := by
  cases h with
  | coercion => exact failed
  | adapted => cases failed

/-- Requests come to the same in either order if the second of the rules is not for types. -/
theorem sameRequest_sequence_pair (hnames : a.fieldNames.Disjoint b.fieldNames)
    (hb : b.kind ≠ .argumentType) (d : Document) (values : Option Json.Object) :
    SameRequest ((Rule.sequence [a.toRule, b.toRule]).request d values).outcome
      ((Rule.sequence [b.toRule, a.toRule]).request d values).outcome := by
  obtain ⟨restore, hab⟩ := outcome_sequence_pair a b d values
  obtain ⟨restore', hba⟩ := outcome_sequence_pair b a d values
  rw [convert_of_kind_ne hb, Except.bind, convert_adapt hnames hb] at hba
  rw [hab, hba, adapt_comm hnames hb]
  cases h : a.convert d values with
  | error failure =>
      obtain ⟨name, cause, rfl⟩ := exists_cause_of_convert h
      exact .coercion name cause
  | ok values' =>
      rw [Except.bind, convert_of_kind_ne hb]
      exact .adapted _ values' restore restore'

/-- **Rules about different fields commute.** Of two rules that speak about different fields one at
most is for types. Then the request under the one and then the other, and the request in the other
order, both fail with the same error of a conversion, or both make the same document and the same
values. -/
theorem requests_commute (hnames : a.fieldNames.Disjoint b.fieldNames)
    (hkinds : a.kind ≠ .argumentType ∨ b.kind ≠ .argumentType) (d : Document)
    (values : Option Json.Object) :
    SameRequest ((Rule.sequence [a.toRule, b.toRule]).request d values).outcome
      ((Rule.sequence [b.toRule, a.toRule]).request d values).outcome := by
  rcases hkinds with ha | hb
  · exact (sameRequest_sequence_pair hnames.symm ha d values).symm
  · exact sameRequest_sequence_pair hnames hb d values

/-- `query A($v: String!) { shop { ...Passing } }` with
`fragment Passing on Shop { things(identifier: $v) { shop } }`. -/
def passedInShop : Document :=
  ⟨[.operation ⟨some ⟨.query, some "A", [⟨"v", .nonNull (.named "String"), none⟩], []⟩,
      [.field ⟨none, "shop", [], []⟩ [.spread "Passing" []]]⟩,
    .fragment ⟨"Passing", "Shop", [],
      [.field ⟨none, "things", [("identifier", .reference "v")], []⟩
        [.field ⟨none, "shop", [], []⟩ []]]⟩]⟩

/-- A field is renamed above the field for whose argument a type changes, and beneath it: a number
is sent in either order, and a word fails in either order. -/
theorem requests_commute_passedInShop :
    (argumentType identifierAsInteger).fieldNames.Disjoint
        (fieldName ⟨"shop", "store"⟩).fieldNames ∧
      (fieldName ⟨"shop", "store"⟩).kind ≠ .argumentType ∧
      (∃ adapted restore, ((Rule.sequence [(argumentType identifierAsInteger).toRule,
          (fieldName ⟨"shop", "store"⟩).toRule]).request passedInShop
          (some [("v", .string "7")])).outcome = .ok adapted ∧
        adapted.values = some [("v", .number (.int 7))] ∧
        adapted.document = ⟨[
          .operation ⟨some ⟨.query, some "A", [⟨"v", .nonNull (.named "Int"), none⟩], []⟩,
            [.field ⟨none, "store", [], []⟩ [.spread "Passing" []]]⟩,
          .fragment ⟨"Passing", "Shop", [],
            [.field ⟨none, "things", [("identifier", .reference "v")], []⟩
              [.field ⟨none, "store", [], []⟩ []]]⟩]⟩ ∧
        ((Rule.sequence [(fieldName ⟨"shop", "store"⟩).toRule,
          (argumentType identifierAsInteger).toRule]).request passedInShop
          (some [("v", .string "7")])).outcome =
            .ok ⟨adapted.document, adapted.values, restore⟩) ∧
      ∃ cause, ((Rule.sequence [(argumentType identifierAsInteger).toRule,
          (fieldName ⟨"shop", "store"⟩).toRule]).request passedInShop
          (some [("v", .string "seven")])).outcome = .error (.coercion "v" cause) ∧
        ((Rule.sequence [(fieldName ⟨"shop", "store"⟩).toRule,
          (argumentType identifierAsInteger).toRule]).request passedInShop
          (some [("v", .string "seven")])).outcome = .error (.coercion "v" cause) := by
  have hnames : (argumentType identifierAsInteger).fieldNames.Disjoint
      (fieldName ⟨"shop", "store"⟩).fieldNames := by
    simp [fieldNames, identifierAsInteger]
  have hkind : (fieldName ⟨"shop", "store"⟩).kind ≠ .argumentType := RuleKind.noConfusion
  have hsame := requests_commute hnames (.inr hkind) passedInShop
  have hpair := outcome_sequence_pair (argumentType identifierAsInteger)
    (fieldName ⟨"shop", "store"⟩) passedInShop
  have hredeclared : identifierAsInteger.redeclared passedInShop = ["v"] := by cbv
  refine ⟨hnames, hkind, ?_, ?_⟩
  · have hnumber : (argumentType identifierAsInteger).convert passedInShop
        (some [("v", .string "7")]) = .ok (some [("v", .number (.int 7))]) := by
      rw [convert, hredeclared]
      rfl
    obtain ⟨restore, ok⟩ := hpair (some [("v", .string "7")])
    rw [hnumber] at ok
    obtain ⟨restore', ok'⟩ := (hsame (some [("v", .string "7")])).exists_eq_ok ok
    refine ⟨_, restore', ok, rfl, ?_, ok'⟩
    rw [adapt_eq_mapFields hkind]
    cbv
  · have hword : (argumentType identifierAsInteger).convert passedInShop
        (some [("v", .string "seven")]) =
          .error (.coercion "v" (.coercion ⟨.toInteger, .string "seven"⟩)) := by
      rw [convert, hredeclared]
      rfl
    obtain ⟨restore, failed⟩ := hpair (some [("v", .string "seven")])
    rw [hword] at failed
    exact ⟨_, failed, (hsame (some [("v", .string "seven")])).eq_error failed⟩

end StandardRule

end SchemaBridge
