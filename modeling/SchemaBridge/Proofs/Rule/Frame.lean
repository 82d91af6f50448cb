import SchemaBridge.Proofs.Response.RoundTrip
import SchemaBridge.Proofs.Variables.Effect

/-!
# What rules leave alone

Rules write names of fields, names of arguments and types of variables, and values of variables that
they redeclare. Everything else in a request stays.

* `Document.erased`: a document without the names and types that rules may write;
* `StandardRule.erased_adapt`: a rule leaves a document as it is, up to these names and types;
* `RedeclaredAlong`: some rule of a list redeclares a variable in the document that it sees;
* `sequence_frame`: what any list of rules leaves alone.
-/

namespace SchemaBridge

open Graphql (Document Operation Field VariableDefinition)
open ArgumentRetype (suppliedNames? identifierAsInteger)

/-! ### Documents without names and types -/

namespace Graphql

/-- The field without its name and without the names of its arguments. -/
def Field.erased (f : Field) : Field :=
  { f with name := "", arguments := f.arguments.map fun argument => ("", argument.2) }

/-- The definition of a variable without its type. -/
def VariableDefinition.erased (v : VariableDefinition) : VariableDefinition :=
  { v with type := .named "" }

/-- The operation without the names of its fields and their arguments, and without the types of its
variables. -/
def Operation.erased (o : Operation) : Operation :=
  (o.mapFields Field.erased).withVariableDefinitions
    (o.variableDefinitions.map VariableDefinition.erased)

/-- The definition without the names of its fields and their arguments, and without the types of its
variables. -/
def Definition.erased : Definition → Definition
  | .operation o => .operation o.erased
  | .fragment f => .fragment (f.mapFields Field.erased)

/-- The document without the names of its fields and their arguments, and without the types of its
variables. All else that a client may write is kept in its place. -/
def Document.erased (d : Document) : Document :=
  ⟨d.definitions.map Definition.erased⟩

/-- A change of fields that is erased again leaves no trace in the document. -/
theorem Document.erased_mapFields {f : Field → Field}
    (h : ∀ head, (f head).erased = head.erased) (d : Document) :
    (d.mapFields f).erased = d.erased := by
  have hselections : ∀ selections, mapSelections Field.erased (mapSelections f selections) =
      mapSelections Field.erased selections := fun selections => by
    rw [mapSelections_mapSelections]
    exact congrArg (fun change => mapSelections change selections) (funext h)
  rw [erased, erased, mapFields, List.map_map]
  refine congrArg _ (List.map_congr_left fun definition _ => ?_)
  cases definition with
  | operation o =>
      refine congrArg Definition.operation ?_
      simp only [Operation.erased, Operation.mapFields, Operation.withVariableDefinitions,
        Operation.variableDefinitions, hselections]
  | fragment g =>
      refine congrArg Definition.fragment ?_
      simp only [Fragment.mapFields, hselections]

/-- Other definitions that are erased to the same leave no trace in an operation. -/
theorem Operation.erased_withVariableDefinitions {o : Operation}
    {definitions : List VariableDefinition}
    (h : definitions.map VariableDefinition.erased =
      o.variableDefinitions.map VariableDefinition.erased) :
    (o.withVariableDefinitions definitions).erased = o.erased := by
  obtain ⟨header?, selections⟩ := o
  cases header? with
  | none => rfl
  | some header =>
      refine congrArg
        (fun vs => (⟨some { header with variableDefinitions := vs }, _⟩ : Operation)) ?_
      exact h

end Graphql

/-! ### One rule -/

/-- A change of the fields of one name is erased if it is on every field. -/
theorem erased_onlyNamed {f : Field → Field} (h : ∀ head, (f head).erased = head.erased)
    (name : String) (head : Field) : (Graphql.onlyNamed name f head).erased = head.erased := by
  rw [Graphql.onlyNamed]
  split_ifs
  · exact h head
  · rfl

/-- The names of fields are erased. -/
theorem FieldRename.erased_renameFields (r : FieldRename) (d : Document) :
    (r.renameFields d).1.erased = d.erased := by
  rw [renameFields_eq_mapFields]
  exact Document.erased_mapFields
    (erased_onlyNamed (f := fun f => { f with name := r.newName }) (fun _ => rfl) r.oldName) d

/-- Renaming an argument keeps the values in their places. -/
theorem map_snd_renameFirst (old new : String) (arguments : Graphql.Arguments) :
    (renameFirst old new arguments).map Prod.snd = arguments.map Prod.snd := by
  induction arguments with
  | nil => rfl
  | cons argument rest ih =>
      rw [renameFirst]
      split_ifs with hold
      · rfl
      · rw [List.map_cons, List.map_cons, ih]

/-- The names of arguments are erased. -/
theorem ArgumentRename.erased_renameArguments (r : ArgumentRename) (d : Document) :
    (r.renameArguments d).1.erased = d.erased := by
  rw [renameArguments_eq_mapFields]
  refine Document.erased_mapFields (erased_onlyNamed (fun head => ?_) r.field) d
  rw [renameIn]
  split_ifs
  · rfl
  · have hvalues := congrArg (List.map fun v => ("", v))
      (map_snd_renameFirst r.oldName r.newName head.arguments)
    rw [List.map_map, List.map_map] at hvalues
    exact congrArg
      (fun arguments => (⟨head.alias?, "", arguments, head.directives⟩ : Field)) hvalues

/-- The types of variables are erased. -/
theorem ArgumentRetype.erased_retypeVariables (r : ArgumentRetype) (d : Document) :
    (r.retypeVariables d).erased = d.erased := by
  have hdefinitions : ∀ definitions names,
      (r.retypeDefinitions definitions names).map VariableDefinition.erased =
        definitions.map VariableDefinition.erased := by
    intro definitions names
    refine List.ext_getElem? fun j => ?_
    rw [List.getElem?_map, getElem?_retypeDefinitions, List.getElem?_map, Option.map_map]
    refine Option.map_congr fun v _ => ?_
    rw [Function.comp_apply]
    split_ifs <;> rfl
  rw [Document.erased, Document.erased, retypeVariables, List.map_map]
  refine congrArg _ (List.map_congr_left fun definition _ => ?_)
  cases definition with
  | fragment f => rfl
  | operation o =>
      refine congrArg Graphql.Definition.operation ?_
      rw [retypeOperation_eq_withVariableDefinitions]
      exact Operation.erased_withVariableDefinitions (hdefinitions _ _)

namespace StandardRule

/-- A rule leaves a document as it is, up to the names and types that rules may write. -/
theorem erased_adapt (rule : StandardRule) (d : Document) : (rule.adapt d).erased = d.erased := by
  cases rule with
  | argumentType r => exact r.erased_retypeVariables d
  | argumentName r => exact r.erased_renameArguments d
  | fieldName r => exact r.erased_renameFields d

/-- A rule declares a variable with another type in some operation. -/
def Redeclares : StandardRule → Document → String → Prop
  | argumentType r, d, name => r.Redeclared d name
  | argumentName _, _, _ => False
  | fieldName _, _, _ => False

/-- A rule adds no value and takes none away, and changes the values of those variables only that it
redeclares. -/
theorem values_of_request {rule : StandardRule} {d : Document} {values : Option Json.Object}
    {adapted : Adapted} (ok : (rule.toRule.request d values).outcome = .ok adapted) :
    suppliedNames? adapted.values = suppliedNames? values ∧ ∀ name, ¬ rule.Redeclares d name →
      suppliedValue? adapted.values name = suppliedValue? values name := by
  cases rule with
  | argumentType r =>
      obtain ⟨values', hvalues, rfl⟩ := ArgumentRetype.request_eq_ok.mp ok
      refine ⟨ArgumentRetype.suppliedNames?_convertValues hvalues, fun name h => ?_⟩
      cases hconvert : r.converter? with
      | none =>
          obtain ⟨rfl, -⟩ := ArgumentRetype.convertValues_of_converter?_eq_none hconvert hvalues
          rfl
      | some convert =>
          have hmem : name ∉ r.redeclared d := ArgumentRetype.mem_redeclared_iff.not.mpr h
          exact ArgumentRetype.suppliedValue?_convertValues_of_not_mem hconvert hvalues (.inl hmem)
  | argumentName r =>
      obtain rfl := Except.ok.inj (r.outcome_request.symm.trans ok)
      exact ⟨rfl, fun _ _ => rfl⟩
  | fieldName r =>
      obtain rfl := Except.ok.inj (r.outcome_request.symm.trans ok)
      exact ⟨rfl, fun _ _ => rfl⟩

end StandardRule

/-! ### Any rules -/

/-- Some rule of a list declares a variable with another type in the document that it sees. -/
def RedeclaredAlong : List StandardRule → Document → String → Prop
  | [], _, _ => False
  | rule :: rest, d, name => rule.Redeclares d name ∨ RedeclaredAlong rest (rule.adapt d) name

/-- **The frame of a request.** Rules that make a request without failing, any number of them in any
order, leave the document as it is, up to the names of its fields and their arguments and the types
of its variables. Values are supplied afterwards if they were before, for the same names in the same
order, and the value of a variable that no rule has redeclared is the one that was supplied. -/
theorem sequence_frame {rules : List StandardRule} {d : Document} {values : Option Json.Object}
    {adapted : Adapted}
    (ok : ((Rule.sequence (rules.map StandardRule.toRule)).request d values).outcome =
      .ok adapted) :
    adapted.document.erased = d.erased ∧
      suppliedNames? adapted.values = suppliedNames? values ∧
      ∀ name, ¬ RedeclaredAlong rules d name →
        suppliedValue? adapted.values name = suppliedValue? values name := by
  induction rules generalizing d values adapted with
  | nil =>
      obtain rfl := Except.ok.inj ok
      exact ⟨rfl, rfl, fun _ _ => rfl⟩
  | cons rule rest ih =>
      obtain ⟨a, b, ha, hb, rfl⟩ := Rule.followedBy_eq_ok.mp ok
      obtain ⟨hnames, hvalues⟩ := StandardRule.values_of_request ha
      have hdocument : a.document = rule.adapt d := (StandardRule.of_request ha).1
      rw [hdocument] at hb
      obtain ⟨herased, hnames', hvalues'⟩ := ih hb
      refine ⟨herased.trans (rule.erased_adapt d), hnames'.trans hnames, fun name h => ?_⟩
      obtain ⟨hrule, hrest⟩ := not_or.mp h
      exact (hvalues' name hrest).trans (hvalues name hrule)

/-- The query `query A($v: String! = "0", $w: Boolean) { first: things(identifier: $v) @skip(if: $w)
{ ...Part } }` with `fragment Part on Thing { id ... { things(identifier: 3) } ...Part }`. -/
def passingInFragment : Document :=
  ⟨[.operation ⟨some ⟨.query, some "A", [⟨"v", .nonNull (.named "String"), some (.string "0")⟩,
      ⟨"w", .named "Boolean", none⟩], []⟩,
      [.field ⟨some "first", "things", [("identifier", .reference "v")],
        [⟨"skip", [("if", .reference "w")]⟩]⟩ [.spread "Part" []]]⟩,
    .fragment ⟨"Part", "Thing", [], [.field ⟨none, "id", [], []⟩ [],
      .inlineFragment none [] [.field ⟨none, "things", [("identifier", .int 3)], []⟩ []],
      .spread "Part" []]⟩]⟩

/-- A rule of each kind; the later ones see what the first has changed. -/
def oneOfEachKind : List StandardRule :=
  [.argumentType identifierAsInteger, .argumentName ⟨"things", "identifier", "id"⟩,
    .fieldName ⟨"things", "items"⟩]

/-- Two variables of which one is redeclared, under a rule of each kind. -/
theorem sequence_frame_oneOfEachKind :
    ∃ adapted, ((Rule.sequence (oneOfEachKind.map StandardRule.toRule)).request passingInFragment
        (some [("v", .string "7"), ("w", .boolean true)])).outcome = .ok adapted ∧
      ¬ RedeclaredAlong oneOfEachKind passingInFragment "w" ∧
      adapted.document.erased = passingInFragment.erased ∧
      suppliedValue? adapted.values "w" = some (.boolean true) := by
  have hredeclared : identifierAsInteger.redeclared passingInFragment = ["v"] := by cbv
  have hvalues : (identifierAsInteger.toRule.request passingInFragment
      (some [("v", .string "7"), ("w", .boolean true)])).outcome =
        .ok ⟨identifierAsInteger.retypeVariables passingInFragment,
          some [("v", .number (.int 7)), ("w", .boolean true)], pure⟩ :=
    ArgumentRetype.request_of_redeclared hredeclared rfl
  have hkept : ¬ RedeclaredAlong oneOfEachKind passingInFragment "w" := by
    rintro (h | h | h | h)
    · have := ArgumentRetype.mem_redeclared_iff.mpr h
      rw [hredeclared] at this
      exact absurd this (by decide)
    all_goals exact h
  have ok : ((Rule.sequence (oneOfEachKind.map StandardRule.toRule)).request passingInFragment
      (some [("v", .string "7"), ("w", .boolean true)])).outcome = .ok _ :=
    Rule.followedBy_eq_ok.mpr ⟨_, _, hvalues, rfl, rfl⟩
  obtain ⟨herased, -, hkeeps⟩ := sequence_frame ok
  exact ⟨_, ok, hkept, herased, hkeeps "w" hkept⟩

end SchemaBridge
