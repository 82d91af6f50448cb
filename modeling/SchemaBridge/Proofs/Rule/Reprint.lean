import SchemaBridge.Proofs.Graphql.ReadFormed
import SchemaBridge.Proofs.Graphql.Reprint
import SchemaBridge.Proofs.Rule.Names

/-!
# Printing what rules leave

A rule that writes names keeps the printed query readable, as long as the type that it writes opens
no more brackets than may be open within a parenthesis.

* `FieldRename.keepsText`, `ArgumentRename.keepsText`, `ArgumentRetype.reprints_retypeVariables`:
  what one rule does to the text of a document;
* `reprints_adaptAll`: what any number of rules do to it;
* `sequence_wellWritten`: names and text after rules whose specifications write names;
* `not_wellWritten`: that it does not suffice that specifications are accepted.
-/

namespace SchemaBridge

open Graphql (Document Field Selection VariableDefinition TypeRef IsName KeepsText Reprints)
open Graphql.Scanned (NoDeeper)

/-! ### Renamings -/

namespace FieldRename

variable (r : FieldRename)

/-- A renaming of fields keeps the text of fields if the new name is one, or the old name is none.
-/
theorem keepsText (h : IsName r.oldName → IsName r.newName) : KeepsText r.renameField :=
  KeepsText.onlyNamed
    (fun {_} hhead hname =>
      ⟨hhead.label, h (hname ▸ hhead.name), hhead.arguments, hhead.directives⟩)
    (fun indent head => (((NoDeeper.refl (Graphql.balanced_alias head.alias?)).append
      (.name head.name r.newName)).append (.refl (Graphql.balanced_arguments indent _))).append
        (.refl (Graphql.balanced_directives indent _)))
    fun _ _ => rfl

end FieldRename

namespace ArgumentRename

variable (r : ArgumentRename)

/-- A renamed argument opens no further brackets. -/
theorem noDeeper_renameFirst (old new : String) (indent : Nat) (arguments : Graphql.Arguments) :
    NoDeeper (Graphql.entryScans indent arguments)
      (Graphql.entryScans indent (renameFirst old new arguments)) := by
  induction arguments with
  | nil => exact .refl (Graphql.balanced_entries indent [])
  | cons argument rest ih =>
      obtain ⟨k, v⟩ := argument
      have hcolon := NoDeeper.refl (Graphql.Scanned.balanced_mark (c := ':') (by decide))
      have hvalue := NoDeeper.refl (Graphql.balanced_literal indent v)
      rw [renameFirst, Graphql.entryScans]
      split_ifs
      · rw [Graphql.entryScans]
        exact (((NoDeeper.name k new).append hcolon).append hvalue).append
          (.refl (Graphql.balanced_entries indent rest))
      · rw [Graphql.entryScans]
        exact (((NoDeeper.name k k).append hcolon).append hvalue).append ih

/-- Renamed arguments open no further brackets. -/
theorem noDeeper_argumentsScan (old new : String) (indent : Nat) (arguments : Graphql.Arguments) :
    NoDeeper (Graphql.argumentsScan indent arguments)
      (Graphql.argumentsScan indent (renameFirst old new arguments)) := by
  have hempty : (renameFirst old new arguments).isEmpty = arguments.isEmpty := by
    cases arguments with
    | nil => rfl
    | cons argument rest =>
        rw [renameFirst]
        split_ifs <;> rfl
  rw [Graphql.argumentsScan, Graphql.argumentsScan, hempty]
  split_ifs
  · exact .refl Graphql.Scanned.balanced_nil
  · exact (noDeeper_renameFirst old new indent arguments).between (by decide) (by decide)

/-- Renamed arguments are read again as what is read again is renamed. -/
theorem rereadEntries_renameFirst (old new : String) (indent : Nat)
    (arguments : Graphql.Arguments) :
    Graphql.rereadEntries indent (renameFirst old new arguments) =
      renameFirst old new (Graphql.rereadEntries indent arguments) := by
  induction arguments with
  | nil => rw [renameFirst, Graphql.rereadEntries, renameFirst]
  | cons argument rest ih =>
      obtain ⟨k, v⟩ := argument
      rw [renameFirst, Graphql.rereadEntries, renameFirst]
      split_ifs
      · rw [Graphql.rereadEntries]
      · rw [Graphql.rereadEntries, ih]

/-- Which arguments are given does not change as they are read again. -/
theorem hasArgument_rereadEntries (name : String) (indent : Nat) (arguments : Graphql.Arguments) :
    hasArgument name (Graphql.rereadEntries indent arguments) = hasArgument name arguments := by
  induction arguments with
  | nil => rw [Graphql.rereadEntries]
  | cons argument rest ih =>
      obtain ⟨k, v⟩ := argument
      rw [Graphql.rereadEntries, hasArgument, List.any_cons]
      rw [hasArgument] at ih
      rw [ih]
      rfl

/-- A renaming of arguments keeps the text of fields if the new name is one, or the field or the old
name is none. -/
theorem keepsText (h : IsName r.field → IsName r.oldName → IsName r.newName) :
    KeepsText (Graphql.onlyNamed r.field r.renameIn) := by
  refine KeepsText.onlyNamed (fun {head} hhead hfield => ?_) (fun indent head => ?_)
    fun indent head => ?_
  · rw [renameIn]
    split_ifs
    · exact hhead
    · refine ⟨hhead.label, hhead.name, ⟨fun a ha => ?_, fun a ha => ?_⟩, hhead.directives⟩
      · obtain hmem | ⟨hname, hmem⟩ := mem_renameFirst ha
        · exact hhead.arguments.names a hmem
        · exact hname ▸ h (hfield ▸ hhead.name) (hhead.arguments.names _ hmem)
      · obtain hmem | ⟨_, hmem⟩ := mem_renameFirst ha
        · exact hhead.arguments.values a hmem
        · exact hhead.arguments.values (r.oldName, a.2) hmem
  · rw [renameIn]
    split_ifs
    · exact .refl (head.balanced_scan indent)
    · exact (((NoDeeper.refl (Graphql.balanced_alias head.alias?)).append
        (.name head.name head.name)).append (noDeeper_argumentsScan _ _ indent _)).append
          (.refl (Graphql.balanced_directives indent _))
  · have harguments : (head.reread indent).arguments =
        Graphql.rereadEntries indent head.arguments := rfl
    rw [renameIn, renameIn, harguments, hasArgument_rereadEntries]
    split_ifs
    · rfl
    · rw [← rereadEntries_renameFirst]
      rfl

end ArgumentRename

/-! ### Retyping -/

namespace ArgumentRetype

variable {r : ArgumentRetype}

/-- A definition of a variable with another type is formed by the grammar if the type is. -/
theorem formed_withType {v : VariableDefinition} (hv : v.Formed) {type : TypeRef}
    (named : type.WellNamed) (once : type.MarkedOnce) :
    ({ v with type := type } : VariableDefinition).Formed :=
  ⟨hv.name, named, once, hv.default⟩

/-- An operation after the rule is formed by the grammar. -/
theorem formed_retypeOperation (named : r.newType.WellNamed) (once : r.newType.MarkedOnce)
    (d : Document) {o : Graphql.Operation} (ho : o.Formed) : (r.retypeOperation d o).Formed := by
  refine ⟨fun header hheader => ?_, ho.selections⟩
  obtain ⟨before, hbefore, rfl⟩ := Option.map_eq_some_iff.mp hheader
  have hformed := ho.header before hbefore
  refine ⟨hformed.name, fun v hv => ?_, hformed.directives⟩
  obtain ⟨w, hw, rfl | rfl⟩ := mem_retypeDefinitions hv
  · exact hformed.definitions _ hw
  · exact formed_withType (hformed.definitions w hw) named once

/-- Printed variable definitions after the rule fit in if those before it do, and there is room for
the new type within the parenthesis. -/
theorem fits_retypeDefinitions {budget : Nat} (hnesting : r.newType.nesting < budget)
    {definitions : List VariableDefinition} (names : List String)
    (hfits : (Graphql.variablesScan definitions).Fits budget) :
    (Graphql.variablesScan (r.retypeDefinitions definitions names)).Fits budget := by
  rw [Graphql.fits_variables] at hfits ⊢
  rcases hfits with rfl | ⟨inner, rfl, hfits⟩
  · refine .inl (List.eq_nil_iff_forall_not_mem.mpr fun v hv => ?_)
    obtain ⟨w, hw, -⟩ := mem_retypeDefinitions hv
    exact absurd hw List.not_mem_nil
  · refine .inr ⟨inner, rfl, fun v hv => ?_⟩
    obtain ⟨w, hw, rfl | rfl⟩ := mem_retypeDefinitions hv
    · exact hfits _ hw
    · rw [VariableDefinition.fits_scan]
      exact ⟨Nat.le_of_lt_succ hnesting, (VariableDefinition.fits_scan.mp (hfits w hw)).2⟩

/-- An operation after the rule fits in if it did before. -/
theorem fits_retypeOperation {budget : Nat} (hnesting : r.newType.nesting < budget) (d : Document)
    {o : Graphql.Operation} (hfits : (Graphql.Definition.operation o).scan.Fits budget) :
    (Graphql.Definition.operation (r.retypeOperation d o)).scan.Fits budget := by
  rw [Graphql.Definition.scan, Graphql.Scanned.fits_append (Graphql.balanced_head _)] at hfits ⊢
  refine ⟨?_, hfits.2⟩
  obtain ⟨header?, selections⟩ := o
  cases header? with
  | none => exact hfits.1
  | some header =>
      have hheader := Graphql.OperationHeader.fits_scan.mp hfits.1
      refine Graphql.OperationHeader.fits_scan.mpr ⟨?_, hheader.2⟩
      have hvariables := hheader.1
      rw [Graphql.OperationHeader.printedVariables] at hvariables ⊢
      split_ifs at hvariables ⊢
      · exact hvariables
      · exact fits_retypeDefinitions hnesting _ hvariables

/-- The document after the rule is formed by the grammar. -/
theorem formed_retypeVariables (named : r.newType.WellNamed) (once : r.newType.MarkedOnce)
    {d : Document} (hd : d.Formed) : (r.retypeVariables d).Formed := by
  refine ⟨fun definition hdefinition => ?_,
    fun hempty => hd.nonempty (List.map_eq_nil_iff.mp hempty)⟩
  obtain ⟨before, hbefore, rfl⟩ := List.mem_map.mp hdefinition
  have hformed := hd.definitions before hbefore
  cases before with
  | fragment f => exact hformed
  | operation o => exact formed_retypeOperation named once d hformed

/-- The rule keeps the printed document readable if its new type is formed by the grammar and leaves
room for the parenthesis around it. -/
theorem reprints_retypeVariables (named : r.newType.WellNamed) (once : r.newType.MarkedOnce)
    (hnesting : r.newType.nesting < Graphql.maxNesting) {d : Document} (hd : d.Formed) :
    Reprints d (r.retypeVariables d) where
  formed := formed_retypeVariables named once hd
  fits hfits := by
    rw [Document.fits_scan] at hfits ⊢
    intro definition hdefinition
    obtain ⟨before, hbefore, rfl⟩ := List.mem_map.mp hdefinition
    have hbudget := hfits before hbefore
    cases before with
    | fragment f => exact hbudget
    | operation o => exact fits_retypeOperation hnesting d hbudget
  selections hselections := by
    have hdefinition : ∀ definition : Graphql.Definition,
        (r.retypeDefinition d definition).selections = definition.selections ∧
          (r.retypeDefinition d definition).reread.selections = definition.reread.selections := by
      intro definition
      cases definition <;> exact ⟨rfl, rfl⟩
    simp only [Document.selections, Document.reread, retypeVariables, List.map_map] at hselections ⊢
    refine List.map_congr_left fun definition hmem => ?_
    have hbefore := List.map_inj_left.mp hselections definition hmem
    simp only [Function.comp_apply] at hbefore ⊢
    rw [(hdefinition definition).1, (hdefinition definition).2, hbefore]

end ArgumentRetype

/-! ### Any rules -/

/-- The type that the rule writes leaves room for a parenthesis around it. -/
def StandardRule.Shallow : StandardRule → Prop
  | argumentType r => r.newType.nesting < Graphql.maxNesting
  | argumentName _ => True
  | fieldName _ => True

/-- A rule that writes names keeps the printed document readable if its type is shallow. -/
theorem StandardRule.reprints_adapt {rule : StandardRule} (hnames : rule.WritesNames)
    (hshallow : rule.Shallow) {d : Document} (hd : d.Formed) : Reprints d (rule.adapt d) := by
  cases rule with
  | argumentType r => exact r.reprints_retypeVariables hnames.1 hnames.2 hshallow hd
  | argumentName r =>
      rw [adapt, r.renameArguments_eq_mapFields]
      exact (r.keepsText hnames).reprints hd
  | fieldName r =>
      rw [adapt, r.renameFields_eq_mapFields]
      exact (r.keepsText hnames).reprints hd

/-- Rules that write names keep the printed document readable if their types are shallow. -/
theorem reprints_adaptAll {rules : List StandardRule} (hnames : ∀ rule ∈ rules, rule.WritesNames)
    (hshallow : ∀ rule ∈ rules, rule.Shallow) {d : Document} (hd : d.Formed) :
    Reprints d (adaptAll rules d) := by
  rw [adaptAll]
  induction rules generalizing d with
  | nil => exact .refl hd
  | cons rule rest ih =>
      have hfirst := StandardRule.reprints_adapt (hnames rule List.mem_cons_self)
        (hshallow rule List.mem_cons_self) hd
      exact hfirst.trans (ih (fun other hother => hnames other (List.mem_cons_of_mem _ hother))
        (fun other hother => hshallow other (List.mem_cons_of_mem _ hother)) hfirst.formed)

/-- A new type that is read from the specification leaves room for a parenthesis around it. -/
def RuleSpec.Shallow : RuleSpec → Prop
  | argumentType _ _ _ newType _ =>
    ∀ type, TypeRef.parse newType = .ok type → type.nesting < Graphql.maxNesting
  | argumentName _ _ _ => True
  | fieldName _ _ => True

/-- The rule that a specification describes writes a shallow type if the specification says so. -/
theorem RuleSpec.Describes.shallow {spec : RuleSpec} {rule : StandardRule}
    (hrule : spec.Describes rule) (h : spec.Shallow) : rule.Shallow := by
  cases rule with
  | argumentType r =>
      cases spec with
      | argumentType field argument oldType newType coercion? => exact h _ hrule.2.2.2
      | argumentName field oldName newName => exact absurd hrule id
      | fieldName oldName newName => exact absurd hrule id
  | argumentName r => trivial
  | fieldName r => trivial

/-- **Rules keep names and readable text, if their specifications do.** Suppose that specifications
are accepted, and that each of them that renames fields or arguments has a name as the new name,
unless what it looks for is no name itself. Then the rules keep a document well named, in any number
and any order. If the document was read from a query, and their types are shallow, they do not make
the printed query unreadable either, or show other selections than those of the document: if the
document could be printed and read before, then so it can be afterwards. -/
theorem sequence_wellWritten {specs : List RuleSpec} {rules : List StandardRule}
    (hbuild : RuleSpec.buildAll specs = .ok rules) (hnames : ∀ spec ∈ specs, spec.WritesNames)
    {d : Document} {values : Option Json.Object} {adapted : Adapted}
    (ok : ((Rule.sequence (rules.map StandardRule.toRule)).request d values).outcome =
      .ok adapted) :
    (d.WellNamed → adapted.document.WellNamed) ∧
      ∀ query, Document.read? query = some d → adapted.document.WellNamed ∧
        ((∀ spec ∈ specs, spec.Shallow) → ∀ d', Document.read? d.print = some d' →
          ∃ e, Document.read? adapted.document.print = some e ∧
            (d'.selections = d.selections → e.selections = adapted.document.selections)) := by
  have hdescribed : ∀ rule ∈ rules, ∃ spec ∈ specs, spec.Describes rule := by
    intro rule hrule
    obtain ⟨spec, hspec, hbuilt⟩ := RuleSpec.exists_of_mem_buildAll hbuild hrule
    exact ⟨spec, hspec, RuleSpec.describes_of_build hbuilt⟩
  have hwrites : ∀ rule ∈ rules, rule.WritesNames := by
    intro rule hrule
    obtain ⟨spec, hspec, hdescribes⟩ := hdescribed rule hrule
    exact hdescribes.writesNames (hnames spec hspec)
  have hwellNamed : d.WellNamed → adapted.document.WellNamed := by
    rw [document_of_sequence ok]
    exact wellNamed_adaptAll hwrites
  refine ⟨hwellNamed, fun query hquery => ?_⟩
  have hformed := Document.formed_of_read? hquery
  refine ⟨hwellNamed hformed.wellNamed, fun hshallow d' hread => ?_⟩
  have hreprints := reprints_adaptAll hwrites (fun rule hrule => by
    obtain ⟨spec, hspec, hdescribes⟩ := hdescribed rule hrule
    exact hdescribes.shallow (hshallow spec hspec)) hformed
  rw [document_of_sequence ok]
  exact hreprints.exists_read?_print hformed hread

/-- `query ($n: Int) { things(first: $n) }`. -/
def passedOn : Document :=
  ⟨[.operation ⟨some ⟨.query, none, [⟨"n", .named "Int", none⟩], []⟩,
    [.field ⟨none, "things", [("first", .reference "n")], []⟩ []]⟩]⟩

/-- The document is formed by the grammar. -/
theorem formed_passedOn : passedOn.Formed := by
  have hfield : (⟨none, "things", [("first", .reference "n")], []⟩ : Field).Formed := by
    refine ⟨by simp, by decide, ⟨fun a ha => ?_, fun a ha => ?_⟩, by simp⟩
    · obtain rfl := List.mem_singleton.mp ha
      decide
    · obtain rfl := List.mem_singleton.mp ha
      exact .reference rfl (by decide)
  have hheader : (⟨.query, none, [⟨"n", .named "Int", none⟩], []⟩ :
      Graphql.OperationHeader).Formed := by
    refine ⟨by simp, fun v hv => ?_, by simp⟩
    obtain rfl := List.mem_singleton.mp hv
    exact ⟨by decide, (by decide : IsName "Int"), trivial, by simp⟩
  refine ⟨fun definition hdefinition => ?_, List.cons_ne_nil _ _⟩
  obtain rfl := List.mem_singleton.mp hdefinition
  refine ⟨fun header hh => Option.some.inj hh ▸ hheader, ?_, List.cons_ne_nil _ _⟩
  simp only [Graphql.EverySelection, and_true]
  exact hfield

/-- The document is read from its own text. -/
theorem read?_passedOn : Document.read? passedOn.print = some passedOn := by
  have hscan : passedOn.scan = some [.name "query", .punctuator '(', .punctuator '$', .name "n",
      .punctuator ':', .name "Int", .punctuator ')', .punctuator '\x7b', .name "things",
      .punctuator '(', .name "first", .punctuator ':', .punctuator '$', .name "n", .punctuator ')',
      .punctuator '\x7d'] := by cbv
  have hreread : passedOn.reread = passedOn := by cbv
  exact formed_passedOn.read?_print_eq_some_iff.mpr ⟨⟨_, hscan, by decide⟩, hreread.symm⟩

/-- Another type, and other names that are names. -/
def otherNames : List RuleSpec :=
  [.argumentType "things" "first" "Int" "[Int!]" none, .argumentName "things" "first" "limit",
    .fieldName "things" "items"]

/-- A field, its argument and a variable are changed, and the printed query is read with the new
names. -/
theorem sequence_wellWritten_otherNames :
    ∃ rules adapted, RuleSpec.buildAll otherNames = .ok rules ∧
      (∀ spec ∈ otherNames, spec.WritesNames) ∧ (∀ spec ∈ otherNames, spec.Shallow) ∧
      Document.read? passedOn.print = some passedOn ∧
      ((Rule.sequence (rules.map StandardRule.toRule)).request passedOn none).outcome =
        .ok adapted ∧
      adapted.document.WellNamed ∧
      ∃ e, Document.read? adapted.document.print = some e ∧
        e.selections = [[.field ⟨none, "items", [("limit", .reference "n")], []⟩ []]] := by
  have hbuild : RuleSpec.buildAll otherNames = .ok [.argumentType ⟨"things", "first", .named "Int",
      .list (.nonNull (.named "Int")), none⟩, .argumentName ⟨"things", "first", "limit"⟩,
      .fieldName ⟨"things", "items"⟩] := by
    have hnew : requireType "[Int!]" = .ok (.list (.nonNull (.named "Int"))) := by cbv
    have hold : requireType "Int" = .ok (.named "Int") := by cbv
    have hmake : ArgumentRetype.make "things" "first" "Int" "[Int!]" none =
        .ok ⟨"things", "first", .named "Int", .list (.nonNull (.named "Int")), none⟩ := by
      rw [ArgumentRetype.make, hnew, hold]
      rfl
    rw [RuleSpec.buildAll, otherNames, List.mapM_cons, RuleSpec.build]
    simp only [Option.map_none, hmake]
    rfl
  have hnames : ∀ spec ∈ otherNames, spec.WritesNames := by
    intro spec hspec
    simp only [otherNames, List.mem_cons, List.not_mem_nil, or_false] at hspec
    rcases hspec with rfl | rfl | rfl
    · trivial
    · exact fun _ _ => by decide
    · exact fun _ => by decide
  have hshallow : ∀ spec ∈ otherNames, spec.Shallow := by
    intro spec hspec
    simp only [otherNames, List.mem_cons, List.not_mem_nil, or_false] at hspec
    rcases hspec with rfl | rfl | rfl
    · intro type htype
      have hparse : TypeRef.parse "[Int!]" = .ok (.list (.nonNull (.named "Int"))) := by cbv
      obtain rfl := Except.ok.inj (hparse.symm.trans htype)
      decide
    · trivial
    · trivial
  have hretyped : ((⟨"things", "first", .named "Int", .list (.nonNull (.named "Int")), none⟩ :
      ArgumentRetype).toRule.request passedOn none).outcome = .ok _ :=
    ArgumentRetype.request_of_redeclared (by cbv : _ = ["n"]) rfl
  have ok : ((Rule.sequence ([.argumentType ⟨"things", "first", .named "Int",
      .list (.nonNull (.named "Int")), none⟩, .argumentName ⟨"things", "first", "limit"⟩,
      .fieldName ⟨"things", "items"⟩].map StandardRule.toRule)).request passedOn none).outcome =
        .ok _ :=
    Rule.followedBy_eq_ok.mpr ⟨_, _, hretyped, rfl, rfl⟩
  obtain ⟨-, hquery⟩ := sequence_wellWritten hbuild hnames ok
  obtain ⟨hwellNamed, hread⟩ := hquery _ read?_passedOn
  obtain ⟨e, he, hselections⟩ := hread hshallow _ read?_passedOn
  refine ⟨_, _, hbuild, hnames, hshallow, read?_passedOn, ok, hwellNamed, e, he, ?_⟩
  rw [hselections rfl, document_of_sequence ok]
  simp only [adaptAll, List.foldl_cons, List.foldl_nil, StandardRule.adapt,
    FieldRename.renameFields_eq_mapFields, ArgumentRename.renameArguments_eq_mapFields]
  cbv

/-- Two words as the new name of a field. -/
def twoWords : List RuleSpec :=
  [.fieldName "things" "items more"]

/-- Any text that is not blank is accepted as a name: two words as the new name of a field are
written into a document that was well named before. -/
theorem exists_not_wellNamed :
    ∃ rules adapted, RuleSpec.buildAll twoWords = .ok rules ∧ passedOn.WellNamed ∧
      ((Rule.sequence (rules.map StandardRule.toRule)).request passedOn none).outcome =
        .ok adapted ∧
      ¬ adapted.document.WellNamed := by
  have hbuild : RuleSpec.buildAll twoWords = .ok [.fieldName ⟨"things", "items more"⟩] := by rfl
  refine ⟨_, _, hbuild, formed_passedOn.wellNamed, rfl, fun hafter => ?_⟩
  have hselections := hafter.fields _ (by
    show _ ∈ ((⟨"things", "items more"⟩ : FieldRename).renameFields passedOn).1.definitions
    rw [FieldRename.renameFields_eq_mapFields]
    exact List.mem_cons_self)
  simp only [Graphql.Definition.mapFields, Graphql.Operation.mapFields,
    Graphql.Definition.selections, Graphql.mapSelections, Graphql.EverySelection] at hselections
  exact absurd hselections.1.name (by decide)

/-- Integers within a number of lists. -/
def nestedIntegers : Nat → TypeRef
  | 0 => .named "Int"
  | n + 1 => .list (nestedIntegers n)

/-- Integers within lists are a type as the grammar forms it. -/
theorem formed_nestedIntegers (n : Nat) :
    (nestedIntegers n).WellNamed ∧ (nestedIntegers n).MarkedOnce := by
  induction n with
  | zero => exact ⟨(by decide : IsName "Int"), trivial⟩
  | succ n ih => exact ih

/-- A type with as many brackets as may be open at once. -/
def deepType : List RuleSpec :=
  [.argumentType "things" "first" "Int" (nestedIntegers 50).display none]

/-- Any type is accepted, however many lists it has: with fifty of them the query is printed so that
it cannot be read, although it could before. -/
theorem exists_not_read? :
    ∃ rules adapted, RuleSpec.buildAll deepType = .ok rules ∧
      (∀ spec ∈ deepType, spec.WritesNames) ∧ Document.read? passedOn.print = some passedOn ∧
      ((Rule.sequence (rules.map StandardRule.toRule)).request passedOn none).outcome =
        .ok adapted ∧
      Document.read? adapted.document.print = none := by
  obtain ⟨named, once⟩ := formed_nestedIntegers 50
  have hbuild : RuleSpec.buildAll deepType =
      .ok [.argumentType ⟨"things", "first", .named "Int", nestedIntegers 50, none⟩] := by
    have hnew : requireType (nestedIntegers 50).display = .ok (nestedIntegers 50) := by
      rw [requireType, TypeRef.parse_eq_ok_iff.mpr (TypeRef.written_display named once).1]
    have hold : requireType "Int" = .ok (.named "Int") := by cbv
    have hmake : ArgumentRetype.make "things" "first" "Int" (nestedIntegers 50).display none =
        .ok ⟨"things", "first", .named "Int", nestedIntegers 50, none⟩ := by
      rw [ArgumentRetype.make, hnew, hold]
      rfl
    rw [RuleSpec.buildAll, deepType, List.mapM_cons, RuleSpec.build]
    simp only [Option.map_none, hmake]
    rfl
  have hretyped : ((⟨"things", "first", .named "Int", nestedIntegers 50, none⟩ :
      ArgumentRetype).toRule.request passedOn none).outcome = .ok _ :=
    ArgumentRetype.request_of_redeclared (by cbv : _ = ["n"]) rfl
  have ok : ((Rule.sequence ([.argumentType ⟨"things", "first", .named "Int", nestedIntegers 50,
      none⟩].map StandardRule.toRule)).request passedOn none).outcome = .ok _ :=
    Rule.followedBy_eq_ok.mpr ⟨_, _, hretyped, rfl, rfl⟩
  refine ⟨_, _, hbuild, ?_, read?_passedOn, ok, ?_⟩
  · intro spec hspec
    obtain rfl := List.mem_singleton.mp hspec
    trivial
  · have hafter : (⟨"things", "first", .named "Int", nestedIntegers 50, none⟩ :
        ArgumentRetype).retypeVariables passedOn =
          ⟨[.operation ⟨some ⟨.query, none, [⟨"n", nestedIntegers 50, none⟩], []⟩,
            [.field ⟨none, "things", [("first", .reference "n")], []⟩ []]⟩]⟩ := by cbv
    have hformed := ArgumentRetype.formed_retypeVariables
      (r := ⟨"things", "first", .named "Int", nestedIntegers 50, none⟩) named once formed_passedOn
    rw [hafter] at hformed
    have hnone := hformed.read?_print_eq_none List.mem_cons_self rfl List.mem_cons_self (by decide)
    exact hafter ▸ hnone

/-- **That specifications are accepted is not enough.** Rules that are accepted need not keep a
document well named, and if they do, they may still make the printed query unreadable. -/
theorem not_wellWritten :
    (¬ ∀ (specs : List RuleSpec) (rules : List StandardRule) (d : Document)
        (values : Option Json.Object) (adapted : Adapted), RuleSpec.buildAll specs = .ok rules →
        d.WellNamed →
        ((Rule.sequence (rules.map StandardRule.toRule)).request d values).outcome = .ok adapted →
        adapted.document.WellNamed) ∧
      ¬ ∀ (specs : List RuleSpec) (rules : List StandardRule) (query : String) (d d' : Document)
        (values : Option Json.Object) (adapted : Adapted), RuleSpec.buildAll specs = .ok rules →
        (∀ spec ∈ specs, spec.WritesNames) → Document.read? query = some d →
        ((Rule.sequence (rules.map StandardRule.toRule)).request d values).outcome = .ok adapted →
        Document.read? d.print = some d' → ∃ e, Document.read? adapted.document.print = some e := by
  constructor
  · intro h
    obtain ⟨rules, adapted, hbuild, hnamed, ok, hafter⟩ := exists_not_wellNamed
    exact hafter (h _ rules _ _ adapted hbuild hnamed ok)
  · intro h
    obtain ⟨rules, adapted, hbuild, hnames, hread, ok, hnone⟩ := exists_not_read?
    obtain ⟨e, he⟩ := h _ rules _ _ _ _ adapted hbuild hnames hread ok hread
    exact absurd (hnone.symm.trans he) (by simp)

end SchemaBridge
