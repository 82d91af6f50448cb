import SchemaBridge.Proofs.Graphql.Reorder
import SchemaBridge.Proofs.Rule.Frame
import SchemaBridge.Proofs.Variables.Conversion

/-!
# Rules and the order of definitions

A document says the same in whatever order its definitions stand, and rules respect that.

* `Traced.Agree`: two computations succeed together, with related results;
* `StandardRule.agree_request`: a rule sees no difference between a document and a reordering of it;
* `sequence_reordered`: nor do any number of rules.
-/

namespace SchemaBridge

open Graphql (Document Operation)
open ArgumentRetype (identifierAsInteger)

/-! ### Computations that agree -/

/-- Two computations succeed together, and their results are then related. -/
structure Traced.Agree {α β : Type} (R : α → β → Prop) (x : Traced α) (y : Traced β) : Prop where
  succeeds : (∃ b, y.outcome = .ok b) ↔ ∃ a, x.outcome = .ok a
  related : ∀ a b, x.outcome = .ok a → y.outcome = .ok b → R a b

namespace Traced.Agree

variable {α β γ δ : Type} {R : α → β → Prop} {S : γ → δ → Prop}

/-- Computations with related results agree. -/
theorem of_ok {x : Traced α} {y : Traced β} {a : α} {b : β} (ha : x.outcome = .ok a)
    (hb : y.outcome = .ok b) (h : R a b) : Agree R x y where
  succeeds := ⟨fun _ => ⟨a, ha⟩, fun _ => ⟨b, hb⟩⟩
  related a' b' ha' hb' := by
    obtain rfl := Except.ok.inj (ha.symm.trans ha')
    obtain rfl := Except.ok.inj (hb.symm.trans hb')
    exact h

/-- Sequences agree if their parts do. -/
theorem bind {x : Traced α} {y : Traced β} {f : α → Traced γ} {g : β → Traced δ}
    (h : Agree R x y) (hf : ∀ a b, x.outcome = .ok a → R a b → Agree S (f a) (g b)) :
    Agree S (x >>= f) (y >>= g) where
  succeeds := by
    constructor
    · rintro ⟨e, he⟩
      obtain ⟨b, hb, he⟩ := outcome_bind_eq_ok.mp he
      obtain ⟨a, ha⟩ := h.succeeds.mp ⟨b, hb⟩
      obtain ⟨c, hc⟩ := (hf a b ha (h.related a b ha hb)).succeeds.mp ⟨e, he⟩
      exact ⟨c, outcome_bind_eq_ok.mpr ⟨a, ha, hc⟩⟩
    · rintro ⟨c, hc⟩
      obtain ⟨a, ha, hc⟩ := outcome_bind_eq_ok.mp hc
      obtain ⟨b, hb⟩ := h.succeeds.mpr ⟨a, ha⟩
      obtain ⟨e, he⟩ := (hf a b ha (h.related a b ha hb)).succeeds.mpr ⟨c, hc⟩
      exact ⟨e, outcome_bind_eq_ok.mpr ⟨b, hb, he⟩⟩
  related c e hc he := by
    obtain ⟨a, ha, hc⟩ := outcome_bind_eq_ok.mp hc
    obtain ⟨b, hb, he⟩ := outcome_bind_eq_ok.mp he
    exact (hf a b ha (h.related a b ha hb)).related c e hc he

end Traced.Agree

/-- One request is another one with the definitions of its document in another order: the values are
the same, and the ways back lead to the same responses. -/
structure Adapted.Reorders (order : List Nat) (a a' : Adapted) : Prop where
  document : a'.document = a.document.reordered order
  values : a'.values = a.values
  restore : ∀ v, (a'.restore v).outcome = (a.restore v).outcome

/-! ### One rule -/

variable {d : Document} {order : List Nat}

namespace FieldRename

variable (r : FieldRename)

/-- The affected paths are the same. -/
theorem mem_affectedPaths_reordered (hnames : (d.fragments.map (·.name)).Nodup)
    (horder : order.Perm (List.range d.definitions.length)) {p : List String} :
    p ∈ r.affectedPaths (d.reordered order) ↔ p ∈ r.affectedPaths d := by
  have hperm := Document.operations_reordered horder
  simp only [affectedPaths, List.mem_eraseDups, Document.findFields,
    Document.walk_reordered hnames horder]
  exact (hperm.flatMap_right _).mem_iff

/-- Only what the affected paths are counts for the translation of a path, not their order. -/
theorem renamedBelow_congr {affected affected' : List (List String)}
    (h : ∀ p, p ∈ affected ↔ p ∈ affected') (done p : List String) :
    r.renamedBelow affected done p = r.renamedBelow affected' done p := by
  induction p generalizing done with
  | nil => rfl
  | cons key rest ih => simp only [renamedBelow, h, ih]

/-- The recorded paths are the same. -/
theorem mem_recordedPaths_reordered (hnames : (d.fragments.map (·.name)).Nodup)
    (horder : order.Perm (List.range d.definitions.length)) {p : List String} :
    p ∈ r.recordedPaths (d.reordered order) ↔ p ∈ r.recordedPaths d := by
  simp only [mem_recordedPaths, pathAfter, r.mem_affectedPaths_reordered hnames horder,
    r.renamedBelow_congr fun _ => r.mem_affectedPaths_reordered hnames horder]

/-- Responses are restored alike. -/
theorem restore_reordered (hnames : (d.fragments.map (·.name)).Nodup)
    (horder : order.Perm (List.range d.definitions.length)) (v : Json.Value) :
    r.restore (r.recordedPaths (d.reordered order)) v = r.restore (r.recordedPaths d) v := by
  rw [r.restore_recordedPaths, r.restore_recordedPaths]
  exact rekey_congr v fun _ => r.mem_recordedPaths_reordered hnames horder

end FieldRename

namespace ArgumentRetype

variable (r : ArgumentRetype)

/-- Every operation redeclares the same variables. -/
theorem redeclaredIn_reordered (hnames : (d.fragments.map (·.name)).Nodup)
    (horder : order.Perm (List.range d.definitions.length)) :
    r.redeclaredIn (d.reordered order) = r.redeclaredIn d := by
  funext o
  simp only [redeclaredIn, targets, Document.findFields, Document.walk_reordered hnames horder]

/-- The same variables are redeclared. -/
theorem mem_redeclared_reordered (hnames : (d.fragments.map (·.name)).Nodup)
    (horder : order.Perm (List.range d.definitions.length)) {name : String} :
    name ∈ r.redeclared (d.reordered order) ↔ name ∈ r.redeclared d := by
  have hperm := Document.operations_reordered horder
  rw [redeclared, redeclared, r.redeclaredIn_reordered hnames horder]
  exact (hperm.flatMap_right _).mem_iff

/-- The definitions are retyped alike. -/
theorem retypeVariables_reordered (hnames : (d.fragments.map (·.name)).Nodup)
    (horder : order.Perm (List.range d.definitions.length)) :
    r.retypeVariables (d.reordered order) = (r.retypeVariables d).reordered order := by
  have hdefinition : r.retypeDefinition (d.reordered order) = r.retypeDefinition d := by
    funext definition
    cases definition with
    | fragment f => rfl
    | operation o =>
        rw [retypeDefinition, retypeOperation, r.redeclaredIn_reordered hnames horder]
        rfl
  rw [retypeVariables, hdefinition]
  exact Document.map_reordered _ d order

end ArgumentRetype

/-- A rule sees no difference between a document and a reordering of it. -/
theorem StandardRule.agree_request (rule : StandardRule)
    (hnames : (d.fragments.map (·.name)).Nodup)
    (horder : order.Perm (List.range d.definitions.length)) (values : Option Json.Object) :
    Traced.Agree (Adapted.Reorders order) (rule.toRule.request d values)
      (rule.toRule.request (d.reordered order) values) := by
  cases rule with
  | argumentType r =>
      have hvalues : ∀ values', (r.convertValues [] values (r.redeclared d)).outcome = .ok values' ↔
          (r.convertValues [] values (r.redeclared (d.reordered order))).outcome = .ok values' :=
        fun values' => ArgumentRetype.convertValues_congr fun name =>
          (r.mem_redeclared_reordered hnames horder).symm
      constructor
      · constructor
        · rintro ⟨_, ok⟩
          obtain ⟨values', ok, -⟩ := ArgumentRetype.request_eq_ok.mp ok
          exact ⟨_, ArgumentRetype.request_eq_ok.mpr ⟨values', (hvalues values').mpr ok, rfl⟩⟩
        · rintro ⟨_, ok⟩
          obtain ⟨values', ok, -⟩ := ArgumentRetype.request_eq_ok.mp ok
          exact ⟨_, ArgumentRetype.request_eq_ok.mpr ⟨values', (hvalues values').mp ok, rfl⟩⟩
      · intro a a' ha ha'
        obtain ⟨values₁, hvalues₁, rfl⟩ := ArgumentRetype.request_eq_ok.mp ha
        obtain ⟨values₂, hvalues₂, rfl⟩ := ArgumentRetype.request_eq_ok.mp ha'
        have heq := Except.ok.inj (hvalues₂.symm.trans ((hvalues values₁).mp hvalues₁))
        exact ⟨r.retypeVariables_reordered hnames horder, heq, fun _ => rfl⟩
  | argumentName r =>
      refine .of_ok r.outcome_request r.outcome_request ⟨?_, rfl, fun _ => rfl⟩
      simp only [r.renameArguments_eq_mapFields, Document.mapFields_reordered]
  | fieldName r =>
      refine .of_ok r.outcome_request r.outcome_request ⟨?_, rfl, fun v => ?_⟩
      · simp only [r.renameFields_eq_mapFields, Document.mapFields_reordered]
      · exact congrArg Except.ok (r.restore_reordered hnames horder v)

/-- A rule keeps the number of definitions. -/
theorem StandardRule.length_definitions_adapt (rule : StandardRule) (d : Document) :
    (rule.adapt d).definitions.length = d.definitions.length := by
  have := congrArg (·.definitions.length) (rule.erased_adapt d)
  simpa [Document.erased] using this

/-- A rule keeps the names of fragments. -/
theorem StandardRule.map_name_fragments_adapt (rule : StandardRule) (d : Document) :
    (rule.adapt d).fragments.map (·.name) = d.fragments.map (·.name) := by
  have herased : ∀ d : Document, d.erased.fragments.map (·.name) = d.fragments.map (·.name) := by
    intro d
    simp only [Document.fragments, Document.erased, List.filterMap_map, List.map_filterMap]
    refine List.filterMap_congr fun definition _ => ?_
    cases definition <;> rfl
  rw [← herased, rule.erased_adapt, herased]

/-! ### Any rules -/

/-- Rules see no difference between a document and a reordering of it. -/
theorem agree_sequence (rules : List StandardRule) (hnames : (d.fragments.map (·.name)).Nodup)
    (horder : order.Perm (List.range d.definitions.length)) (values : Option Json.Object) :
    Traced.Agree (Adapted.Reorders order)
      ((Rule.sequence (rules.map StandardRule.toRule)).request d values)
      ((Rule.sequence (rules.map StandardRule.toRule)).request (d.reordered order) values) := by
  induction rules generalizing d values with
  | nil => exact .of_ok rfl rfl ⟨rfl, rfl, fun _ => rfl⟩
  | cons rule rest ih =>
      refine .bind (rule.agree_request hnames horder values) fun a a' ha haa' => ?_
      have hdocument : a.document = rule.adapt d := (StandardRule.of_request ha).1
      -- the rules that follow see documents of which the one is a reordering of the other again
      have hnext : Traced.Agree (Adapted.Reorders order)
          ((Rule.sequence (rest.map StandardRule.toRule)).request a.document a.values)
          ((Rule.sequence (rest.map StandardRule.toRule)).request a'.document a'.values) := by
        rw [haa'.document, haa'.values]
        refine ih ?_ ?_ a.values
        · rwa [hdocument, rule.map_name_fragments_adapt]
        · rwa [hdocument, rule.length_definitions_adapt]
      refine .bind hnext fun b b' _ hbb' => .of_ok rfl rfl ⟨hbb'.document, hbb'.values, fun v => ?_⟩
      show (b'.restore v >>= a'.restore).outcome = (b.restore v >>= a.restore).outcome
      rw [Traced.outcome_bind, Traced.outcome_bind, hbb'.restore, funext haa'.restore]

/-- **The order of definitions does not matter.** Suppose that no two fragments of a document share
a name. Then rules, any number of them in any order, make a request of the document without failing
exactly if they do so with its definitions in another order. The document that they make of it is
then the same with its definitions in that other order, the values are the same, and every response
is restored alike; and so it is in an exchange under the rules, for every text of the documents. -/
theorem sequence_reordered {rules : List StandardRule} {d : Document} {order : List Nat}
    (hnames : (d.fragments.map (·.name)).Nodup)
    (horder : order.Perm (List.range d.definitions.length)) (values : Option Json.Object) :
    ((∃ a', ((Rule.sequence (rules.map StandardRule.toRule)).request (d.reordered order)
          values).outcome = .ok a') ↔
        ∃ a, ((Rule.sequence (rules.map StandardRule.toRule)).request d values).outcome = .ok a) ∧
      ∀ a a', ((Rule.sequence (rules.map StandardRule.toRule)).request d values).outcome = .ok a →
        ((Rule.sequence (rules.map StandardRule.toRule)).request (d.reordered order)
          values).outcome = .ok a' →
        a'.document = a.document.reordered order ∧ a'.values = a.values ∧
          (∀ v, (a'.restore v).outcome = (a.restore v).outcome) ∧
          ∀ query query', Document.read? query = some d →
            Document.read? query' = some (d.reordered order) → ∀ v,
            (((Exchange.start (rules.map StandardRule.toRule)).request query' values).1.response
                v).2.outcome =
              (((Exchange.start (rules.map StandardRule.toRule)).request query values).1.response
                v).2.outcome := by
  obtain ⟨hsucceeds, hrelated⟩ := agree_sequence rules hnames horder values
  refine ⟨hsucceeds, fun a a' ha ha' => ?_⟩
  obtain ⟨hdocument, hvalues, hrestore⟩ := hrelated a a' ha ha'
  refine ⟨hdocument, hvalues, hrestore, fun query query' hread hread' v => ?_⟩
  rw [Exchange.request_start hread ha, Exchange.request_start hread' ha',
    Exchange.outcome_response_sent, Exchange.outcome_response_sent]
  exact hrestore v

/-- `query A($v: String!) { ...Part }` and `query B($v: String!) { things(identifier: $v) }` with
`fragment Part on Query { things(identifier: $v) items: other }`: the value is needed twice, and a
path that is recorded is also the path of a field with an alias. -/
def spreadingBefore : Document :=
  ⟨[.operation ⟨some ⟨.query, some "A", [⟨"v", .nonNull (.named "String"), none⟩], []⟩,
      [.spread "Part" []]⟩,
    .operation ⟨some ⟨.query, some "B", [⟨"v", .nonNull (.named "String"), none⟩], []⟩,
      [.field ⟨none, "things", [("identifier", .reference "v")], []⟩ []]⟩,
    .fragment ⟨"Part", "Query", [],
      [.field ⟨none, "things", [("identifier", .reference "v")], []⟩ [],
      .field ⟨some "items", "other", [], []⟩ []]⟩]⟩

/-- With the definitions in reverse, the value is still converted once, and sent as the same
integer. -/
theorem sequence_reordered_spreadingBefore :
    (spreadingBefore.fragments.map (·.name)).Nodup ∧
      [2, 1, 0].Perm (List.range spreadingBefore.definitions.length) ∧
      ∃ a a', ((Rule.sequence (oneOfEachKind.map StandardRule.toRule)).request spreadingBefore
          (some [("v", .string "7")])).outcome = .ok a ∧
        ((Rule.sequence (oneOfEachKind.map StandardRule.toRule)).request
          (spreadingBefore.reordered [2, 1, 0]) (some [("v", .string "7")])).outcome = .ok a' ∧
        a'.document = a.document.reordered [2, 1, 0] ∧
        a'.values = some [("v", .number (.int 7))] ∧
        ∀ v, (a'.restore v).outcome = (a.restore v).outcome := by
  have hnames : (spreadingBefore.fragments.map (·.name)).Nodup := by decide
  have horder : [2, 1, 0].Perm (List.range spreadingBefore.definitions.length) := by decide
  have hredeclared : identifierAsInteger.redeclared spreadingBefore = ["v", "v"] := by cbv
  have hvalues : (identifierAsInteger.toRule.request spreadingBefore
      (some [("v", .string "7")])).outcome =
        .ok ⟨identifierAsInteger.retypeVariables spreadingBefore, some [("v", .number (.int 7))],
          pure⟩ :=
    ArgumentRetype.request_of_redeclared hredeclared rfl
  have ok : ((Rule.sequence (oneOfEachKind.map StandardRule.toRule)).request spreadingBefore
      (some [("v", .string "7")])).outcome = .ok _ :=
    Rule.followedBy_eq_ok.mpr ⟨_, _, hvalues, rfl, rfl⟩
  have h := @sequence_reordered oneOfEachKind spreadingBefore [2, 1, 0] hnames horder
    (some [("v", .string "7")])
  obtain ⟨hsucceeds, hrelated⟩ := h
  obtain ⟨a', ok'⟩ := hsucceeds.mpr ⟨_, ok⟩
  obtain ⟨hdocument, hvalues', hrestore, -⟩ := hrelated _ a' ok ok'
  exact ⟨hnames, horder, _, a', ok, ok', hdocument, hvalues', hrestore⟩

end SchemaBridge
