import SchemaBridge.Proofs.Response.Rekey
import SchemaBridge.Proofs.Response.Unambiguous
import SchemaBridge.Proofs.Rule.Request
import SchemaBridge.Proofs.Variables.Declaration
import SchemaBridge.RuleSpec

/-!
# There and back again

A server answers the document that the rules leave, and the way back restores the keys that the
client asked for.

* `FieldRename.rekey_rekey`: what one renaming does to a response is undone at the recorded paths;
* `FieldRename.answer`, `StandardRule.answer`: the answer to the document after a rule, from an
  answer to the document before it;
* `response_answerAll`: the way back through any list of rules undoes their answers, as long as
  every renaming is unambiguous on the document that it sees.
-/

namespace SchemaBridge

open Graphql (Document)

namespace FieldRename

variable {r : FieldRename} {d : Document}

/-! ### One renaming, there and back -/

/-- What one renaming does to a response is undone at the recorded paths. -/
theorem rekey_rekey (h : r.Unambiguous d) {v : Json.Value} {p : List String} (hp : d.Reaches p)
    (hordered : v.Ordered) (hfollows : v.Follows d.responsePaths p) :
    rekey r.newName r.oldName (r.recordedPaths d) (r.pathAfter d p)
      (rekey r.oldName r.newName (r.affectedPaths d) p v) = v := by
  by_cases hne : r.oldName = r.newName
  · rw [← hne, rekey_self _ hordered, rekey_self _ hordered]
  obtain ⟨hshare, hclash⟩ := h.resolve_left hne
  induction v generalizing p with
  | null => rfl
  | boolean b => rfl
  | number n => rfl
  | string s => rfl
  | array items ih =>
      rw [rekey_array, rekey_array, List.map_map]
      refine congrArg _ ((List.map_congr_left fun w hw => ?_).trans (List.map_id items))
      exact ih w hw hp (hordered.of_array w hw) (hfollows.of_array w hw)
  | object entries ih =>
      obtain ⟨hascending, hbeneath⟩ := hordered.of_object
      have hcontinued := hfollows.of_object
      have hback : ∀ e ∈ entries, rekey r.newName r.oldName (r.recordedPaths d)
          (r.pathAfter d p ++ [if p ++ [e.1] ∈ r.affectedPaths d then r.newName else e.1])
          (rekey r.oldName r.newName (r.affectedPaths d) (p ++ [e.1]) e.2) = e.2 := by
        intro e he
        rw [← pathAfter_concat]
        exact ih e he (.inr (hcontinued e he).1) (hbeneath e he) (hcontinued e he).2
      rw [rekey_object, rekey_object, renameIfMarked_eq, renameIfMarked_eq]
      simp only [concat_mem_recordedPaths_iff hshare hclash hp]
      by_cases hmarked : p ++ [r.oldName] ∈ r.affectedPaths d
      · rw [if_pos hmarked, if_pos hmarked]
        refine congrArg _ (renameKey_mapValues_renameKey hne hascending ?_ fun e he => ?_)
        · refine Entries.get?_eq_none_iff.mpr fun e he hkey => hclash.not_mem hmarked ?_
          exact hkey ▸ (hcontinued e he).1
        · have := hback e he
          simpa only [concat_mem_affectedPaths_iff hmarked] using this
      · rw [if_neg hmarked, if_neg hmarked, Entries.mapValues_mapValues]
        refine congrArg _ (Entries.mapValues_eq_self fun e he => ?_)
        have hkey : p ++ [e.1] ∉ r.affectedPaths d := by
          intro hmem
          exact hmarked (r.eq_oldName_of_affected hmem ▸ hmem)
        have := hback e he
        rwa [if_neg hkey] at this

/-- Every entry of an object after one renaming comes from an entry before it, and its key is the
one that the rule takes that entry to have. -/
theorem exists_of_mem_renameIfMarked (r : FieldRename) {p : List String} {entries : Json.Object}
    {f : String → Json.Value → Json.Value} {e : String × Json.Value}
    (h : e ∈ renameIfMarked r.oldName r.newName (r.affectedPaths d) p
      (Entries.mapValues f entries)) :
    ∃ e' ∈ entries, r.pathAfter d p ++ [e.1] = r.pathAfter d (p ++ [e'.1]) ∧
      e.2 = f e'.1 e'.2 := by
  simp only [pathAfter_concat, List.append_singleton_inj, true_and]
  rw [renameIfMarked_eq] at h
  split_ifs at h with hmarked
  · simp only [concat_mem_affectedPaths_iff hmarked]
    rcases mem_of_mem_renameKey h with ⟨hnew, h⟩ | ⟨hold, h⟩
    · obtain ⟨e', he', heq⟩ := List.mem_map.mp h
      obtain ⟨hkey, hvalue⟩ := Prod.mk.inj heq
      exact ⟨e', he', by rw [if_pos hkey, hnew], hvalue.symm⟩
    · obtain ⟨e', he', rfl⟩ := List.mem_map.mp h
      exact ⟨e', he', by rw [if_neg hold], rfl⟩
  · obtain ⟨e', he', rfl⟩ := List.mem_map.mp h
    refine ⟨e', he', ?_, rfl⟩
    rw [if_neg fun hmem => hmarked (r.eq_oldName_of_affected hmem ▸ hmem)]

/-- The keys of a response after one renaming continue translated paths. -/
theorem follows_rekey (r : FieldRename) {v : Json.Value} {p : List String}
    (h : v.Follows d.responsePaths p) :
    (rekey r.oldName r.newName (r.affectedPaths d) p v).Follows
      (d.responsePaths.map (r.pathAfter d)) (r.pathAfter d p) := by
  induction v generalizing p with
  | null => exact .null _
  | boolean b => exact .boolean _ b
  | number n => exact .number _ n
  | string s => exact .string _ s
  | array items ih =>
      rw [rekey_array]
      refine .array fun w hw => ?_
      obtain ⟨v, hv, rfl⟩ := List.mem_map.mp hw
      exact ih v hv (h.of_array v hv)
  | object entries ih =>
      rw [rekey_object]
      refine .object (fun e he => ?_) fun e he => ?_
      · obtain ⟨e', he', hpath, -⟩ := r.exists_of_mem_renameIfMarked he
        rw [hpath]
        exact List.mem_map_of_mem (h.of_object e' he').1
      · obtain ⟨e', he', hpath, hvalue⟩ := r.exists_of_mem_renameIfMarked he
        rw [hpath, hvalue]
        exact ih e' he' (h.of_object e' he').2

/-! ### Answers -/

/-- The response paths of the affected fields of a document. -/
def changedPaths (r : FieldRename) (d : Document) : List (List String) :=
  (d.occurrences.filter fun x => r.Affects x.head).map (·.path)

/-- The changed paths are those from which the rule makes the recorded ones. -/
theorem mem_changedPaths {p : List String} : p ∈ r.changedPaths d ↔ p ∈ r.affectedPaths d := by
  simp only [changedPaths, mem_affectedPaths, List.mem_map, List.mem_filter, decide_eq_true_eq,
    Document.occurrences_eq_map]
  constructor
  · rintro ⟨x, ⟨⟨t, ht, rfl⟩, haffects⟩, rfl⟩
    exact ⟨t, ht, haffects, rfl⟩
  · rintro ⟨t, ht, haffects, rfl⟩
    exact ⟨_, ⟨⟨t, ht, rfl⟩, haffects⟩, rfl⟩

/-- The answer to the renamed document, from the answer to a document: the key of every affected
field is the new name. -/
def answer (r : FieldRename) (d : Document) (v : Json.Value) : Json.Value :=
  rekey r.oldName r.newName (r.changedPaths d) [] v

/-- An answer is renamed where the rule takes a path to be affected. -/
theorem answer_eq_rekey (v : Json.Value) :
    r.answer d v = rekey r.oldName r.newName (r.affectedPaths d) [] v :=
  rekey_congr v fun _ => r.mem_changedPaths

end FieldRename

/-- The document with its arguments renamed has its fields of the name changed one by one. -/
theorem ArgumentRename.renameArguments_eq_mapFields (r : ArgumentRename) (d : Document) :
    (r.renameArguments d).1 = d.mapFields (Graphql.onlyNamed r.field r.renameIn) := by
  have hmaps : Graphql.Visitor.Maps r.visit r.renameIn := fun _ _ _ => rfl
  exact Document.editFields_eq_mapFields hmaps d r.field []

/-- Arguments have no part in response paths. -/
theorem ArgumentRename.responsePaths_renameArguments (r : ArgumentRename) (d : Document) :
    (r.renameArguments d).1.responsePaths = d.responsePaths := by
  rw [renameArguments_eq_mapFields]
  refine Document.responsePaths_mapFields (fun head => ?_) d
  rw [Graphql.onlyNamed, renameIn]
  split_ifs <;> rfl

/-! ### Any rules -/

/-- A response to a document: its keys ascend in every object, and each of them continues a
response path of the document. -/
def Admits (d : Document) (v : Json.Value) : Prop :=
  v.Ordered ∧ v.Follows d.responsePaths []

namespace StandardRule

/-- The document after a rule. -/
def adapt : StandardRule → Document → Document
  | argumentType r, d => r.retypeVariables d
  | argumentName r, d => (r.renameArguments d).1
  | fieldName r, d => (r.renameFields d).1

/-- The response to the document after a rule, from the response to the document before it. Only
the names of fields show in responses. -/
def answer : StandardRule → Document → Json.Value → Json.Value
  | argumentType _, _, v => v
  | argumentName _, _, v => v
  | fieldName r, d, v => r.answer d v

/-- A rule that renames fields is unambiguous on a document. -/
def Unambiguous : StandardRule → Document → Prop
  | argumentType _, _ => True
  | argumentName _, _ => True
  | fieldName r, d => r.Unambiguous d

/-- What a rule leaves behind if it succeeds: the document after it, and a way back that undoes its
answers. -/
theorem of_request {rule : StandardRule} {d : Document} {values : Option Json.Object}
    {adapted : Adapted} (ok : (rule.toRule.request d values).outcome = .ok adapted) :
    adapted.document = rule.adapt d ∧ (rule.Unambiguous d → ∀ v, Admits d v →
      (adapted.restore (rule.answer d v)).outcome = .ok v ∧
        Admits (rule.adapt d) (rule.answer d v)) := by
  cases rule with
  | argumentType r =>
      obtain ⟨values', -, rfl⟩ := ArgumentRetype.request_eq_ok.mp ok
      refine ⟨rfl, fun _ v ⟨hordered, hfollows⟩ => ⟨rfl, hordered, ?_⟩⟩
      rwa [adapt, r.responsePaths_retypeVariables]
  | argumentName r =>
      obtain rfl := Except.ok.inj (r.outcome_request.symm.trans ok)
      refine ⟨rfl, fun _ v ⟨hordered, hfollows⟩ => ⟨rfl, hordered, ?_⟩⟩
      rwa [adapt, r.responsePaths_renameArguments]
  | fieldName r =>
      obtain rfl := Except.ok.inj (r.outcome_request.symm.trans ok)
      refine ⟨rfl, fun h v ⟨hordered, hfollows⟩ => ?_⟩
      rw [answer, r.answer_eq_rekey]
      refine ⟨?_, ordered_rekey _ hordered _, ?_⟩
      · rw [Traced.outcome_pure, r.restore_recordedPaths]
        exact congrArg _ (FieldRename.rekey_rekey h (.inl rfl) hordered hfollows)
      · rw [adapt, FieldRename.Unambiguous.responsePaths_eq h]
        exact r.follows_rekey hfollows

end StandardRule

/-- The document after rules in sequence. -/
def adaptAll (rules : List StandardRule) (d : Document) : Document :=
  rules.foldl (fun d rule => rule.adapt d) d

/-- The response to the document after rules in sequence, from the response to the document before
them. -/
def answerAll : List StandardRule → Document → Json.Value → Json.Value
  | [], _, v => v
  | rule :: rest, d, v => answerAll rest (rule.adapt d) (rule.answer d v)

/-- Every rule is unambiguous on the document that it sees. -/
def UnambiguousAll : List StandardRule → Document → Prop
  | [], _ => True
  | rule :: rest, d => rule.Unambiguous d ∧ UnambiguousAll rest (rule.adapt d)

/-- The way back through rules in sequence undoes their answers. -/
theorem outcome_restore_answerAll {rules : List StandardRule} {d : Document}
    {values : Option Json.Object} {adapted : Adapted}
    (ok : ((Rule.sequence (rules.map StandardRule.toRule)).request d values).outcome = .ok adapted)
    (h : UnambiguousAll rules d) {v : Json.Value} (hv : Admits d v) :
    adapted.document = adaptAll rules d ∧
      (adapted.restore (answerAll rules d v)).outcome = .ok v := by
  induction rules generalizing d values adapted v with
  | nil =>
      obtain rfl := Except.ok.inj ok
      exact ⟨rfl, rfl⟩
  | cons rule rest ih =>
      obtain ⟨hrule, hrest⟩ := h
      obtain ⟨a, b, ha, hb, rfl⟩ := Rule.followedBy_eq_ok.mp ok
      obtain ⟨hdocument, hrestore⟩ := StandardRule.of_request ha
      obtain ⟨hback, hadmits⟩ := hrestore hrule v hv
      rw [hdocument] at hb
      obtain ⟨hdocument', hback'⟩ := ih hb hrest hadmits
      exact ⟨hdocument', Traced.outcome_bind_eq_ok.mpr ⟨_, hback', hback⟩⟩

/-- **A full exchange gives back what was asked for.** Suppose that rules, any number of them in any
order, make a request of a document without failing, and that every rule that renames fields is
unambiguous on the document that it sees. Then any response to the document before the rules comes
out of its answer to the document after them, when it passes through the rules in reverse; and it
does so for every text of the document, as the response of an exchange under the rules. -/
theorem response_answerAll {rules : List StandardRule} {d : Document}
    {values : Option Json.Object} {adapted : Adapted} {v : Json.Value}
    (ok : ((Rule.sequence (rules.map StandardRule.toRule)).request d values).outcome = .ok adapted)
    (hunambiguous : UnambiguousAll rules d) (hcanonical : v.canonical = v)
    (hfollows : v.Follows d.responsePaths []) :
    adapted.document = adaptAll rules d ∧
      (adapted.restore (answerAll rules d v)).outcome = .ok v ∧
      ∀ query, Document.read? query = some d →
        (((Exchange.start (rules.map StandardRule.toRule)).request query values).1.response
          (answerAll rules d v)).2.outcome = .ok v := by
  have hadmits : Admits d v := ⟨Json.Value.ordered_of_canonical hcanonical, hfollows⟩
  obtain ⟨hdocument, hrestore⟩ := outcome_restore_answerAll ok hunambiguous hadmits
  refine ⟨hdocument, hrestore, fun query hread => ?_⟩
  rw [Exchange.request_start hread ok, Exchange.outcome_response_sent]
  exact hrestore

/-- `{ things(limit: 3) { id ...Owner related: things { id } } }`, where the fragment `Owner` has
the selections `owner { id }`. -/
def nested : Document :=
  ⟨[.operation ⟨none, [.field ⟨none, "things", [("limit", .int 3)], []⟩
      [.field ⟨none, "id", [], []⟩ [], .spread "Owner" [],
        .field ⟨some "related", "things", [], []⟩ [.field ⟨none, "id", [], []⟩ []]]]⟩,
    .fragment ⟨"Owner", "Thing", [],
      [.field ⟨none, "owner", [], []⟩ [.field ⟨none, "id", [], []⟩ []]]⟩]⟩

/-- Fields and an argument with other names; the last rule sees paths that the first has changed. -/
def renamings : List StandardRule :=
  [.fieldName ⟨"things", "items"⟩, .argumentName ⟨"items", "limit", "first"⟩,
    .fieldName ⟨"id", "key"⟩]

/-- A list of things of which one is missing, with one that belongs to nobody. -/
def thingsResponse : Json.Value :=
  .object [("things", .array [.null, .object [("id", .string "a"), ("owner", .null),
    ("related", .array [.object [("id", .string "b")]])]])]

/-- Fields in lists, under an alias and in a fragment, renamed by several rules. -/
theorem response_answerAll_nested :
    ∃ adapted, ((Rule.sequence (renamings.map StandardRule.toRule)).request nested none).outcome =
        .ok adapted ∧
      UnambiguousAll renamings nested ∧ thingsResponse.canonical = thingsResponse ∧
      thingsResponse.Follows nested.responsePaths [] ∧
      answerAll renamings nested thingsResponse =
        .object [("items", .array [.null, .object [("key", .string "a"), ("owner", .null),
          ("related", .array [.object [("key", .string "b")]])]])] ∧
      (adapted.restore (answerAll renamings nested thingsResponse)).outcome =
        .ok thingsResponse := by
  have hcanonical : thingsResponse.canonical = thingsResponse := by cbv
  have hpaths : nested.responsePaths = [["things"], ["things", "id"], ["things", "owner"],
      ["things", "owner", "id"], ["things", "related"], ["things", "related", "id"]] := by cbv
  have hfollows : thingsResponse.Follows nested.responsePaths [] := by
    simp [thingsResponse, hpaths, Json.Value.follows_array_iff, Json.Value.follows_object_iff,
      Json.Value.Follows.null, Json.Value.Follows.string]
  have hunambiguous : UnambiguousAll renamings nested := by
    refine ⟨FieldRename.isUnambiguous_iff.mp (by cbv), trivial, ?_, trivial⟩
    rw [StandardRule.adapt, StandardRule.adapt, FieldRename.renameFields_eq_mapFields,
      ArgumentRename.renameArguments_eq_mapFields]
    exact FieldRename.isUnambiguous_iff.mp (by cbv)
  refine ⟨_, rfl, hunambiguous, hcanonical, hfollows, ?_, ?_⟩
  · simp only [renamings, answerAll, StandardRule.adapt, FieldRename.renameFields_eq_mapFields,
      ArgumentRename.renameArguments_eq_mapFields]
    cbv
  exact (response_answerAll rfl hunambiguous hcanonical hfollows).2.1

end SchemaBridge
