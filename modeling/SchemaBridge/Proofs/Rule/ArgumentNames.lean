import SchemaBridge.Proofs.Graphql.EveryField
import SchemaBridge.Proofs.Response.RoundTrip

/-!
# Arguments under other names

A rule for the name of an argument changes one name in a field, or none: that of the first argument
of the old name, unless the field is given an argument of the new name already.

* `Field.argumentNames`: the names of the arguments that a field is given, in order;
* `renameFirst_of_notMem`, `renameFirst_append`: arguments with the first one of a name renamed;
* `ArgumentRename.Renames`: a field before and after the rule, told without the rule;
* `ArgumentRename.Renames.count_le`, `ArgumentRename.Renames.nodup`: so no argument is given twice
  that was not before;
* `ArgumentRename.request_exact`: everything that a request changes, field by field, and nothing
  else.
-/

namespace SchemaBridge

open Graphql (Document Field Literal Node)

/-! ### The names of arguments -/

/-- The names of the arguments that a field is given, in order. -/
def Graphql.Field.argumentNames (f : Field) : List String :=
  f.arguments.map Prod.fst

/-- The field without its arguments. -/
def Graphql.Field.withoutArguments (f : Field) : Field :=
  { f with arguments := [] }

/-- An argument is given if its name is among the names. -/
theorem hasArgument_iff {name : String} {arguments : Graphql.Arguments} :
    hasArgument name arguments = true ↔ name ∈ arguments.map Prod.fst := by
  simp [hasArgument]

/-- Without an argument of the old name all arguments stay. -/
theorem renameFirst_of_notMem {old : String} (new : String) {arguments : Graphql.Arguments}
    (h : old ∉ arguments.map Prod.fst) : renameFirst old new arguments = arguments := by
  induction arguments with
  | nil => rfl
  | cons argument rest ih =>
      obtain ⟨k, v⟩ := argument
      obtain ⟨hk, hrest⟩ := not_or.mp (List.mem_cons.not.mp h)
      rw [renameFirst, if_neg (Ne.symm hk), ih hrest]

/-- The first argument of the old name has the new one, and stays in its place. -/
theorem renameFirst_append {old : String} (new : String) {before : Graphql.Arguments}
    (h : old ∉ before.map Prod.fst) (value : Literal) (after : Graphql.Arguments) :
    renameFirst old new (before ++ (old, value) :: after) = before ++ (new, value) :: after := by
  induction before with
  | nil => rw [List.nil_append, renameFirst, if_pos rfl, List.nil_append]
  | cons argument rest ih =>
      obtain ⟨k, v⟩ := argument
      obtain ⟨hk, hrest⟩ := not_or.mp (List.mem_cons.not.mp h)
      rw [List.cons_append, renameFirst, if_neg (Ne.symm hk), ih hrest, List.cons_append]

/-- Arguments of which one has a name have a first one of that name. -/
theorem exists_first_argument {name : String} {arguments : Graphql.Arguments}
    (h : name ∈ arguments.map Prod.fst) :
    ∃ before value after, arguments = before ++ (name, value) :: after ∧
      name ∉ before.map Prod.fst := by
  obtain ⟨names, rest, hsplit, hnot⟩ := List.eq_append_cons_of_mem h
  obtain ⟨before, tail, rfl, rfl, htail⟩ := List.map_eq_append_iff.mp hsplit
  obtain ⟨⟨k, value⟩, after, rfl, rfl, -⟩ := List.map_eq_cons_iff.mp htail
  exact ⟨before, value, after, rfl, hnot⟩

/-! ### One field -/

namespace ArgumentRename

/-- A field before and after the rule. -/
inductive Renames (r : ArgumentRename) : Field → Field → Prop
  /-- A field of another name stays. -/
  | other {f : Field} : f.name ≠ r.field → Renames r f f
  /-- A field that is given an argument of the new name stays. -/
  | taken {f : Field} : f.name = r.field → r.newName ∈ f.argumentNames → Renames r f f
  /-- A field that is given no argument of the old name stays. -/
  | lacking {f : Field} : f.name = r.field → r.oldName ∉ f.argumentNames → Renames r f f
  /-- Of any other field the first argument of the old name has the new one, with its value and in
  its place. -/
  | renamed {alias? before value after directives} : r.oldName ∉ before.map Prod.fst →
      r.newName ∉ (before ++ (r.oldName, value) :: after).map Prod.fst →
      Renames r ⟨alias?, r.field, before ++ (r.oldName, value) :: after, directives⟩
        ⟨alias?, r.field, before ++ (r.newName, value) :: after, directives⟩

variable {r : ArgumentRename}

/-- The field after the rule is what the rule makes of it. -/
theorem renames_onlyNamed (f : Field) : r.Renames f (Graphql.onlyNamed r.field r.renameIn f) := by
  rw [Graphql.onlyNamed, renameIn]
  split_ifs with hname hnew
  · exact .taken hname (hasArgument_iff.mp hnew)
  · rw [hasArgument_iff] at hnew
    by_cases hold : r.oldName ∈ f.argumentNames
    · obtain ⟨alias?, name, arguments, directives⟩ := f
      obtain rfl : name = r.field := hname
      obtain ⟨before, value, after, rfl, hfirst⟩ := exists_first_argument hold
      rw [renameFirst_append r.newName hfirst]
      exact .renamed hfirst hnew
    · rw [renameFirst_of_notMem r.newName hold]
      exact .lacking hname hold
  · exact .other hname

namespace Renames

variable {f g : Field}

/-- Nothing but the arguments of a field changes. -/
theorem withoutArguments_eq (h : r.Renames f g) : g.withoutArguments = f.withoutArguments := by
  cases h <;> rfl

/-- There is no argument of the new name but one that was there before, or a single one. -/
theorem count_le (h : r.Renames f g) :
    g.argumentNames.count r.newName ≤ max 1 (f.argumentNames.count r.newName) := by
  cases h with
  | other => exact Nat.le_max_right _ _
  | taken => exact Nat.le_max_right _ _
  | lacking => exact Nat.le_max_right _ _
  | @renamed alias? before value after directives hold hnew =>
      rw [List.map_append, List.map_cons, List.mem_append, List.mem_cons] at hnew
      have hbefore : (before.map Prod.fst).count r.newName = 0 :=
        List.count_eq_zero.mpr fun h => hnew (.inl h)
      have hafter : (after.map Prod.fst).count r.newName = 0 :=
        List.count_eq_zero.mpr fun h => hnew (.inr (.inr h))
      refine Nat.le_trans (Nat.le_of_eq ?_) (Nat.le_max_left _ _)
      rw [Graphql.Field.argumentNames, List.map_append, List.map_cons, List.count_append,
        List.count_cons_self, hbefore, hafter]

/-- Names that differ from each other still do. -/
theorem nodup (h : r.Renames f g) (hf : f.argumentNames.Nodup) : g.argumentNames.Nodup := by
  cases h with
  | other => exact hf
  | taken => exact hf
  | lacking => exact hf
  | @renamed alias? before value after directives hold hnew =>
      rw [Graphql.Field.argumentNames, List.map_append, List.map_cons] at hf ⊢
      rw [List.map_append, List.map_cons] at hnew
      rw [List.nodup_middle, List.nodup_cons, List.mem_append] at hf ⊢
      refine ⟨fun h => hnew (List.mem_append.mpr ?_), hf.2⟩
      exact h.imp_right (List.mem_cons_of_mem _)

end Renames

/-! ### The document -/

/-- **The effect of a rule for the name of an argument.** A request succeeds and keeps the values.
In its document nothing changes but arguments, and every field, in whatever operation or fragment
and beneath whatever other fields, stands where it stood: with its arguments as they were if it has
another name than the rule looks for, is given the new name already or is not given the old one;
and otherwise with the new name for the first argument of the old name, in its place and with its
value. So no field has two arguments of the new name that had one at most, and if the arguments of
all fields had different names, they still do. -/
theorem request_exact (r : ArgumentRename) (d : Document) (values : Option Json.Object) :
    ∃ adapted, (r.toRule.request d values).outcome = .ok adapted ∧ adapted.values = values ∧
      adapted.document.mapFields Field.withoutArguments = d.mapFields Field.withoutArguments ∧
      (∀ k, List.Forall₂ (fun x y : Node => y.place = x.place ∧ r.Renames x.head y.head ∧
          y.head.argumentNames.count r.newName ≤ max 1 (x.head.argumentNames.count r.newName))
        (d.nodesOf k) (adapted.document.nodesOf k)) ∧
      ((d.EveryField fun f => f.argumentNames.Nodup) →
        adapted.document.EveryField fun f => f.argumentNames.Nodup) := by
  refine ⟨_, r.outcome_request, rfl, ?_, fun k => ?_, fun h => ?_⟩
  · rw [r.renameArguments_eq_mapFields, Document.mapFields_mapFields]
    exact Document.mapFields_congr
      (Document.everyField_of_forall fun f => (renames_onlyNamed f).withoutArguments_eq)
  · rw [r.renameArguments_eq_mapFields, Document.nodesOf_mapFields, List.forall₂_map_right_iff]
    refine List.forall₂_same.mpr fun x _ => ⟨rfl, renames_onlyNamed x.head, ?_⟩
    exact (renames_onlyNamed x.head).count_le
  · rw [r.renameArguments_eq_mapFields, Document.everyField_mapFields]
    exact h.imp fun f => (renames_onlyNamed f).nodup

/-- `{ things(identifier: 1, first: 2) { ... { things(identifier: 3, id: 4)
other(identifier: 5) } } }` with `fragment Unused on Query { things(identifier: 6) }`. -/
def givenArguments : Document :=
  ⟨[.operation ⟨none, [.field ⟨none, "things", [("identifier", .int 1), ("first", .int 2)], []⟩
      [.inlineFragment none [] [
        .field ⟨none, "things", [("identifier", .int 3), ("id", .int 4)], []⟩ [],
        .field ⟨none, "other", [("identifier", .int 5)], []⟩ []]]]⟩,
    .fragment ⟨"Unused", "Query", [], [.field ⟨none, "things", [("identifier", .int 6)], []⟩ []]⟩]⟩

/-- An argument is renamed above a field that is left alone, and in a fragment that nobody spreads;
no argument is given twice. -/
theorem request_exact_givenArguments :
    (givenArguments.EveryField fun f => f.argumentNames.Nodup) ∧
      ∃ adapted, ((⟨"things", "identifier", "id"⟩ : ArgumentRename).toRule.request givenArguments
          none).outcome = .ok adapted ∧
        adapted.document = ⟨[.operation ⟨none,
            [.field ⟨none, "things", [("id", .int 1), ("first", .int 2)], []⟩
              [.inlineFragment none [] [
                .field ⟨none, "things", [("identifier", .int 3), ("id", .int 4)], []⟩ [],
                .field ⟨none, "other", [("identifier", .int 5)], []⟩ []]]]⟩,
          .fragment ⟨"Unused", "Query", [], [.field ⟨none, "things", [("id", .int 6)], []⟩ []]⟩]⟩ ∧
        adapted.document.EveryField fun f => f.argumentNames.Nodup := by
  have hdistinct : givenArguments.EveryField fun f => f.argumentNames.Nodup := by
    simp [givenArguments, Document.EveryField, Graphql.EverySelection, Graphql.Selection.IfField,
      Graphql.Definition.selections, Graphql.Field.argumentNames]
  obtain ⟨adapted, ok, -, -, -, hkept⟩ :=
    request_exact ⟨"things", "identifier", "id"⟩ givenArguments none
  obtain rfl := Except.ok.inj ((outcome_request _).symm.trans ok)
  refine ⟨hdistinct, _, ok, ?_, hkept hdistinct⟩
  rw [renameArguments_eq_mapFields]
  cbv

end ArgumentRename

end SchemaBridge
