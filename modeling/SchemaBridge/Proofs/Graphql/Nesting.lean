import SchemaBridge.Proofs.Graphql.Printed

/-!
# Brackets in printed documents

The reader admits a limited number of brackets that are open at once. The tokens of every noun are
balanced, so that a noun changes nothing about the brackets that may be opened after it, and the
limit can be checked noun by noun.

* `Balanced`: tokens in which every bracket that is opened is closed;
* `Scanned.Fits`: a text is scanned, and its brackets are within a limit;
* `Scanned.NoDeeper`: balanced tokens fit in wherever others do;
* `balanced_selections`, …, `Definition.balanced_scan`: the tokens of nouns are balanced;
* `TypeRef.nesting`, `fits_type`: how many brackets a type opens at once.
-/

namespace SchemaBridge.Graphql

/-! ### Balanced tokens -/

/-- The character opens a bracket. -/
def Opens (c : Char) : Prop :=
  c = '(' ∨ c = '[' ∨ c = '\x7b'

/-- The character closes a bracket. -/
def Closes (c : Char) : Prop :=
  c = ')' ∨ c = ']' ∨ c = '\x7d'

instance (c : Char) : Decidable (Opens c) :=
  inferInstanceAs (Decidable (_ ∨ _))

instance (c : Char) : Decidable (Closes c) :=
  inferInstanceAs (Decidable (_ ∨ _))

/-- Every bracket that is opened is closed, and none other. -/
inductive Balanced : List Token → Prop where
  | nil : Balanced []
  | token {t : Token} (h : ∀ c, t = .punctuator c → ¬ Opens c ∧ ¬ Closes c) : Balanced [t]
  | append {xs ys : List Token} (first : Balanced xs) (second : Balanced ys) : Balanced (xs ++ ys)
  | between {o c : Char} {xs : List Token} (opens : Opens o) (closes : Closes c)
      (inner : Balanced xs) : Balanced (.punctuator o :: (xs ++ [.punctuator c]))

/-- No bracket may be opened. -/
theorem withinNesting_open_zero {c : Char} (h : Opens c) (rest : List Token) :
    withinNesting 0 (.punctuator c :: rest) = false := by
  rw [withinNesting.eq_2]
  exact if_pos h

/-- A bracket that is opened leaves one less to be opened. -/
theorem withinNesting_open_succ {c : Char} (h : Opens c) (budget : Nat) (rest : List Token) :
    withinNesting (budget + 1) (.punctuator c :: rest) = withinNesting budget rest := by
  rw [withinNesting.eq_3]
  exact if_pos h

/-- A bracket that is closed leaves one more to be opened. -/
theorem withinNesting_close {c : Char} (h : Closes c) (budget : Nat) (rest : List Token) :
    withinNesting budget (.punctuator c :: rest) = withinNesting (budget + 1) rest := by
  have hopens : ¬ Opens c := by
    rcases h with rfl | rfl | rfl <;> decide
  cases budget with
  | zero =>
      rw [withinNesting.eq_2]
      exact (if_neg hopens).trans (if_pos h)
  | succ budget =>
      rw [withinNesting.eq_3]
      exact (if_neg hopens).trans (if_pos h)

/-- Another token changes nothing. -/
theorem withinNesting_token {t : Token} (h : ∀ c, t = .punctuator c → ¬ Opens c ∧ ¬ Closes c)
    (budget : Nat) (rest : List Token) :
    withinNesting budget (t :: rest) = withinNesting budget rest := by
  by_cases hmark : ∃ c, t = .punctuator c
  · obtain ⟨c, rfl⟩ := hmark
    obtain ⟨hopens, hcloses⟩ := h c rfl
    cases budget with
    | zero =>
        rw [withinNesting.eq_2]
        exact (if_neg hopens).trans (if_neg hcloses)
    | succ budget =>
        rw [withinNesting.eq_3]
        exact (if_neg hopens).trans (if_neg hcloses)
  · exact withinNesting.eq_4 budget t rest fun c hc => hmark ⟨c, hc⟩

/-- Balanced tokens leave as many brackets to be opened after them as before. -/
theorem Balanced.withinNesting_append {xs : List Token} (h : Balanced xs) (budget : Nat)
    (rest : List Token) :
    withinNesting budget (xs ++ rest) = (withinNesting budget xs && withinNesting budget rest) := by
  induction h generalizing budget rest with
  | nil => rfl
  | token h =>
      rw [List.singleton_append, withinNesting_token h, withinNesting_token h]
      rfl
  | append _ _ ihFirst ihSecond =>
      rw [List.append_assoc, ihFirst, ihSecond, ihFirst, Bool.and_assoc]
  | between opens closes _ ih =>
      rw [List.cons_append, List.append_assoc, List.singleton_append]
      cases budget with
      | zero => rw [withinNesting_open_zero opens, withinNesting_open_zero opens, Bool.false_and]
      | succ budget =>
          rw [withinNesting_open_succ opens, withinNesting_open_succ opens, ih, ih,
            withinNesting_close closes, withinNesting_close closes]
          simp [withinNesting]

namespace Scanned

variable {x y : Scanned} {budget : Nat}

/-- The tokens, if there are any, are balanced. -/
def Balanced (x : Scanned) : Prop :=
  ∀ ts, x = some ts → Graphql.Balanced ts

/-- The text is scanned, and no more brackets are open at once than may be. -/
def Fits (budget : Nat) (x : Scanned) : Prop :=
  ∃ ts, x = some ts ∧ withinNesting budget ts = true

/-- No tokens are balanced. -/
theorem balanced_nil : nil.Balanced :=
  fun _ h => Option.some.inj h ▸ .nil

/-- A name is balanced. -/
theorem balanced_name (text : String) : (name text).Balanced :=
  fun _ h => Option.some.inj h ▸ .token fun _ h => by cases h

/-- Three dots are balanced. -/
theorem balanced_ellipsis : ellipsis.Balanced :=
  fun _ h => Option.some.inj h ▸ .token fun _ h => by cases h

/-- A punctuator that is no bracket is balanced. -/
theorem balanced_mark {c : Char} (h : ¬ Opens c ∧ ¬ Closes c) : (mark c).Balanced :=
  fun _ hts => Option.some.inj hts ▸ .token fun _ heq => by
    cases heq
    exact h

/-- A token that is no punctuator is balanced. -/
theorem balanced_ofToken? {token? : Option Token} (h : ∀ c, token? ≠ some (.punctuator c)) :
    (ofToken? token?).Balanced := by
  intro ts hts
  obtain ⟨token, htoken, rfl⟩ := Option.map_eq_some_iff.mp hts
  exact .token fun c hc => absurd (htoken.trans (congrArg some hc)) (h c)

/-- A number is balanced. -/
theorem balanced_number (text : String) : (number text).Balanced :=
  balanced_ofToken? fun c h => by
    obtain ⟨_, _, heq⟩ := Option.map_eq_some_iff.mp h
    cases heq

/-- Balanced tokens one after the other. -/
theorem Balanced.append (hx : x.Balanced) (hy : y.Balanced) : (x ++ y).Balanced := by
  intro ts h
  obtain ⟨ts₁, ts₂, h₁, h₂, rfl⟩ := append_eq_some_iff.mp h
  exact (hx ts₁ h₁).append (hy ts₂ h₂)

/-- Balanced tokens between brackets. -/
theorem Balanced.between (hx : x.Balanced) {o c : Char} (opens : Opens o) (closes : Closes c) :
    (mark o ++ x ++ mark c).Balanced := by
  intro ts h
  obtain ⟨inner, hinner, rfl⟩ := between_eq_some_iff.mp h
  exact .between opens closes (hx inner hinner)

/-- Balanced tokens of many pieces. -/
theorem balanced_concat {xs : List Scanned} (h : ∀ x ∈ xs, x.Balanced) : (concat xs).Balanced := by
  induction xs with
  | nil => exact balanced_nil
  | cons x xs ih =>
      exact (h x List.mem_cons_self).append (ih fun y hy => h y (List.mem_cons_of_mem x hy))

/-- Whether tokens fit in shows in balanced ones and in those after them. -/
theorem fits_append (hx : x.Balanced) : (x ++ y).Fits budget ↔ x.Fits budget ∧ y.Fits budget := by
  constructor
  · rintro ⟨ts, h, hfits⟩
    obtain ⟨ts₁, ts₂, h₁, h₂, rfl⟩ := append_eq_some_iff.mp h
    rw [(hx ts₁ h₁).withinNesting_append, Bool.and_eq_true] at hfits
    exact ⟨⟨ts₁, h₁, hfits.1⟩, ⟨ts₂, h₂, hfits.2⟩⟩
  · rintro ⟨⟨ts₁, h₁, hfits₁⟩, ⟨ts₂, h₂, hfits₂⟩⟩
    refine ⟨ts₁ ++ ts₂, append_eq_some_iff.mpr ⟨ts₁, ts₂, h₁, h₂, rfl⟩, ?_⟩
    rw [(hx ts₁ h₁).withinNesting_append, hfits₁, hfits₂, Bool.and_self]

/-- Tokens between brackets fit in if there is room for one more bracket. -/
theorem fits_between (hx : x.Balanced) {o c : Char} (opens : Opens o) (closes : Closes c) :
    (mark o ++ x ++ mark c).Fits budget ↔ ∃ inner, budget = inner + 1 ∧ x.Fits inner := by
  constructor
  · rintro ⟨ts, h, hfits⟩
    obtain ⟨inner, hinner, rfl⟩ := between_eq_some_iff.mp h
    cases budget with
    | zero => rw [withinNesting_open_zero opens] at hfits; cases hfits
    | succ budget =>
        rw [withinNesting_open_succ opens, (hx inner hinner).withinNesting_append,
          Bool.and_eq_true] at hfits
        exact ⟨budget, rfl, inner, hinner, hfits.1⟩
  · rintro ⟨budget, rfl, inner, hinner, hfits⟩
    refine ⟨_, between_eq_some_iff.mpr ⟨inner, hinner, rfl⟩, ?_⟩
    rw [withinNesting_open_succ opens, (hx inner hinner).withinNesting_append, hfits,
      withinNesting_close closes]
    rfl

/-- A name fits in. -/
theorem fits_name (text : String) : (name text).Fits budget := ⟨_, rfl, rfl⟩

/-- No tokens fit in. -/
theorem fits_nil : nil.Fits budget := ⟨_, rfl, rfl⟩

/-- Many pieces fit in if each of them does. -/
theorem fits_concat {xs : List Scanned} (h : ∀ x ∈ xs, x.Balanced) :
    (concat xs).Fits budget ↔ ∀ x ∈ xs, x.Fits budget := by
  induction xs with
  | nil => exact ⟨fun _ _ hx => absurd hx List.not_mem_nil, fun _ => fits_nil⟩
  | cons x xs ih =>
      have hrest := ih fun y hy => h y (List.mem_cons_of_mem x hy)
      rw [List.forall_mem_cons, ← hrest]
      exact fits_append (h x List.mem_cons_self)

/-- Balanced tokens that fit in wherever other balanced tokens do. -/
structure NoDeeper (x y : Scanned) : Prop where
  before : x.Balanced
  after : y.Balanced
  fits : ∀ {budget}, x.Fits budget → y.Fits budget

namespace NoDeeper

variable {x' y' : Scanned}

/-- Tokens fit in where they do. -/
theorem refl (h : x.Balanced) : NoDeeper x x := ⟨h, h, id⟩

/-- Tokens one after the other. -/
theorem append (h : NoDeeper x y) (h' : NoDeeper x' y') : NoDeeper (x ++ x') (y ++ y') where
  before := h.before.append h'.before
  after := h.after.append h'.after
  fits hfits :=
    have := (fits_append h.before).mp hfits
    (fits_append h.after).mpr ⟨h.fits this.1, h'.fits this.2⟩

/-- Tokens between brackets. -/
theorem between (h : NoDeeper x y) {o c : Char} (opens : Opens o) (closes : Closes c) :
    NoDeeper (mark o ++ x ++ mark c) (mark o ++ y ++ mark c) where
  before := h.before.between opens closes
  after := h.after.between opens closes
  fits hfits := by
    obtain ⟨inner, rfl, hinner⟩ := (fits_between h.before opens closes).mp hfits
    exact (fits_between h.after opens closes).mpr ⟨inner, rfl, h.fits hinner⟩

/-- Tokens between braces. -/
theorem braces (h : NoDeeper x y) : NoDeeper (braces x) (braces y) :=
  h.between (by decide) (by decide)

/-- One name in place of another. -/
theorem name (text text' : String) : NoDeeper (name text) (name text') :=
  ⟨balanced_name text, balanced_name text', fun _ => fits_name text'⟩

end NoDeeper

end Scanned

/-! ### Nouns -/

open Scanned

mutual

/-- The tokens of a literal are balanced. -/
theorem balanced_literal (indent : Nat) : ∀ v : Literal, (v.scan indent).Balanced
  | .reference name => by
      rw [Literal.scan]
      exact (balanced_mark (by decide)).append (balanced_name name)
  | .int n => by
      rw [Literal.scan]
      exact balanced_number _
  | .float x => by
      rw [Literal.scan]
      exact balanced_number _
  | .infinite negative => by
      rw [Literal.scan]
      split_ifs
      · exact balanced_number _
      · exact balanced_name _
  | .string s => by
      rw [Literal.scan]
      refine balanced_ofToken? fun c h => ?_
      obtain ⟨_, _, heq⟩ := Option.map_eq_some_iff.mp h
      cases heq
  | .boolean b => by
      rw [Literal.scan]
      exact balanced_name _
  | .null => by
      rw [Literal.scan]
      exact balanced_name _
  | .enumeration name => by
      rw [Literal.scan]
      exact balanced_name name
  | .list items => by
      rw [Literal.scan]
      exact (balanced_items indent items).between (by decide) (by decide)
  | .object entries => by
      rw [Literal.scan]
      exact (balanced_entries indent entries).between (by decide) (by decide)

/-- The tokens of literals are balanced. -/
theorem balanced_items (indent : Nat) : ∀ items : List Literal, (literalScans indent items).Balanced
  | [] => by
      rw [literalScans]
      exact balanced_nil
  | v :: rest => by
      rw [literalScans]
      exact (balanced_literal indent v).append (balanced_items indent rest)

/-- The tokens of named literals are balanced. -/
theorem balanced_entries (indent : Nat) :
    ∀ entries : List (String × Literal), (entryScans indent entries).Balanced
  | [] => by
      rw [entryScans]
      exact balanced_nil
  | (k, v) :: rest => by
      rw [entryScans]
      exact (((balanced_name k).append (balanced_mark (by decide))).append
        (balanced_literal indent v)).append (balanced_entries indent rest)

end

/-- The tokens of arguments are balanced. -/
theorem balanced_arguments (indent : Nat) (arguments : Arguments) :
    (argumentsScan indent arguments).Balanced := by
  rw [argumentsScan]
  split_ifs
  · exact balanced_nil
  · exact (balanced_entries indent arguments).between (by decide) (by decide)

/-- The tokens of directives are balanced. -/
theorem balanced_directives (indent : Nat) (ds : List Directive) :
    (directivesScan indent ds).Balanced := by
  refine balanced_concat fun x hx => ?_
  obtain ⟨d, -, rfl⟩ := List.mem_map.mp hx
  exact ((balanced_mark (by decide)).append (balanced_name d.name)).append
    (balanced_arguments indent d.arguments)

/-- The tokens of an alias are balanced. -/
theorem balanced_alias (alias? : Option String) : (aliasScan alias?).Balanced := by
  cases alias? with
  | none => exact balanced_nil
  | some label => exact (balanced_name label).append (balanced_mark (by decide))

/-- The tokens of a field are balanced. -/
theorem Field.balanced_scan (indent : Nat) (f : Field) : (f.scan indent).Balanced :=
  (((balanced_alias f.alias?).append (balanced_name f.name)).append
    (balanced_arguments indent f.arguments)).append (balanced_directives indent f.directives)

/-- The tokens of a type condition are balanced. -/
theorem balanced_condition (condition? : Option String) : (conditionScan condition?).Balanced := by
  cases condition? with
  | none => exact balanced_nil
  | some condition => exact (balanced_name "on").append (balanced_name condition)

/-- The tokens of selections are balanced. -/
theorem balanced_selections (indent : Nat) (selections : List Selection) :
    (selectionsScan indent selections).Balanced := by
  induction indent, selections using selectionsScan.induct with
  | case1 =>
      rw [selectionsScan]
      exact balanced_nil
  | case2 indent head rest ihRest =>
      rw [selectionsScan]
      exact (head.balanced_scan indent).append ihRest
  | case3 indent head selections rest hbranch ihBeneath ihRest =>
      rw [selectionsScan.eq_3 _ _ _ _ hbranch]
      exact ((head.balanced_scan indent).append
        (ihBeneath.between (by decide) (by decide))).append ihRest
  | case4 indent fragment ds rest ihRest =>
      rw [selectionsScan]
      exact ((balanced_ellipsis.append (balanced_name fragment)).append
        (balanced_directives indent ds)).append ihRest
  | case5 indent condition? ds selections rest ihBeneath ihRest =>
      rw [selectionsScan]
      exact (((balanced_ellipsis.append (balanced_condition condition?)).append
        (balanced_directives indent ds)).append
          (ihBeneath.between (by decide) (by decide))).append ihRest

/-- The tokens of a type are balanced. -/
theorem TypeRef.balanced_scan (type : TypeRef) : type.scan.Balanced := by
  induction type with
  | named name => exact balanced_name name
  | list item ih => exact ih.between (by decide) (by decide)
  | nonNull inner ih => exact ih.append (balanced_mark (by decide))

/-- The tokens of a default value are balanced. -/
theorem balanced_default (default? : Option Literal) : (defaultScan default?).Balanced := by
  cases default? with
  | none => exact balanced_nil
  | some value => exact (balanced_mark (by decide)).append (balanced_literal 0 value)

/-- The tokens before the type of a variable are balanced. -/
theorem balanced_variableHead (name : String) :
    (.mark '$' ++ .name name ++ .mark ':' : Scanned).Balanced :=
  ((balanced_mark (by decide)).append (balanced_name name)).append (balanced_mark (by decide))

/-- The tokens of the definition of a variable are balanced. -/
theorem VariableDefinition.balanced_scan (v : VariableDefinition) : v.scan.Balanced :=
  ((balanced_variableHead v.name).append v.type.balanced_scan).append (balanced_default v.default?)

/-- The tokens of each of some variable definitions are balanced. -/
theorem balanced_variableList {vs : List VariableDefinition} :
    ∀ x ∈ vs.map VariableDefinition.scan, x.Balanced := by
  intro x hx
  obtain ⟨v, -, rfl⟩ := List.mem_map.mp hx
  exact v.balanced_scan

/-- The tokens of variable definitions are balanced. -/
theorem balanced_variables (vs : List VariableDefinition) : (variablesScan vs).Balanced := by
  rw [variablesScan]
  split_ifs
  · exact balanced_nil
  · exact (balanced_concat balanced_variableList).between (by decide) (by decide)

/-- The tokens of the name of an operation are balanced. -/
theorem balanced_operationName (name? : Option String) : (nameScan name?).Balanced := by
  cases name? with
  | none => exact balanced_nil
  | some name => exact balanced_name name

/-- The tokens before the variable definitions of an operation are balanced. -/
theorem balanced_announcement (h : OperationHeader) :
    (.name h.kind.word ++ nameScan h.name? : Scanned).Balanced :=
  (balanced_name _).append (balanced_operationName h.name?)

/-- The tokens of a header are balanced. -/
theorem OperationHeader.balanced_scan (h : OperationHeader) : h.scan.Balanced :=
  ((balanced_announcement h).append (balanced_variables h.printedVariables)).append
    (balanced_directives 0 h.directives)

/-- The tokens before the brace of an operation are balanced. -/
theorem balanced_head (header? : Option OperationHeader) : (headScan header?).Balanced := by
  cases header? with
  | none => exact balanced_nil
  | some header => exact header.balanced_scan

/-- The tokens before the brace of a fragment are balanced. -/
theorem balanced_fragmentHead (f : Fragment) :
    (.name "fragment" ++ .name f.name ++ .name "on" ++ .name f.condition ++
      directivesScan 0 f.directives : Scanned).Balanced :=
  ((((balanced_name _).append (balanced_name _)).append (balanced_name _)).append
    (balanced_name _)).append (balanced_directives 0 f.directives)

/-- The tokens of a definition are balanced. -/
theorem Definition.balanced_scan (definition : Definition) : definition.scan.Balanced := by
  cases definition with
  | operation o =>
      exact (balanced_head o.header?).append
        ((balanced_selections 2 o.selections).between (by decide) (by decide))
  | fragment f =>
      exact (balanced_fragmentHead f).append
        ((balanced_selections 2 f.selections).between (by decide) (by decide))

/-! ### Limits -/

variable {budget : Nat}

/-- A document fits in if each of its definitions does. -/
theorem Document.fits_scan {d : Document} :
    d.scan.Fits budget ↔ ∀ definition ∈ d.definitions, definition.scan.Fits budget := by
  rw [Document.scan, fits_concat]
  · exact List.forall_mem_map
  · intro x hx
    obtain ⟨definition, -, rfl⟩ := List.mem_map.mp hx
    exact definition.balanced_scan

/-- How many brackets a type opens at once. -/
def TypeRef.nesting : TypeRef → Nat
  | .named _ => 0
  | .list item => item.nesting + 1
  | .nonNull inner => inner.nesting

/-- A type fits in if it opens no more brackets at once than may be. -/
theorem fits_type {type : TypeRef} : type.scan.Fits budget ↔ type.nesting ≤ budget := by
  induction type generalizing budget with
  | named name => exact ⟨fun _ => Nat.zero_le budget, fun _ => fits_name name⟩
  | list item ih =>
      rw [TypeRef.scan, fits_between item.balanced_scan (by decide) (by decide), TypeRef.nesting]
      constructor
      · rintro ⟨inner, rfl, hitem⟩
        exact Nat.succ_le_succ (ih.mp hitem)
      · intro h
        obtain ⟨inner, rfl⟩ := Nat.exists_eq_add_one_of_ne_zero (Nat.ne_zero_of_lt h)
        exact ⟨inner, rfl, ih.mpr (Nat.le_of_succ_le_succ h)⟩
  | nonNull inner ih =>
      rw [TypeRef.scan, fits_append inner.balanced_scan, ih, TypeRef.nesting]
      exact and_iff_left ⟨_, rfl, rfl⟩

/-- The definition of a variable fits in if its type and its default value do. -/
theorem VariableDefinition.fits_scan {v : VariableDefinition} :
    v.scan.Fits budget ↔ v.type.nesting ≤ budget ∧ (defaultScan v.default?).Fits budget := by
  have hhead : (.mark '$' ++ .name v.name ++ .mark ':' : Scanned).Fits budget := ⟨_, rfl, rfl⟩
  rw [VariableDefinition.scan,
    fits_append ((balanced_variableHead v.name).append v.type.balanced_scan),
    fits_append (balanced_variableHead v.name), fits_type]
  exact and_congr_left' (and_iff_right hhead)

/-- Variable definitions fit in if there is room for a parenthesis and for each of them within. -/
theorem fits_variables {vs : List VariableDefinition} :
    (variablesScan vs).Fits budget ↔
      vs = [] ∨ ∃ inner, budget = inner + 1 ∧ ∀ v ∈ vs, v.scan.Fits inner := by
  cases vs with
  | nil => exact ⟨fun _ => .inl rfl, fun _ => fits_nil⟩
  | cons v others =>
      rw [variablesScan, List.isEmpty_cons, if_neg (by simp),
        fits_between (balanced_concat balanced_variableList) (by decide) (by decide)]
      simp only [fits_concat balanced_variableList, List.forall_mem_map, List.cons_ne_nil, false_or]

/-- A header fits in if its variable definitions and its directives do. -/
theorem OperationHeader.fits_scan {h : OperationHeader} :
    h.scan.Fits budget ↔
      (variablesScan h.printedVariables).Fits budget ∧
        (directivesScan 0 h.directives).Fits budget := by
  have hname : (.name h.kind.word ++ nameScan h.name? : Scanned).Fits budget := by
    refine (fits_append (balanced_name _)).mpr ⟨fits_name _, ?_⟩
    cases h.name? with
    | none => exact fits_nil
    | some name => exact fits_name name
  rw [OperationHeader.scan,
    fits_append ((balanced_announcement h).append (balanced_variables h.printedVariables)),
    fits_append (balanced_announcement h)]
  exact and_congr_left' (and_iff_right hname)

end SchemaBridge.Graphql
