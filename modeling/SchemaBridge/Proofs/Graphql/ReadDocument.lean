import SchemaBridge.Proofs.Graphql.ReadLiteral

/-!
# Reading printed documents

The tokens of a printed document are read noun by noun. Its structure comes back: fields, spreads
and inline fragments in their order, with the names that they were printed with.

* `rereadSelections`, …, `Document.reread`: what the tokens of each noun are read as;
* `takes_selections`, …, `Definition.Formed.takes`: that they are;
* `Document.Formed.read?_print_eq_some_iff`: when a printed document is read, and as what.
-/

namespace SchemaBridge.Graphql

open SchemaBridge.Text (Front)

/-! ### What is read -/

/-- A field as its text is read. -/
def Field.reread (indent : Nat) (f : Field) : Field :=
  ⟨f.alias?, f.name, rereadEntries indent f.arguments, f.directives.map (Directive.reread indent)⟩

/-- Selections as their text is read. -/
def rereadSelections (indent : Nat) : List Selection → List Selection
  | [] => []
  | .field head selections :: rest =>
    .field (head.reread indent) (rereadSelections (indent + 2) selections) ::
      rereadSelections indent rest
  | .spread fragment ds :: rest =>
    .spread fragment (ds.map (Directive.reread indent)) :: rereadSelections indent rest
  | .inlineFragment condition? ds selections :: rest =>
    .inlineFragment condition? (ds.map (Directive.reread indent))
      (rereadSelections (indent + 2) selections) :: rereadSelections indent rest

/-- The definition of a variable as its text is read. -/
def VariableDefinition.reread (v : VariableDefinition) : VariableDefinition :=
  ⟨v.name, v.type, v.default?.map (Literal.reread 0)⟩

/-- A header as its text is read. -/
def OperationHeader.reread (h : OperationHeader) : OperationHeader :=
  ⟨h.kind, h.name?, h.printedVariables.map VariableDefinition.reread,
    h.directives.map (Directive.reread 0)⟩

/-- A definition as its text is read. -/
def Definition.reread : Definition → Definition
  | .operation o =>
    .operation ⟨o.header?.map OperationHeader.reread, rereadSelections 2 o.selections⟩
  | .fragment f =>
    .fragment ⟨f.name, f.condition, f.directives.map (Directive.reread 0),
      rereadSelections 2 f.selections⟩

/-- A document as its text is read. -/
def Document.reread (d : Document) : Document :=
  ⟨d.definitions.map Definition.reread⟩

/-! ### Fields -/

/-- A field begins with a name. -/
theorem Field.scan_eq_some {indent : Nat} {f : Field} {ts : List Token}
    (hts : f.scan indent = some ts) : ∃ text rest, ts = .name text :: rest := by
  rw [Field.scan] at hts
  cases hlabel : f.alias? with
  | none =>
      rw [hlabel, aliasScan, Scanned.nil_append, Scanned.append_assoc,
        Scanned.name_append_eq_some_iff] at hts
      obtain ⟨rest, _, rfl⟩ := hts
      exact ⟨_, _, rfl⟩
  | some label =>
      simp only [hlabel, aliasScan, Scanned.append_assoc, Scanned.name_append_eq_some_iff] at hts
      obtain ⟨rest, _, rfl⟩ := hts
      exact ⟨_, _, rfl⟩

/-- The name of a field is read, with its alias, if no colon follows. -/
theorem takes_fieldName {alias? : Option String} {name : String} {ts : List Token}
    (hts : aliasScan alias? ++ .name name = some ts) {rest : List Token}
    (hrest : Avoids [':'] rest) :
    Takes (readFieldName? (ts ++ rest)) (alias?, name) rest := by
  cases alias? with
  | none =>
      rw [aliasScan, Scanned.nil_append, Scanned.name_eq_some_iff] at hts
      subst hts
      rw [List.singleton_append, readFieldName?.eq_3]
      · exact ⟨_, rfl⟩
      · rintro text rest' rfl
        exact hrest ':' List.mem_cons_self rfl
      · rintro rest' rfl
        exact hrest ':' List.mem_cons_self rfl
  | some label =>
      simp only [aliasScan, Scanned.append_assoc, Scanned.name_append_eq_some_iff,
        Scanned.mark_append_eq_some_iff, Scanned.name_eq_some_iff] at hts
      obtain ⟨_, ⟨_, rfl, rfl⟩, rfl⟩ := hts
      exact ⟨_, readFieldName?.eq_1 label name rest⟩

/-- Arguments begin with a parenthesis, or there are none. -/
theorem avoids_arguments {indent : Nat} {arguments : Arguments} {ts : List Token}
    (hts : argumentsScan indent arguments = some ts) {marks : List Char} (hmarks : '(' ∉ marks)
    {rest : List Token} (hrest : Avoids marks rest) : Avoids marks (ts ++ rest) := by
  cases arguments with
  | nil =>
      obtain rfl := Scanned.nil_eq_some_iff.mp hts
      exact hrest
  | cons argument others =>
      rw [argumentsScan, List.isEmpty_cons, if_neg (by simp)] at hts
      obtain ⟨_, _, rfl⟩ := Scanned.between_eq_some_iff.mp hts
      exact avoids_cons.mpr hmarks

/-- The punctuators that could belong to a field or a spread before them. -/
def continuing : List Char := [':', '(', '@']

/-- A field is read if nothing follows that could belong to it. -/
theorem Field.Formed.takes {indent : Nat} {f : Field} (h : f.Formed) {ts : List Token}
    (hts : f.scan indent = some ts) {rest : List Token} (hrest : Avoids continuing rest) :
    Takes (readField? (ts ++ rest)) (f.reread indent) rest := by
  rw [Field.scan, Scanned.append_eq_some_iff] at hts
  obtain ⟨_, ts₃, hts, hdirectives, rfl⟩ := hts
  obtain ⟨ts₁, ts₂, hname, harguments, rfl⟩ := Scanned.append_eq_some_iff.mp hts
  have hrest₁ : Avoids ['('] (ts₃ ++ rest) :=
    avoids_directives hdirectives (by decide) (hrest.subset (by decide))
  have hrest₂ : Avoids [':'] (ts₂ ++ (ts₃ ++ rest)) :=
    avoids_arguments harguments (by decide)
      (avoids_directives hdirectives (by decide) (hrest.subset (by decide)))
  rw [List.append_assoc, List.append_assoc, readField?]
  refine (takes_fieldName hname hrest₂).bind fun below₁ => ?_
  refine (h.arguments.takes harguments hrest₁).bind fun below₂ => ?_
  refine (takes_directives h.directives hdirectives (hrest.subset (by decide))).bind
    fun below₃ => ?_
  exact ⟨_, rfl⟩

/-! ### Selections -/

/-- A selection begins with a name or with three dots, hence with no punctuator. -/
theorem avoids_selections {indent : Nat} {s : Selection} {others : List Selection} {ts : List Token}
    (hts : selectionsScan indent (s :: others) = some ts) (rest : List Token) (marks : List Char) :
    Avoids marks (ts ++ rest) := by
  cases s with
  | field head selections =>
      have hhead : ∃ x, head.scan indent ++ x = some ts := by
        cases selections with
        | nil => exact ⟨_, by rwa [selectionsScan] at hts⟩
        | cons s selections =>
            rw [selectionsScan] at hts
            · simp only [Scanned.append_assoc] at hts
              exact ⟨_, hts⟩
            · simp
      obtain ⟨x, hx⟩ := hhead
      obtain ⟨_, _, hhead, -, rfl⟩ := Scanned.append_eq_some_iff.mp hx
      obtain ⟨text, after, rfl⟩ := Field.scan_eq_some hhead
      rintro c - h
      cases h
  | spread fragment ds =>
      rw [selectionsScan] at hts
      simp only [Scanned.append_assoc, Scanned.ellipsis_append_eq_some_iff] at hts
      obtain ⟨_, _, rfl⟩ := hts
      rintro c - h
      cases h
  | inlineFragment condition? ds selections =>
      rw [selectionsScan] at hts
      simp only [Scanned.append_assoc, Scanned.ellipsis_append_eq_some_iff] at hts
      obtain ⟨_, _, rfl⟩ := hts
      rintro c - h
      cases h

/-- Selections are read one by one up to the closing brace. -/
theorem oneByOne_selections : OneByOne '\x7d' readSelection? readSelections? where
  last one closed := by
    rw [readSelections?]
    refine one.bind fun below => ?_
    obtain ⟨below', hclosed⟩ := closed
    dsimp only
    rw [hclosed]
    exact ⟨_, rfl⟩
  more one opened many := by
    rw [readSelections?]
    refine one.bind fun below => ?_
    dsimp only
    rw [opened]
    refine many.bind fun below => ?_
    exact ⟨_, rfl⟩

/-- One selection, and then those that follow it up to the closing brace. -/
theorem takes_selections_cons {indent : Nat} {others : List Selection} {before ts rest : List Token}
    {s : Selection} (hts : selectionsScan indent others = some ts)
    (hs : Takes (readSelection? before) s (ts ++ .punctuator '\x7d' :: rest))
    (hothers : others ≠ [] → Takes (readSelections? (ts ++ .punctuator '\x7d' :: rest))
      (rereadSelections indent others) rest) :
    Takes (readSelections? before) (s :: rereadSelections indent others) rest := by
  refine oneByOne_selections.cons hs ?_
  cases others with
  | nil =>
      rw [selectionsScan, Scanned.nil_eq_some_iff] at hts
      rw [rereadSelections]
      exact .inl ⟨rfl, hts⟩
  | cons other others =>
      exact .inr ⟨avoids_selections hts _ _, hothers (List.cons_ne_nil _ _)⟩

/-- Nothing that follows a selection up to the closing brace could belong to it. -/
theorem avoids_after {indent : Nat} {others : List Selection} {ts : List Token}
    (hts : selectionsScan indent others = some ts) {marks : List Char} (hmarks : '\x7d' ∉ marks)
    (rest : List Token) : Avoids marks (ts ++ .punctuator '\x7d' :: rest) := by
  cases others with
  | cons other others => exact avoids_selections hts _ marks
  | nil =>
      rw [selectionsScan, Scanned.nil_eq_some_iff] at hts
      subst hts
      exact avoids_cons.mpr hmarks

section OneSelection

variable {indent : Nat} {ts : List Token}

/-- A field without braces is read if no brace follows. -/
theorem Field.Formed.takes_leaf {f : Field} (h : f.Formed) (hts : f.scan indent = some ts)
    {rest : List Token} (hrest : Avoids ('\x7b' :: continuing) rest) :
    Takes (readSelection? (ts ++ rest)) (.field (f.reread indent) []) rest := by
  have hread := h.takes hts (hrest.subset (by decide))
  obtain ⟨text, after, rfl⟩ := Field.scan_eq_some hts
  rw [List.cons_append] at hread ⊢
  rw [readSelection?.eq_5 _ (by simp) (by simp) (by simp) (by simp)]
  refine hread.bind fun below => ?_
  dsimp only
  rw [readMark?_eq_none hrest List.mem_cons_self]
  exact ⟨_, rfl⟩

/-- A field with selections between braces. -/
theorem Field.Formed.takes_branch {f : Field} (h : f.Formed) (hts : f.scan indent = some ts)
    {beneath rest : List Token} {selections : List Selection}
    (hbeneath : Takes (readSelections? beneath) selections rest) :
    Takes (readSelection? (ts ++ .punctuator '\x7b' :: beneath))
      (.field (f.reread indent) selections) rest := by
  have hbrace : Avoids continuing (.punctuator '\x7b' :: beneath) := avoids_cons.mpr (by decide)
  have hread := h.takes hts hbrace
  obtain ⟨text, after, rfl⟩ := Field.scan_eq_some hts
  rw [List.cons_append] at hread ⊢
  rw [readSelection?.eq_5 _ (by simp) (by simp) (by simp) (by simp)]
  refine hread.bind fun below => ?_
  obtain ⟨below', hopened⟩ := takes_readMark? '\x7b' beneath
  dsimp only
  rw [hopened]
  refine hbeneath.bind fun below => ?_
  exact ⟨_, rfl⟩

/-- A spread is read if nothing follows that could belong to it. -/
theorem takes_spread {fragment : String} (hon : fragment ≠ "on") {ds : List Directive}
    (hds : ∀ d ∈ ds, d.Formed)
    (hts : .ellipsis ++ .name fragment ++ directivesScan indent ds = some ts) {rest : List Token}
    (hrest : Avoids continuing rest) :
    Takes (readSelection? (ts ++ rest)) (.spread fragment (ds.map (Directive.reread indent)))
      rest := by
  simp only [Scanned.append_assoc, Scanned.ellipsis_append_eq_some_iff,
    Scanned.name_append_eq_some_iff] at hts
  obtain ⟨_, ⟨ts₁, hdirectives, rfl⟩, rfl⟩ := hts
  rw [List.cons_append, List.cons_append, readSelection?.eq_3 _ _ (fun _ _ _ => hon) hon]
  exact (takes_directives hds hdirectives (hrest.subset (by decide))).map_widen _

/-- An inline fragment with selections between braces. -/
theorem takes_inlineFragment {condition? : Option String} {ds : List Directive}
    (hds : ∀ d ∈ ds, d.Formed)
    (hts : .ellipsis ++ conditionScan condition? ++ directivesScan indent ds = some ts)
    {beneath rest : List Token} {selections : List Selection}
    (hbeneath : Takes (readSelections? beneath) selections rest) :
    Takes (readSelection? (ts ++ .punctuator '\x7b' :: beneath))
      (.inlineFragment condition? (ds.map (Directive.reread indent)) selections) rest := by
  simp only [Scanned.append_assoc, Scanned.ellipsis_append_eq_some_iff] at hts
  obtain ⟨ts, hts, rfl⟩ := hts
  have hopened := takes_readMark? '\x7b' beneath
  have hbrace : Avoids ['(', '@'] (.punctuator '\x7b' :: beneath) := avoids_cons.mpr (by decide)
  cases condition? with
  | none =>
      rw [conditionScan, Scanned.nil_append] at hts
      have hnameless : Nameless (ts ++ .punctuator '\x7b' :: beneath) :=
        nameless_directives hts (nameless_cons _ _)
      rw [List.cons_append, readSelection?.eq_4 _ (fun _ _ => hnameless _ _)
        (fun _ => hnameless _ _) (fun _ _ => hnameless _ _)]
      refine (takes_directives hds hts hbrace).bind fun below₁ => ?_
      refine hopened.bind fun below₂ => ?_
      refine hbeneath.bind fun below₃ => ?_
      exact ⟨_, rfl⟩
  | some condition =>
      simp only [conditionScan, Scanned.append_assoc, Scanned.name_append_eq_some_iff] at hts
      obtain ⟨_, ⟨ts, hts, rfl⟩, rfl⟩ := hts
      rw [List.cons_append, List.cons_append, List.cons_append, readSelection?.eq_1]
      refine (takes_directives hds hts hbrace).bind fun below₁ => ?_
      refine hopened.bind fun below₂ => ?_
      refine hbeneath.bind fun below₃ => ?_
      exact ⟨_, rfl⟩

end OneSelection

/-- The tokens of a level between braces, with what stands before and after it. -/
theorem level_eq_some {x y z : Scanned} {ts : List Token} (h : x ++ .braces y ++ z = some ts) :
    ∃ before beneath after, x = some before ∧ y = some beneath ∧ z = some after ∧
      ts = before ++ .punctuator '\x7b' :: (beneath ++ .punctuator '\x7d' :: after) := by
  obtain ⟨_, after, hlevel, hz, rfl⟩ := Scanned.append_eq_some_iff.mp h
  obtain ⟨before, _, hx, hbraces, rfl⟩ := Scanned.append_eq_some_iff.mp hlevel
  obtain ⟨beneath, hy, rfl⟩ := Scanned.between_eq_some_iff.mp hbraces
  exact ⟨before, beneath, after, hx, hy, hz, by simp⟩

/-- Selections that the grammar forms are read up to the closing brace. -/
theorem takes_selections {indent : Nat} {selections : List Selection}
    (h : EverySelection Selection.Formed selections) (hne : selections ≠ []) {ts : List Token}
    (hts : selectionsScan indent selections = some ts) (rest : List Token) :
    Takes (readSelections? (ts ++ .punctuator '\x7d' :: rest)) (rereadSelections indent selections)
      rest := by
  induction indent, selections using selectionsScan.induct generalizing ts rest with
  | case1 => exact absurd rfl hne
  | case2 indent head others ihOthers =>
      rw [EverySelection] at h
      rw [selectionsScan] at hts
      obtain ⟨ts₁, ts₂, hhead, hothers, rfl⟩ := Scanned.append_eq_some_iff.mp hts
      rw [List.append_assoc, rereadSelections, rereadSelections]
      refine takes_selections_cons hothers ?_ fun hne => ihOthers h.2.2 hne hothers rest
      exact Field.Formed.takes_leaf h.1 hhead (avoids_after hothers (by decide) rest)
  | case3 indent head selections others hbranch ihBeneath ihOthers =>
      rw [EverySelection] at h
      rw [selectionsScan.eq_3 _ _ _ _ hbranch] at hts
      obtain ⟨before, beneath, after, hhead, hbeneath, hothers, rfl⟩ := level_eq_some hts
      rw [List.append_assoc, List.cons_append, List.append_assoc, List.cons_append,
        rereadSelections]
      refine takes_selections_cons hothers ?_ fun hne => ihOthers h.2.2 hne hothers rest
      exact Field.Formed.takes_branch h.1 hhead (ihBeneath h.2.1 hbranch hbeneath _)
  | case4 indent fragment ds others ihOthers =>
      rw [EverySelection] at h
      rw [selectionsScan] at hts
      obtain ⟨ts₁, ts₂, hspread, hothers, rfl⟩ := Scanned.append_eq_some_iff.mp hts
      rw [List.append_assoc, rereadSelections]
      refine takes_selections_cons hothers ?_ fun hne => ihOthers h.2 hne hothers rest
      exact takes_spread h.1.2.1 h.1.2.2 hspread (avoids_after hothers (by decide) rest)
  | case5 indent condition? ds selections others ihBeneath ihOthers =>
      rw [EverySelection] at h
      rw [selectionsScan] at hts
      obtain ⟨before, beneath, after, hhead, hbeneath, hothers, rfl⟩ := level_eq_some hts
      rw [List.append_assoc, List.cons_append, List.append_assoc, List.cons_append,
        rereadSelections]
      refine takes_selections_cons hothers ?_ fun hne => ihOthers h.2.2 hne hothers rest
      exact takes_inlineFragment h.1.2.1 hhead (ihBeneath h.2.1 h.1.2.2 hbeneath _)

/-- Selections between braces that the grammar forms. -/
theorem SelectionSet.Formed.takes {selections : List Selection} (h : SelectionSet.Formed selections)
    {ts : List Token} (hts : Scanned.braces (selectionsScan 2 selections) = some ts)
    (rest : List Token) :
    Takes (readSelectionSet? (ts ++ rest)) (rereadSelections 2 selections) rest := by
  obtain ⟨ts, hselections, rfl⟩ := Scanned.between_eq_some_iff.mp hts
  rw [List.cons_append, List.append_assoc, List.singleton_append, readSelectionSet?]
  refine (takes_readMark? '\x7b' _).bind fun below => ?_
  refine (takes_selections h.every h.nonempty hselections rest).bind fun below => ?_
  exact ⟨_, rfl⟩

/-! ### Types and variables -/

/-- A mark after a type is read with it. -/
theorem takes_readNonNull_mark (type : TypeRef) (rest : List Token) :
    Takes (some (readNonNull type (.punctuator '!' :: rest))) (.nonNull type) rest := by
  obtain ⟨below, h⟩ := takes_readMark? '!' rest
  rw [readNonNull, h]
  exact ⟨_, rfl⟩

/-- A type without a mark is read as it is. -/
theorem takes_readNonNull {type : TypeRef} {rest : List Token} (h : Avoids ['!'] rest) :
    Takes (some (readNonNull type rest)) type rest := by
  rw [readNonNull, readMark?_eq_none h List.mem_cons_self]
  exact ⟨_, rfl⟩

/-- A type is read if no mark follows, and with the mark if one may follow. -/
theorem takes_type {type : TypeRef} (h : type.MarkedOnce) {ts : List Token}
    (hts : type.scan = some ts) (rest : List Token) :
    (Avoids ['!'] rest → Takes (readType? (ts ++ rest)) type rest) ∧
      (type.isNonNull = false →
        Takes (readType? (ts ++ .punctuator '!' :: rest)) (.nonNull type) rest) := by
  induction type generalizing ts rest with
  | named name =>
      rw [TypeRef.scan, Scanned.name_eq_some_iff] at hts
      subst hts
      rw [List.singleton_append, List.singleton_append, readType?, readType?]
      exact ⟨fun hrest => (takes_readNonNull hrest).widen _,
        fun _ => (takes_readNonNull_mark _ rest).widen _⟩
  | list item ih =>
      rw [TypeRef.scan] at hts
      obtain ⟨ts, hitem, rfl⟩ := Scanned.between_eq_some_iff.mp hts
      have hlist : ∀ after type' rest', Takes (some (readNonNull (.list item) after)) type' rest' →
          Takes (readType? (.punctuator '[' :: (ts ++ .punctuator ']' :: after))) type' rest' := by
        intro after type' rest' hafter
        rw [readType?]
        refine ((ih h hitem _).1 (avoids_cons.mpr (by decide))).bind fun below => ?_
        refine (takes_readMark? ']' after).bind fun below => ?_
        exact hafter.widen _
      rw [List.cons_append, List.append_assoc, List.singleton_append, List.cons_append,
        List.append_assoc, List.singleton_append]
      exact ⟨fun hrest => hlist _ _ _ (takes_readNonNull hrest),
        fun _ => hlist _ _ _ (takes_readNonNull_mark _ rest)⟩
  | nonNull inner ih =>
      simp only [TypeRef.scan, Scanned.append_eq_some_iff, Scanned.mark_eq_some_iff] at hts
      obtain ⟨ts, _, hinner, rfl, rfl⟩ := hts
      rw [List.append_assoc, List.singleton_append]
      exact ⟨fun _ => (ih h.2 hinner rest).2 h.1, fun hmarked => by cases hmarked⟩

/-- A default value is read, or none if nothing follows that could begin one. -/
theorem takes_default {default? : Option Literal} (h : ∀ value ∈ default?, value.Formed true)
    {ts : List Token} (hts : defaultScan default? = some ts) {rest : List Token}
    (hrest : Avoids ['='] rest) :
    Takes (readDefault? (ts ++ rest)) (default?.map (Literal.reread 0)) rest := by
  cases default? with
  | none =>
      rw [defaultScan, Scanned.nil_eq_some_iff] at hts
      subst hts
      rw [List.nil_append, readDefault?, readMark?_eq_none hrest List.mem_cons_self]
      exact ⟨_, rfl⟩
  | some value =>
      rw [defaultScan, Scanned.mark_append_eq_some_iff] at hts
      obtain ⟨ts, hvalue, rfl⟩ := hts
      obtain ⟨below, hmark⟩ := takes_readMark? '=' (ts ++ rest)
      rw [List.cons_append, readDefault?, hmark]
      exact ((h value rfl).takes 0 ts hvalue rest).map_widen _

/-- A default value begins with its mark, or there is none. -/
theorem avoids_default {default? : Option Literal} {ts : List Token}
    (hts : defaultScan default? = some ts) {marks : List Char} (hmarks : '=' ∉ marks)
    {rest : List Token} (hrest : Avoids marks rest) : Avoids marks (ts ++ rest) := by
  cases default? with
  | none =>
      rw [defaultScan, Scanned.nil_eq_some_iff] at hts
      subst hts
      exact hrest
  | some value =>
      rw [defaultScan, Scanned.mark_append_eq_some_iff] at hts
      obtain ⟨_, -, rfl⟩ := hts
      exact avoids_cons.mpr hmarks

/-- The definition of a variable is read if nothing follows that could belong to it. -/
theorem VariableDefinition.Formed.takes {v : VariableDefinition} (h : v.Formed) {ts : List Token}
    (hts : v.scan = some ts) {rest : List Token} (hrest : Avoids ['!', '='] rest) :
    Takes (readVariable? (ts ++ rest)) v.reread rest := by
  simp only [VariableDefinition.scan, Scanned.append_assoc, Scanned.mark_append_eq_some_iff,
    Scanned.name_append_eq_some_iff] at hts
  simp only [Scanned.append_eq_some_iff] at hts
  obtain ⟨_, ⟨_, ⟨_, ⟨ts₁, ts₂, htype, hdefault, rfl⟩, rfl⟩, rfl⟩, rfl⟩ := hts
  have hafter : Avoids ['!'] (ts₂ ++ rest) :=
    avoids_default hdefault (by decide) (hrest.subset (by decide))
  rw [List.cons_append, List.cons_append, List.cons_append, List.append_assoc, readVariable?]
  refine ((takes_type h.marks htype _).1 hafter).bind fun below => ?_
  refine (takes_default h.default hdefault (hrest.subset (by decide))).bind fun below => ?_
  exact ⟨_, rfl⟩

/-- Variable definitions begin with the mark of a variable. -/
theorem avoids_variables {v : VariableDefinition} {others : List VariableDefinition}
    {ts : List Token}
    (hts : Scanned.concat ((v :: others).map VariableDefinition.scan) = some ts)
    {marks : List Char} (hmarks : '$' ∉ marks) (rest : List Token) : Avoids marks (ts ++ rest) := by
  obtain ⟨ts₁, ts₂, hv, -, rfl⟩ := Scanned.append_eq_some_iff.mp hts
  simp only [VariableDefinition.scan, Scanned.append_assoc, Scanned.mark_append_eq_some_iff] at hv
  obtain ⟨_, _, rfl⟩ := hv
  exact avoids_cons.mpr hmarks

/-- Variable definitions are read one by one up to the closing parenthesis. -/
theorem oneByOne_variables : OneByOne ')' readVariable? readVariableList? where
  last one closed := by
    rw [readVariableList?]
    refine one.bind fun below => ?_
    obtain ⟨below', hclosed⟩ := closed
    dsimp only
    rw [hclosed]
    exact ⟨_, rfl⟩
  more one opened many := by
    rw [readVariableList?]
    refine one.bind fun below => ?_
    dsimp only
    rw [opened]
    refine many.bind fun below => ?_
    exact ⟨_, rfl⟩

/-- Variable definitions are read up to the closing parenthesis. -/
theorem takes_variableList {vs : List VariableDefinition} (h : ∀ v ∈ vs, v.Formed) (hne : vs ≠ [])
    {ts : List Token} (hts : Scanned.concat (vs.map VariableDefinition.scan) = some ts)
    (rest : List Token) :
    Takes (readVariableList? (ts ++ .punctuator ')' :: rest)) (vs.map VariableDefinition.reread)
      rest := by
  induction vs generalizing ts with
  | nil => exact absurd rfl hne
  | cons v others ih =>
      obtain ⟨ts₁, ts₂, hv, hothers, rfl⟩ := Scanned.append_eq_some_iff.mp hts
      have hfirst := h v List.mem_cons_self
      have hrest := fun w hw => h w (List.mem_cons_of_mem v hw)
      rw [List.append_assoc, List.map_cons]
      cases others with
      | nil =>
          obtain rfl := Scanned.nil_eq_some_iff.mp hothers
          exact oneByOne_variables.cons
            (hfirst.takes hv (avoids_cons.mpr (by decide))) (.inl ⟨rfl, rfl⟩)
      | cons other others =>
          exact oneByOne_variables.cons
            (hfirst.takes hv (avoids_variables hothers (by decide) _))
            (.inr ⟨avoids_variables hothers (by decide) _, ih hrest (List.cons_ne_nil _ _) hothers⟩)

/-- Variable definitions between parentheses begin with one, or there are none. -/
theorem variablesScan_eq_some {vs : List VariableDefinition} {ts : List Token}
    (hts : variablesScan vs = some ts) :
    (vs = [] ∧ ts = []) ∨ (vs ≠ [] ∧ ∃ ts',
      Scanned.concat (vs.map VariableDefinition.scan) = some ts' ∧
        ts = .punctuator '(' :: (ts' ++ [.punctuator ')'])) := by
  rw [variablesScan] at hts
  cases vs with
  | nil => exact .inl ⟨rfl, Scanned.nil_eq_some_iff.mp hts⟩
  | cons v others =>
      rw [List.isEmpty_cons, if_neg (by simp)] at hts
      obtain ⟨ts', hvs, rfl⟩ := Scanned.between_eq_some_iff.mp hts
      exact .inr ⟨List.cons_ne_nil _ _, ts', hvs, rfl⟩

/-- Variable definitions between parentheses, or none, are read if no parenthesis follows. -/
theorem takes_variables {vs : List VariableDefinition} (h : ∀ v ∈ vs, v.Formed) {ts : List Token}
    (hts : variablesScan vs = some ts) {rest : List Token} (hrest : Avoids ['('] rest) :
    Takes (readVariables? (ts ++ rest)) (vs.map VariableDefinition.reread) rest := by
  rcases variablesScan_eq_some hts with ⟨rfl, rfl⟩ | ⟨hne, ts, hvs, rfl⟩
  · rw [List.nil_append, readVariables?, readMark?_eq_none hrest List.mem_cons_self]
    exact ⟨_, rfl⟩
  · obtain ⟨below, hopened⟩ := takes_readMark? '(' (ts ++ .punctuator ')' :: rest)
    rw [List.cons_append, List.append_assoc, List.singleton_append, readVariables?, hopened]
    exact (takes_variableList h hne hvs rest).widen _

/-! ### Definitions -/

/-- What stands between braces begins with a brace. -/
theorem braces_eq_some {x : Scanned} {ts : List Token} (hts : Scanned.braces x = some ts) :
    ∃ rest, ts = .punctuator '\x7b' :: rest := by
  obtain ⟨_, _, rfl⟩ := Scanned.between_eq_some_iff.mp hts
  exact ⟨_, rfl⟩

/-- The printed variable definitions of a header that the grammar forms are formed by it. -/
theorem OperationHeader.Formed.printedVariables {h : OperationHeader} (formed : h.Formed) :
    ∀ v ∈ h.printedVariables, v.Formed := by
  intro v hv
  rw [OperationHeader.printedVariables] at hv
  split_ifs at hv
  · exact absurd hv List.not_mem_nil
  · exact formed.definitions v hv

/-- A name is read if one stands there. -/
theorem readName_eq {name? : Option String} {ts : List Token} (hts : nameScan name? = some ts)
    {rest : List Token} (hrest : Nameless rest) :
    ∃ below, readName (ts ++ rest) = ⟨name?, rest, below⟩ := by
  cases name? with
  | none =>
      rw [nameScan, Scanned.nil_eq_some_iff] at hts
      subst hts
      exact ⟨_, readName.eq_2 rest hrest⟩
  | some name =>
      rw [nameScan, Scanned.name_eq_some_iff] at hts
      subst hts
      exact ⟨_, readName.eq_1 name rest⟩

/-- Variable definitions do not begin with a name, and neither does what follows them. -/
theorem nameless_variables {vs : List VariableDefinition} {ts : List Token}
    (hts : variablesScan vs = some ts) {rest : List Token} (hrest : Nameless rest) :
    Nameless (ts ++ rest) := by
  rcases variablesScan_eq_some hts with ⟨-, rfl⟩ | ⟨-, _, -, rfl⟩
  · exact hrest
  · exact nameless_cons _ _

/-- An operation is read after the word that announces it. -/
theorem takes_operation {h : OperationHeader} (formed : h.Formed) {selections : List Selection}
    (hselections : SelectionSet.Formed selections) {ts : List Token}
    (hts : nameScan h.name? ++ (variablesScan h.printedVariables ++
      (directivesScan 0 h.directives ++ .braces (selectionsScan 2 selections))) = some ts)
    (rest : List Token) :
    Takes (readOperation? h.kind (ts ++ rest)) ⟨some h.reread, rereadSelections 2 selections⟩
      rest := by
  obtain ⟨ts₁, _, hname, hafter, rfl⟩ := Scanned.append_eq_some_iff.mp hts
  obtain ⟨ts₂, _, hvariables, hafter', rfl⟩ := Scanned.append_eq_some_iff.mp hafter
  obtain ⟨ts₃, ts₄, hdirectives, hbraced, rfl⟩ := Scanned.append_eq_some_iff.mp hafter'
  have hbrace : ∀ marks, '\x7b' ∉ marks → Avoids marks (ts₄ ++ rest) := by
    intro marks hmarks
    obtain ⟨_, rfl⟩ := braces_eq_some hbraced
    exact avoids_cons.mpr hmarks
  have hnameless : Nameless (ts₂ ++ (ts₃ ++ (ts₄ ++ rest))) := by
    obtain ⟨_, rfl⟩ := braces_eq_some hbraced
    exact nameless_variables hvariables (nameless_directives hdirectives (nameless_cons _ _))
  obtain ⟨below, hread⟩ := readName_eq hname hnameless
  rw [List.append_assoc, List.append_assoc, List.append_assoc, readOperation?, hread]
  refine (takes_variables formed.printedVariables hvariables
    (avoids_directives hdirectives (by decide) (hbrace _ (by decide)))).bind fun below => ?_
  refine (takes_directives formed.directives hdirectives (hbrace _ (by decide))).bind
    fun below => ?_
  refine (hselections.takes hbraced rest).bind fun below => ?_
  exact ⟨_, rfl⟩

/-- The word that announces an operation names its kind. -/
theorem OperationKind.ofName?_word (kind : OperationKind) :
    OperationKind.ofName? kind.word = some kind := by
  cases kind <;> rfl

/-- The word that announces an operation announces no fragment. -/
theorem OperationKind.word_ne_fragment (kind : OperationKind) : kind.word ≠ "fragment" := by
  cases kind <;> decide

/-- A definition that the grammar forms is read off the front of its tokens. -/
theorem Definition.Formed.takes {definition : Definition} (h : definition.Formed) {ts : List Token}
    (hts : definition.scan = some ts) (rest : List Token) :
    Takes (readDefinition? (ts ++ rest)) definition.reread rest := by
  cases definition with
  | operation o =>
      have ho : o.Formed := h
      rw [Definition.scan] at hts
      cases hheader : o.header? with
      | none =>
          rw [hheader, headScan, Scanned.nil_append] at hts
          obtain ⟨below, hread⟩ := ho.selections.takes hts rest
          obtain ⟨_, rfl⟩ := braces_eq_some hts
          rw [readDefinition?.eq_3 _ (fun _ h => by cases h) (fun _ _ h => by cases h), hread,
            Definition.reread, hheader]
          exact ⟨_, rfl⟩
      | some header =>
          simp only [hheader, headScan, OperationHeader.scan, Scanned.append_assoc,
            Scanned.name_append_eq_some_iff] at hts
          obtain ⟨ts, hts, rfl⟩ := hts
          rw [List.cons_append, readDefinition?.eq_2 _ _ header.kind.word_ne_fragment,
            header.kind.ofName?_word, Definition.reread, hheader]
          refine (takes_operation (ho.header header hheader) ho.selections hts rest).bind
            fun below => ?_
          exact ⟨_, rfl⟩
  | fragment f =>
      have hf : f.Formed := h
      simp only [Definition.scan, Scanned.append_assoc, Scanned.name_append_eq_some_iff] at hts
      simp only [Scanned.append_eq_some_iff] at hts
      obtain ⟨_, ⟨_, ⟨_, ⟨_, ⟨ts₁, ts₂, hdirectives, hbraced, rfl⟩, rfl⟩, rfl⟩, rfl⟩, rfl⟩ := hts
      have hbrace : Avoids ['(', '@'] (ts₂ ++ rest) := by
        obtain ⟨_, rfl⟩ := braces_eq_some hbraced
        exact avoids_cons.mpr (by decide)
      rw [List.cons_append, List.cons_append, List.cons_append, List.cons_append,
        List.append_assoc, readDefinition?.eq_1, readFragment?.eq_1]
      refine Takes.map_widen ?_ _
      refine (takes_directives hf.directives hdirectives hbrace).bind fun below => ?_
      refine (hf.selections.takes hbraced rest).bind fun below => ?_
      exact ⟨_, rfl⟩

/-- A definition has tokens. -/
theorem Definition.Formed.tokens_ne_nil {definition : Definition} (h : definition.Formed)
    {ts : List Token} (hts : definition.scan = some ts) : ts ≠ [] := by
  rintro rfl
  obtain ⟨below, -⟩ := h.takes hts []
  exact absurd below (by simp)

/-- Definitions are read to the end of their tokens. -/
theorem readDefinitions?_scan {definitions : List Definition} (h : ∀ d ∈ definitions, d.Formed)
    (hne : definitions ≠ []) {ts : List Token}
    (hts : Scanned.concat (definitions.map Definition.scan) = some ts) :
    readDefinitions? ts = some (definitions.map Definition.reread) := by
  induction definitions generalizing ts with
  | nil => exact absurd rfl hne
  | cons d others ih =>
      obtain ⟨ts₁, ts₂, hd, hothers, rfl⟩ := Scanned.append_eq_some_iff.mp hts
      obtain ⟨below, hread⟩ := (h d List.mem_cons_self).takes hd ts₂
      rw [readDefinitions?, hread]
      cases others with
      | nil =>
          obtain rfl := Scanned.nil_eq_some_iff.mp hothers
          rfl
      | cons other others =>
          have hrest := fun e he => h e (List.mem_cons_of_mem d he)
          have hmore : ts₂.isEmpty = false := by
            obtain ⟨ts₃, ts₄, hother, -, rfl⟩ := Scanned.append_eq_some_iff.mp hothers
            have := (hrest other List.mem_cons_self).tokens_ne_nil hother
            simp [this]
          simp only [Option.bind_eq_bind, Option.bind_some, hmore,
            ih hrest (List.cons_ne_nil _ _) hothers]
          rfl

/-- **When a printed document is read, and as what.** A document that the grammar forms is read from
its own text exactly if all literals of the text are scanned and no more than `maxNesting` brackets
are open at once. What is read then is the same document with its literals read again. -/
theorem Document.Formed.read?_print_eq_some_iff {d e : Document} (h : d.Formed) :
    Document.read? d.print = some e ↔
      (∃ ts, d.scan = some ts ∧ withinNesting maxNesting ts = true) ∧ e = d.reread := by
  have hscan : Token.scan? d.print.toList = d.scan := h.scanned_print
  rw [Document.read?, hscan]
  cases hts : d.scan with
  | none =>
      constructor
      · intro hread
        cases hread
      · rintro ⟨⟨ts, hts, -⟩, -⟩
        cases hts
  | some ts =>
      have hread : (readDefinitions? ts).map Document.mk = some d.reread := by
        rw [readDefinitions?_scan h.definitions h.nonempty hts]
        rfl
      simp only [Option.bind_eq_bind, Option.bind_some, hread, Option.ite_none_right_eq_some]
      constructor
      · rintro ⟨hnesting, heq⟩
        exact ⟨⟨ts, rfl, hnesting⟩, (Option.some.inj heq).symm⟩
      · rintro ⟨⟨ts', hts', hnesting⟩, rfl⟩
        obtain rfl : ts = ts' := Option.some.inj hts'
        exact ⟨hnesting, rfl⟩

end SchemaBridge.Graphql
