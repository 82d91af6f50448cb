import SchemaBridge.Graphql.Printer
import SchemaBridge.Proofs.Graphql.Formed
import SchemaBridge.Proofs.Graphql.NumberText
import SchemaBridge.Proofs.Graphql.StringText

/-!
# Scanning printed documents

The text of a document that the grammar forms is scanned noun by noun. The tokens of each noun are
those of its parts: what the printer writes between them are blanks, commas and punctuators.

* `Literal.scan`, …, `Document.scan`: what scanning makes of the text of each noun;
* `Literal.Formed.scans`, …, `Document.Formed.scanned_print`: that it does so.
-/

namespace SchemaBridge.Graphql

/-! ### Outcomes -/

mutual

/-- The tokens of the text of a literal. -/
def Literal.scan (indent : Nat) : Literal → Scanned
  | .reference variableName => .mark '$' ++ .name variableName
  | .int n => .number (Text.intText n)
  | .float x => .number (floatLayout.write x)
  | .infinite negative => if negative then .number "-inf" else .name "inf"
  | .string s => .ofToken? ((writtenString? indent s).map .string)
  | .boolean b => .name (if b then "true" else "false")
  | .null => .name "null"
  | .enumeration name => .name name
  | .list items => .mark '[' ++ literalScans indent items ++ .mark ']'
  | .object entries => .mark '\x7b' ++ entryScans indent entries ++ .mark '\x7d'

/-- The tokens of the texts of literals. -/
def literalScans (indent : Nat) : List Literal → Scanned
  | [] => .nil
  | v :: rest => v.scan indent ++ literalScans indent rest

/-- The tokens of the texts of named literals. -/
def entryScans (indent : Nat) : List (String × Literal) → Scanned
  | [] => .nil
  | (k, v) :: rest => .name k ++ .mark ':' ++ v.scan indent ++ entryScans indent rest

end

/-- The tokens of arguments between parentheses; none if there are none. -/
def argumentsScan (indent : Nat) (arguments : Arguments) : Scanned :=
  if arguments.isEmpty then .nil
  else .mark '(' ++ entryScans indent arguments ++ .mark ')'

/-- The tokens of a directive. -/
def Directive.scan (indent : Nat) (d : Directive) : Scanned :=
  .mark '@' ++ .name d.name ++ argumentsScan indent d.arguments

/-- The tokens of directives. -/
def directivesScan (indent : Nat) (ds : List Directive) : Scanned :=
  .concat (ds.map (Directive.scan indent))

/-- The tokens of an alias with its colon. -/
def aliasScan : Option String → Scanned
  | some label => .name label ++ .mark ':'
  | none => .nil

/-- The tokens of a field without its selections. -/
def Field.scan (indent : Nat) (f : Field) : Scanned :=
  aliasScan f.alias? ++ .name f.name ++ argumentsScan indent f.arguments ++
    directivesScan indent f.directives

/-- The tokens of the type condition of an inline fragment. -/
def conditionScan : Option String → Scanned
  | some condition => .name "on" ++ .name condition
  | none => .nil

/-- The tokens of selections. -/
def selectionsScan (indent : Nat) : List Selection → Scanned
  | [] => .nil
  | .field head [] :: rest => head.scan indent ++ selectionsScan indent rest
  | .field head selections :: rest =>
    head.scan indent ++ .braces (selectionsScan (indent + 2) selections) ++
      selectionsScan indent rest
  | .spread fragment ds :: rest =>
    .ellipsis ++ .name fragment ++ directivesScan indent ds ++ selectionsScan indent rest
  | .inlineFragment condition? ds selections :: rest =>
    .ellipsis ++ conditionScan condition? ++ directivesScan indent ds ++
      .braces (selectionsScan (indent + 2) selections) ++ selectionsScan indent rest

/-- The tokens of a type. -/
def TypeRef.scan : TypeRef → Scanned
  | .named name => .name name
  | .list item => .mark '[' ++ item.scan ++ .mark ']'
  | .nonNull inner => inner.scan ++ .mark '!'

/-- The tokens of a default value. -/
def defaultScan : Option Literal → Scanned
  | some value => .mark '=' ++ value.scan 0
  | none => .nil

/-- The tokens of a variable definition. -/
def VariableDefinition.scan (v : VariableDefinition) : Scanned :=
  .mark '$' ++ .name v.name ++ .mark ':' ++ v.type.scan ++ defaultScan v.default?

/-- The variable definitions that are printed: all, unless the header is that of a subscription
without a name. -/
def OperationHeader.printedVariables (h : OperationHeader) : List VariableDefinition :=
  if h.kind = .subscription ∧ h.name? = none then [] else h.variableDefinitions

/-- The tokens of variable definitions between parentheses; none if there are none. -/
def variablesScan (vs : List VariableDefinition) : Scanned :=
  if vs.isEmpty then .nil
  else .mark '(' ++ .concat (vs.map VariableDefinition.scan) ++ .mark ')'

/-- The tokens of the name of an operation. -/
def nameScan : Option String → Scanned
  | some name => .name name
  | none => .nil

/-- The tokens of the header of an operation. -/
def OperationHeader.scan (h : OperationHeader) : Scanned :=
  .name h.kind.word ++ nameScan h.name? ++ variablesScan h.printedVariables ++
    directivesScan 0 h.directives

/-- The tokens before the brace of an operation. -/
def headScan : Option OperationHeader → Scanned
  | some header => header.scan
  | none => .nil

/-- The tokens of a definition. -/
def Definition.scan : Definition → Scanned
  | .operation o => headScan o.header? ++ .braces (selectionsScan 2 o.selections)
  | .fragment f =>
    .name "fragment" ++ .name f.name ++ .name "on" ++ .name f.condition ++
      directivesScan 0 f.directives ++ .braces (selectionsScan 2 f.selections)

/-- The tokens of a document. -/
def Document.scan (d : Document) : Scanned :=
  .concat (d.definitions.map Definition.scan)

/-! ### Literals -/

/-- The texts of named literals, one by one. -/
theorem entryTexts_eq_map (indent : Nat) (entries : List (String × Literal)) :
    entryTexts indent entries = entries.map fun e => e.1 ++ ": " ++ e.2.text indent := by
  induction entries with
  | nil => rw [entryTexts]; rfl
  | cons e rest ih =>
      obtain ⟨k, v⟩ := e
      rw [entryTexts, ih]
      rfl

/-- The tokens of the texts of named literals, one by one. -/
theorem entryScans_eq_concat (indent : Nat) (entries : List (String × Literal)) :
    entryScans indent entries =
      .concat (entries.map fun e => .name e.1 ++ .mark ':' ++ e.2.scan indent) := by
  induction entries with
  | nil => rw [entryScans]; rfl
  | cons e rest ih =>
      obtain ⟨k, v⟩ := e
      rw [entryScans, ih]
      rfl

/-- The texts of literals, one by one. -/
theorem literalTexts_eq_map (indent : Nat) (items : List Literal) :
    literalTexts indent items = items.map (Literal.text indent) := by
  induction items with
  | nil => rw [literalTexts]; rfl
  | cons v rest ih =>
      rw [literalTexts, ih]
      rfl

/-- The tokens of the texts of literals, one by one. -/
theorem literalScans_eq_concat (indent : Nat) (items : List Literal) :
    literalScans indent items = .concat (items.map (Literal.scan indent)) := by
  induction items with
  | nil => rw [literalScans]; rfl
  | cons v rest ih =>
      rw [literalScans, ih]
      rfl

/-- A piece between two marks. -/
theorem Scans.between {a : String} {x : Scanned} (h : Scans a x) {opened closed : String}
    {first last : Scanned} (hopened : ScansFreely opened first) (hclosed : ScansFreely closed last)
    (hends : closed.toList.head?.any endsNumber = true) :
    ScansFreely (opened ++ a ++ closed) (first ++ x ++ last) :=
  (hopened.append_scans h).closed hclosed hends

/-- The separator of a list has no tokens. -/
theorem scansFreely_comma : ScansFreely ", " .nil :=
  scansFreely_of_marks (by rfl) (by rfl)

/-- A name with a colon and a blank after it. -/
theorem scansFreely_label {k : String} (hk : IsName k) :
    ScansFreely (k ++ ": ") (.name k ++ .mark ':') :=
  (scans_name hk).closed (scansFreely_of_marks (by rfl) (by rfl)) (by rfl)

/-- Named literals between marks. -/
theorem scans_entries {indent : Nat} {entries : List (String × Literal)}
    (keys : ∀ entry ∈ entries, IsName entry.1)
    (values : ∀ entry ∈ entries, Scans (entry.2.text indent) (entry.2.scan indent)) :
    Scans (", ".intercalate (entryTexts indent entries)) (entryScans indent entries) := by
  rw [entryTexts_eq_map, entryScans_eq_concat]
  exact scans_intercalate scansFreely_comma (by rfl) fun entry hentry =>
    (scansFreely_label (keys entry hentry)).append_scans (values entry hentry)

/-- The text of a literal that the grammar forms. -/
theorem Literal.Formed.scans {constant : Bool} {v : Literal} (h : v.Formed constant)
    (indent : Nat) : Scans (v.text indent) (v.scan indent) := by
  induction h with
  | reference _ hname =>
      rw [Literal.text, Literal.scan]
      exact (scansFreely_of_marks (by rfl) (by rfl)).append_scans (scans_name hname)
  | int n =>
      rw [Literal.text, Literal.scan]
      exact scans_number (numberText_intText n)
  | float x =>
      rw [Literal.text, Literal.scan]
      exact scans_number (numberText_write x)
  | infinite negative =>
      rw [Literal.text, Literal.scan]
      cases negative with
      | false => exact scans_name (by decide)
      | true =>
          have hparts : "-inf".toList.all (fun c => !endsNumber c) = true := by rfl
          exact scans_number ⟨⟨'-', rfl, .inl rfl⟩, by simpa using hparts⟩
  | string s =>
      rw [Literal.text, Literal.scan]
      exact scans_stringText indent s
  | boolean b =>
      rw [Literal.text, Literal.scan]
      cases b <;> exact scans_name (by decide)
  | null =>
      rw [Literal.text, Literal.scan]
      exact scans_name (by decide)
  | enumeration hname =>
      rw [Literal.text, Literal.scan]
      exact scans_name hname
  | list _ ih =>
      rw [Literal.text, Literal.scan, literalTexts_eq_map, literalScans_eq_concat]
      exact ((scans_intercalate scansFreely_comma (by rfl) ih).between
        (scansFreely_of_marks (by rfl) (by rfl)) (scansFreely_of_marks (by rfl) (by rfl))
        (by rfl)).scans
  | object hkeys _ ih =>
      rw [Literal.text, Literal.scan]
      exact ((scans_entries hkeys ih).between (scansFreely_of_marks (by rfl) (by rfl))
        (scansFreely_of_marks (by rfl) (by rfl)) (by rfl)).scans

/-! ### Fields and selections -/

/-- The text of arguments is apart from the name before it. -/
theorem apart_argumentsText (indent : Nat) (arguments : Arguments) :
    Apart (argumentsText indent arguments).toList := by
  rw [argumentsText]
  split_ifs
  · exact apart_nil
  · rw [String.append_assoc, String.toList_append]
    exact apart_cons.mpr (by decide)

/-- The text of arguments that the grammar forms. -/
theorem Arguments.Formed.scans {arguments : Arguments} (h : Arguments.Formed arguments)
    (indent : Nat) : Scans (argumentsText indent arguments) (argumentsScan indent arguments) := by
  rw [argumentsText, argumentsScan]
  split_ifs
  · exact scansFreely_empty.scans
  · exact ((scans_entries h.names fun a ha => (h.values a ha).scans indent).between
      (scansFreely_of_marks (by rfl) (by rfl)) (scansFreely_of_marks (by rfl) (by rfl))
      (by rfl)).scans

/-- The text of a directive that the grammar forms. -/
theorem Directive.Formed.scans {d : Directive} (h : d.Formed) (indent : Nat) :
    Scans (d.text indent) (d.scan indent) :=
  ((scansFreely_of_marks (by rfl) (by rfl)).append_scans (scans_name h.name)).append
    (h.arguments.scans indent) (apart_argumentsText indent d.arguments)

/-- The text of a directive is apart from what stands before it. -/
theorem Directive.apart_text (indent : Nat) (d : Directive) : Apart (d.text indent).toList := by
  rw [Directive.text, String.append_assoc, String.toList_append]
  exact apart_cons.mpr (by decide)

/-- The text of directives is apart from what stands before it. -/
theorem apart_directivesText (indent : Nat) (ds : List Directive) :
    Apart (directivesText indent ds).toList :=
  apart_join fun d _ => d.apart_text indent

/-- The text of directives that the grammar forms. -/
theorem scans_directivesText {ds : List Directive} (h : ∀ d ∈ ds, d.Formed) (indent : Nat) :
    Scans (directivesText indent ds) (directivesScan indent ds) :=
  scans_join (fun d hd => (h d hd).scans indent) fun d _ => d.apart_text indent

/-- The text of a field that the grammar forms. -/
theorem Field.Formed.scans {f : Field} (h : f.Formed) (indent : Nat) :
    Scans (f.text indent) (f.scan indent) := by
  have hname : Scans ((match f.alias? with
      | some label => label ++ ": "
      | none => "") ++ f.name) (aliasScan f.alias? ++ .name f.name) := by
    cases hlabel : f.alias? with
    | none => exact scansFreely_empty.append_scans (scans_name h.name)
    | some label =>
        exact (scansFreely_label (h.label label hlabel)).append_scans (scans_name h.name)
  exact (hname.append (h.arguments.scans indent) (apart_argumentsText indent f.arguments)).append
    (scans_directivesText h.directives indent) (apart_directivesText indent f.directives)

/-- A blank has no tokens. -/
theorem scansFreely_blank : ScansFreely " " .nil :=
  scansFreely_of_marks (by rfl) (by rfl)

/-- Spaces have no tokens. -/
theorem scansFreely_spaces (n : Nat) : ScansFreely (spaces n) .nil := by
  induction n with
  | zero => exact scansFreely_empty
  | succ n ih =>
      have hcons : spaces (n + 1) = " " ++ spaces n := by
        rw [spaces, List.replicate_succ, spaces, String.ofList_cons]
        rfl
      exact hcons ▸ scansFreely_blank.append ih

/-- The end of a line has no tokens. -/
theorem scansFreely_newline : ScansFreely "\n" .nil :=
  scansFreely_of_marks (by rfl) (by rfl)

/-- A brace that opens a level. -/
theorem scansFreely_opened : ScansFreely " \x7b\n" (.mark '\x7b') :=
  scansFreely_of_marks (by rfl) (by rfl)

/-- A brace that closes a level. -/
theorem scansFreely_closed : ScansFreely "\x7d\n" (.mark '\x7d') :=
  scansFreely_of_marks (by rfl) (by rfl)

/-- Three dots before a name. -/
theorem scansFreely_ellipsis : ScansFreely "..." .ellipsis := by
  intro rest
  show Token.scan? ('.' :: '.' :: '.' :: rest) = _
  rw [Token.scan?.eq_2]
  cases h : Token.scan? rest <;> simp only [scanned, h] <;> rfl

/-- A word with a blank after it. -/
theorem scansFreely_word {s : String} (h : IsName s) : ScansFreely (s ++ " ") (.name s) := by
  have := (scans_name h).closed scansFreely_blank (by rfl)
  rwa [Scanned.append_nil] at this

/-- The word before a type condition. -/
theorem scansFreely_on : ScansFreely " on " (.name "on") := by
  have hword : ScansFreely ("on" ++ " ") (.name "on") := scansFreely_word (by decide)
  exact scansFreely_blank.append hword

/-- The text of an inline fragment before its braces. -/
theorem scans_inlineFragmentText {condition? : Option String}
    (hcondition : ∀ condition ∈ condition?, IsName condition) {ds : List Directive}
    (hds : ∀ d ∈ ds, d.Formed) (indent : Nat) :
    Scans (inlineFragmentText indent condition? ds)
      (.ellipsis ++ conditionScan condition? ++ directivesScan indent ds) := by
  refine Scans.append (scansFreely_ellipsis.append_scans ?_) (scans_directivesText hds indent)
    (apart_directivesText indent ds)
  cases condition? with
  | none => exact scansFreely_empty.scans
  | some condition => exact scansFreely_on.append_scans (scans_name (hcondition condition rfl))

/-- A line with what stands on it. -/
theorem Scans.line {a : String} {x : Scanned} (h : Scans a x) (indent : Nat) {closed : String}
    {last : Scanned} (hclosed : ScansFreely closed last)
    (hends : closed.toList.head?.any endsNumber = true) :
    ScansFreely (spaces indent ++ a ++ closed) (x ++ last) := by
  have := h.between (scansFreely_spaces indent) hclosed hends
  rwa [Scanned.nil_append] at this

/-- A line, a level beneath it and the brace that closes the level. -/
theorem Scans.level {a b : String} {x y : Scanned} (ha : Scans a x) (hb : ScansFreely b y)
    (indent : Nat) :
    ScansFreely (spaces indent ++ a ++ " \x7b\n" ++ b ++ spaces indent ++ "\x7d\n")
      (x ++ .braces y) := by
  have := (((ha.line indent scansFreely_opened (by rfl)).append hb).append
    (scansFreely_spaces indent)).append scansFreely_closed
  rwa [Scanned.append_nil, Scanned.append_assoc, Scanned.append_assoc,
    ← Scanned.append_assoc (.mark '\x7b')] at this

/-- The text of selections that the grammar forms. -/
theorem scansFreely_selectionsText {selections : List Selection}
    (h : EverySelection Selection.Formed selections) (indent : Nat) :
    ScansFreely (selectionsText indent selections) (selectionsScan indent selections) := by
  induction indent, selections using selectionsText.induct with
  | case1 indent =>
      rw [selectionsText, selectionsScan]
      exact scansFreely_empty
  | case2 indent head rest ihRest =>
      rw [EverySelection] at h
      rw [selectionsText, selectionsScan]
      have hline := (Field.Formed.scans h.1 indent).line indent scansFreely_newline (by rfl)
      rw [Scanned.append_nil] at hline
      exact hline.append (ihRest h.2.2)
  | case3 indent head selections rest hne ihBeneath ihRest =>
      rw [EverySelection] at h
      rw [selectionsText, selectionsScan]
      · exact ((Field.Formed.scans h.1 indent).level (ihBeneath h.2.1) indent).append
          (ihRest h.2.2)
      · exact hne
      · exact hne
  | case4 indent fragment ds rest ihRest =>
      rw [EverySelection] at h
      obtain ⟨⟨hname, -, hds⟩, hrest⟩ := h
      rw [selectionsText, selectionsScan]
      have hspread : Scans (spreadText indent fragment ds)
          (.ellipsis ++ .name fragment ++ directivesScan indent ds) :=
        (scansFreely_ellipsis.append_scans (scans_name hname)).append
          (scans_directivesText hds indent) (apart_directivesText indent ds)
      have hline := hspread.line indent scansFreely_newline (by rfl)
      rw [Scanned.append_nil] at hline
      exact hline.append (ihRest hrest)
  | case5 indent condition? ds selections rest ihBeneath ihRest =>
      rw [EverySelection] at h
      obtain ⟨⟨hcondition, hds, -⟩, hbeneath, hrest⟩ := h
      rw [selectionsText, selectionsScan]
      exact ((scans_inlineFragmentText hcondition hds indent).level (ihBeneath hbeneath)
        indent).append (ihRest hrest)

/-! ### Definitions -/

/-- The text of a type. -/
theorem scans_display {type : TypeRef} (h : type.WellNamed) : Scans type.display type.scan := by
  induction type with
  | named name =>
      rw [TypeRef.display, TypeRef.scan]
      exact scans_name h
  | list item ih =>
      rw [TypeRef.display, TypeRef.scan]
      exact ((ih h).between (scansFreely_of_marks (by rfl) (by rfl))
        (scansFreely_of_marks (by rfl) (by rfl)) (by rfl)).scans
  | nonNull inner ih =>
      rw [TypeRef.display, TypeRef.scan]
      exact ((ih h).closed (scansFreely_of_marks (by rfl) (by rfl)) (by rfl)).scans

/-- The text of the definition of a variable is apart from what stands before it. -/
theorem VariableDefinition.apart_text (v : VariableDefinition) : Apart v.text.toList := by
  rw [VariableDefinition.text, String.append_assoc, String.append_assoc, String.append_assoc,
    String.toList_append]
  exact apart_cons.mpr (by decide)

/-- The text of the definition of a variable that the grammar forms. -/
theorem VariableDefinition.Formed.scans {v : VariableDefinition} (h : v.Formed) :
    Scans v.text v.scan := by
  have hhead : Scans ("$" ++ v.name ++ ": " ++ v.type.display)
      (.mark '$' ++ .name v.name ++ .mark ':' ++ v.type.scan) :=
    (((scansFreely_of_marks (by rfl) (by rfl)).append_scans (scans_name h.name)).closed
      (scansFreely_of_marks (by rfl) (by rfl)) (by rfl)).append_scans (scans_display h.type)
  rw [VariableDefinition.text, VariableDefinition.scan]
  cases hdefault : v.default? with
  | none => exact hhead.append scansFreely_empty.scans apart_nil
  | some value =>
      refine hhead.append ((scansFreely_of_marks (by rfl) (by rfl)).append_scans
        ((h.default value hdefault).scans 0)) ?_
      rw [String.toList_append]
      exact apart_cons.mpr (by decide)

/-- The text of variable definitions, with a separator or without one. -/
theorem OperationHeader.Formed.scans_variablesText {h : OperationHeader} (formed : h.Formed) :
    Scans h.variablesText (variablesScan h.printedVariables) := by
  have hopened : ScansFreely "(" (.mark '(') := scansFreely_of_marks (by rfl) (by rfl)
  have hclosed : ScansFreely ")" (.mark ')') := scansFreely_of_marks (by rfl) (by rfl)
  have hevery : ∀ v ∈ h.variableDefinitions, Scans v.text v.scan :=
    fun v hv => (formed.definitions v hv).scans
  have hseparated := ((scans_intercalate scansFreely_comma (by rfl) hevery).between hopened hclosed
    (by rfl)).scans
  have hjoined := ((scans_join hevery fun v _ => v.apart_text).between hopened hclosed
    (by rfl)).scans
  rw [OperationHeader.variablesText, variablesScan, OperationHeader.printedVariables]
  cases hvariables : h.variableDefinitions with
  | nil => simpa using scansFreely_empty.scans
  | cons v rest =>
      rw [hvariables] at hseparated hjoined
      cases hkind : h.kind with
      | query => simpa using hseparated
      | mutation => simpa using hseparated
      | subscription =>
          cases hname : h.name? with
          | none => simpa using scansFreely_empty.scans
          | some name => simpa using hjoined

/-- The text of variable definitions is apart from the name before it. -/
theorem OperationHeader.apart_variablesText (h : OperationHeader) :
    Apart h.variablesText.toList := by
  rw [OperationHeader.variablesText]
  have hopened : ∀ text : String, Apart ("(" ++ text ++ ")").toList := by
    intro text
    rw [String.append_assoc, String.toList_append]
    exact apart_cons.mpr (by decide)
  cases hvariables : h.variableDefinitions with
  | nil => exact apart_nil
  | cons v rest =>
      cases hkind : h.kind with
      | query => exact hopened _
      | mutation => exact hopened _
      | subscription =>
          cases hname : h.name? with
          | none => exact apart_nil
          | some name => exact hopened _

/-- The word that announces an operation is a name. -/
theorem OperationKind.isName_word (kind : OperationKind) : IsName kind.word := by
  cases kind <;> decide

/-- A name after a blank. -/
theorem scans_afterBlank {name : String} (h : IsName name) : Scans (" " ++ name) (.name name) := by
  have := scansFreely_blank.append_scans (scans_name h)
  rwa [Scanned.nil_append] at this

/-- The text of a header that the grammar forms. -/
theorem OperationHeader.Formed.scans {h : OperationHeader} (formed : h.Formed) :
    ScansFreely h.text h.scan := by
  have hhead : Scans (h.kind.word ++ match h.name? with
      | some name => " " ++ name
      | none => "") (.name h.kind.word ++ nameScan h.name?) := by
    cases hname : h.name? with
    | none => exact (scans_name h.kind.isName_word).append scansFreely_empty.scans apart_nil
    | some name =>
        refine (scans_name h.kind.isName_word).append
          (scans_afterBlank (formed.name name hname)) ?_
        rw [String.toList_append]
        exact apart_cons.mpr (by decide)
  have := ((hhead.append formed.scans_variablesText h.apart_variablesText).append
    (scans_directivesText formed.directives 0) (apart_directivesText 0 h.directives)).closed
      scansFreely_blank (by rfl)
  rwa [Scanned.append_nil] at this

/-- Selections between braces, after what stands before them. -/
theorem SelectionSet.Formed.scans_braced {selections : List Selection}
    (h : SelectionSet.Formed selections) {head : String} {x : Scanned}
    (hhead : ScansFreely head x) :
    ScansFreely (braced head selections) (x ++ .braces (selectionsScan 2 selections)) := by
  have hopened : ScansFreely "\x7b\n" (.mark '\x7b') := scansFreely_of_marks (by rfl) (by rfl)
  have := ((hhead.append hopened).append (scansFreely_selectionsText h.every 2)).append
    scansFreely_closed
  rwa [Scanned.append_assoc, Scanned.append_assoc, ← Scanned.append_assoc (.mark '\x7b')] at this

/-- The text of a fragment before its brace. -/
theorem Fragment.Formed.scans_head {f : Fragment} (h : f.Formed) :
    ScansFreely f.head
      (.name "fragment" ++ .name f.name ++ .name "on" ++ .name f.condition ++
        directivesScan 0 f.directives) := by
  have hword : ScansFreely ("fragment" ++ " ") (.name "fragment") := scansFreely_word (by decide)
  have := (((((hword.append_scans (scans_name h.name)).closed scansFreely_on
    (by rfl)).append_scans (scans_name h.condition)).append (scans_directivesText h.directives 0)
      (apart_directivesText 0 f.directives))).closed scansFreely_blank (by rfl)
  rwa [Scanned.append_nil] at this

/-- The text of a definition that the grammar forms. -/
theorem Definition.Formed.scans {definition : Definition} (h : definition.Formed) :
    ScansFreely definition.text definition.scan := by
  cases definition with
  | operation o =>
      have ho : o.Formed := h
      refine ho.selections.scans_braced ?_
      rw [Operation.head]
      cases hheader : o.header? with
      | none => exact scansFreely_empty
      | some header => exact (ho.header header hheader).scans
  | fragment f =>
      have hf : f.Formed := h
      exact hf.selections.scans_braced hf.scans_head

/-- **A document is scanned definition by definition.** The tokens of the text of a document that
the grammar forms are those of its nouns, each of them with the names, marks and literals that it is
written with. -/
theorem Document.Formed.scanned_print {d : Document} (h : d.Formed) :
    scanned d.print.toList = d.scan :=
  (scans_intercalate scansFreely_newline (by rfl) fun definition hdefinition =>
    (h.definitions definition hdefinition).scans.scans).scanned_eq

end SchemaBridge.Graphql
