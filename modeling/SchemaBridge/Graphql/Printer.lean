import SchemaBridge.Decimal.Layout
import SchemaBridge.Graphql.Document
import SchemaBridge.Graphql.StringLiteral

/-!
# Printing documents

The one written form of a document: every selection on a line of its own, two spaces a level,
a blank line between definitions.

* `Literal.text`: literals, where a block string takes its indentation from the line it is on;
* `VariableDefinition.text`, `Operation.head`, `Fragment.head`: the parts before the braces;
* `selectionsText`: selections at an indentation;
* `Document.print`: the text of a document.
-/

namespace SchemaBridge.Graphql

/-- The layout of floating-point numbers: positional throughout, and no fraction on whole
numbers. -/
def floatLayout : Layout where
  positional := none
  wholeSuffix := ""
  tie := .upward

mutual

/-- The text of a literal on a line with an indentation. -/
def Literal.text (indent : Nat) : Literal → String
  | .reference variableName => "$" ++ variableName
  | .int n => Text.intText n
  | .float x => floatLayout.write x
  | .infinite negative => if negative then "-inf" else "inf"
  | .string s => stringText indent s
  | .boolean b => if b then "true" else "false"
  | .null => "null"
  | .enumeration name => name
  | .list items => "[" ++ ", ".intercalate (literalTexts indent items) ++ "]"
  | .object entries => "\x7b" ++ ", ".intercalate (entryTexts indent entries) ++ "\x7d"

/-- The texts of literals. -/
def literalTexts (indent : Nat) : List Literal → List String
  | [] => []
  | v :: rest => v.text indent :: literalTexts indent rest

/-- The texts of named literals. -/
def entryTexts (indent : Nat) : List (String × Literal) → List String
  | [] => []
  | (k, v) :: rest => (k ++ ": " ++ v.text indent) :: entryTexts indent rest

end

/-- Arguments between parentheses; nothing if there are none. -/
def argumentsText (indent : Nat) (arguments : Arguments) : String :=
  if arguments.isEmpty then ""
  else "(" ++ ", ".intercalate (entryTexts indent arguments) ++ ")"

/-- The text of a directive, with the blank before it. -/
def Directive.text (indent : Nat) (d : Directive) : String :=
  " @" ++ d.name ++ argumentsText indent d.arguments

/-- The text of directives, each with a blank before it. -/
def directivesText (indent : Nat) (ds : List Directive) : String :=
  String.join (ds.map (Directive.text indent))

/-- The text of a field without its selections. -/
def Field.text (indent : Nat) (f : Field) : String :=
  (match f.alias? with
    | some label => label ++ ": "
    | none => "") ++
    f.name ++ argumentsText indent f.arguments ++ directivesText indent f.directives

/-- The text of a fragment spread. -/
def spreadText (indent : Nat) (fragment : String) (ds : List Directive) : String :=
  "..." ++ fragment ++ directivesText indent ds

/-- The text of an inline fragment before its braces. -/
def inlineFragmentText (indent : Nat) (condition? : Option String) (ds : List Directive) :
    String :=
  "..." ++
    (match condition? with
      | some condition => " on " ++ condition
      | none => "") ++
    directivesText indent ds

/-- Selections at an indentation, each on lines of its own. A field without selections has no
braces. -/
def selectionsText (indent : Nat) : List Selection → String
  | [] => ""
  | .field head [] :: rest =>
    spaces indent ++ head.text indent ++ "\n" ++ selectionsText indent rest
  | .field head selections :: rest =>
    spaces indent ++ head.text indent ++ " \x7b\n" ++ selectionsText (indent + 2) selections ++
      spaces indent ++ "\x7d\n" ++ selectionsText indent rest
  | .spread fragment ds :: rest =>
    spaces indent ++ spreadText indent fragment ds ++ "\n" ++ selectionsText indent rest
  | .inlineFragment condition? ds selections :: rest =>
    spaces indent ++ inlineFragmentText indent condition? ds ++ " \x7b\n" ++
      selectionsText (indent + 2) selections ++ spaces indent ++ "\x7d\n" ++
      selectionsText indent rest

/-- The text of a variable definition. -/
def VariableDefinition.text (v : VariableDefinition) : String :=
  "$" ++ v.name ++ ": " ++ v.type.display ++
    match v.default? with
    | some value => " = " ++ value.text 0
    | none => ""

/-- The word that announces an operation. -/
def OperationKind.word : OperationKind → String
  | .query => "query"
  | .mutation => "mutation"
  | .subscription => "subscription"

/-- The variable definitions of an operation between parentheses. Those of a subscription follow
each other without a separator, and are left out if the subscription has no name. -/
def OperationHeader.variablesText (h : OperationHeader) : String :=
  let texts := h.variableDefinitions.map VariableDefinition.text
  if texts.isEmpty then ""
  else
    match h.kind with
    | .query | .mutation => "(" ++ ", ".intercalate texts ++ ")"
    | .subscription => if h.name?.isSome then "(" ++ String.join texts ++ ")" else ""

/-- The text of a header, with the blank before the brace. -/
def OperationHeader.text (h : OperationHeader) : String :=
  h.kind.word ++
    (match h.name? with
      | some name => " " ++ name
      | none => "") ++
    h.variablesText ++ directivesText 0 h.directives ++ " "

/-- The text of an operation before its brace. -/
def Operation.head (o : Operation) : String :=
  match o.header? with
  | some header => header.text
  | none => ""

/-- The text of a fragment before its brace. -/
def Fragment.head (f : Fragment) : String :=
  "fragment " ++ f.name ++ " on " ++ f.condition ++ directivesText 0 f.directives ++ " "

/-- Selections between braces, after what stands before them. -/
def braced (head : String) (selections : List Selection) : String :=
  head ++ "\x7b\n" ++ selectionsText 2 selections ++ "\x7d\n"

/-- The text of a definition. -/
def Definition.text : Definition → String
  | .operation o => braced o.head o.selections
  | .fragment f => braced f.head f.selections

/-- The text of a document. -/
def Document.print (d : Document) : String :=
  "\n".intercalate (d.definitions.map Definition.text)

end SchemaBridge.Graphql
