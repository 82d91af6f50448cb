import SchemaBridge.Graphql.Document
import SchemaBridge.Graphql.Token
import SchemaBridge.Text.Front

/-!
# Reading documents

The grammar of executable documents over the tokens of a text, one reader for each of its
nouns. A reader refuses by `none`, and otherwise hands back what it read and the tokens left.

* `readLiteral?`, `readArguments?`, `readDirectives?`, `readType?`: the parts of headers and
  fields;
* `readSelectionSet?`: selections between braces, at least one;
* `readDefinition?`: an operation or a fragment;
* `Document.read?`: the document that a text denotes, which has at least one definition and
  nothing after the last one.
-/

namespace SchemaBridge.Graphql

open SchemaBridge.Text (Front)

/-! ### Literals -/

/-- The literal that a number denotes. -/
def Numeral.toLiteral : Numeral → Literal
  | .int n => .int n
  | .float x => .float x
  | .infinite negative => .infinite negative

/-- The literal that a name denotes. -/
def Literal.ofName (name : String) : Literal :=
  if name = "true" then .boolean true
  else if name = "false" then .boolean false
  else if name = "null" then .null
  else .enumeration name

mutual

/-- Reads a literal; a constant one holds no variables. -/
def readLiteral? (constant : Bool) (ts : List Token) : Option (Front Token Literal ts.length) :=
  match ts with
  | .name text :: rest => some ⟨.ofName text, rest, Text.length_lt_cons _ rest⟩
  | .number n :: rest => some ⟨n.toLiteral, rest, Text.length_lt_cons _ rest⟩
  | .string s :: rest => some ⟨.string s, rest, Text.length_lt_cons _ rest⟩
  | .punctuator '$' :: .name text :: rest =>
    if constant then none else some ⟨.reference text, rest, Text.length_lt_cons_cons _ _ rest⟩
  | .punctuator '[' :: rest =>
    (readItems? constant rest).map fun r => (r.map .list).widen (Text.length_le_cons _ rest)
  | .punctuator '\x7b' :: rest =>
    (readEntries? constant rest).map fun r =>
      (r.map fun es => .object (Entries.ofList es)).widen (Text.length_le_cons _ rest)
  | _ => none
termination_by (ts.length, 0)

/-- Reads the items of a list and its closing bracket. -/
def readItems? (constant : Bool) (ts : List Token) :
    Option (Front Token (List Literal) ts.length) :=
  match ts with
  | .punctuator ']' :: rest => some ⟨[], rest, Text.length_lt_cons _ rest⟩
  | ts =>
    match readLiteral? constant ts with
    | none => none
    | some ⟨item, rest, shorter⟩ =>
      (readItems? constant rest).map fun r => (r.map (item :: ·)).widen (Nat.le_of_lt shorter)
termination_by (ts.length, 1)

/-- Reads the entries of an object and its closing brace. -/
def readEntries? (constant : Bool) (ts : List Token) :
    Option (Front Token (List (String × Literal)) ts.length) :=
  match ts with
  | .punctuator '\x7d' :: rest => some ⟨[], rest, Text.length_lt_cons _ rest⟩
  | .name key :: .punctuator ':' :: rest =>
    match readLiteral? constant rest with
    | none => none
    | some ⟨value, rest', shorter⟩ =>
      (readEntries? constant rest').map fun r =>
        (r.map ((key, value) :: ·)).widen (by grind)
  | _ => none
termination_by (ts.length, 1)

end

/-! ### Arguments and directives -/

/-- Reads a given punctuator. -/
def readMark? (mark : Char) (ts : List Token) : Option (Front Token Unit ts.length) :=
  match ts with
  | .punctuator c :: rest => if c = mark then some ⟨(), rest, by simp⟩ else none
  | _ => none

/-- Reads the arguments up to the closing parenthesis, at least one. -/
def readArgumentList? (ts : List Token) : Option (Front Token Arguments ts.length) :=
  match ts with
  | .name key :: .punctuator ':' :: rest => do
    let ⟨value, rest₁, h₁⟩ ← readLiteral? false rest
    match readMark? ')' rest₁ with
    | some ⟨_, rest₂, h₂⟩ => some ⟨[(key, value)], rest₂, by grind⟩
    | none =>
      let r ← readArgumentList? rest₁
      return (r.map ((key, value) :: ·)).widen (by grind)
  | _ => none
termination_by ts.length

/-- Reads arguments between parentheses, or none. -/
def readArguments? (ts : List Token) : Option (Front Token Arguments (ts.length + 1)) :=
  match readMark? '(' ts with
  | some ⟨_, rest, h⟩ => (readArgumentList? rest).map fun r => r.widen (by omega)
  | none => some ⟨[], ts, by simp⟩

/-- Reads directives, as many as follow each other. -/
def readDirectives? (ts : List Token) :
    Option (Front Token (List Directive) (ts.length + 1)) :=
  match ts with
  | .punctuator '@' :: .name text :: rest => do
    let ⟨arguments, rest₁, h₁⟩ ← readArguments? rest
    let r ← readDirectives? rest₁
    return (r.map (⟨text, arguments⟩ :: ·)).widen (by grind)
  | .punctuator '@' :: _ => none
  | ts => some ⟨[], ts, by simp⟩
termination_by ts.length

/-! ### Types and variables -/

/-- Reads the mark `!` after a type, if it is there. -/
def readNonNull (type : TypeRef) (ts : List Token) : Front Token TypeRef (ts.length + 1) :=
  match readMark? '!' ts with
  | some ⟨_, rest, h⟩ => ⟨.nonNull type, rest, by omega⟩
  | none => ⟨type, ts, by simp⟩

/-- Reads a type. -/
def readType? (ts : List Token) : Option (Front Token TypeRef ts.length) :=
  match ts with
  | .name text :: rest => some ((readNonNull (.named text) rest).widen (by simp))
  | .punctuator '[' :: rest => do
    let ⟨item, rest₁, h₁⟩ ← readType? rest
    let ⟨_, rest₂, h₂⟩ ← readMark? ']' rest₁
    return (readNonNull (.list item) rest₂).widen (by grind)
  | _ => none
termination_by ts.length

/-- Reads a default value after `=`, if it is there. -/
def readDefault? (ts : List Token) : Option (Front Token (Option Literal) (ts.length + 1)) :=
  match readMark? '=' ts with
  | some ⟨_, rest, h⟩ => (readLiteral? true rest).map fun r => (r.map some).widen (by omega)
  | none => some ⟨none, ts, by simp⟩

/-- Reads one variable definition. -/
def readVariable? (ts : List Token) : Option (Front Token VariableDefinition ts.length) :=
  match ts with
  | .punctuator '$' :: .name text :: .punctuator ':' :: rest => do
    let ⟨type, rest₁, h₁⟩ ← readType? rest
    let ⟨default?, rest₂, h₂⟩ ← readDefault? rest₁
    return ⟨⟨text, type, default?⟩, rest₂, by grind⟩
  | _ => none

/-- Reads the variable definitions up to the closing parenthesis, at least one. -/
def readVariableList? (ts : List Token) :
    Option (Front Token (List VariableDefinition) ts.length) := do
  let ⟨v, rest₁, h₁⟩ ← readVariable? ts
  match readMark? ')' rest₁ with
  | some ⟨_, rest₂, h₂⟩ => some ⟨[v], rest₂, by omega⟩
  | none =>
    let r ← readVariableList? rest₁
    return (r.map (v :: ·)).widen (Nat.le_of_lt h₁)
termination_by ts.length

/-- Reads variable definitions between parentheses, or none. -/
def readVariables? (ts : List Token) :
    Option (Front Token (List VariableDefinition) (ts.length + 1)) :=
  match readMark? '(' ts with
  | some ⟨_, rest, h⟩ => (readVariableList? rest).map fun r => r.widen (by omega)
  | none => some ⟨[], ts, by simp⟩

/-! ### Selections -/

/-- Reads the name of a field, with an alias before it if a colon follows the first name. -/
def readFieldName? (ts : List Token) : Option (Front Token (Option String × String) ts.length) :=
  match ts with
  | .name label :: .punctuator ':' :: .name text :: rest =>
    some ⟨(some label, text), rest, by grind⟩
  | .name _ :: .punctuator ':' :: _ => none
  | .name text :: rest => some ⟨(none, text), rest, by simp⟩
  | _ => none

/-- Reads a field without its selections. -/
def readField? (ts : List Token) : Option (Front Token Field ts.length) := do
  let ⟨(alias?, name), rest₁, h₁⟩ ← readFieldName? ts
  let ⟨arguments, rest₂, h₂⟩ ← readArguments? rest₁
  let ⟨directives, rest₃, h₃⟩ ← readDirectives? rest₂
  return ⟨⟨alias?, name, arguments, directives⟩, rest₃, by omega⟩

mutual

/-- Reads one selection. -/
def readSelection? (ts : List Token) : Option (Front Token Selection ts.length) :=
  match ts with
  | .ellipsis :: .name "on" :: .name condition :: rest => do
    let ⟨directives, rest₁, h₁⟩ ← readDirectives? rest
    let ⟨_, rest₂, h₂⟩ ← readMark? '{' rest₁
    let r ← readSelections? rest₂
    return (r.map (.inlineFragment (some condition) directives)).widen (by grind)
  | .ellipsis :: .name "on" :: _ => none
  | .ellipsis :: .name fragment :: rest =>
    (readDirectives? rest).map fun r => (r.map (.spread fragment)).widen (by simp)
  | .ellipsis :: rest => do
    let ⟨directives, rest₁, h₁⟩ ← readDirectives? rest
    let ⟨_, rest₂, h₂⟩ ← readMark? '{' rest₁
    let r ← readSelections? rest₂
    return (r.map (.inlineFragment none directives)).widen (by grind)
  | ts => do
    let ⟨head, rest₁, h₁⟩ ← readField? ts
    match readMark? '{' rest₁ with
    | some ⟨_, rest₂, h₂⟩ =>
      let r ← readSelections? rest₂
      return (r.map (.field head)).widen (by omega)
    | none => return ⟨.field head [], rest₁, h₁⟩
termination_by (ts.length, 0)

/-- Reads selections up to the closing brace, at least one. -/
def readSelections? (ts : List Token) : Option (Front Token (List Selection) ts.length) := do
  let ⟨s, rest₁, h₁⟩ ← readSelection? ts
  match readMark? '}' rest₁ with
  | some ⟨_, rest₂, h₂⟩ => some ⟨[s], rest₂, by omega⟩
  | none =>
    let r ← readSelections? rest₁
    return (r.map (s :: ·)).widen (Nat.le_of_lt h₁)
termination_by (ts.length, 1)

end

/-- Reads selections between braces. -/
def readSelectionSet? (ts : List Token) : Option (Front Token (List Selection) ts.length) := do
  let ⟨_, rest, h⟩ ← readMark? '{' ts
  let r ← readSelections? rest
  return r.widen (Nat.le_of_lt h)

/-! ### Definitions -/

/-- The kind of operation that a name announces. -/
def OperationKind.ofName? (name : String) : Option OperationKind :=
  if name = "query" then some .query
  else if name = "mutation" then some .mutation
  else if name = "subscription" then some .subscription
  else none

/-- Reads a name, if one is there. -/
def readName (ts : List Token) : Front Token (Option String) (ts.length + 1) :=
  match ts with
  | .name text :: rest => ⟨some text, rest, by grind⟩
  | ts => ⟨none, ts, by simp⟩

/-- Reads an operation after the word that announces its kind. -/
def readOperation? (kind : OperationKind) (ts : List Token) :
    Option (Front Token Operation ts.length) := do
  let ⟨name?, rest₁, h₁⟩ := readName ts
  let ⟨definitions, rest₂, h₂⟩ ← readVariables? rest₁
  let ⟨directives, rest₃, h₃⟩ ← readDirectives? rest₂
  let ⟨selections, rest₄, h₄⟩ ← readSelectionSet? rest₃
  return ⟨⟨some ⟨kind, name?, definitions, directives⟩, selections⟩, rest₄, by omega⟩

/-- Reads a fragment after the word that announces it. -/
def readFragment? (ts : List Token) : Option (Front Token Fragment ts.length) :=
  match ts with
  | .name text :: .name "on" :: .name condition :: rest => do
    let ⟨directives, rest₁, h₁⟩ ← readDirectives? rest
    let ⟨selections, rest₂, h₂⟩ ← readSelectionSet? rest₁
    return ⟨⟨text, condition, directives, selections⟩, rest₂, by grind⟩
  | _ => none

/-- Reads one definition. -/
def readDefinition? (ts : List Token) : Option (Front Token Definition ts.length) :=
  match ts with
  | .name "fragment" :: rest =>
    (readFragment? rest).map fun r => (r.map .fragment).widen (Text.length_le_cons _ rest)
  | .name word :: rest => do
    let kind ← OperationKind.ofName? word
    let r ← readOperation? kind rest
    return (r.map .operation).widen (Text.length_le_cons _ rest)
  | ts => (readSelectionSet? ts).map fun r => r.map fun ss => .operation ⟨none, ss⟩

/-- Reads definitions to the end of the tokens, at least one. -/
def readDefinitions? (ts : List Token) : Option (List Definition) := do
  let ⟨d, rest, _⟩ ← readDefinition? ts
  if rest.isEmpty then return [d]
  return d :: (← readDefinitions? rest)
termination_by ts.length

/-- The document that a text denotes. -/
def Document.read? (text : String) : Option Document := do
  let tokens ← Token.scan? text.toList
  if withinNesting maxNesting tokens then (readDefinitions? tokens).map .mk else none

end SchemaBridge.Graphql
