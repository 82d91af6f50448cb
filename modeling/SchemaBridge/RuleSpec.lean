import SchemaBridge.Exchange
import SchemaBridge.Json.Reader
import SchemaBridge.Rule.ArgumentName
import SchemaBridge.Rule.ArgumentType
import SchemaBridge.Rule.FieldName
import SchemaBridge.Text.Blank

/-!
# Rule specifications

Rules as they are written down in JSON.

* `RuleSpec`: a rule by its texts;
* `RuleSpec.encode`, `RuleSpec.decode?`: the JSON form. A rule is an object with the entry
  `kind` and one entry an option, or an array of the kind and the options in order;
* `StandardRule`: a rule that can be applied, and `RuleSpec.build` makes it: the names must not
  be blank, and the types must be types;
* `RuleError.message`: why a specification describes no rule.
-/

namespace SchemaBridge

open Graphql (TypeRef TypeRefError)

/-- A rule by its texts. -/
inductive RuleSpec where
  | argumentType (field argument oldType newType : String) (coercion? : Option Coercion)
  | argumentName (field oldName newName : String)
  | fieldName (oldName newName : String)
deriving DecidableEq, Repr

/-! ### Names of kinds and options -/

/-- The key under which an object states the kind of its rule. -/
def kindKey : String := "kind"

/-- The key under which an object states the coercion of its rule. -/
def coercionKey : String := "coerceVariable"

/-- The kinds of rules. -/
inductive RuleKind where
  | argumentType
  | argumentName
  | fieldName
deriving DecidableEq, Repr

namespace RuleKind

/-- The name of a kind in JSON. -/
def name : RuleKind → String
  | argumentType => "fieldArgType"
  | argumentName => "fieldArgName"
  | fieldName => "fieldName"

/-- The kind with a name. -/
def ofName? (s : String) : Option RuleKind :=
  if s = argumentType.name then some argumentType
  else if s = argumentName.name then some argumentName
  else if s = fieldName.name then some fieldName
  else none

/-- The keys of the options that are texts, in order. -/
def textKeys : RuleKind → List String
  | argumentType => ["fieldName", "argName", "oldType", "newType"]
  | argumentName => ["fieldName", "oldArgName", "newArgName"]
  | fieldName => ["oldFieldName", "newFieldName"]

/-- The name of a kind in messages. -/
def title : RuleKind → String
  | argumentType => "FieldArgTypeRewriter"
  | argumentName => "FieldArgNameRewriter"
  | fieldName => "FieldNameRewriter"

end RuleKind

/-! ### Decoding coercions -/

/-- The coercion that a value names: by a string, or by the one key of an object with the value
`null` under it. -/
def Coercion.decode? : Json.Value → Option Coercion
  | .string s => Coercion.ofName? s
  | .object [(s, .null)] => Coercion.ofName? s
  | _ => none

/-- The coercion that an option of a rule names, where `null` stands for none. Besides `null` an
empty object may stand under the one key. -/
def Coercion.decodeOption? : Json.Value → Option (Option Coercion)
  | .null => some none
  | .object [(s, .object [])] => (Coercion.ofName? s).map some
  | v => (Coercion.decode? v).map some

namespace RuleSpec

/-! ### Encoding -/

/-- The kind of a rule. -/
def kind : RuleSpec → RuleKind
  | argumentType .. => .argumentType
  | argumentName .. => .argumentName
  | fieldName .. => .fieldName

/-- The options of a rule that are texts, in order. -/
def texts : RuleSpec → List String
  | argumentType field argument oldType newType _ => [field, argument, oldType, newType]
  | argumentName field oldName newName => [field, oldName, newName]
  | fieldName oldName newName => [oldName, newName]

/-- The coercion of a rule. -/
def coercion? : RuleSpec → Option Coercion
  | argumentType _ _ _ _ coercion? => coercion?
  | _ => none

/-- The JSON object of a rule. An absent coercion is left out. -/
def encode (spec : RuleSpec) : Json.Value :=
  let options := spec.kind.textKeys.zip (spec.texts.map .string)
  let coercion := match spec.coercion? with
    | some c => [(coercionKey, .string c.name)]
    | none => []
  .object (Entries.ofList ((kindKey, .string spec.kind.name) :: options ++ coercion))

/-! ### Decoding -/

/-- The values under a key, in order. -/
def valuesUnder (key : String) (entries : List (String × Json.Value)) : List Json.Value :=
  (entries.filter fun (k, _) => k = key).map (·.2)

/-- The text under a key that occurs once. -/
def textUnder? (entries : List (String × Json.Value)) (key : String) : Option String :=
  match valuesUnder key entries with
  | [.string s] => some s
  | _ => none

/-- The coercion under its key, which occurs at most once. -/
def coercionUnder? (entries : List (String × Json.Value)) : Option (Option Coercion) :=
  match valuesUnder coercionKey entries with
  | [] => some none
  | [v] => Coercion.decodeOption? v
  | _ => none

/-- The text of a string. -/
def textOf? : Json.Value → Option String
  | .string s => some s
  | _ => none

/-- The rule of a kind with options that are texts, in order. -/
def ofTexts? (kind : RuleKind) (texts : List String) (coercion? : Option Coercion) :
    Option RuleSpec :=
  match kind, texts with
  | .argumentType, [field, argument, oldType, newType] =>
    some (.argumentType field argument oldType newType coercion?)
  | .argumentName, [field, oldName, newName] => some (.argumentName field oldName newName)
  | .fieldName, [oldName, newName] => some (.fieldName oldName newName)
  | _, _ => none

/-- The coercion for a rule of a kind; kinds without that option have none. -/
def coercionFor? (kind : RuleKind) (entries : List (String × Json.Value)) :
    Option (Option Coercion) :=
  if kind = .argumentType then coercionUnder? entries else some none

/-- The rule of an object. Entries that are no options of the kind are ignored, and options must
occur once. -/
def ofEntries? (entries : List (String × Json.Value)) : Option RuleSpec := do
  let kind ← RuleKind.ofName? (← textUnder? entries kindKey)
  let texts ← kind.textKeys.mapM (textUnder? entries)
  let coercion? ← coercionFor? kind entries
  ofTexts? kind texts coercion?

/-- The coercion for a rule of a kind, in what follows the texts of an array. -/
def coercionAfter? (kind : RuleKind) : List Json.Value → Option (Option Coercion)
  | [] => some none
  | [v] => if kind = .argumentType then Coercion.decodeOption? v else none
  | _ => none

/-- The rule of an array after its kind. The coercion may be left off. -/
def ofItems? (kind : RuleKind) (items : List Json.Value) : Option RuleSpec := do
  let count := kind.textKeys.length
  let texts ← (items.take count).mapM textOf?
  let coercion? ← coercionAfter? kind (items.drop count)
  ofTexts? kind texts coercion?

/-- The rule that a value describes. -/
def decode? : Json.Value → Option RuleSpec
  | .object entries => ofEntries? entries
  | .array (.string name :: items) => do ofItems? (← RuleKind.ofName? name) items
  | _ => none

/-- The rules that an array describes. -/
def decodeAll? : Json.Value → Option (List RuleSpec)
  | .array items => items.mapM decode?
  | _ => none

/-- The rules that a text describes. -/
def readAll? (text : String) : Option (List RuleSpec) :=
  (Json.readOrdered? text).bind decodeAll?

end RuleSpec

/-! ### Rules that can be applied -/

/-- A rule of one of the kinds. -/
inductive StandardRule where
  | argumentType (rule : ArgumentRetype)
  | argumentName (rule : ArgumentRename)
  | fieldName (rule : FieldRename)

/-- The rule for an exchange. -/
def StandardRule.toRule : StandardRule → Rule
  | argumentType rule => rule.toRule
  | argumentName rule => rule.toRule
  | fieldName rule => rule.toRule

/-- Why a specification describes no rule. -/
inductive RuleError where
  | emptyName (option : String) (kind : RuleKind)
  | invalidType (error : TypeRefError)
deriving DecidableEq, Repr

/-- The wording of the error. -/
def RuleError.message : RuleError → String
  | emptyName option kind =>
    "The `" ++ option ++ "` option of a " ++ kind.title ++ " rule must not be empty."
  | invalidType error => error.message

/-- A name that is not blank. -/
def requireName (kind : RuleKind) (option name : String) : Except RuleError String :=
  if Text.isBlankText name then .error (.emptyName option kind) else .ok name

/-- A type. -/
def requireType (text : String) : Except RuleError TypeRef :=
  match TypeRef.parse text with
  | .ok type => .ok type
  | .error e => .error (.invalidType e)

/-- The rule that an argument has another type. The name of the argument is looked at before the
name of the field, and the new type before the old one. -/
def ArgumentRetype.make (field argument oldType newType : String)
    (converter? : Option Converter) : Except RuleError ArgumentRetype := do
  let argument ← requireName .argumentType "argName" argument
  let field ← requireName .argumentType "fieldName" field
  let newType ← requireType newType
  let oldType ← requireType oldType
  return ⟨field, argument, oldType, newType, converter?⟩

/-- The rule that an argument has another name. -/
def ArgumentRename.make (field oldName newName : String) : Except RuleError ArgumentRename := do
  let field ← requireName .argumentName "fieldName" field
  let newName ← requireName .argumentName "newArgName" newName
  let oldName ← requireName .argumentName "oldArgName" oldName
  return ⟨field, oldName, newName⟩

/-- The rule that a field has another name. -/
def FieldRename.make (oldName newName : String) : Except RuleError FieldRename := do
  let newName ← requireName .fieldName "newFieldName" newName
  let oldName ← requireName .fieldName "oldFieldName" oldName
  return ⟨oldName, newName⟩

/-- The conversion by a coercion. -/
def Coercion.toConverter (c : Coercion) : Converter := fun v =>
  (c.apply v).mapError .coercion

namespace RuleSpec

/-- The rule that a specification describes. -/
def build : RuleSpec → Except RuleError StandardRule
  | argumentType field argument oldType newType coercion? => do
    return .argumentType
      (← ArgumentRetype.make field argument oldType newType (coercion?.map Coercion.toConverter))
  | argumentName field oldName newName => do
    return .argumentName (← ArgumentRename.make field oldName newName)
  | fieldName oldName newName => do
    return .fieldName (← FieldRename.make oldName newName)

/-- The rules that specifications describe, or the error of the first one that describes none. -/
def buildAll (specs : List RuleSpec) : Except RuleError (List StandardRule) :=
  specs.mapM build

end RuleSpec

/-- The exchange under the rules that specifications describe. -/
def Exchange.ofSpecs (specs : List RuleSpec) : Except RuleError Exchange := do
  return .start ((← RuleSpec.buildAll specs).map StandardRule.toRule)

end SchemaBridge
