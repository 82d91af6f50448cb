import SchemaBridge.Graphql.TypeRef
import SchemaBridge.Text.Digit
import SchemaBridge.Text.Quoted

/-!
# Log events

What the library reports while it works.

* `Level`: how grave an event is, and which levels a chosen level lets through;
* `Event`: the events, from skipped spreads to loaded rules;
* `Event.level`, `Event.target`, `Event.message`: how an event appears in a log.
-/

namespace SchemaBridge

/-- How grave an event is. -/
inductive Level where
  | error
  | warn
  | info
  | debug
  | trace
deriving DecidableEq, Repr

namespace Level

/-- The word for a level. -/
def word : Level → String
  | error => "ERROR"
  | warn => "WARN"
  | info => "INFO"
  | debug => "DEBUG"
  | trace => "TRACE"

/-- Levels counted from the gravest one. -/
def rank : Level → Nat
  | error => 0
  | warn => 1
  | info => 2
  | debug => 3
  | trace => 4

/-- Whether events of a level appear when a level is chosen. -/
def admits (chosen level : Level) : Bool :=
  level.rank ≤ chosen.rank

end Level

/-- Something worth reporting. -/
inductive Event where
  /-- A spread leads back to a fragment that is being expanded. -/
  | cyclicSpread (fragment : String)
  /-- A spread refers to no fragment of the document. -/
  | undefinedSpread (fragment : String)
  /-- An argument that a rule is about has a literal value. -/
  | literalArgument (field argument : String) (path : List String)
  /-- A variable was declared with another type. -/
  | variableRetyped (variableName : String) (oldType newType : Graphql.TypeRef)
  /-- The value of a variable was converted. -/
  | valueCoerced (variableName : String)
  /-- An argument was not renamed because its new name is taken. -/
  | argumentKept (field oldName newName : String)
  /-- An argument was renamed. -/
  | argumentRenamed (field oldName newName : String)
  /-- Fields were renamed. -/
  | fieldsRenamed (count : Nat) (oldName newName : String)
  /-- All rules were applied to a request. -/
  | requestAdapted (rules definitions : Nat)
  /-- All rules were undone in a response. -/
  | responseRestored (rules : Nat)
  /-- The log level was chosen. -/
  | levelChosen (level : Level)
  /-- The environment names a log level that does not exist. -/
  | levelUnknown (text : String)
  /-- Something that a rule outside this library reports. -/
  | note (level : Level) (target message : String)
  /-- A file of rules is about to be read. -/
  | rulesLoading (path : String)
  /-- Rules were read and found valid. -/
  | rulesLoaded (count : Nat)
deriving DecidableEq, Repr

namespace Event

/-- The level of an event. -/
def level : Event → Level
  | requestAdapted .. | responseRestored .. | rulesLoading .. | rulesLoaded .. => .debug
  | levelUnknown .. => .warn
  | note level _ _ => level
  | _ => .trace

/-- The part of the program that an event is attributed to. -/
def target : Event → String
  | cyclicSpread .. | undefinedSpread .. => "graphql_query_rewriter::field_matcher"
  | literalArgument .. | variableRetyped .. | valueCoerced .. =>
    "graphql_query_rewriter::rewriters::field_arg_type_rewriter"
  | argumentKept .. | argumentRenamed .. =>
    "graphql_query_rewriter::rewriters::field_arg_name_rewriter"
  | fieldsRenamed .. => "graphql_query_rewriter::rewriters::field_name_rewriter"
  | requestAdapted .. | responseRestored .. => "graphql_query_rewriter::rewrite_handler"
  | levelChosen .. | levelUnknown .. => "graphql"
  | rulesLoading .. | rulesLoaded .. => "graphql::commands::rewrite"
  | note _ target _ => target

/-- A number in decimal. -/
def countText (n : Nat) : String :=
  String.ofList (Text.digitsOf n)

/-- The wording of an event. -/
def message : Event → String
  | cyclicSpread fragment => "Not re-expanding cyclic spread of fragment `" ++ fragment ++ "`."
  | undefinedSpread fragment => "Skipping spread of undefined fragment `" ++ fragment ++ "`."
  | literalArgument field argument path =>
    "Skipping `" ++ field ++ "(" ++ argument ++ ": ...)` at `" ++ ".".intercalate path ++
      "`: argument value is a literal rather than a variable."
  | variableRetyped variableName oldType newType =>
    "Rewrote declared type of `$" ++ variableName ++ "` from `" ++ oldType.display ++ "` to `" ++
      newType.display ++ "`."
  | valueCoerced variableName => "Coerced the value of `$" ++ variableName ++ "`."
  | argumentKept field oldName newName =>
    "Not renaming `" ++ field ++ "(" ++ oldName ++
      ": ...)`: it already has an argument named `" ++ newName ++ "`."
  | argumentRenamed field oldName newName =>
    "Renamed argument `" ++ field ++ "(" ++ oldName ++ ": ...)` to `" ++ newName ++ "`."
  | fieldsRenamed count oldName newName =>
    "Renamed " ++ countText count ++ " selection(s) of field `" ++ oldName ++ "` to `" ++
      newName ++ "`."
  | requestAdapted rules definitions =>
    "Rewrote request with " ++ countText rules ++ " rewriter(s) across " ++
      countText definitions ++ " definition(s)."
  | responseRestored rules => "Rewrote response with " ++ countText rules ++ " rewriter(s)."
  | levelChosen level => "Initial logging level set to `" ++ level.word ++ "`."
  | levelUnknown text => "Invalid `LOG_LEVEL` environment variable value: `" ++ text ++ "`"
  | note _ _ message => message
  | rulesLoading path => "Loading rewrite rules from " ++ Text.quoted path ++ "."
  | rulesLoaded count => "Loaded " ++ countText count ++ " rewrite rule(s)."

end Event

end SchemaBridge
