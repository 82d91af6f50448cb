import SchemaBridge.Command.Arguments
import SchemaBridge.RuleSpec
import SchemaBridge.Text.Terminal

/-!
# Running a command

* `FileState`, `readText`: what is found under a path, and the text there;
* `CommandFailure`: what can go wrong, and `CommandFailure.message` says it;
* `adaptTexts`: applies the rules of a text to a query, its variables and its response;
* `run`: does what a command line asks for. Files are read through a given reader, so that
  nothing else is needed from outside;
* `chooseLevel`, `logLine`: the level and the lines of the log.
-/

namespace SchemaBridge.Command

/-! ### Files -/

/-- What is found under a path. -/
inductive FileState where
  | content (bytes : ByteArray)
  | notFile
  | unreadable (reason : String)

/-- What can go wrong with a command. -/
inductive CommandFailure where
  | notFile (path : String)
  | unreadable (path reason : String)
  | notText (path : String)
  | malformedRules
  | invalidRule (error : RuleError)
  | malformedVariables
  | malformedResponse
  | exchange (failure : Failure)

/-- The wording of a failure, with the cause of a failed conversion repeated after it. -/
def CommandFailure.message : CommandFailure → String
  | notFile path => Text.quoted path ++ " is not a file"
  | unreadable path reason => "Failed to read " ++ Text.quoted path ++ ": " ++ reason
  | notText path => Text.quoted path ++ " is not valid UTF-8"
  | malformedRules => "Rewrite rules must be a JSON array of rule objects"
  | invalidRule error => error.message
  | malformedVariables => "Variables must be a JSON object"
  | malformedResponse => "The response must be valid JSON"
  | exchange failure =>
    match failure with
    | .coercion _ cause => failure.message ++ ": " ++ cause.message
    | _ => failure.message

/-- The text of a file. -/
def readText (path : String) (state : FileState) : Except CommandFailure String :=
  match state with
  | .notFile => .error (.notFile path)
  | .unreadable reason => .error (.unreadable path reason)
  | .content bytes =>
    match String.fromUTF8? bytes with
    | some text => .ok text
    | none => .error (.notText path)

/-! ### Adapting texts -/

/-- The texts that a command works on. -/
structure Texts where
  rules : String
  query : String
  variables? : Option String
  response? : Option String

/-- What a command makes of its texts. -/
structure Output where
  query : String
  values : Option Json.Object
  response? : Option Json.Value

/-- The output as one object, in a fixed order of keys. Missing variables are `null`, and a
missing response is left out. -/
def Output.toJson (o : Output) : Json.Value :=
  let values := match o.values with
    | some values => Json.Value.object values
    | none => .null
  let response := match o.response? with
    | some v => [("response", v)]
    | none => []
  .object ([("query", .string o.query), ("variables", values)] ++ response)

/-- The value of an optional text, if it has one. -/
def readOptional {α : Type} (read? : String → Option α) (failure : CommandFailure) :
    Option String → Except CommandFailure (Option α)
  | none => .ok none
  | some text =>
    match read? text with
    | some value => .ok (some value)
    | none => .error failure

/-- The object that a text denotes. -/
def readObject? (text : String) : Option Json.Object :=
  match Json.read? text with
  | some (.object entries) => some entries
  | _ => none

/-- The request and then the response of an exchange, with the events of both. -/
def runExchange (exchange : Exchange) (query : String) (values : Option Json.Object)
    (response? : Option Json.Value) : Except CommandFailure Output × List Event :=
  let (exchange, sent) := exchange.request query values
  match sent.outcome with
  | .error failure => (.error (.exchange failure), sent.log)
  | .ok request =>
    match response? with
    | none => (.ok ⟨request.query, request.values, none⟩, sent.log)
    | some body =>
      let (_, restored) := exchange.responseBody body
      (match restored.outcome with
        | .error failure => .error (.exchange failure)
        | .ok v => .ok ⟨request.query, request.values, some v⟩,
        sent.log ++ restored.log)

/-- The specifications of the rules of a text and an exchange under them. -/
def loadRules (text : String) : Except CommandFailure (List RuleSpec × Exchange) :=
  match RuleSpec.readAll? text with
  | none => .error .malformedRules
  | some specs =>
    match Exchange.ofSpecs specs with
    | .error e => .error (.invalidRule e)
    | .ok exchange => .ok (specs, exchange)

/-- Applies the rules of a text to a query, its variables and its response. -/
def adaptTexts (texts : Texts) : Except CommandFailure Output × List Event :=
  match loadRules texts.rules with
  | .error failure => (.error failure, [])
  | .ok (specs, exchange) =>
    let inputs : Except CommandFailure (Option Json.Object × Option Json.Value) := do
      let values ← readOptional readObject? .malformedVariables texts.variables?
      let response? ← readOptional Json.read? .malformedResponse texts.response?
      return (values, response?)
    match inputs with
    | .error failure => (.error failure, [.rulesLoaded specs.length])
    | .ok (values, response?) =>
      let (outcome, log) := runExchange exchange texts.query values response?
      (outcome, .rulesLoaded specs.length :: log)

/-! ### Commands -/

/-- What a command leaves behind. -/
structure Outcome where
  exitCode : Nat
  stdout : String
  stderr : String
  log : List Event

/-- The text shown when help is asked for. -/
def helpText : String :=
  "Utilities for working with GraphQL documents.\n\n" ++
  "Usage: graphql [OPTIONS] [COMMAND]\n\n" ++
  "Commands:\n" ++
  "  rewrite  Apply rules to a query, its values and its response\n" ++
  "  help     Print this message\n\n" ++
  "Options:\n" ++
  "  -v, --verbose  Enable verbose output.\n" ++
  "      --compact  Print JSON output on a single line instead of pretty-printing it.\n" ++
  "  -h, --help     Print help\n" ++
  "  -V, --version  Print version\n"

/-- The text shown when the version is asked for. -/
def versionText : String := "graphql 0.1.1\n"

/-- The text shown when a command line does not fit. -/
def misuseText : String :=
  "error: the arguments do not fit together\n\nFor more information, try '--help'.\n"

/-- The level that a word names. -/
def levelOfWord? (word : String) : Option Level :=
  if word = "ERROR" ∨ word = "error" then some .error
  else if word = "WARN" ∨ word = "warn" then some .warn
  else if word = "INFO" ∨ word = "info" then some .info
  else if word = "DEBUG" ∨ word = "debug" then some .debug
  else if word = "TRACE" ∨ word = "trace" then some .trace
  else if word = "VERBOSE" ∨ word = "verbose" then some .debug
  else none

/-- The level of the log, and the events of choosing it. A verbose command asks for `debug`,
otherwise the environment may name a level, and the default is `info`. -/
def chooseLevel (verbose : Bool) (environment : Option String) : Level × List Event :=
  if verbose then (.debug, [.levelChosen .debug])
  else
    match environment with
    | none => (.info, [.levelChosen .info])
    | some text =>
      let word := String.ofList (Text.trim text.toList)
      match levelOfWord? word with
      | some level => (level, [.levelChosen level])
      | none => (.info, [.levelChosen .info, .levelUnknown word])

/-- The line of a log for an event. -/
def logLine (e : Event) : String :=
  e.level.word ++ " " ++ e.target ++ ": " ++ Text.terminalText e.message

/-- Reads a file, if its path is given. -/
def readOptionalFile {m : Type → Type} [Monad m] (readFile : String → m FileState) :
    Option String → ExceptT CommandFailure m (Option String)
  | none => return none
  | some path => do
    let text ← readText path (← readFile path)
    return some text

/-- Reads the files that a command works on, in order, up to the first that cannot be read. -/
def readTexts {m : Type → Type} [Monad m] (readFile : String → m FileState) (paths : Paths) :
    ExceptT CommandFailure m Texts := do
  let rules ← readText paths.rules (← readFile paths.rules)
  let query ← readText paths.query (← readFile paths.query)
  let variables? ← readOptionalFile readFile paths.variables?
  let response? ← readOptionalFile readFile paths.response?
  return ⟨rules, query, variables?, response?⟩

/-- The outcome of adapting the texts of some files. -/
def report (compact : Bool) (paths : Paths) (log : List Event) :
    Except CommandFailure Output → Outcome
  | .error failure =>
    ⟨1, "", "❌ Failed to rewrite " ++ Text.quoted paths.query ++ ": " ++ failure.message ++ "\n",
      log⟩
  | .ok output =>
    let json := output.toJson
    ⟨0, (if compact then json.compact else json.pretty) ++ "\n", "", log⟩

/-- Does what a command line asks for. The log holds the events of the chosen level. -/
def run {m : Type → Type} [Monad m] (readFile : String → m FileState)
    (environment : Option String) (words : List String) : m Outcome :=
  match Invocation.ofArguments words with
  | .misuse => return ⟨2, "", misuseText, []⟩
  | .help => return ⟨0, helpText, "", []⟩
  | .version => return ⟨0, versionText, "", []⟩
  | .bare verbose =>
    let (level, events) := chooseLevel verbose environment
    return ⟨0, helpText, "", events.filter fun e => level.admits e.level⟩
  | .adapt verbose compact paths => do
    let (level, events) := chooseLevel verbose environment
    let admitted := fun (log : List Event) =>
      (events ++ .rulesLoading paths.rules :: log).filter fun e => level.admits e.level
    match ← (readTexts readFile paths).run with
    | .error failure => return report compact paths (admitted []) (.error failure)
    | .ok texts =>
      let (outcome, log) := adaptTexts texts
      return report compact paths (admitted log) outcome

end SchemaBridge.Command
