/-!
# Command lines

What the words after the program's name ask for.

* `Invocation`: what is asked for;
* `Invocation.ofArguments`: reads the words from left to right. The first request for help or
  for the version settles the matter, and so does the first word that does not fit;
* `readOptions`: the words after the subcommand: options with a value, which may be attached to
  them, one positional word, and after `--` nothing but positional words.
-/

namespace SchemaBridge.Command

/-- The files that the subcommand works on. -/
structure Paths where
  rules : String
  query : String
  variables? : Option String
  response? : Option String
deriving DecidableEq, Repr

/-- What a command line asks for. -/
inductive Invocation where
  /-- The words do not fit together. -/
  | misuse
  /-- Help was asked for. -/
  | help
  /-- The version was asked for. -/
  | version
  /-- No subcommand was named. -/
  | bare (verbose : Bool)
  /-- A request and perhaps a response are to be adapted. -/
  | adapt (verbose compact : Bool) (paths : Paths)
deriving DecidableEq, Repr

/-! ### Words after the subcommand -/

/-- An option with a value. -/
inductive ValueOption where
  | rules
  | values
  | response
deriving DecidableEq, Repr

/-- The option with a long name. -/
def ValueOption.ofName? (name : String) : Option ValueOption :=
  if name = "rules" then some .rules
  else if name = "variables" then some .values
  else if name = "response" then some .response
  else none

/-- What has been read of the words after the subcommand. -/
structure Options where
  rules? : Option String
  query? : Option String
  variables? : Option String
  response? : Option String
  compact : Bool
deriving DecidableEq, Repr

/-- Nothing read yet. -/
def Options.empty : Options :=
  ⟨none, none, none, none, false⟩

/-- The options with a value for one of them. Empty values and second values are refused. -/
def Options.set? (o : Options) (option : ValueOption) (value : String) : Option Options :=
  if value.isEmpty then none
  else
    match option with
    | .rules => if o.rules?.isSome then none else some { o with rules? := some value }
    | .values => if o.variables?.isSome then none else some { o with variables? := some value }
    | .response => if o.response?.isSome then none else some { o with response? := some value }

/-- The options with the positional word, which may be given once and is not empty. -/
def Options.setQuery? (o : Options) (value : String) : Option Options :=
  if value.isEmpty || o.query?.isSome then none else some { o with query? := some value }

/-- The options with compact output, which may be asked for once. -/
def Options.setCompact? (o : Options) : Option Options :=
  if o.compact then none else some { o with compact := true }

/-- What a word after the subcommand is. An option may await its value in the next word. -/
inductive Word where
  | separator
  | help
  | compact
  | awaiting (option : ValueOption)
  | attached (option : ValueOption) (value : String)
  | positional (text : String)
  | unknown
deriving DecidableEq, Repr

/-- A long option by its name and the value attached to it. -/
def Word.ofLong (name : String) (value? : Option String) : Word :=
  match ValueOption.ofName? name, value? with
  | some option, some value => .attached option value
  | some option, none => .awaiting option
  | none, some _ => .unknown
  | none, none => if name = "help" then .help else if name = "compact" then .compact else .unknown

/-- A text before and after its first equals sign; `none` if it has none. -/
def splitAtEquals (cs : List Char) : String × Option String :=
  match cs.span (· ≠ '=') with
  | (name, _ :: value) => (String.ofList name, some (String.ofList value))
  | (name, []) => (String.ofList name, none)

/-- What a word is, by the characters at its front. -/
def Word.ofText (text : String) : Word :=
  match text.toList with
  | ['-', '-'] => .separator
  | '-' :: '-' :: rest =>
    let (name, value?) := splitAtEquals rest
    .ofLong name value?
  | ['-', 'r'] => .awaiting .rules
  | '-' :: 'r' :: '=' :: rest => .attached .rules (String.ofList rest)
  | '-' :: 'r' :: rest => .attached .rules (String.ofList rest)
  | '-' :: 'h' :: _ => .help
  | '-' :: _ :: _ => .unknown
  | _ => .positional text

/-- Whether a word can be the value of the option before it. -/
def canBeValue (text : String) : Bool :=
  match Word.ofText text with
  | .positional _ => true
  | _ => false

/-- What comes of the words after the subcommand: the options, or what settles the matter. -/
inductive Reading where
  | options (options : Options)
  | settled (invocation : Invocation)
deriving DecidableEq, Repr

/-- Reads positional words only. -/
def readPositional (o : Options) : List String → Reading
  | [] => .options o
  | word :: rest =>
    match o.setQuery? word with
    | some o' => readPositional o' rest
    | none => .settled .misuse

/-- Reads the words after the subcommand. -/
def readOptions (o : Options) : List String → Reading
  | [] => .options o
  | word :: rest =>
    match Word.ofText word with
    | .separator => readPositional o rest
    | .help => .settled .help
    | .unknown => .settled .misuse
    | .compact =>
      match o.setCompact? with
      | some o' => readOptions o' rest
      | none => .settled .misuse
    | .attached option value =>
      match o.set? option value with
      | some o' => readOptions o' rest
      | none => .settled .misuse
    | .positional text =>
      match o.setQuery? text with
      | some o' => readOptions o' rest
      | none => .settled .misuse
    | .awaiting option =>
      match rest with
      | [] => .settled .misuse
      | value :: rest' =>
        if canBeValue value then
          match o.set? option value with
          | some o' => readOptions o' rest'
          | none => .settled .misuse
        else .settled .misuse

/-! ### Words before the subcommand -/

/-- The flags before the subcommand. -/
structure Flags where
  verbose : Bool
  compact : Bool
deriving DecidableEq, Repr

/-- What the words after the subcommand ask for, under the flags before it. -/
def Flags.adapt (flags : Flags) (words : List String) : Invocation :=
  match readOptions .empty words with
  | .settled invocation => invocation
  | .options o =>
    match o.rules?, o.query? with
    | some rules, some query =>
      .adapt flags.verbose (flags.compact || o.compact)
        ⟨rules, query, o.variables?, o.response?⟩
    | _, _ => .misuse

/-- What is asked for after the word `help`: help on a subcommand that exists. -/
def helpOn : List String → Invocation
  | [] => .help
  | [word] => if word = "rewrite" ∨ word = "help" then .help else .misuse
  | _ => .misuse

/-- Reads a group of short flags: the flags with them, or what settles the matter. -/
def readShortFlags (flags : Flags) : List Char → Flags ⊕ Invocation
  | [] => .inl flags
  | 'h' :: _ => .inr .help
  | 'V' :: _ => .inr .version
  | 'v' :: rest =>
    if flags.verbose then .inr .misuse else readShortFlags { flags with verbose := true } rest
  | _ => .inr .misuse

/-- Reads the words of a command line, under the flags before them. -/
def readFlags (flags : Flags) : List String → Invocation
  | [] => .bare flags.verbose
  | word :: rest =>
    if word = "rewrite" then flags.adapt rest
    else if word = "help" then helpOn rest
    else if word = "--" then if rest.isEmpty then .bare flags.verbose else .misuse
    else if word = "--help" then .help
    else if word = "--version" then .version
    else if word = "--verbose" then
      if flags.verbose then .misuse else readFlags { flags with verbose := true } rest
    else if word = "--compact" then
      if flags.compact then .misuse else readFlags { flags with compact := true } rest
    else
      match word.toList with
      | '-' :: '-' :: _ => .misuse
      | '-' :: c :: cs =>
        match readShortFlags flags (c :: cs) with
        | .inl flags' => readFlags flags' rest
        | .inr invocation => invocation
      | _ => .misuse

/-- What the words after the program's name ask for. -/
def Invocation.ofArguments (words : List String) : Invocation :=
  readFlags ⟨false, false⟩ words

end SchemaBridge.Command
