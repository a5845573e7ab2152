/-!
# Command/Options — what a command line asks for

The only command is `run`; before it stand no options.  An option's value is the next word, unless
that word begins with a dash, or is attached to the option: `--trace=t.json`, `-tt.json`,
`-t=t.json`.  Every option but `--sections` may be given once, and nothing else may stand on the
line.
-/

namespace Tomasulo.Command

/-- A run: what to read and what to print. -/
structure Options where
  /-- The file of the trace. -/
  trace : String
  /-- The file of the configuration. -/
  config : Option String := none
  /-- Print the timeline before the report. -/
  timeline : Bool := false
  /-- Print everything as JSON instead. -/
  json : Bool := false
  /-- The parts of the report; none means all. -/
  sections : List String := []
deriving DecidableEq, Repr

/-- The files a run reads. -/
def Options.files (o : Options) : List String :=
  o.config.toList ++ [o.trace]

/-- What a command line asks for. -/
inductive Request where
  | run (options : Options)
  | version
  | help
deriving DecidableEq, Repr

/-- Why a command line cannot be understood. -/
inductive UsageError where
  | noCommand
  | unknownCommand (word : String)
  | unexpected (word : String)
  | missingValue (option : String)
  | emptyValue (option : String)
  | needlessValue (option : String)
  | repeated (option : String)
  | noTrace
deriving DecidableEq, Repr

/-- What a wrong command line is told. -/
def UsageError.message : UsageError → String
  | .noCommand => "a command is required"
  | .unknownCommand word => s!"unrecognized command '{word}'"
  | .unexpected word => s!"unexpected argument '{word}'"
  | .missingValue option => s!"a value is required for '{option}'"
  | .emptyValue option => s!"an empty value is not allowed for '{option}'"
  | .needlessValue option => s!"no value is allowed for '{option}'"
  | .repeated option => s!"'{option}' cannot be used more than once"
  | .noTrace => "'--trace' is required"

/-! ## The options of a run -/

/-- The options of a run. -/
inductive Flag where
  | trace
  | config
  | timeline
  | json
  | sections
  | help
deriving DecidableEq, Repr

namespace Flag

/-- Every option. -/
def all : List Flag := [.trace, .config, .timeline, .json, .sections, .help]

/-- The long name of an option. -/
def name : Flag → String
  | .trace => "--trace"
  | .config => "--config"
  | .timeline => "--timeline"
  | .json => "--json"
  | .sections => "--sections"
  | .help => "--help"

/-- The letter of an option. -/
def letter? : Flag → Option Char
  | .trace => some 't'
  | .config => some 'c'
  | .help => some 'h'
  | _ => none

/-- Options that have a value. -/
def takesValue : Flag → Bool
  | .trace | .config | .sections => true
  | _ => false

end Flag

/-- What has been read of a run so far. -/
structure Draft where
  trace : Option String := none
  config : Option String := none
  timeline : Bool := false
  json : Bool := false
  sections : List String := []

namespace Draft

/-- A file named once. -/
def fileOnce (old : Option String) (flag : Flag) (value : String) :
    Except UsageError (Option String) :=
  if value.isEmpty then .error (.emptyValue flag.name)
  else if old.isSome then .error (.repeated flag.name)
  else .ok (some value)

/-- Adds an option and its value.  Parts of the report stand between commas. -/
def add (d : Draft) (flag : Flag) (value : String) : Except UsageError Draft :=
  match flag with
  | .trace => return { d with trace := ← fileOnce d.trace flag value }
  | .config => return { d with config := ← fileOnce d.config flag value }
  | .timeline =>
    if d.timeline then .error (.repeated flag.name) else .ok { d with timeline := true }
  | .json =>
    if d.json then .error (.repeated flag.name) else .ok { d with json := true }
  | .sections => .ok { d with sections := d.sections ++ value.splitOn "," }
  | .help => .ok d

/-- The finished run; a trace there must be. -/
def finish (d : Draft) : Except UsageError Options :=
  match d.trace with
  | none => .error .noTrace
  | some trace =>
    .ok { trace
          config := d.config
          timeline := d.timeline
          json := d.json
          sections := d.sections }

end Draft

/-! ## Words -/

/-- A word of the command line. -/
inductive Word where
  /-- Nothing but values may follow. -/
  | escape
  /-- An option by name, with the value attached to it. -/
  | long (name : String) (attached : Option String)
  /-- An option by letter, with what follows the letter. -/
  | short (letter : Char) (rest : List Char)
  | plain
deriving DecidableEq, Repr

/-- The kind of a word.  A dash alone is a plain word. -/
def Word.ofString (word : String) : Word :=
  match word.toList with
  | ['-', '-'] => .escape
  | '-' :: '-' :: name =>
    .long ("--" ++ String.ofList (name.takeWhile (· != '=')))
      (match name.dropWhile (· != '=') with
        | [] => none
        | _ :: value => some (String.ofList value))
  | '-' :: letter :: rest => .short letter rest
  | _ => .plain

/-- The option a word names, with the value attached to it. -/
def optionOf? : Word → Option (Flag × Option String)
  | .long name attached => (Flag.all.find? (·.name == name)).map (·, attached)
  | .short letter rest =>
    (Flag.all.find? (·.letter? == some letter)).map fun flag =>
      (flag, match rest with
        | [] => none
        | '=' :: value => some (String.ofList value)
        | value => some (String.ofList value))
  | _ => none

/-- Reads the words after `run`; nothing when they ask for help. -/
def readRun (d : Draft) : List String → Except UsageError (Option Options)
  | [] => return some (← d.finish)
  | word :: rest =>
    match Word.ofString word with
    | .plain => .error (.unexpected word)
    | .escape =>
      match rest with
      | [] => return some (← d.finish)
      | extra :: _ => .error (.unexpected extra)
    | option =>
      match optionOf? option, rest with
      | none, _ => .error (.unexpected word)
      | some (.help, attached), _ =>
        if attached.isSome && word.startsWith "--" then .error (.needlessValue word) else .ok none
      | some (flag, some value), rest => do
        if flag.takesValue then
          readRun (← d.add flag value) rest
        else
          .error (.needlessValue word)
      | some (flag, none), rest => do
        if !flag.takesValue then
          readRun (← d.add flag "") rest
        else
          match rest with
          | [] => .error (.missingValue word)
          | value :: rest =>
            match Word.ofString value with
            | .plain => readRun (← d.add flag value) rest
            | _ => .error (.missingValue word)

/-- **Reads a command line.** -/
def Request.ofArgs : List String → Except UsageError Request
  | [] => .error .noCommand
  | "run" :: rest => return ((← readRun {} rest).map Request.run).getD .help
  | ["help"] | ["help", "run"] | ["help", "help"] => .ok .help
  | "help" :: word :: _ => .error (.unknownCommand word)
  | word :: _ =>
    match Word.ofString word with
    | .long "--version" none => .ok .version
    | .long "--help" none => .ok .help
    | .short 'V' _ => .ok .version
    | .short 'h' _ => .ok .help
    | .plain => .error (.unknownCommand word)
    | _ => .error (.unexpected word)

end Tomasulo.Command
