import Tomasulo.Command.Options
import Tomasulo.Config.Json
import Tomasulo.Simulation
import Tomasulo.Stats.Json
import Tomasulo.Stats.Report
import Tomasulo.Trace.Json
import Tomasulo.Trace.Timeline

/-!
# Command — the program behind the command line

A run reads the configuration, then the trace, then simulates, and prints only when all of that has
succeeded (`Command.output`).  What it finds in files comes in through a function from paths to
texts, so that the program is a function from command lines and files to an `Outcome`.
-/

namespace Tomasulo

/-! ## Wording -/

/-- What a defect of a text is told. -/
def Json.Defect.message : Json.Defect → String
  | .truncated => "the text ends too early"
  | .malformed => "the text is not JSON"
  | .mismatched => "the text does not hold the expected value"

/-- What a stop is told. -/
def Halt.message : Halt → String
  | .rejected reason => reason.message
  | .fault cause => cause.message
  | .overrun => "the cycle budget is spent"

namespace Command

/-- Why a run failed. -/
inductive Failure where
  | configFile (path : String) (e : FileError)
  | configText (path : String) (d : Json.Defect)
  | config (e : InvalidConfig)
  | trace (path : String) (e : LoadError)
  | halted (cycle : Nat) (halt : Halt)
deriving DecidableEq, Repr

/-- What a failure is told; `defect` words what is wrong with a text. -/
def Failure.message (defect : Json.Defect → String) : Failure → String
  | .configFile path e => s!"could not read config '{path}': {e.message}"
  | .configText path d => s!"invalid config '{path}': {defect d}"
  | .config e => e.message
  | .trace path (.file e) => s!"'{path}': failed to read trace: {e.message}"
  | .trace path (.text d) => s!"'{path}': failed to parse trace: {defect d}"
  | .trace path (.operands e) => s!"'{path}': {e.message}"
  | .halted cycle halt => s!"simulation aborted at cycle {cycle}: {halt.message}"

/-! ## A run -/

/-- What the paths of a command line lead to. -/
abbrev Files := String → Except FileError String

/-- The configuration that the options name, or the baseline machine. -/
def loadConfig (files : Files) (options : Options) : Except Failure Config :=
  match options.config with
  | none => .ok Config.baseline
  | some path => do
    let text ← (files path).mapError (.configFile path)
    let config ← (Config.ofJson text).mapError (.configText path)
    config.check.mapError .config
    return config

/-- Everything about a finished simulation in one JSON document. -/
def document (s : Simulation) (stats : Stats) : Json.Value :=
  .object [("config", s.config.toJson), ("stats", stats.toJson), ("trace", s.core.trace.toJson)]

/-- What the options ask to print of a finished simulation. -/
def printed (options : Options) (s : Simulation) : String :=
  let stats := s.stats
  if options.json then
    (document s stats).text .indented ++ "\n"
  else
    (if options.timeline then Timeline.text s.core.trace else "") ++
      Report.text stats options.sections

/-- **What a run prints**, all or nothing. -/
def output (files : Files) (options : Options) : Except Failure String := do
  let config ← loadConfig files options
  let trace ← (Trace.load (files options.trace)).mapError (.trace options.trace)
  let s ← (simulate trace config).mapError fun
    | .invalidConfig e => .config e
    | .halted cycle halt => .halted cycle halt
  return printed options s

/-! ## The program -/

/-- Exit code and texts of the program. -/
structure Outcome where
  code : UInt32
  out : String := ""
  err : String := ""
deriving DecidableEq, Repr

/-- Name and version. -/
def versionText : String :=
  "tomasim 0.3.0\n"

/-- How the program is used. -/
def helpText : String :=
  unlines
    ["Usage: tomasim run --trace <TRACE> [OPTIONS]",
     "",
     "  -t, --trace <TRACE>        JSON trace to schedule",
     "  -c, --config <CONFIG>      JSON machine configuration; omitted fields keep their defaults",
     "      --timeline             print the stage cycles of every instruction",
     "      --json                 print statistics and annotated trace as JSON instead of text",
     "      --sections <SECTIONS>  sections to print: summary, instruction_mix, stalls"]

/-- **The program.**  Failures of a run end it with code 1, command lines that cannot be understood
with code 2. -/
def perform (defect : Json.Defect → String) (files : Files) (args : List String) : Outcome :=
  match Request.ofArgs args with
  | .error e => { code := 2, err := s!"error: {e.message}\n\n" ++ helpText }
  | .ok .version => { code := 0, out := versionText }
  | .ok .help => { code := 0, out := helpText }
  | .ok (.run options) =>
    match output files options with
    | .ok out => { code := 0, out }
    | .error e => { code := 1, err := s!"\n[!] FATAL: {e.message defect}\n" }

end Command

end Tomasulo
