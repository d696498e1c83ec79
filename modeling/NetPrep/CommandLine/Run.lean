import NetPrep.CommandLine.Args
import NetPrep.CommandLine.Files
import NetPrep.Diagnostic.Render
import NetPrep.Diagnostic.Serial
import NetPrep.Json.Printer
import NetPrep.Json.Reader
import NetPrep.Netlist.Dump
import NetPrep.Options.Record
import NetPrep.Options.Text
import NetPrep.Prepare.Design
import NetPrep.Prepare.Serial

/-!
# The command

The command reads a design and options, prepares the design, and writes the modules that can be
emitted with what there is to say about the others. It is a function of its arguments, of a way to
read files, and of whether it runs on a terminal.
-/

namespace NetPrep.CommandLine

/-- Why the command has no result. -/
inductive CommandError where
  | optionsUnreadable (cause : ReadFailure)
  | optionsMalformed
  | optionsRefused (error : OptionError)
  | designUnreadable (path : String) (cause : ReadFailure)
  | designMalformed (path : String)
deriving DecidableEq, Repr

def CommandError.message : CommandError → String
  | .optionsUnreadable cause => "failed to read options: " ++ cause.message
  | .optionsMalformed => "failed to parse options: not a table of lowering options"
  | .optionsRefused error => error.message
  | .designUnreadable path cause => "cannot read '" ++ path ++ "': " ++ cause.message
  | .designMalformed path => "cannot parse '" ++ path ++ "': not a design"

/-- What the command writes and the code that it exits with. -/
structure Outcome where
  code : Nat
  stdout : String
  stderr : String
deriving DecidableEq, Repr

/-! ## Reports -/

/-- A module that can be emitted. -/
structure PreparedModule where
  name : String
  text : String
deriving DecidableEq, Repr

/-- All that the command has to say about a design. -/
structure DesignReport where
  prepared : List PreparedModule
  skipped : List String
  stats : Prepare.Stats
  diagnostics : List Diagnostic
deriving DecidableEq, Repr

/-- The modules of a design from a position on: those that can be emitted, and the names of those
that failed. -/
def sortModules (d : Design) (failed : List ModuleId) :
    Nat → List Module → Except Fault (List PreparedModule × List String)
  | _, [] => return ([], [])
  | index, m :: rest => do
    let name ← d.names.resolve m.name
    if failed.contains ⟨index⟩ then
      let (prepared, skipped) ← sortModules d failed (index + 1) rest
      return (prepared, name :: skipped)
    else
      let text ← m.dump d.names
      let (prepared, skipped) ← sortModules d failed (index + 1) rest
      return (⟨name, text⟩ :: prepared, skipped)

/-- Prepares a design: the report, and the names as they are then. -/
def reportOn (d : Design) (options : Options) : Except Fault (DesignReport × NameTable) := do
  let (report, d, sink) ← Prepare.prepareDesign d options .systemVerilog .empty
  let (prepared, skipped) ← sortModules d report.failed 0 d.modules.toList
  return (⟨prepared, skipped, report.stats, sink.diagnostics⟩, d.names)

/-- A line of counts. -/
def statsLine (s : Prepare.Stats) : String :=
  "stats: " ++ toString s.temporaries ++ " temporaries, " ++ toString s.duplicated
    ++ " duplicated, " ++ toString s.hoisted ++ " hoisted, " ++ toString s.balanced
    ++ " balanced, " ++ toString s.reused ++ " reused, " ++ toString s.forwardRefs
    ++ " forward references, " ++ toString s.sideEffectsExtracted
    ++ " side effects captured, " ++ toString s.pruned ++ " pruned\n"

/-- What is written for a person: the modules, then diagnostics and counts apart. -/
def textOutput (a : Args) (colour : Bool) (r : DesignReport) (names : NameTable) :
    Except Fault (String × String) := do
  let shown := r.diagnostics.filter fun d => !a.quiet || d.severity.isError
  let rendered ← shown.mapM (·.render names colour)
  let summary := "prepared " ++ toString r.prepared.length ++ " module(s), skipped "
    ++ toString r.skipped.length ++ "\n"
  return (if a.quiet then "" else String.join (r.prepared.map (·.text)),
    String.join rendered ++ (if a.stats then statsLine r.stats else "")
      ++ (if a.quiet then "" else summary))

/-- What is written for a program. -/
def jsonOutput (r : DesignReport) : Json :=
  .obj [
    ("modules", .ofList (fun m => .obj [("name", .str m.name), ("ir", .str m.text)]) r.prepared),
    ("skipped", .ofList .str r.skipped), ("stats", r.stats.toJson),
    ("diagnostics", .ofList Diagnostic.toJson r.diagnostics)]

/-! ## The command -/

/-- The options that the arguments ask for. -/
def chosenOptions {m : Type → Type} [Monad m] (readFile : String → m (Except ReadFailure String))
    (a : Args) : m (Except CommandError Options) := do
  match a.optionsPath, a.lowering with
  | some path, _ =>
    match ← readFile path with
    | .error cause => return .error (.optionsUnreadable cause)
    | .ok text =>
      match Options.ofTomlText? text with
      | none => return .error .optionsMalformed
      | some options => return options.validate.mapError .optionsRefused
  | none, some text => return (Options.parse text).mapError .optionsRefused
  | none, none => return .ok .default

/-- The design at a path. -/
def readDesign {m : Type → Type} [Monad m] (readFile : String → m (Except ReadFailure String))
    (path : String) : m (Except CommandError Design) := do
  match ← readFile path with
  | .error cause => return .error (.designUnreadable path cause)
  | .ok text =>
    match (Json.parse? text).bind Design.ofJson? with
    | none => return .error (.designMalformed path)
    | some d => return .ok d

/-- Prepares a design and writes the report in the format that the arguments ask for. -/
def prepareAndReport (a : Args) (terminal : Bool) (options : Options) (d : Design) :
    Except Fault Outcome := do
  let (report, names) ← reportOn d options
  let code := if report.skipped.isEmpty then 0 else 1
  match a.format.getD .text with
  | .json => return ⟨code, (jsonOutput report).indented 0 ++ "\n", ""⟩
  | .text =>
    let colour := match a.colour.getD .auto with
      | .auto => terminal
      | .always => true
      | .never => false
    let (stdout, stderr) ← textOutput a colour report names
    return ⟨code, stdout, stderr⟩

/-- The command after its arguments are understood. -/
def runArgs {m : Type → Type} [Monad m] (readFile : String → m (Except ReadFailure String))
    (terminal : Bool) (a : Args) : m (Except Fault Outcome) := do
  let failed (e : CommandError) : Except Fault Outcome :=
    .ok ⟨1, "", "error: " ++ e.message ++ "\n"⟩
  match ← chosenOptions readFile a with
  | .error e => return failed e
  | .ok options =>
    match ← readDesign readFile (a.input.getD "") with
    | .error e => return failed e
    | .ok d => return prepareAndReport a terminal options d

def versionText : String := "svprep 0.1.0\n"

def usageText : String :=
  "Prepare hardware IR for SystemVerilog emission\n\n"
    ++ "Usage: svprep [OPTIONS] <INPUT>\n\n"
    ++ "Arguments:\n"
    ++ "  <INPUT>  Path to the JSON design to prepare\n\n"
    ++ "Options:\n"
    ++ "      --options <OPTIONS>    TOML file with a `[lowering]` table of options\n"
    ++ "      --lowering <LOWERING>  Lowering options as a comma-separated list\n"
    ++ "  -f, --format <FORMAT>      Output format: text or json\n"
    ++ "      --stats                Print statistics\n"
    ++ "  -q, --quiet                Suppress all output except errors\n"
    ++ "  -v, --verbose              Enable verbose logging\n"
    ++ "      --color <COLOR>        Colored output: auto, always or never\n"
    ++ "  -h, --help                 Print help\n"
    ++ "  -V, --version              Print version\n"

/-- The command. -/
def run {m : Type → Type} [Monad m] (readFile : String → m (Except ReadFailure String))
    (terminal : Bool) (words : List String) : m (Except Fault Outcome) := do
  match Args.read words with
  | .error .usage => return .ok ⟨2, "", "error: unexpected arguments\n\n" ++ usageText⟩
  | .error .version => return .ok ⟨0, versionText, ""⟩
  | .error .help => return .ok ⟨0, usageText, ""⟩
  | .ok a => runArgs readFile terminal a

end NetPrep.CommandLine
