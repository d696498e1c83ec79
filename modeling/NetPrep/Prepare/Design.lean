import NetPrep.Diagnostic.Basic
import NetPrep.Prepare.Run

/-!
# Preparing a design

Every module of a design is prepared. A module that fails is reported in two diagnostics, its cause
and its exclusion, and left out of the counts.
-/

namespace NetPrep.Prepare

/-- The diagnostic of a failure. -/
def Failure.diagnostic (module : String) : Failure → Diagnostic
  | unsupported _ dialect op loc => {
      severity := .error, code := .unsupportedConstruct
      message := "unsupported operation '" ++ dialect ++ "." ++ op ++ "'"
      module, loc, notes := []
      help := ["lower this operation before preparing the design for emission"] }
  | other => {
      severity := .error, code := .internal, message := other.message
      module, loc := .unknown, notes := [], help := [] }

/-- The diagnostic of a module that is left out. -/
def Failure.skipped (module : String) (f : Failure) : Diagnostic where
  severity := .warning
  code := .moduleSkipped
  message := "excluded from emission"
  module := module
  loc := f.loc
  notes := ["the other modules of the design are still prepared"]
  help := []

/-- What came of a design: the modules that failed, and the counts of the others together. -/
structure Report where
  failed : List ModuleId
  stats : Stats
deriving DecidableEq, Repr

/-- Runs the preparation of modules one after another, each with the names that the ones before it
left. -/
def runAll (options : Options) (oracle : Oracle) (names : NameTable) :
    List Module → Except Fault (List (Module × Except Failure Stats) × NameTable)
  | [] => return ([], names)
  | m :: rest => do
    let outcome ← run .prepare options oracle m names
    let (others, names) ← runAll options oracle outcome.names rest
    return ((outcome.module, outcome.result) :: others, names)

/-- Reports the results of modules from a position on. -/
def reportAll (names : NameTable) : Nat → List (Module × Except Failure Stats) → Report →
    DiagnosticSink → Except Fault (Report × DiagnosticSink)
  | _, [], report, sink => return (report, sink)
  | index, (_, .ok stats) :: rest, report, sink =>
    reportAll names (index + 1) rest { report with stats := report.stats + stats } sink
  | index, (m, .error failure) :: rest, report, sink => do
    let module ← names.resolve m.name
    reportAll names (index + 1) rest { report with failed := report.failed ++ [⟨index⟩] }
      ((sink.emit (failure.diagnostic module)).emit (failure.skipped module))

/-- Prepares every module of a design: the report, the design afterwards, and the diagnostics added
to those of the sink. -/
def prepareDesign (d : Design) (options : Options) (oracle : Oracle) (sink : DiagnosticSink) :
    Except Fault (Report × Design × DiagnosticSink) := do
  let (results, names) ← runAll options oracle d.names d.modules.toList
  let (report, sink) ← reportAll names 0 results ⟨[], .zero⟩ sink
  return (report, ⟨(results.map (·.1)).toArray, names⟩, sink)

end NetPrep.Prepare
