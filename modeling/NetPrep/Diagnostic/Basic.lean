import NetPrep.Loc
import NetPrep.Text.Decimal

/-!
# Diagnostics

Messages about one module, with a severity, a code and the place of the offending node. A sink
gathers them and counts the errors among them, also the ones that have been taken out.
-/

namespace NetPrep

/-- How serious a diagnostic is, from the least on. -/
inductive Severity where
  | note
  | warning
  | error
deriving DecidableEq, Repr

namespace Severity

def text : Severity → String
  | .note => "note"
  | .warning => "warning"
  | .error => "error"

def isError (s : Severity) : Bool := s == .error

def rank : Severity → Nat
  | .note => 0
  | .warning => 1
  | .error => 2

instance : LT Severity := ⟨fun a b => a.rank < b.rank⟩

instance (a b : Severity) : Decidable (a < b) := inferInstanceAs (Decidable (a.rank < b.rank))

end Severity

/-- The series that a code is numbered in. -/
inductive CodeCategory where
  | error
  | warning
deriving DecidableEq, Repr

def CodeCategory.letter : CodeCategory → String
  | .error => "E"
  | .warning => "W"

/-- The code of a kind of diagnostic. -/
structure DiagnosticCode where
  category : CodeCategory
  number : Nat
deriving DecidableEq, Repr

namespace DiagnosticCode

/-- A node that cannot be emitted. -/
def unsupportedConstruct : DiagnosticCode := ⟨.error, 501⟩

/-- A broken invariant of the graph. -/
def internal : DiagnosticCode := ⟨.error, 599⟩

/-- A module that is left out of the output. -/
def moduleSkipped : DiagnosticCode := ⟨.warning, 502⟩

/-- The letter of the series and at least three digits. -/
def text (c : DiagnosticCode) : String := c.category.letter ++ Text.padded 3 c.number

end DiagnosticCode

/-- A message about a module. -/
structure Diagnostic where
  severity : Severity
  code : DiagnosticCode
  message : String
  module : String
  loc : Loc
  notes : List String
  help : List String
deriving DecidableEq, Repr

/-- The diagnostics gathered so far and the number of errors ever gathered. -/
structure DiagnosticSink where
  diagnostics : List Diagnostic
  errorCount : Nat
deriving DecidableEq, Repr

namespace DiagnosticSink

def empty : DiagnosticSink := ⟨[], 0⟩

def emit (s : DiagnosticSink) (d : Diagnostic) : DiagnosticSink where
  diagnostics := s.diagnostics ++ [d]
  errorCount := if d.severity.isError then s.errorCount + 1 else s.errorCount

def hasErrors (s : DiagnosticSink) : Bool := 0 < s.errorCount

/-- The diagnostics, and the sink without them. -/
def takeAll (s : DiagnosticSink) : List Diagnostic × DiagnosticSink :=
  (s.diagnostics, { s with diagnostics := [] })

end DiagnosticSink

end NetPrep
