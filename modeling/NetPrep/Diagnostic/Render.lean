import NetPrep.Diagnostic.Basic

/-!
# Diagnostics on a terminal

A line with severity, code, message and module, then the place if it is known, then notes and help,
each on a line of its own. The severity and the code may be coloured.
-/

namespace NetPrep

/-- The terminal's number for the colour of a severity. -/
def Severity.colour : Severity → String
  | .error => "31"
  | .warning => "33"
  | .note => "36"

/-- A text in bold and in the colour of a severity. -/
def Severity.paint (s : Severity) (text : String) : String :=
  "\x1b[1;" ++ s.colour ++ "m" ++ text ++ "\x1b[0m"

namespace Diagnostic

/-- The place of a diagnostic, if it is known. -/
def place (d : Diagnostic) (names : NameTable) : Except Fault String :=
  match d.loc.file with
  | none => return ""
  | some file => do
    return "  --> " ++ (← names.resolve file) ++ ":" ++ toString d.loc.line ++ ":"
      ++ toString d.loc.col ++ "\n"

/-- The text of a diagnostic. -/
def render (d : Diagnostic) (names : NameTable) (colour : Bool) : Except Fault String := do
  let header := d.severity.text ++ "[" ++ d.code.text ++ "]"
  let header := if colour then d.severity.paint header else header
  return header ++ ": " ++ d.message ++ " in module '" ++ d.module ++ "'\n"
    ++ (← d.place names)
    ++ String.join (d.notes.map fun note => "   = note: " ++ note ++ "\n")
    ++ String.join (d.help.map fun help => "   = help: " ++ help ++ "\n")

end Diagnostic

end NetPrep
