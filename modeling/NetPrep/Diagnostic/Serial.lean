import NetPrep.Diagnostic.Basic
import NetPrep.Netlist.Serial

/-!
# The JSON form of diagnostics
-/

namespace NetPrep

open Json (required)

def Severity.tags : List (String × Severity) :=
  [("Note", .note), ("Warning", .warning), ("Error", .error)]

def Severity.toJson (s : Severity) : Json := .str (tagOf tags s)

def Severity.ofJson? : Json → Option Severity := Json.toTag? tags

def CodeCategory.tags : List (String × CodeCategory) := [("Error", .error), ("Warning", .warning)]

def CodeCategory.toJson (c : CodeCategory) : Json := .str (tagOf tags c)

def CodeCategory.ofJson? : Json → Option CodeCategory := Json.toTag? tags

def DiagnosticCode.toJson (c : DiagnosticCode) : Json :=
  .obj [("category", c.category.toJson), ("number", .ofNat c.number)]

def DiagnosticCode.ofJson? (x : Json) : Option DiagnosticCode := do
  match ← x.fields? ["category", "number"] with
  | [category, number] =>
    return {
      category := ← required CodeCategory.ofJson? category
      number := ← required (Json.toNat? limit16) number }
  | _ => none

def Diagnostic.toJson (d : Diagnostic) : Json :=
  .obj [("severity", d.severity.toJson), ("code", d.code.toJson), ("message", .str d.message),
    ("module", .str d.module), ("loc", d.loc.toJson), ("notes", .ofList .str d.notes),
    ("help", .ofList .str d.help)]

def Diagnostic.ofJson? (x : Json) : Option Diagnostic := do
  match ← x.fields? ["severity", "code", "message", "module", "loc", "notes", "help"] with
  | [severity, code, message, module, loc, notes, help] =>
    return {
      severity := ← required Severity.ofJson? severity
      code := ← required DiagnosticCode.ofJson? code
      message := ← required Json.toString? message
      module := ← required Json.toString? module
      loc := ← required Loc.ofJson? loc
      notes := ← required (Json.toList? Json.toString?) notes
      help := ← required (Json.toList? Json.toString?) help }
  | _ => none

end NetPrep
