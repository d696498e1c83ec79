import NetPrep.Json.Decode
import NetPrep.Options.Basic
import NetPrep.Toml.Reader

/-!
# Options as records

The two record forms of options: a JSON object, and the table `lowering` of a TOML file. In both a
missing option has its default, an unknown one is refused, and a list gives the options in their
order. Reading a record does not check the thresholds.
-/

namespace NetPrep

/-- A heuristic in JSON. -/
def SpillHeuristic.ofJson? (x : Json) : Option SpillHeuristic := do
  let (tag, payload) ← x.variant?
  Json.bare (← ofText? tag) payload

/-- A heuristic in TOML: its name, or a table whose only key is the name of an empty value. -/
def SpillHeuristic.ofToml? : Toml → Option SpillHeuristic
  | .str s => ofText? s
  | .table [(s, .table [])] => ofText? s
  | .table [(s, .arr [])] => ofText? s
  | _ => none

namespace Options

def toJson (o : Options) : Json :=
  .obj [("disallowLocalVariables", .bool o.disallowLocalVariables),
    ("disallowExpressionInliningInPorts", .bool o.disallowExpressionInliningInPorts),
    ("allowExprInEventControl", .bool o.allowExprInEventControl),
    ("disallowMuxInlining", .bool o.disallowMuxInlining),
    ("maximumNumberOfTermsPerExpression", .ofNat o.maximumTerms),
    ("wireSpillingHeuristic", .ofList (fun h => .str h.text) o.spillHeuristics),
    ("wireSpillingNamehintTermLimit", .ofNat o.namehintTermLimit)]

def jsonValues : ValueReader Json where
  flag := Json.toBool?
  count := Json.toNat64?
  heuristics := Json.toList? SpillHeuristic.ofJson?

def ofJson? : Json → Option Options
  | .obj entries => do ofValues? jsonValues (← valuesOfEntries? entries)
  | .arr values =>
    if values.length ≤ keys.length then ofValues? jsonValues (valuesOfList values) else none
  | _ => none

def tomlValues : ValueReader Toml where
  flag
    | .bool b => some b
    | _ => none
  count
    | .int (.ofNat n) => some n
    | _ => none
  heuristics
    | .arr xs => xs.mapM SpillHeuristic.ofToml?
    | _ => none

def ofToml? : Toml → Option Options
  | .table entries => do ofValues? tomlValues (← valuesOfEntries? entries)
  | .arr values => ofValues? tomlValues (valuesOfList values)
  | _ => none

/-- The options of a TOML file; a file without the table `lowering` has the defaults. -/
def ofTomlText? (text : String) : Option Options := do
  match (← Toml.parse? text).lookup "lowering" with
  | none => return default
  | some table => ofToml? table

end Options

end NetPrep
