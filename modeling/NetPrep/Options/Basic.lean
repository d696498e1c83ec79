import NetPrep.Fault

/-!
# Lowering options

What the target language allows and how the output should look. The defaults describe a target with
local variables, expressions in instance ports and named event controls, and no heuristic.
-/

namespace NetPrep

/-- A rule for giving an expression a wire of its own. -/
inductive SpillHeuristic where
  /-- Spill what carries a name hint; a hint that begins with an underscore counts only from a
  certain number of terms on. -/
  | largeTermsWithNamehints
deriving DecidableEq, Repr

def SpillHeuristic.text : SpillHeuristic → String
  | .largeTermsWithNamehints => "spillLargeTermsWithNamehints"

def SpillHeuristic.ofText? : String → Option SpillHeuristic
  | "spillLargeTermsWithNamehints" => some .largeTermsWithNamehints
  | _ => none

/-- Restrictions of the target and wishes for the output. -/
structure Options where
  /-- No declarations inside procedural code. -/
  disallowLocalVariables : Bool
  /-- Every input of an instance goes through a wire. -/
  disallowExpressionInliningInPorts : Bool
  /-- Event controls may hold expressions. -/
  allowExprInEventControl : Bool
  disallowMuxInlining : Bool
  /-- An expression of more terms is given a wire. -/
  maximumTerms : Nat
  spillHeuristics : List SpillHeuristic
  /-- From how many terms on a hint that begins with an underscore counts. -/
  namehintTermLimit : Nat
deriving DecidableEq, Repr

/-- Why options are refused. -/
inductive OptionError where
  | unknown (key : String)
  | invalid (key value : String)
  /-- A threshold that must not be zero. -/
  | zero (key : String)
deriving DecidableEq, Repr

def OptionError.message : OptionError → String
  | .unknown key => "unknown lowering option '" ++ key ++ "'"
  | .invalid key value => "invalid value '" ++ value ++ "' for lowering option '" ++ key ++ "'"
  | .zero key => "validation error: " ++ key ++ " must be at least 1"

namespace Options

def default : Options where
  disallowLocalVariables := false
  disallowExpressionInliningInPorts := false
  allowExprInEventControl := false
  disallowMuxInlining := false
  maximumTerms := 256
  spillHeuristics := []
  namehintTermLimit := 3

instance : Inhabited Options := ⟨default⟩

/-- Options whose thresholds are usable. -/
def validate (o : Options) : Except OptionError Options :=
  if o.maximumTerms = 0 then .error (.zero "maximumNumberOfTermsPerExpression")
  else if o.namehintTermLimit = 0 then .error (.zero "wireSpillingNamehintTermLimit")
  else .ok o

/-- The names of the options as records, in their order. -/
def keys : List String :=
  ["disallowLocalVariables", "disallowExpressionInliningInPorts", "allowExprInEventControl",
    "disallowMuxInlining", "maximumNumberOfTermsPerExpression", "wireSpillingHeuristic",
    "wireSpillingNamehintTermLimit"]

/-- How the values of options are written in a format. -/
structure ValueReader (α : Type) where
  flag : α → Option Bool
  count : α → Option Nat
  heuristics : α → Option (List SpillHeuristic)

/-- The options whose values are given in the order of the keys; a missing one has its default. -/
def ofValues? {α : Type} (r : ValueReader α) : List (Option α) → Option Options
  | [locals, ports, events, muxes, terms, heuristics, hints] => do
    let get {β : Type} (read : α → Option β) (value : Option α) (missing : β) : Option β :=
      match value with
      | none => some missing
      | some x => read x
    return {
      disallowLocalVariables := ← get r.flag locals default.disallowLocalVariables
      disallowExpressionInliningInPorts :=
        ← get r.flag ports default.disallowExpressionInliningInPorts
      allowExprInEventControl := ← get r.flag events default.allowExprInEventControl
      disallowMuxInlining := ← get r.flag muxes default.disallowMuxInlining
      maximumTerms := ← get r.count terms default.maximumTerms
      spillHeuristics := ← get r.heuristics heuristics default.spillHeuristics
      namehintTermLimit := ← get r.count hints default.namehintTermLimit }
  | _ => none

/-- The values given for the keys in a table, which must have no other key and none twice. -/
def valuesOfEntries? {α : Type} (entries : List (String × α)) : Option (List (Option α)) := do
  guard (entries.all (keys.contains ·.1) && decide (entries.map (·.1)).Nodup)
  return keys.map (List.lookup · entries)

/-- The values given for the first keys, in their order. -/
def valuesOfList {α : Type} (values : List α) : List (Option α) :=
  (List.range keys.length).map (values[·]?)

end Options

end NetPrep
