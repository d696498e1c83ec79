import NetPrep.Options.Basic
import NetPrep.Text.Decimal
import NetPrep.Text.Split

/-!
# Option strings

Options as one line of text: items between commas, each a key alone or a key, an equals sign and a
value, with blanks around them as one likes. A flag without a value is set. `Options.text` writes
the options that differ from the defaults, and `Options.parse` reads any such line.
-/

namespace NetPrep.Options

/-- The value of a flag. -/
def readFlag (key : String) : Option String → Except OptionError Bool
  | none | some "true" => .ok true
  | some "false" => .ok false
  | some value => .error (.invalid key value)

/-- The value of a count, a 64-bit number. -/
def readCount (key : String) : Option String → Except OptionError Nat
  | none => .error (.invalid key "")
  | some value =>
    match Text.readCount? limit64 value.toList with
    | some n => .ok n
    | none => .error (.invalid key value)

/-- Sets the option with a key. A heuristic is added to the ones before it. -/
def set (o : Options) (key : String) (value : Option String) : Except OptionError Options :=
  match key with
  | "disallowLocalVariables" => do
    return { o with disallowLocalVariables := ← readFlag key value }
  | "disallowExpressionInliningInPorts" => do
    return { o with disallowExpressionInliningInPorts := ← readFlag key value }
  | "allowExprInEventControl" => do
    return { o with allowExprInEventControl := ← readFlag key value }
  | "disallowMuxInlining" => do
    return { o with disallowMuxInlining := ← readFlag key value }
  | "maximumNumberOfTermsPerExpression" => do
    return { o with maximumTerms := ← readCount key value }
  | "wireSpillingNamehintTermLimit" => do
    return { o with namehintTermLimit := ← readCount key value }
  | "wireSpillingHeuristic" =>
    match value.bind SpillHeuristic.ofText? with
    | none => .error (.invalid key (value.getD ""))
    | some h =>
      .ok (if h ∈ o.spillHeuristics then o
        else { o with spillHeuristics := o.spillHeuristics ++ [h] })
  | key => .error (.unknown key)

/-- Sets the option that an item gives. -/
def setItem (o : Options) (item : List Char) : Except OptionError Options :=
  match Text.cutAt? '=' item with
  | some (key, value) =>
    o.set (String.ofList (Text.trim key)) (some (String.ofList (Text.trim value)))
  | none => o.set (String.ofList item) none

/-- The items of an option string. -/
def items (text : String) : List (List Char) :=
  ((Text.splitAt ',' text.toList).map Text.trim).filter (!·.isEmpty)

/-- The options that an option string gives; the others have their defaults. -/
def parse (text : String) : Except OptionError Options := do
  (← (items text).foldlM setItem default).validate

/-- The items for the options that differ from the defaults. -/
def textItems (o : Options) : List String :=
  (if o.disallowLocalVariables then ["disallowLocalVariables"] else [])
    ++ (if o.disallowExpressionInliningInPorts then ["disallowExpressionInliningInPorts"] else [])
    ++ (if o.allowExprInEventControl then ["allowExprInEventControl"] else [])
    ++ (if o.disallowMuxInlining then ["disallowMuxInlining"] else [])
    ++ (if o.maximumTerms = default.maximumTerms then []
      else ["maximumNumberOfTermsPerExpression=" ++ toString o.maximumTerms])
    ++ o.spillHeuristics.map (fun h => "wireSpillingHeuristic=" ++ h.text)
    ++ (if o.namehintTermLimit = default.namehintTermLimit then []
      else ["wireSpillingNamehintTermLimit=" ++ toString o.namehintTermLimit])

/-- The option string of options. -/
def text (o : Options) : String := ",".intercalate o.textItems

/-- Whether the option string of options gives them back. -/
def reparses (o : Options) : Bool :=
  match parse o.text with
  | .ok o' => o' == o
  | .error _ => false

end NetPrep.Options
