/-!
# The command line

The grammar of the arguments: one path, options with values, flags, and a double hyphen after which
everything is a path. An option takes its value from the rest of its word or from the next word, and
neither an option nor a flag may be repeated.
-/

namespace NetPrep.CommandLine

inductive Format where
  | text
  | json
deriving DecidableEq, Repr

inductive ColourChoice where
  | auto
  | always
  | never
deriving DecidableEq, Repr

/-- What the arguments ask for. An option or flag that is not given is `none` or false. -/
structure Args where
  input : Option String
  optionsPath : Option String
  lowering : Option String
  format : Option Format
  colour : Option ColourChoice
  stats : Bool
  quiet : Bool
  verbose : Bool
deriving DecidableEq, Repr

def Args.empty : Args := ⟨none, none, none, none, none, false, false, false⟩

/-- An option, which has a value. -/
inductive ValueOption where
  | options
  | lowering
  | format
  | colour
deriving DecidableEq, Repr

/-- A flag, which has none. -/
inductive Flag where
  | stats
  | quiet
  | verbose
  | version
  | help
deriving DecidableEq, Repr

/-- What ends the reading of arguments early. -/
inductive Stop where
  | usage
  | version
  | help
deriving DecidableEq, Repr

def valueOption? : String → Option ValueOption
  | "options" => some .options
  | "lowering" => some .lowering
  | "format" => some .format
  | "color" => some .colour
  | _ => none

def flag? : String → Option Flag
  | "stats" => some .stats
  | "quiet" => some .quiet
  | "verbose" => some .verbose
  | "version" => some .version
  | "help" => some .help
  | _ => none

/-- A flag by its letter. -/
def flagOfLetter? : Char → Option Flag
  | 'q' => some .quiet
  | 'v' => some .verbose
  | 'V' => some .version
  | 'h' => some .help
  | _ => none

/-- Fills a place that must be empty. -/
def fill {α : Type} (old : Option α) (new : Option α) : Except Stop (Option α) :=
  match old, new with
  | none, some a => .ok (some a)
  | _, _ => .error .usage

/-- A path is not empty. -/
def path? (s : String) : Option String := if s = "" then none else some s

def format? : String → Option Format
  | "text" => some .text
  | "json" => some .json
  | _ => none

def colour? : String → Option ColourChoice
  | "auto" => some .auto
  | "always" => some .always
  | "never" => some .never
  | _ => none

namespace Args

def setOption (a : Args) (option : ValueOption) (value : String) : Except Stop Args := do
  match option with
  | .options => return { a with optionsPath := ← fill a.optionsPath (path? value) }
  | .lowering => return { a with lowering := ← fill a.lowering (some value) }
  | .format => return { a with format := ← fill a.format (format? value) }
  | .colour => return { a with colour := ← fill a.colour (colour? value) }

def setFlag (a : Args) : Flag → Except Stop Args
  | .stats => if a.stats then .error .usage else .ok { a with stats := true }
  | .quiet => if a.quiet then .error .usage else .ok { a with quiet := true }
  | .verbose => if a.verbose then .error .usage else .ok { a with verbose := true }
  | .version => .error .version
  | .help => .error .help

def setInput (a : Args) (path : String) : Except Stop Args := do
  return { a with input := ← fill a.input (path? path) }

/-- A word that begins with two hyphens: what is set, and the option that still wants a value. -/
def setLong (a : Args) (word : List Char) : Except Stop (Args × Option ValueOption) := do
  let name := String.ofList (word.takeWhile (· ≠ '='))
  let value? := match word.dropWhile (· ≠ '=') with
    | _ :: value => some (String.ofList value)
    | [] => none
  match valueOption? name, value? with
  | some option, some value => return (← a.setOption option value, none)
  | some option, none => return (a, some option)
  | none, some _ => .error .usage
  | none, none =>
    match flag? name with
    | some flag => return (← a.setFlag flag, none)
    | none => .error .usage

/-- The letters of a word that begins with one hyphen: what is set, and the option that still wants
a value. The letter of the format takes what follows it as its value. -/
def setLetters (a : Args) : List Char → Except Stop (Args × Option ValueOption)
  | [] => .ok (a, none)
  | 'f' :: rest => do
    match rest with
    | [] => return (a, some .format)
    | '=' :: value => return (← a.setOption .format (String.ofList value), none)
    | value => return (← a.setOption .format (String.ofList value), none)
  | letter :: rest => do
    match flagOfLetter? letter with
    | some flag => (← a.setFlag flag).setLetters rest
    | none => .error .usage

/-- Reads the words, of which the first is the value of an option that wants one. A word that looks
like an option is never a value. -/
def readWords (a : Args) (wanting : Option ValueOption) : List String → Except Stop Args
  | [] => if wanting.isSome then .error .usage else .ok a
  | word :: rest => do
    match word.toList with
    | '-' :: '-' :: [] =>
      if wanting.isSome then .error .usage
      -- After the double hyphen everything is a path.
      rest.foldlM setInput a
    | '-' :: '-' :: name =>
      if wanting.isSome then .error .usage
      let (a, wanting) ← a.setLong name
      a.readWords wanting rest
    | '-' :: letter :: letters =>
      if wanting.isSome then .error .usage
      let (a, wanting) ← a.setLetters (letter :: letters)
      a.readWords wanting rest
    | _ =>
      match wanting with
      | some option => (← a.setOption option word).readWords none rest
      | none => (← a.setInput word).readWords none rest

/-- What the arguments ask for: there is a path, and options come from one source. -/
def read (words : List String) : Except Stop Args := do
  let a ← empty.readWords none words
  if a.input.isNone || (a.optionsPath.isSome && a.lowering.isSome) then .error .usage
  return a

end Args

end NetPrep.CommandLine
