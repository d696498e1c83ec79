import NetPrep.Text.Digit
import NetPrep.Text.Split
import NetPrep.Toml.Basic
import NetPrep.Word

/-!
# Reading TOML

A reader of TOML documents over their characters: keys, values, headers and the lines that hold
them. Each reader answers the rest of the text, or `none` where the grammar allows nothing.
-/

namespace NetPrep.Toml

/-! ## Blanks, comments and line ends -/

def isBlank (c : Char) : Bool := c == ' ' || c == '\t'

def skipBlanks (cs : List Char) : List Char := cs.dropWhile isBlank

/-- A character that may stand in a comment: no control other than a tab. -/
def isVisible (c : Char) : Bool := c == '\t' || (0x20 ≤ c.toNat && c.toNat != 0x7f)

/-- The rest after a line break, if one stands here. -/
def lineBreak? : List Char → Option (List Char)
  | '\n' :: cs => some cs
  | '\r' :: '\n' :: cs => some cs
  | _ => none

/-- The rest of a line after a comment, if one stands here. -/
def skipComment : List Char → List Char
  | '#' :: cs => cs.dropWhile isVisible
  | cs => cs

/-- The rest after the end of a line, with a comment before it. -/
def endOfLine? (cs : List Char) : Option (List Char) :=
  match skipComment (skipBlanks cs) with
  | [] => some []
  | cs => lineBreak? cs

/-- The rest after blanks, line breaks and comments; a comment must end in a line break. -/
def skipSpace : Nat → List Char → Option (List Char)
  | 0, _ => none
  | fuel + 1, cs =>
    match skipBlanks cs with
    | '#' :: rest => do skipSpace fuel (← lineBreak? (rest.dropWhile isVisible))
    | cs =>
      match lineBreak? cs with
      | some rest => skipSpace fuel rest
      | none => some cs

/-! ## Strings -/

/-- The character whose code point so many hexadecimal digits write. -/
def codePoint? (digits : Nat) (cs : List Char) : Option (Char × List Char) := do
  let head := cs.take digits
  guard (head.length = digits)
  let n ← head.foldlM (fun n c => do return n * 16 + (← Text.hexValue? c)) 0
  if h : n.isValidChar then return (Char.ofNatAux n h, cs.drop digits) else none

/-- The character of an escape, after its backslash. -/
def escape? : List Char → Option (Char × List Char)
  | 'b' :: cs => some ('\x08', cs)
  | 't' :: cs => some ('\t', cs)
  | 'n' :: cs => some ('\n', cs)
  | 'f' :: cs => some ('\x0c', cs)
  | 'r' :: cs => some ('\r', cs)
  | '"' :: cs => some ('"', cs)
  | '\\' :: cs => some ('\\', cs)
  | 'u' :: cs => codePoint? 4 cs
  | 'U' :: cs => codePoint? 8 cs
  | _ => none

/-- A basic string after its opening quote. The characters read so far are in reverse. -/
def basicRest? (fuel : Nat) (soFar cs : List Char) : Option (String × List Char) :=
  match fuel, cs with
  | 0, _ => none
  | _, [] => none
  | _, '"' :: cs => some (String.ofList soFar.reverse, cs)
  | fuel + 1, '\\' :: cs => do
    let (c, cs) ← escape? cs
    basicRest? fuel (c :: soFar) cs
  | fuel + 1, c :: cs => if isVisible c then basicRest? fuel (c :: soFar) cs else none

/-- A literal string after its opening quote. -/
def literalRest? (soFar : List Char) : List Char → Option (String × List Char)
  | [] => none
  | '\x27' :: cs => some (String.ofList soFar.reverse, cs)
  | c :: cs => if isVisible c then literalRest? (c :: soFar) cs else none

/-- The end of a string of several lines, at its closing quotes: up to two more quotes before the
three that close it belong to the string. -/
def closeLines? (quote : Char) (soFar cs : List Char) : Option (String × List Char) :=
  let quotes := min 5 (cs.takeWhile (· == quote)).length
  if quotes < 3 then none
  else some (String.ofList (List.replicate (quotes - 3) quote ++ soFar).reverse, cs.drop quotes)

/-- The rest after a backslash that ends a line: the blanks and line breaks that follow it. -/
def skipLineEnd? (cs : List Char) : Option (List Char) := do
  let cs ← lineBreak? (skipBlanks cs)
  return go (cs.length + 1) cs
where
  go : Nat → List Char → List Char
    | 0, cs => cs
    | fuel + 1, cs =>
      let cs := skipBlanks cs
      match lineBreak? cs with
      | some cs => go fuel cs
      | none => cs

/-- A basic string of several lines after its opening quotes. -/
def basicLines? (fuel : Nat) (soFar cs : List Char) : Option (String × List Char) :=
  match fuel with
  | 0 => none
  | fuel + 1 =>
    match cs with
    | [] => none
    | '"' :: '"' :: '"' :: _ => closeLines? '"' soFar cs
    | '\\' :: rest =>
      match skipLineEnd? rest with
      | some rest => basicLines? fuel soFar rest
      | none =>
        match escape? rest with
        | some (c, rest) => basicLines? fuel (c :: soFar) rest
        | none => none
    | c :: rest =>
      match lineBreak? cs with
      | some rest => basicLines? fuel ('\n' :: soFar) rest
      | none => if isVisible c then basicLines? fuel (c :: soFar) rest else none

/-- A literal string of several lines after its opening quotes. -/
def literalLines? (fuel : Nat) (soFar cs : List Char) : Option (String × List Char) :=
  match fuel with
  | 0 => none
  | fuel + 1 =>
    match cs with
    | [] => none
    | '\x27' :: '\x27' :: '\x27' :: _ => closeLines? '\x27' soFar cs
    | c :: rest =>
      match lineBreak? cs with
      | some rest => literalLines? fuel ('\n' :: soFar) rest
      | none => if isVisible c then literalLines? fuel (c :: soFar) rest else none

/-- The text after a line break that stands at the start of a string of several lines. -/
def dropFirstBreak (cs : List Char) : List Char := (lineBreak? cs).getD cs

/-- A string of one line or several. -/
def string? : List Char → Option (String × List Char)
  | '"' :: '"' :: '"' :: cs => basicLines? (cs.length + 1) [] (dropFirstBreak cs)
  | '"' :: cs => basicRest? (cs.length + 1) [] cs
  | '\x27' :: '\x27' :: '\x27' :: cs => literalLines? (cs.length + 1) [] (dropFirstBreak cs)
  | '\x27' :: cs => literalRest? [] cs
  | _ => none

/-! ## Keys -/

/-- A character of a key without quotes. -/
def isKeyChar (c : Char) : Bool :=
  ('a' ≤ c && c ≤ 'z') || ('A' ≤ c && c ≤ 'Z') || ('0' ≤ c && c ≤ '9') || c == '_' || c == '-'

/-- A key without dots. -/
def simpleKey? : List Char → Option (String × List Char)
  | '"' :: cs => basicRest? (cs.length + 1) [] cs
  | '\x27' :: cs => literalRest? [] cs
  | cs =>
    let key := cs.takeWhile isKeyChar
    if key.isEmpty then none else some (String.ofList key, cs.dropWhile isKeyChar)

/-- A key: the keys between its dots, the last of them apart. -/
def key? : Nat → List Char → Option ((List String × String) × List Char)
  | 0, _ => none
  | fuel + 1, cs => do
    let (key, cs) ← simpleKey? (skipBlanks cs)
    match skipBlanks cs with
    | '.' :: cs => do
      let ((path, last), cs) ← key? fuel cs
      return ((key :: path, last), cs)
    | cs => return (([], key), cs)

/-- The most parts that a key may have, and the most arrays and inline tables that may stand one
within another. -/
def deepest : Nat := 79

/-- A key that is not too deep. -/
def fullKey? (cs : List Char) : Option ((List String × String) × List Char) := do
  let ((path, last), cs) ← key? (cs.length + 1) cs
  guard (path.length + 1 ≤ deepest)
  return ((path, last), cs)

/-! ## Numbers, dates and times -/

/-- Digits with single underscores between them, after the ones read so far, which are in reverse.
An underscore must have a digit on either side. -/
def digitsRest? (digit : Char → Bool) (soFar : List Char) :
    List Char → Option (List Char × List Char)
  | '_' :: c :: cs => if digit c then digitsRest? digit (c :: soFar) cs else none
  | ['_'] => none
  | c :: cs => if digit c then digitsRest? digit (c :: soFar) cs else some (soFar.reverse, c :: cs)
  | [] => some (soFar.reverse, [])

/-- One digit or more. -/
def digits? (digit : Char → Bool) : List Char → Option (List Char × List Char)
  | c :: cs => if digit c then digitsRest? digit [c] cs else none
  | [] => none

/-- A decimal number without superfluous zeros: whether it has a minus, and its digits. -/
def decimal? (cs : List Char) : Option ((Bool × List Char) × List Char) := do
  let (negative, cs) := match cs with
    | '-' :: cs => (true, cs)
    | '+' :: cs => (false, cs)
    | cs => (false, cs)
  match cs with
  | '0' :: cs => return ((negative, ['0']), cs)
  | cs => do
    let (digits, cs) ← digits? Text.isDigit cs
    return ((negative, digits), cs)

/-- An integer that fits in 64 bits. -/
def int64? (n : Int) : Option Toml := if fitsInt64 n then some (.int n) else none

/-- An integer in a base other than ten, after its mark. -/
def based? (base : Nat) (cs : List Char) : Option (Toml × List Char) := do
  let (digits, cs) ← digits? (fun c => (Text.hexValue? c).any (· < base)) cs
  return (← int64? (Text.digitsValue base digits), cs)

/-- Whether a decimal number, given by its digits and the power of ten of the last one, is too large
for a double: at least half a unit above the largest. -/
def overflowsDouble (digits : List Char) (exponent : Int) : Bool :=
  let digits := digits.dropWhile (· == '0')
  -- The number lies below ten to this power, and not below a tenth of that.
  let magnitude := digits.length + exponent
  if digits.isEmpty || magnitude < 300 then false
  else if 320 < magnitude then true
  else
    let n := Text.digitsValue 10 digits
    let bound := Nat.pow 2 1024 - Nat.pow 2 970
    let scale := Nat.pow 10 exponent.natAbs
    if exponent < 0 then bound * scale ≤ n else bound ≤ n * scale

/-- The exponent of a number, after its letter. -/
def exponentRest? (cs : List Char) : Option (Int × List Char) := do
  let (negative, cs) := match cs with
    | '-' :: cs => (true, cs)
    | '+' :: cs => (false, cs)
    | cs => (false, cs)
  let (digits, cs) ← digits? Text.isDigit cs
  let n := Text.digitsValue 10 digits
  return (if negative then -(n : Int) else n, cs)

/-- The exponent of a number, if one stands here. -/
def exponent? : List Char → Option (Option Int × List Char)
  | [] => some (none, [])
  | c :: cs =>
    if c = 'e' ∨ c = 'E' then (exponentRest? cs).map fun (n, cs) => (some n, cs)
    else some (none, c :: cs)

/-- An integer or a number with a fraction or an exponent. A number above all doubles is refused. -/
def number? (cs : List Char) : Option (Toml × List Char) :=
  match cs with
  | '0' :: 'x' :: cs => based? 16 cs
  | '0' :: 'o' :: cs => based? 8 cs
  | '0' :: 'b' :: cs => based? 2 cs
  | '+' :: 'i' :: 'n' :: 'f' :: cs => some (.float, cs)
  | '-' :: 'i' :: 'n' :: 'f' :: cs => some (.float, cs)
  | '+' :: 'n' :: 'a' :: 'n' :: cs => some (.float, cs)
  | '-' :: 'n' :: 'a' :: 'n' :: cs => some (.float, cs)
  | cs => do
    let ((negative, digits), rest) ← decimal? cs
    let (fraction, rest) ← match rest with
      | '.' :: after => digits? Text.isDigit after
      | rest => some ([], rest)
    let (exponent, rest) ← exponent? rest
    if fraction.isEmpty && exponent.isNone then
      let n := Text.digitsValue 10 digits
      return (← int64? (if negative then -(n : Int) else n), rest)
    guard (negative ||
      !overflowsDouble (digits ++ fraction) (exponent.getD 0 - fraction.length))
    return (.float, rest)

/-- A number of exactly so many digits, within bounds. -/
def fixed? (count low high : Nat) (cs : List Char) : Option (Nat × List Char) := do
  let digits := cs.take count
  guard (digits.length = count ∧ digits.all Text.isDigit)
  let n := Text.digitsValue 10 digits
  guard (low ≤ n ∧ n ≤ high)
  return (n, cs.drop count)

/-- The days of a month. -/
def daysIn (year month : Nat) : Nat :=
  if month = 2 then
    if year % 4 = 0 ∧ (year % 100 ≠ 0 ∨ year % 400 = 0) then 29 else 28
  else if month = 4 ∨ month = 6 ∨ month = 9 ∨ month = 11 then 30 else 31

/-- The rest after a character that must stand here. -/
def expect? (c : Char) : List Char → Option (List Char)
  | d :: cs => if c = d then some cs else none
  | [] => none

/-- A time of day, after its hour and colon. -/
def timeRest? (cs : List Char) : Option (List Char) := do
  let (_, cs) ← fixed? 2 0 59 cs
  let cs ← expect? ':' cs
  let (_, cs) ← fixed? 2 0 60 cs
  match cs with
  | '.' :: c :: rest => if Text.isDigit c then return rest.dropWhile Text.isDigit else return cs
  | cs => return cs

/-- The distance of a time from universal time, if one stands here. -/
def offset? : List Char → Option (List Char)
  | 'Z' :: cs => some cs
  | 'z' :: cs => some cs
  | c :: cs =>
    if c = '+' ∨ c = '-' then do
      let (_, cs) ← fixed? 2 0 23 cs
      let (_, cs) ← fixed? 2 0 59 (← expect? ':' cs)
      return cs
    else some (c :: cs)
  | [] => some []

/-- A date after its year and hyphen, with a time of day behind it or not. -/
def dateRest? (year : Nat) (cs : List Char) : Option (List Char) := do
  let (month, cs) ← fixed? 2 1 12 cs
  let (day, cs) ← fixed? 2 1 31 (← expect? '-' cs)
  guard (day ≤ daysIn year month)
  match cs with
  | c :: rest =>
    if c = 'T' ∨ c = 't' ∨ c = ' ' then
      match fixed? 2 0 23 rest with
      | some (_, ':' :: rest) => offset? (← timeRest? rest)
      | _ => return cs
    else return cs
  | [] => return []

/-- A date, a time of day or a number. -/
def numberOrTime? (cs : List Char) : Option (Toml × List Char) :=
  match fixed? 4 0 9999 cs with
  | some (year, '-' :: rest) => (dateRest? year rest).map fun rest => (.time, rest)
  | _ =>
    match fixed? 2 0 23 cs with
    | some (_, ':' :: rest) => (timeRest? rest).map fun rest => (.time, rest)
    | _ => number? cs

/-! ## Values -/

mutual

/-- A value, with arrays and inline tables nested at most `depth` deep in it. -/
def value? (fuel depth : Nat) (cs : List Char) : Option (Toml × List Char) :=
  match fuel with
  | 0 => none
  | fuel + 1 =>
    match cs with
    | '"' :: _ => (string? cs).map fun (s, rest) => (.str s, rest)
    | '\x27' :: _ => (string? cs).map fun (s, rest) => (.str s, rest)
    | '[' :: rest =>
      match depth with
      | 0 => none
      | depth + 1 => (elements? fuel depth rest).map fun (xs, rest) => (.arr xs, rest)
    | '\x7b' :: rest =>
      match depth with
      | 0 => none
      | depth + 1 =>
        match skipBlanks rest with
        | '\x7d' :: rest => some (.table [], rest)
        | rest =>
          (entries? fuel depth [] rest).map fun (entries, rest) =>
            (.table (entriesToValue entries), rest)
    | 't' :: rest => (Text.afterWord? "rue" rest).map fun rest => (.bool true, rest)
    | 'f' :: rest => (Text.afterWord? "alse" rest).map fun rest => (.bool false, rest)
    | 'i' :: rest => (Text.afterWord? "nf" rest).map fun rest => (.float, rest)
    | 'n' :: rest => (Text.afterWord? "an" rest).map fun rest => (.float, rest)
    | cs => numberOrTime? cs

/-- The elements of an array up to its closing bracket. -/
def elements? (fuel depth : Nat) (cs : List Char) : Option (List Toml × List Char) :=
  match fuel with
  | 0 => none
  | fuel + 1 =>
    match skipSpace (cs.length + 1) cs with
    | none => none
    | some (']' :: rest) => some ([], rest)
    | some cs =>
      match value? fuel depth cs with
      | none => none
      | some (x, rest) =>
        match skipSpace (rest.length + 1) rest with
        | some (']' :: rest) => some ([x], rest)
        | some (',' :: rest) => (elements? fuel depth rest).map fun (xs, rest) => (x :: xs, rest)
        | _ => none

/-- The entries of an inline table up to its closing brace, added to the ones before them. -/
def entries? (fuel depth : Nat) (entries : Entries) (cs : List Char) :
    Option (Entries × List Char) :=
  match fuel with
  | 0 => none
  | fuel + 1 =>
    match fullKey? cs with
    | some ((path, key), '=' :: rest) =>
      match value? fuel depth (skipBlanks rest) with
      | none => none
      | some (x, rest) =>
        match entries.addValue path key x with
        | none => none
        | some entries =>
          match skipBlanks rest with
          | '\x7d' :: rest => some (entries, rest)
          | ',' :: rest => entries? fuel depth entries rest
          | _ => none
    | _ => none

end

/-! ## Documents -/

/-- A header or an entry, to the end of its line. -/
def statement? (d : Document) (cs : List Char) : Option (Document × List Char) :=
  match cs with
  | '[' :: '[' :: rest => do
    let ((path, key), rest) ← fullKey? rest
    match rest with
    | ']' :: ']' :: rest => do
      let rest ← endOfLine? rest
      return (← d.beginElement path key, rest)
    | _ => none
  | '[' :: rest => do
    let ((path, key), rest) ← fullKey? rest
    match rest with
    | ']' :: rest => do
      let rest ← endOfLine? rest
      return (← d.beginTable path key, rest)
    | _ => none
  | cs => do
    let ((path, key), rest) ← fullKey? cs
    match rest with
    | '=' :: rest => do
      let (x, rest) ← value? (2 * rest.length + 2) deepest (skipBlanks rest)
      let rest ← endOfLine? rest
      return (← d.addValue path key x, rest)
    | _ => none

/-- The statements of a document to the end of the text. -/
def statements? : Nat → Document → List Char → Option Document
  | 0, _, _ => none
  | fuel + 1, d, cs =>
    match skipBlanks cs with
    | [] => some d
    | '#' :: rest => do statements? fuel d (← endOfLine? ('#' :: rest))
    | cs =>
      match lineBreak? cs with
      | some rest => statements? fuel d rest
      | none => do
        let (d, rest) ← statement? d cs
        statements? fuel d rest

/-- The root table of a TOML text; a byte order mark may stand before it. -/
def parse? (text : String) : Option (List (String × Toml)) := do
  let cs := match text.toList with
    | '\ufeff' :: cs => cs
    | cs => cs
  return entriesToValue (← statements? (cs.length + 1) .empty cs).root

end NetPrep.Toml
