import NetPrep.Json.Basic
import NetPrep.Text.Digit
import NetPrep.Text.Split

/-!
# Reading JSON

A reader of JSON texts over their characters. It refuses what the grammar refuses: leading zeros,
trailing commas, raw controls in strings, text after the value. What is grammatical but has no
text, half of a surrogate pair, reads as `Json.unreadable`.
-/

namespace NetPrep.Json

/-- The rest of a text after the blanks before it. -/
def skipBlanks : List Char → List Char
  | ' ' :: cs => skipBlanks cs
  | '\n' :: cs => skipBlanks cs
  | '\r' :: cs => skipBlanks cs
  | '\t' :: cs => skipBlanks cs
  | cs => cs

/-- The number that four hexadecimal digits write. -/
def fourHex? (a b c d : Char) : Option Nat := do
  let a ← Text.hexValue? a
  let b ← Text.hexValue? b
  let c ← Text.hexValue? c
  let d ← Text.hexValue? d
  return ((a * 16 + b) * 16 + c) * 16 + d

/-- What has been read of a string: a character, or the first or second half of a surrogate pair
whose other half is missing. -/
inductive Unit16 where
  | char (c : Char)
  | high (n : Nat)
  | low
deriving DecidableEq, Repr

namespace Unit16

/-- The units after an escape, whose number is a character of its own, begins a surrogate pair or
ends the one that the latest unit began. The latest unit comes first. -/
def push (units : List Unit16) (n : Nat) : List Unit16 :=
  if 0xd800 ≤ n ∧ n < 0xdc00 then .high n :: units
  else if 0xdc00 ≤ n ∧ n < 0xe000 then
    match units with
    | .high h :: before =>
      .char (Char.ofNat (0x10000 + (h - 0xd800) * 0x400 + (n - 0xdc00))) :: before
    | units => .low :: units
  else .char (Char.ofNat n) :: units

/-- The text of units that are all characters, the latest unit first. -/
def text? (units : List Unit16) : Option String :=
  (units.foldl (fun chars unit => match chars, unit with
    | some cs, .char c => some (c :: cs)
    | _, _ => none) (some [])).map String.ofList

end Unit16

/-- The character of a short escape. -/
def shortEscape? : Char → Option Char
  | '"' => some '"'
  | '\\' => some '\\'
  | '/' => some '/'
  | 'b' => some '\x08'
  | 'f' => some '\x0c'
  | 'n' => some '\n'
  | 'r' => some '\r'
  | 't' => some '\t'
  | _ => none

/-- A string after its opening quote: its text, if it has one, and what follows. The units read so
far come with the latest first. -/
def stringRest? (units : List Unit16) : List Char → Option (Option String × List Char)
  | [] => none
  | '"' :: rest => some (Unit16.text? units, rest)
  | '\\' :: 'u' :: a :: b :: c :: d :: rest =>
    match fourHex? a b c d with
    | some n => stringRest? (Unit16.push units n) rest
    | none => none
  | '\\' :: c :: rest =>
    match shortEscape? c with
    | some c => stringRest? (.char c :: units) rest
    | none => none
  | c :: rest => if c.toNat < 0x20 then none else stringRest? (.char c :: units) rest

/-- One digit or more: the digits and the rest. -/
def digits? (cs : List Char) : Option (List Char × List Char) :=
  match cs.span Text.isDigit with
  | ([], _) => none
  | found => some found

/-- The rest after the fraction of a number, if one begins here; whether one did. -/
def fraction? : List Char → Option (Bool × List Char)
  | '.' :: cs => (digits? cs).map fun (_, rest) => (true, rest)
  | cs => some (false, cs)

/-- The rest after the exponent of a number, if one begins here; whether one did. -/
def exponent? : List Char → Option (Bool × List Char)
  | [] => some (false, [])
  | c :: cs =>
    if c = 'e' ∨ c = 'E' then
      let unsigned := match cs with
        | '+' :: cs => cs
        | '-' :: cs => cs
        | cs => cs
      (digits? unsigned).map fun (_, rest) => (true, rest)
    else some (false, c :: cs)

/-- A number. -/
def number? (cs : List Char) : Option (Json × List Char) := do
  let (negative, unsigned) := match cs with
    | '-' :: cs => (true, cs)
    | cs => (false, cs)
  let (digits, rest) ← digits? unsigned
  -- A number of several digits does not begin with a zero.
  guard (digits.length = 1 ∨ digits.head? ≠ some '0')
  let (fraction, rest) ← fraction? rest
  let (exponent, rest) ← exponent? rest
  let n := Text.digitsValue 10 digits
  if fraction || exponent || (negative && n == 0) then return (.inexact, rest)
  return (.int (if negative then -(n : Int) else n), rest)

mutual

/-- A value and the rest. Two steps of fuel for each character are enough. -/
def value? (fuel : Nat) (cs : List Char) : Option (Json × List Char) :=
  match fuel with
  | 0 => none
  | fuel + 1 =>
    match skipBlanks cs with
    | 'n' :: rest => (Text.afterWord? "ull" rest).map fun rest => (.null, rest)
    | 't' :: rest => (Text.afterWord? "rue" rest).map fun rest => (.bool true, rest)
    | 'f' :: rest => (Text.afterWord? "alse" rest).map fun rest => (.bool false, rest)
    | '"' :: rest =>
      (stringRest? [] rest).map fun (text, rest) =>
        (text.elim .unreadable .str, rest)
    | '[' :: rest =>
      match skipBlanks rest with
      | ']' :: rest => some (.arr [], rest)
      | rest => (elements? fuel rest).map fun (xs, rest) => (.arr xs, rest)
    | '\x7b' :: rest =>
      match skipBlanks rest with
      | '\x7d' :: rest => some (.obj [], rest)
      | rest =>
        (entries? fuel rest).map fun (entries, rest) => (entries.elim .unreadable .obj, rest)
    | rest => number? rest

/-- The elements of a list up to its closing bracket, and the rest. -/
def elements? (fuel : Nat) (cs : List Char) : Option (List Json × List Char) :=
  match fuel with
  | 0 => none
  | fuel + 1 =>
    match value? fuel cs with
    | none => none
    | some (x, rest) =>
      match skipBlanks rest with
      | ']' :: rest => some ([x], rest)
      | ',' :: rest => (elements? fuel rest).map fun (xs, rest) => (x :: xs, rest)
      | _ => none

/-- The entries of an object up to its closing brace, if every key has a text, and the rest. -/
def entries? (fuel : Nat) (cs : List Char) : Option (Option (List (String × Json)) × List Char) :=
  match fuel with
  | 0 => none
  | fuel + 1 =>
    match skipBlanks cs with
    | '"' :: rest =>
      match stringRest? [] rest with
      | none => none
      | some (key, rest) =>
        match skipBlanks rest with
        | ':' :: rest =>
          match value? fuel rest with
          | none => none
          | some (x, rest) =>
            match skipBlanks rest with
            | '\x7d' :: rest => some (key.map fun key => [(key, x)], rest)
            | ',' :: rest =>
              (entries? fuel rest).map fun (entries, rest) =>
                (key.bind fun key => entries.map ((key, x) :: ·), rest)
            | _ => none
        | _ => none
    | _ => none

end

/-- The value of a JSON text: one value, with blanks around it and nothing else. -/
def parse? (text : String) : Option Json := do
  let cs := text.toList
  let (x, rest) ← value? (2 * cs.length + 2) cs
  guard (skipBlanks rest).isEmpty
  return x

end NetPrep.Json
