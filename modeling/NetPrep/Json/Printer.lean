import NetPrep.Json.Basic
import NetPrep.Text.Digit

/-!
# Printing JSON

Two layouts of a JSON value: on one line without blanks, and indented by two blanks a level with
one entry a line. Characters outside the controls are written as they are.
-/

namespace NetPrep.Json

/-- One character inside a JSON string. -/
def escapeChar (c : Char) : List Char :=
  match c with
  | '"' => ['\\', '"']
  | '\\' => ['\\', '\\']
  | '\x08' => ['\\', 'b']
  | '\x0c' => ['\\', 'f']
  | '\n' => ['\\', 'n']
  | '\r' => ['\\', 'r']
  | '\t' => ['\\', 't']
  | c =>
    if c.toNat < 0x20 then
      ['\\', 'u', '0', '0', Text.hexDigit (c.toNat / 16), Text.hexDigit (c.toNat % 16)]
    else [c]

/-- A JSON string. -/
def quote (s : String) : String :=
  String.ofList ('"' :: s.toList.flatMap escapeChar ++ ['"'])

/-- A line break followed by the indentation of a level. -/
def newline (level : Nat) : String := "\n" ++ String.ofList (List.replicate (2 * level) ' ')

mutual

/-- The value on one line. -/
def compact : Json → String
  | .null => "null"
  | .bool true => "true"
  | .bool false => "false"
  | .int n => toString n
  | .inexact => "0.5"
  | .str s => quote s
  | .arr xs => "[" ++ compactElements "" xs ++ "]"
  | .obj es => "\x7b" ++ compactEntries "" es ++ "\x7d"
  | .unreadable => "\"\\ud800\""

/-- The elements of a list, each after a separator that is empty before the first. -/
def compactElements (sep : String) : List Json → String
  | [] => ""
  | x :: xs => sep ++ compact x ++ compactElements "," xs

/-- The entries of an object, each after a separator that is empty before the first. -/
def compactEntries (sep : String) : List (String × Json) → String
  | [] => ""
  | (k, x) :: es => sep ++ quote k ++ ":" ++ compact x ++ compactEntries "," es

end

mutual

/-- The value in indented form, as it stands at a level. -/
def indented (level : Nat) : Json → String
  | .arr [] => "[]"
  | .arr (x :: xs) =>
    "[" ++ newline (level + 1) ++ indented (level + 1) x ++ indentedElements (level + 1) xs
      ++ newline level ++ "]"
  | .obj [] => "\x7b\x7d"
  | .obj ((k, x) :: es) =>
    "\x7b" ++ newline (level + 1) ++ quote k ++ ": " ++ indented (level + 1) x
      ++ indentedEntries (level + 1) es ++ newline level ++ "\x7d"
  | other => compact other

/-- The elements after the first. -/
def indentedElements (level : Nat) : List Json → String
  | [] => ""
  | x :: xs => "," ++ newline level ++ indented level x ++ indentedElements level xs

/-- The entries after the first. -/
def indentedEntries (level : Nat) : List (String × Json) → String
  | [] => ""
  | (k, x) :: es =>
    "," ++ newline level ++ quote k ++ ": " ++ indented level x ++ indentedEntries level es

end

end NetPrep.Json
