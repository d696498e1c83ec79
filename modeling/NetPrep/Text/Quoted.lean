import NetPrep.Text.Digit
import NetPrep.Text.Hidden

/-!
# Quoted text

Text between double quotes, on one line and in visible characters: a quote and a backslash are
escaped, the common controls have short escapes, and a hidden character is written by its code
point in hexadecimal.
-/

namespace NetPrep.Text

/-- One character inside quotes. -/
def escapeChar (c : Char) : List Char :=
  match c with
  | '\x00' => ['\\', '0']
  | '\t' => ['\\', 't']
  | '\r' => ['\\', 'r']
  | '\n' => ['\\', 'n']
  | '"' => ['\\', '"']
  | '\\' => ['\\', '\\']
  | c => if isHidden c then ['\\', 'u', '\x7b'] ++ hexDigits c.toNat ++ ['\x7d'] else [c]

/-- Text between quotes, each character in its visible form. -/
def quoted (s : String) : String :=
  String.ofList ('"' :: s.toList.flatMap escapeChar ++ ['"'])

end NetPrep.Text
