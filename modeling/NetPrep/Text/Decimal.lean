import NetPrep.Text.Digit

/-!
# Decimal counts

Counts as people write them, and numbers padded to a width.
-/

namespace NetPrep.Text

/-- A count below the limit: decimal digits, with an optional plus sign before them. -/
def readCount? (limit : Nat) (cs : List Char) : Option Nat := do
  let digits := match cs with
    | '+' :: rest => rest
    | cs => cs
  guard (!digits.isEmpty && digits.all isDigit)
  let n := digitsValue 10 digits
  guard (n < limit)
  return n

/-- At least as many digits as asked for, with zeros in front. -/
def padded (width n : Nat) : String :=
  let digits := toString n
  String.ofList (List.replicate (width - digits.length) '0') ++ digits

end NetPrep.Text
