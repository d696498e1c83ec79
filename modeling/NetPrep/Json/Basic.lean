/-!
# JSON values

The value behind a JSON text. An object keeps its entries in order and repeated keys apart, and a
number keeps whether it is written as an integer, because readers of records care about both
(`NetPrep.Json.Decode`).
-/

namespace NetPrep

/-- A JSON value. -/
inductive Json where
  | null
  | bool (b : Bool)
  | int (n : Int)
  /-- A number that is no integer literal: one with a point or an exponent, or minus zero. -/
  | inexact
  | str (s : String)
  | arr (elements : List Json)
  | obj (entries : List (String × Json))
  /-- A well-formed text or object whose escapes name half of a surrogate pair: no text holds it. -/
  | unreadable
deriving Repr

namespace Json

/-- A natural number as a JSON integer. -/
def ofNat (n : Nat) : Json := .int n

/-- An optional value; the absent one is null. -/
def ofOption {α : Type} (f : α → Json) : Option α → Json
  | none => .null
  | some a => f a

/-- A list of values, each in its JSON form. -/
def ofList {α : Type} (f : α → Json) (xs : List α) : Json := .arr (xs.map f)

/-- An object with one entry: the form of a tagged record. -/
def tagged (tag : String) (fields : List (String × Json)) : Json := .obj [(tag, .obj fields)]

end Json

end NetPrep
