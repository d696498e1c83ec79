import NetPrep.Json.Basic
import NetPrep.Word

/-!
# Decoding records and variants

How domain values are read from JSON. A record is an object with one entry for each field, in any
order, with entries of other names ignored; or a list of all its fields in their order. A variant
without fields is its tag, alone or as the only key of an object with a null; a variant with fields
is an object whose only key is the tag and whose entry is the record of the fields.

A decoder answers `none` on any value that is not of its form.
-/

namespace NetPrep.Json

/-- A natural number below a limit. -/
def toNat? (limit : Nat) : Json → Option Nat
  | .int (.ofNat n) => if n < limit then some n else none
  | _ => none

/-- A 32-bit number. -/
def toNat32? : Json → Option Nat := toNat? limit32

/-- A 64-bit number. -/
def toNat64? : Json → Option Nat := toNat? limit64

/-- A signed 64-bit number. -/
def toInt64? : Json → Option Int
  | .int n => if fitsInt64 n then some n else none
  | _ => none

def toBool? : Json → Option Bool
  | .bool b => some b
  | _ => none

def toString? : Json → Option String
  | .str s => some s
  | _ => none

/-- A list whose elements all decode. -/
def toList? {α : Type} (f : Json → Option α) : Json → Option (List α)
  | .arr xs => xs.mapM f
  | _ => none

/-- A value or null. -/
def toOption? {α : Type} (f : Json → Option α) : Json → Option (Option α)
  | .null => some none
  | x => (f x).map some

/-- A pair, written as a list of two elements. -/
def toPair? {α β : Type} (f : Json → Option α) (g : Json → Option β) : Json → Option (α × β)
  | .arr [x, y] => do return (← f x, ← g y)
  | _ => none

/-- The entries with a key. -/
def entriesOf (key : String) (entries : List (String × Json)) : List Json :=
  (entries.filter (·.1 == key)).map (·.2)

/-- The fields of a record by their names: each with its value, or `none` if the object has no
entry for it. A repeated field is refused. -/
def fields? (names : List String) : Json → Option (List (Option Json))
  | .obj entries => names.mapM fun name =>
    match entriesOf name entries with
    | [] => some none
    | [x] => some (some x)
    | _ => none
  | .arr xs => if xs.length = names.length then some (xs.map some) else none
  | _ => none

/-- A field that must be there. -/
def required {α : Type} (f : Json → Option α) (field : Option Json) : Option α := field.bind f

/-- A field that may be null or absent. -/
def optional {α : Type} (f : Json → Option α) : Option Json → Option (Option α)
  | none => some none
  | some x => toOption? f x

/-- A variant: its tag and what stands beside the tag, if anything. -/
def variant? : Json → Option (String × Option Json)
  | .str tag => some (tag, none)
  | .obj [(tag, x)] => some (tag, some x)
  | _ => none

/-- Nothing but the tag: no value beside it, or a null. -/
def bare {α : Type} (a : α) : Option Json → Option α
  | none => some a
  | some .null => some a
  | _ => none

/-- A variant that is one of several tags. -/
def toTag? {α : Type} (tags : List (String × α)) (x : Json) : Option α := do
  let (tag, payload) ← variant? x
  let a ← tags.lookup tag
  bare a payload

end NetPrep.Json
