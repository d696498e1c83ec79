/-!
# TOML values and documents

The value behind a TOML text, and the document that is built up while its statements are read. A
document remembers how each table came to be, because a statement may only extend tables of certain
origins:

* a header defines its table once, and makes the tables around it as needed (*implicit* tables),
  which a later header may still define;
* a dotted key makes *dotted* tables, which only further dotted keys extend;
* each header of an array of tables begins a new element, and paths lead into the latest one.
-/

namespace NetPrep

/-- A TOML value. Numbers with a fraction, dates and times are only told apart from the rest. -/
inductive Toml where
  | str (s : String)
  | int (n : Int)
  | float
  | bool (b : Bool)
  | time
  | arr (elements : List Toml)
  | table (entries : List (String × Toml))
deriving Repr

namespace Toml

/-- What stands under a key of a document. -/
inductive Item where
  | value (v : Toml)
  | table (implicit dotted : Bool) (entries : List (String × Item))
  /-- An array of tables, the latest element first. -/
  | tables (elements : List (List (String × Item)))
deriving Repr

/-- The entries of a table. -/
abbrev Entries := List (String × Item)

namespace Entries

/-- The entries with the item under a key replaced, or added at the end. -/
def put (entries : Entries) (key : String) (item : Item) : Entries :=
  match entries with
  | [] => [(key, item)]
  | (k, i) :: rest => if k = key then (key, item) :: rest else (k, i) :: put rest key item

/-- Changes the table that a path leads to, making the tables on the way that are missing. The
change is told whether the table is dotted. -/
def descend (dotted : Bool) (entries : Entries) (path : List String) (here : Bool)
    (change : Bool → Entries → Option Entries) : Option Entries :=
  match path with
  | [] => change here entries
  | key :: path =>
    match entries.lookup key with
    | none => do
      let inner ← descend dotted [] path dotted change
      return entries.put key (.table true dotted inner)
    | some (.value _) => none
    | some (.tables []) => none
    | some (.tables (latest :: earlier)) => do
      let latest ← descend dotted latest path false change
      return entries.put key (.tables (latest :: earlier))
    | some (.table implicit isDotted inner) => do
      -- A dotted key does not reach into a table that has a header.
      guard (!(dotted && !implicit))
      let inner ← descend dotted inner path isDotted change
      return entries.put key (.table implicit isDotted inner)

/-- Adds a key and its value, under a path of dotted keys. -/
def addValue (entries : Entries) (path : List String) (key : String) (v : Toml) :
    Option Entries :=
  entries.descend true path false fun isDotted inner => do
    guard (isDotted != path.isEmpty)
    guard (inner.lookup key).isNone
    return inner ++ [(key, .value v)]

end Entries

/-- A document at some point of its text: the root table and the path of the table that the next
entries belong to. -/
structure Document where
  root : Entries
  /-- The path of the current table, and its last key; none for the root. -/
  current : Option (List String × String)
deriving Repr

namespace Document

def empty : Document := ⟨[], none⟩

/-- Begins the table of a header. -/
def beginTable (d : Document) (path : List String) (key : String) : Option Document := do
  let root ← d.root.descend false path false fun _ entries =>
    match entries.lookup key with
    | none => some (entries ++ [(key, .table false false [])])
    | some (.table true false inner) => some (entries.put key (.table false false inner))
    | some _ => none
  return ⟨root, some (path, key)⟩

/-- Begins a new element of the array of tables of a header. -/
def beginElement (d : Document) (path : List String) (key : String) : Option Document := do
  let root ← d.root.descend false path false fun _ entries =>
    match entries.lookup key with
    | none => some (entries ++ [(key, .tables [[]])])
    | some (.tables elements) => some (entries.put key (.tables ([] :: elements)))
    | some _ => none
  return ⟨root, some (path, key)⟩

/-- Adds an entry to the current table. -/
def addValue (d : Document) (path : List String) (key : String) (v : Toml) : Option Document := do
  match d.current with
  | none => return { d with root := ← d.root.addValue path key v }
  | some (outer, last) =>
    let root ← d.root.descend false (outer ++ [last]) false fun _ entries =>
      entries.addValue path key v
    return { d with root }

end Document

mutual

/-- The value of an item. -/
def Item.toValue : Item → Toml
  | .value v => v
  | .table _ _ entries => .table (entriesToValue entries)
  | .tables elements => .arr (elementsToValue elements).reverse

/-- The values of the entries of a table. -/
def entriesToValue : List (String × Item) → List (String × Toml)
  | [] => []
  | (key, item) :: rest => (key, item.toValue) :: entriesToValue rest

/-- The values of the elements of an array of tables. -/
def elementsToValue : List (List (String × Item)) → List Toml
  | [] => []
  | entries :: rest => .table (entriesToValue entries) :: elementsToValue rest

end

end Toml

end NetPrep
