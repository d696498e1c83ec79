import NetPrep.NameTable

/-!
# Hardware types

A module keeps its types in a table and refers to them by place. Interning a type finds an equal
entry or adds one; the components of a type are places in the same table.
-/

namespace NetPrep

/-- A hardware type over the places of its components. -/
inductive HwType where
  /-- A bit vector. -/
  | int (width : Nat)
  /-- Mutable storage of a value of the element type. -/
  | storage (element : TypeId)
  /-- A packed array. -/
  | array (element : TypeId) (length : Nat)
  /-- A packed struct, with its fields in order. -/
  | record (fields : List (Name × TypeId))
deriving DecidableEq, Repr

/-- The types of a module. -/
structure TypeTable where
  entries : Array HwType
deriving DecidableEq, Repr

namespace TypeTable

def empty : TypeTable := ⟨#[]⟩

def size (t : TypeTable) : Nat := t.entries.size

/-- The place of a type: of the first entry equal to it, or of a new entry. -/
def intern (t : TypeTable) (ty : HwType) : TypeId × TypeTable :=
  match t.entries.toList.idxOf? ty with
  | some i => (⟨i⟩, t)
  | none => (⟨t.entries.size⟩, ⟨t.entries.push ty⟩)

def get (t : TypeTable) (id : TypeId) : Except Fault HwType :=
  match t.entries[id.index]? with
  | some ty => .ok ty
  | none => .error (.noType id)

theorem get_eq_ok_iff {t : TypeTable} {id : TypeId} {ty : HwType} :
    t.get id = .ok ty ↔ t.entries[id.index]? = some ty := by
  unfold get
  split <;> simp_all

/-- An interned type is found at its place. -/
theorem get_intern (t : TypeTable) (ty : HwType) :
    (t.intern ty).2.get (t.intern ty).1 = .ok ty := by
  rw [get_eq_ok_iff]
  unfold intern
  split
  · next i hi =>
    obtain ⟨hlt, hty, _⟩ := List.findIdx?_eq_some_iff_getElem.1 hi
    have hlt' : i < t.entries.size := by simpa using hlt
    rw [Array.getElem?_eq_getElem hlt']
    simpa using hty
  · simp

/-- Interning leaves earlier types at their places. -/
theorem get_intern_of_get {t : TypeTable} {id : TypeId} {a : HwType} (h : t.get id = .ok a)
    (ty : HwType) : (t.intern ty).2.get id = .ok a := by
  rw [get_eq_ok_iff] at h ⊢
  unfold intern
  split
  · exact h
  · obtain ⟨hlt, _⟩ := Array.getElem?_eq_some_iff.1 h
    rw [Array.getElem?_push_lt hlt, ← Array.getElem?_eq_getElem hlt, h]

/-- The type that storage holds; none for a type of values. -/
def storedType? (t : TypeTable) (id : TypeId) : Except Fault (Option TypeId) := do
  match ← t.get id with
  | .storage element => return some element
  | _ => return none

def isStorage (t : TypeTable) (id : TypeId) : Except Fault Bool := do
  return (← t.storedType? id).isSome

/-- The fields of a struct type; none for the others. -/
def fields (t : TypeTable) (id : TypeId) : Except Fault (List (Name × TypeId)) := do
  match ← t.get id with
  | .record fields => return fields
  | _ => return []

/-- The sum of the widths of fields, added to the width so far; none as soon as one has none. -/
def sumWidths (width : TypeId → Except Fault (Option Nat)) :
    Nat → List (Name × TypeId) → Except Fault (Option Nat)
  | soFar, [] => return some soFar
  | soFar, (_, ty) :: rest => do
    match ← width ty with
    | none => return none
    | some w => sumWidths width (← below limit32 (soFar + w)) rest

/-- The packed width of a type that is nested less deep than the fuel. -/
def widthWithin (t : TypeTable) : Nat → TypeId → Except Fault (Option Nat)
  | 0, _ => .error .outOfFuel
  | fuel + 1, id => do
    match ← t.get id with
    | .int width => return some width
    | .storage _ => return none
    | .array element length =>
      match ← t.widthWithin fuel element with
      | none => return none
      | some w => return some (← below limit32 (w * length))
    | .record fields => sumWidths (t.widthWithin fuel) 0 fields

/-- The packed width of a type of values; none if there is storage in it. No type is nested deeper
than the table is long. -/
def bitWidth (t : TypeTable) (id : TypeId) : Except Fault (Option Nat) :=
  t.widthWithin (t.size + 1) id

/-- The text of a type that is nested less deep than the fuel. -/
def textWithin (t : TypeTable) (names : NameTable) : Nat → TypeId → Except Fault String
  | 0, _ => .error .outOfFuel
  | fuel + 1, id => do
    match ← t.get id with
    | .int width => return "i" ++ toString width
    | .storage element => return "!inout<" ++ (← t.textWithin names fuel element) ++ ">"
    | .array element length =>
      return "!array<" ++ toString length ++ "x" ++ (← t.textWithin names fuel element) ++ ">"
    | .record fields =>
      let parts ← fields.mapM fun (name, ty) => do
        return (← names.resolve name) ++ ": " ++ (← t.textWithin names fuel ty)
      return "!struct<" ++ ", ".intercalate parts ++ ">"

/-- The text of a type, as the dump writes it. -/
def text (t : TypeTable) (names : NameTable) (id : TypeId) : Except Fault String :=
  t.textWithin names (t.size + 1) id

end TypeTable

end NetPrep
