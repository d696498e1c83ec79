import Mathlib
import NetPrep.Proofs.Nesting

/-!
# Valid modules

What callers promise about a module that they hand over for preparation. `TypeTable.fits` says which
types the operands and results of an operation have; `Scoped` says that a value is used in the block of
its definition or further in, and, where a block is executed in order, after its definition. A sound
module is `WellTyped` if the first holds, `WellScoped` if both do, and `Valid` if besides input ports
define their values. A result asks for as much of this as it needs.
-/

namespace NetPrep

namespace TypeTable

variable (t : TypeTable)

def entry? (id : TypeId) : Option HwType := t.entries[id.index]?

/-- The type that storage of a type holds. -/
def elementOf? (id : TypeId) : Option TypeId :=
  match t.entry? id with
  | some (.storage element) => some element
  | _ => none

/-- A type of values, not of storage. -/
def isValue (id : TypeId) : Bool :=
  match t.entry? id with
  | some (.storage _) | none => false
  | some _ => true

/-- The width of a bit vector. -/
def intWidth? (id : TypeId) : Option Nat :=
  match t.entry? id with
  | some (.int width) => some width
  | _ => none

def isInt (id : TypeId) : Bool := (t.intWidth? id).isSome

def arrayElement? (id : TypeId) : Option TypeId :=
  match t.entry? id with
  | some (.array element _) => some element
  | _ => none

def fields? (id : TypeId) : Option (List (Name × TypeId)) :=
  match t.entry? id with
  | some (.record fields) => some fields
  | _ => none

/-- Storage of a type whose values a part is selected from, and storage of the part. -/
def selectsStorage (part? : TypeId → Option TypeId) (whole part : TypeId) : Bool :=
  ((t.elementOf? whole).bind part?).isSome &&
    (t.elementOf? whole).bind part? == t.elementOf? part

def fieldType? (field : Name) (id : TypeId) : Option TypeId :=
  (t.fields? id).bind (List.lookup field)

/-- The types that the operands and results of an operation have. -/
def fits : Op → List TypeId → List TypeId → Bool
  | .wire, [], [r] | .reg, [], [r] | .logic, [], [r] => (t.elementOf? r).isSome
  | .read, [s], [r] => t.elementOf? s == some r
  | .assign, [d, s], [] | .blockingAssign, [d, s], [] | .nonblockingAssign, [d, s], [] =>
    t.elementOf? d == some s
  | .inst _ _ inputs outputs, os, rs =>
    os.length == inputs.length && rs.length == outputs.length && rs.all t.isValue
  | .output, os, [] => os.all t.isValue
  | .constant _, [], [r] => t.isInt r
  | .add, o :: os, [r] | .mul, o :: os, [r] | .and, o :: os, [r] | .or, o :: os, [r]
  | .xor, o :: os, [r] => t.isInt r && (o :: os).all (· == r)
  | .sub, [a, b], [r] | .shl, [a, b], [r] | .shru, [a, b], [r] => t.isInt r && a == r && b == r
  | .compare _, [a, b], [r] => t.isInt a && a == b && t.intWidth? r == some 1
  | .mux, [c, a, b], [r] => t.intWidth? c == some 1 && t.isValue r && a == r && b == r
  | .concat, os, [r] => os.all t.isInt && t.isInt r &&
    (os.filterMap t.intWidth?).sum == (t.intWidth? r).getD 0
  | .extract low, [a], [r] => t.isInt a && t.isInt r &&
    decide (low + (t.intWidth? r).getD 0 ≤ (t.intWidth? a).getD 0)
  | .replicate, [a], [r] => t.isInt a && t.isInt r &&
    decide ((t.intWidth? a).getD 0 ∣ (t.intWidth? r).getD 0)
  | .bitcast, [a], [r] => t.isValue a && t.isValue r && t.bitWidth a == t.bitWidth r
  | .structCreate, os, [r] => (t.fields? r).map (·.map (·.2)) == some os
  | .structExtract field, [a], [r] => t.isValue r && t.fieldType? field a == some r
  | .structExplode, [a], rs => rs.all t.isValue && (t.fields? a).map (·.map (·.2)) == some rs
  | .arrayGet, [a, i], [r] => t.isValue r && t.isInt i && t.arrayElement? a == some r
  | .elementStorage, [s, i], [r] => t.isInt i && t.selectsStorage t.arrayElement? s r
  | .fieldStorage field, [s], [r] => t.selectsStorage (t.fieldType? field) s r
  | .systemCall .., _, [r] | .verbatim .., _, [r] => t.isValue r
  | .always edges, os, [] => os.length == edges.length && os.all (t.intWidth? · == some 1)
  | .alwaysFF _ none, [c], [] => t.intWidth? c == some 1
  | .alwaysFF _ (some _), [c, r], [] => t.intWidth? c == some 1 && t.intWidth? r == some 1
  | .cond, [c], [] => t.intWidth? c == some 1
  | .alwaysComb, [], [] | .initial, [], [] | .ifdef _, [], [] | .proceduralIfdef _, [], [] => true
  | .fwrite _, os, [] => os.all t.isValue
  | .foreign .., _, rs => rs.all t.isValue
  | _, _, _ => false

end TypeTable

/-- The operands and results of a node have the types that its operation asks for. -/
def Module.Typed (m : Module) (n : Node) : Prop :=
  ∃ os rs, n.operands.mapM m.type? = some os ∧ n.results.mapM m.type? = some rs ∧
    m.types.fits n.op os rs = true

/-- A use of a value lies in the block of the node that defines it or further in, and, if the block is
executed in order, after that node. -/
def Module.Scoped (m : Module) (user d : NodeId) : Prop :=
  ∃ nd a, m.live? d = some nd ∧ m.Around a user ∧ a ∈ m.nodesOf nd.parent ∧
    (m.kind? nd.parent = some .procedural → Precedes (m.nodesOf nd.parent) d a)

/-- A sound module of well-typed nodes. -/
structure WellTyped (m : Module) : Prop extends Sound m where
  typed : ∀ {id n}, m.live? id = some n → m.Typed n

/-- A sound module of well-typed nodes that use values where these are in scope. -/
structure WellScoped (m : Module) : Prop extends WellTyped m where
  inScope : ∀ {u v d i}, m.Uses u v → m.def? v = some (.result d i) → m.Scoped u.node d

/-- What callers promise. -/
structure Valid (m : Module) : Prop extends WellScoped m where
  /-- The value of an input port is defined by it. -/
  input : ∀ {p v}, p ∈ m.ports → p.value = some v → ∃ i, m.def? v = some (.port i)

/-- The types of some values, one for each. -/
theorem Module.forall₂_of_mapM_type? {m : Module} {vs : List ValueId} {types : List TypeId}
    (h : vs.mapM m.type? = some types) :
    List.Forall₂ (fun v type => m.type? v = some type) vs types := by
  induction vs generalizing types with
  | nil =>
    obtain rfl : [] = types := by simpa using h
    exact .nil
  | cons v vs ih =>
    simp only [List.mapM_cons, Option.bind_eq_bind, Option.bind_eq_some_iff, Option.pure_def,
      Option.some.injEq] at h
    obtain ⟨type, htype, rest, hrest, rfl⟩ := h
    exact .cons htype (ih hrest)

theorem Module.exists_type_of_mem {m : Module} {vs : List ValueId} {types : List TypeId}
    (h : vs.mapM m.type? = some types) {v : ValueId} (hv : v ∈ vs) :
    ∃ type ∈ types, m.type? v = some type := by
  replace h := forall₂_of_mapM_type? h
  induction h with
  | nil => cases hv
  | @cons w type vs types htype _ ih =>
    rcases List.mem_cons.1 hv with rfl | hv
    · exact ⟨type, by simp, htype⟩
    · obtain ⟨type', hmem, htype'⟩ := ih hv
      exact ⟨type', List.mem_cons_of_mem _ hmem, htype'⟩

end NetPrep
