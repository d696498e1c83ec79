import Mathlib
import NetPrep.Proofs.Valid

/-!
# What a module of graph blocks means

The nodes of a graph block are equations: a valuation gives a datum to every value and to the
contents of every declaration, and satisfies the module if what each node computes is what its
results have. Which nodes count depends on the macros that are defined, as an `ifdef` compiles one of
its regions only. The meaning of a module is the relation between its inputs and its outputs for
which there is such a valuation.

Arithmetic, constants and the parts of structs mean what they say. Every other operation is a
function of its operands that is left open, as is what a type consists of where nothing depends on
it (`Meaning`).
-/

namespace NetPrep

/-! ## Data -/

/-- What a value may be: bits, read as a number, or a list of components. -/
inductive Datum where
  | bits (n : Nat)
  | tuple (components : List Datum)

namespace Datum

instance : Inhabited Datum := ⟨bits 0⟩

/-- The lowest bits of a datum. -/
def word (w : Nat) : Datum → BitVec w
  | bits n => BitVec.ofNat w n
  | tuple _ => 0

def ofWord {w : Nat} (x : BitVec w) : Datum := bits x.toNat

def components : Datum → List Datum
  | bits _ => []
  | tuple ds => ds

/-- The component of a struct that belongs to a field. -/
def component (fields : List Name) (field : Name) (d : Datum) : Datum :=
  ((fields.zip d.components).lookup field).getD default

@[simp] theorem word_ofWord {w : Nat} (x : BitVec w) : word w (ofWord x) = x := by
  simp [word, ofWord]

/-- Where no field occurs twice, each belongs to the component at its place. -/
theorem component_getElem {fields : List Name} (hnd : fields.Nodup) {i : Nat} {field : Name}
    (h : fields[i]? = some field) (d : Datum) :
    d.component fields field = (d.components[i]?).getD default := by
  suffices ∀ ds : List Datum, (fields.zip ds).lookup field = ds[i]? by rw [component, this]
  intro ds
  induction fields generalizing i ds with
  | nil => simp at h
  | cons f fs ih =>
    obtain ⟨hf, hnd⟩ := List.nodup_cons.1 hnd
    cases ds with
    | nil => simp
    | cons d ds =>
      cases i with
      | zero =>
        obtain rfl : f = field := by simpa using h
        simp
      | succ i =>
        rw [List.getElem?_cons_succ] at h
        have hne : (field == f) = false := beq_false_of_ne fun he =>
          hf (he ▸ List.mem_of_getElem? h)
        rw [List.zip_cons_cons, List.lookup_cons, hne, List.getElem?_cons_succ]
        exact ih hnd h ds

end Datum

/-! ## Types in a growing table -/

namespace TypeTable

variable {t t' : TypeTable} {id element : TypeId} {w : Nat} {fields : List (Name × TypeId)}

theorem entry?_eq_some_iff {ty : HwType} : t.entry? id = some ty ↔ t.get id = .ok ty :=
  get_eq_ok_iff.symm

theorem intWidth?_eq_some_iff : t.intWidth? id = some w ↔ t.get id = .ok (.int w) := by
  rw [← entry?_eq_some_iff, intWidth?]
  cases t.entry? id with
  | none => simp
  | some ty => cases ty <;> simp

theorem elementOf?_eq_some_iff :
    t.elementOf? id = some element ↔ t.get id = .ok (.storage element) := by
  rw [← entry?_eq_some_iff, elementOf?]
  cases t.entry? id with
  | none => simp
  | some ty => cases ty <;> simp

theorem fields?_eq_some_iff : t.fields? id = some fields ↔ t.get id = .ok (.record fields) := by
  rw [← entry?_eq_some_iff, fields?]
  cases t.entry? id with
  | none => simp
  | some ty => cases ty <;> simp

/-- A table holds the types of another one, at their places. -/
def Extends (t' t : TypeTable) : Prop := ∀ id ty, t.get id = .ok ty → t'.get id = .ok ty

theorem Extends.intWidth? (h : t'.Extends t) (hw : t.intWidth? id = some w) :
    t'.intWidth? id = some w := by
  rw [intWidth?_eq_some_iff] at hw ⊢
  exact h _ _ hw

theorem Extends.elementOf? (h : t'.Extends t) (he : t.elementOf? id = some element) :
    t'.elementOf? id = some element := by
  rw [elementOf?_eq_some_iff] at he ⊢
  exact h _ _ he

theorem Extends.fields? (h : t'.Extends t) (hf : t.fields? id = some fields) :
    t'.fields? id = some fields := by
  rw [fields?_eq_some_iff] at hf ⊢
  exact h _ _ hf

end TypeTable

/-! ## What an operation computes -/

/-- The operation of a variadic operator on words, and its unit. -/
def Op.monoid? (w : Nat) : Op → Option ((BitVec w → BitVec w → BitVec w) × BitVec w)
  | .add => some ((· + ·), 0)
  | .mul => some ((· * ·), 1)
  | .and => some ((· &&& ·), BitVec.allOnes w)
  | .or => some ((· ||| ·), 0)
  | .xor => some ((· ^^^ ·), 0)
  | _ => none

/-- An operation whose results are functions of its operands. -/
def Op.isFunction (op : Op) : Bool :=
  (op.category == .expression || op.category == .instantiation)

/-- What is left open: which data a type consists of, and each result of the operations that nothing
more is known of, which may depend on the attributes and on the types. -/
structure Meaning where
  has : TypeId → Datum → Prop
  apply (op : Op) (twoState : Bool) (operandTypes resultTypes : List TypeId)
    (operands : List Datum) (result : Nat) : Datum

namespace Meaning

/-- A meaning agrees with a table of types: words have their width, a struct has a component for each
field, and what is left open respects the types. -/
structure Fits (I : Meaning) (t : TypeTable) : Prop where
  int : ∀ {type w}, t.intWidth? type = some w →
    ∀ d, I.has type d ↔ ∃ x : BitVec w, d = .ofWord x
  record : ∀ {type fields}, t.fields? type = some fields →
    ∀ d, I.has type d ↔ ∃ ds, d = .tuple ds ∧ List.Forall₂ I.has (fields.map (·.2)) ds
  apply : ∀ {op twoState os rs ds i type}, rs[i]? = some type →
    I.has type (I.apply op twoState os rs ds i)

theorem Fits.inhabited {I : Meaning} {t : TypeTable} (h : I.Fits t) (type : TypeId) :
    ∃ d, I.has type d :=
  ⟨_, @Fits.apply I t h .wire false [] [type] [] 0 type rfl⟩

/-- A meaning that agrees with a table agrees with a smaller one. -/
theorem Fits.mono {I : Meaning} {t t' : TypeTable} (h : I.Fits t') (ht : t'.Extends t) :
    I.Fits t where
  int hw := h.int (ht.intWidth? hw)
  record hf := h.record (ht.fields? hf)
  apply := h.apply

/-- The width of the first of the result types. -/
def width (t : TypeTable) (rs : List TypeId) : Nat := (rs.head?.bind t.intWidth?).getD 0

/-- The names of the fields of the first of the operand types. -/
def fieldNames (t : TypeTable) (os : List TypeId) : List Name :=
  ((os.head?.bind t.fields?).getD []).map (·.1)

/-- A result of an operation on words of a width, or on a struct with given fields. -/
def resultAt (I : Meaning) (w : Nat) (fields : List Name) (op : Op) (twoState : Bool)
    (os rs : List TypeId) (ds : List Datum) (i : Nat) : Datum :=
  match op with
  | .constant value => .ofWord (BitVec.ofInt w value)
  | .sub => .ofWord ((ds[0]?.getD default).word w - (ds[1]?.getD default).word w)
  | .structExtract field => (ds[0]?.getD default).component fields field
  | .structExplode => ((ds[0]?.getD default).components[i]?).getD default
  | op =>
    match op.monoid? w with
    | some (f, unit) => .ofWord ((ds.map (Datum.word w)).foldr f unit)
    | none => I.apply op twoState os rs ds i

/-- A result of an operation. -/
def result (I : Meaning) (t : TypeTable) (op : Op) (twoState : Bool) (os rs : List TypeId)
    (ds : List Datum) (i : Nat) : Datum :=
  I.resultAt (width t rs) (fieldNames t os) op twoState os rs ds i

end Meaning

/-! ## Valuations -/

/-- A datum for each value, and one for the contents of each declaration. -/
structure Valuation where
  value : ValueId → Datum
  content : ValueId → Datum

/-- The blocks that are compiled when some macros are defined. -/
inductive Module.Compiled (macros : Name → Prop) (m : Module) : BlockId → Prop
  | body : Compiled macros m m.body
  | yes {id : NodeId} {n : Node} {flag : Name} {b : BlockId} (hn : m.live? id = some n)
      (hop : n.op = .ifdef flag) (hb : n.regions[0]? = some b) (hflag : macros flag)
      (h : Compiled macros m n.parent) : Compiled macros m b
  | no {id : NodeId} {n : Node} {flag : Name} {b : BlockId} (hn : m.live? id = some n)
      (hop : n.op = .ifdef flag) (hb : n.regions[1]? = some b) (hflag : ¬ macros flag)
      (h : Compiled macros m n.parent) : Compiled macros m b

/-- The types of values. -/
def Module.typesOf (m : Module) (vs : List ValueId) : List TypeId := vs.filterMap m.type?

/-- What a valuation has an operation compute from operands. A read has the contents of what it
reads. -/
def Meaning.computed (I : Meaning) (m : Module) (σ : Valuation) (n : Node) (i : Nat) : Datum :=
  if n.op = .read then (n.operands[0]?.map σ.content).getD default
  else I.result m.types n.op n.twoState (m.typesOf n.operands) (m.typesOf n.results)
    (n.operands.map σ.value) i

/-- The equation of a node: its results are what it computes, and an assignment has its destination
contain its source. The other nodes have none. -/
structure Meaning.Holds (I : Meaning) (m : Module) (σ : Valuation) (n : Node) : Prop where
  results : n.op = .read ∨ n.op.isFunction = true → ∀ i v, n.results[i]? = some v →
    σ.value v = I.computed m σ n i
  assign : n.op = .assign → ∀ d s, n.operands = [d, s] → σ.content d = σ.value s

/-- The values and what the declarations contain have their types. -/
structure Meaning.Respects (I : Meaning) (m : Module) (σ : Valuation) : Prop where
  value : ∀ {v type}, m.type? v = some type → I.has type (σ.value v)
  content : ∀ {id n v type element}, m.live? id = some n → n.op.isDeclaration = true →
    v ∈ n.results → m.type? v = some type → m.types.elementOf? type = some element →
    I.has element (σ.content v)

/-- A valuation satisfies a module, and has given inputs, and given operands at each node that ends
the module. -/
structure Meaning.Shows (I : Meaning) (macros : Name → Prop) (ins : Nat → Datum)
    (outs : NodeId → List Datum) (m : Module) (σ : Valuation) : Prop extends I.Respects m σ where
  holds : ∀ {id n}, m.live? id = some n → m.Compiled macros n.parent → I.Holds m σ n
  input : ∀ {v i}, m.def? v = some (.port i) → σ.value v = ins i
  output : ∀ {id n}, m.live? id = some n → n.op = .output → m.Compiled macros n.parent →
    n.operands.map σ.value = outs id

/-- Inputs and outputs that belong together. -/
def Meaning.Realizes (I : Meaning) (macros : Name → Prop) (m : Module) (ins : Nat → Datum)
    (outs : NodeId → List Datum) : Prop :=
  ∃ σ, I.Shows macros ins outs m σ

end NetPrep
