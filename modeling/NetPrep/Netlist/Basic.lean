import NetPrep.Loc
import NetPrep.Netlist.HwType
import NetPrep.Netlist.Op

/-!
# Modules

A module owns stores of nodes, values and blocks. A node uses values and defines values; a value
knows the node or port that defines it and every operand that uses it; a block links its nodes in
both directions, and gives each an order key that rises along the block. The stores only grow: an
erased node stays as a tombstone that no block links.
-/

namespace NetPrep

/-- What defines a value: an input port, or a result of a node. -/
inductive ValueDef where
  | port (index : Nat)
  | result (node : NodeId) (index : Nat)
deriving DecidableEq, Repr

/-- One operand of a node, as the value that it refers to sees it. -/
structure Use where
  node : NodeId
  operand : Nat
deriving DecidableEq, Repr

/-- A value, with its uses in the order in which they were made. -/
structure Value where
  type : TypeId
  definition : ValueDef
  uses : List Use
deriving DecidableEq, Repr

/-- A node: an operation at its place in a block. -/
structure Node where
  op : Op
  operands : List ValueId
  results : List ValueId
  /-- One block for each region of the operation. -/
  regions : List BlockId
  /-- The name of a declaration, or the hint for naming an expression. -/
  name : Option Name
  twoState : Bool
  parent : BlockId
  loc : Loc
  erased : Bool
  prev : Option NodeId
  next : Option NodeId
  order : Nat
deriving DecidableEq, Repr

/-- The node list of a region. -/
structure Block where
  kind : RegionKind
  /-- The node that owns the region; none for the body of the module. -/
  parent : Option NodeId
  first : Option NodeId
  last : Option NodeId
  len : Nat
deriving DecidableEq, Repr

namespace Block

def empty (kind : RegionKind) (parent : Option NodeId) : Block := ⟨kind, parent, none, none, 0⟩

def isProcedural (b : Block) : Bool := b.kind == .procedural

end Block

inductive PortDirection where
  | input
  | output
deriving DecidableEq, Repr

/-- A port of a module; an input has the value that the body sees. -/
structure Port where
  name : Name
  direction : PortDirection
  type : TypeId
  value : Option ValueId
deriving DecidableEq, Repr

/-- A hardware module. -/
structure Module where
  name : Name
  loc : Loc
  ports : List Port
  types : TypeTable
  nodes : Array Node
  values : Array Value
  blocks : Array Block
  body : BlockId
deriving DecidableEq, Repr

namespace Module

/-- A module with an empty body and no ports. -/
def empty (name : Name) (loc : Loc) : Module where
  name := name
  loc := loc
  ports := []
  types := .empty
  nodes := #[]
  values := #[]
  blocks := #[.empty .graph none]
  body := ⟨0⟩

def node (m : Module) (id : NodeId) : Except Fault Node :=
  match m.nodes[id.index]? with
  | some n => .ok n
  | none => .error (.noNode id)

def value (m : Module) (id : ValueId) : Except Fault Value :=
  match m.values[id.index]? with
  | some v => .ok v
  | none => .error (.noValue id)

def block (m : Module) (id : BlockId) : Except Fault Block :=
  match m.blocks[id.index]? with
  | some b => .ok b
  | none => .error (.noBlock id)

/-- Changes a node in place. -/
def modifyNode (m : Module) (id : NodeId) (f : Node → Node) : Except Fault Module :=
  if id.index < m.nodes.size then .ok { m with nodes := m.nodes.modify id.index f }
  else .error (.noNode id)

/-- Changes a value in place. -/
def modifyValue (m : Module) (id : ValueId) (f : Value → Value) : Except Fault Module :=
  if id.index < m.values.size then .ok { m with values := m.values.modify id.index f }
  else .error (.noValue id)

/-- Changes a block in place. -/
def modifyBlock (m : Module) (id : BlockId) (f : Block → Block) : Except Fault Module :=
  if id.index < m.blocks.size then .ok { m with blocks := m.blocks.modify id.index f }
  else .error (.noBlock id)

theorem node_modifyNode {m m' : Module} {id : NodeId} {f : Node → Node}
    (h : m.modifyNode id f = .ok m') (j : NodeId) :
    m'.node j = if id = j then (m.node j).map f else m.node j := by
  unfold modifyNode at h
  split at h <;> cases h
  unfold node
  obtain ⟨i⟩ := id
  obtain ⟨j⟩ := j
  by_cases hij : i = j
  · subst hij
    cases hi : m.nodes[i]? <;> simp [Array.getElem?_modify, hi, Except.map]
  · simp [Array.getElem?_modify, hij]

theorem value_modifyValue {m m' : Module} {id : ValueId} {f : Value → Value}
    (h : m.modifyValue id f = .ok m') (j : ValueId) :
    m'.value j = if id = j then (m.value j).map f else m.value j := by
  unfold modifyValue at h
  split at h <;> cases h
  unfold value
  obtain ⟨i⟩ := id
  obtain ⟨j⟩ := j
  by_cases hij : i = j
  · subst hij
    cases hi : m.values[i]? <;> simp [Array.getElem?_modify, hi, Except.map]
  · simp [Array.getElem?_modify, hij]

theorem block_modifyBlock {m m' : Module} {id : BlockId} {f : Block → Block}
    (h : m.modifyBlock id f = .ok m') (j : BlockId) :
    m'.block j = if id = j then (m.block j).map f else m.block j := by
  unfold modifyBlock at h
  split at h <;> cases h
  unfold block
  obtain ⟨i⟩ := id
  obtain ⟨j⟩ := j
  by_cases hij : i = j
  · subst hij
    cases hi : m.blocks[i]? <;> simp [Array.getElem?_modify, hi, Except.map]
  · simp [Array.getElem?_modify, hij]

/-- The place of a type among the module's types, where it is added if it is new. -/
def internType (m : Module) (ty : HwType) : TypeId × Module :=
  let (id, types) := m.types.intern ty
  (id, { m with types })

def inputs (m : Module) : List Port := m.ports.filter (·.direction == .input)

def inputName? (m : Module) (index : Nat) : Option Name := m.inputs[index]?.map (·.name)

/-- Adds an input port, and the value that the body sees. Positions get numbers as in
`NetPrep.Netlist.Edit`. -/
def addInput (m : Module) (name : Name) (type : TypeId) (number : Nat → Nat := fun k => k) :
    ValueId × Module :=
  let id : ValueId := ⟨number m.values.size⟩
  (id, { m with
    values := m.values.push ⟨type, .port (number m.inputs.length), []⟩
    ports := m.ports ++ [⟨name, .input, type, some id⟩] })

/-- Adds an output port; the operand of the module's end in its place drives it. -/
def addOutput (m : Module) (name : Name) (type : TypeId) : Module :=
  { m with ports := m.ports ++ [⟨name, .output, type, none⟩] }

end Module

end NetPrep
