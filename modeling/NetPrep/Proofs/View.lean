import Mathlib
import NetPrep.Netlist.Edit

/-!
# Looking at a module

A module stores its nodes with the links of their blocks. Here a node is looked at without its
links (`Module.core`), and what each of the small edits does to the stores is stated once, as an
equation for every identifier.
-/

namespace NetPrep

/-- A node without its links and its order key. -/
def Node.core (n : Node) : Node := { n with prev := none, next := none, order := 0 }

/-- A block without the ends of its list. -/
def Block.core (b : Block) : Block := { b with first := none, last := none, len := 0 }

theorem bind_eq_ok_iff {ε α β : Type} {x : Except ε α} {f : α → Except ε β} {b : β} :
    x >>= f = .ok b ↔ ∃ a, x = .ok a ∧ f a = .ok b := by
  cases x <;> simp [bind, Except.bind]

theorem bind_eq_error_iff {ε α β : Type} {x : Except ε α} {f : α → Except ε β} {e : ε} :
    x >>= f = .error e ↔ x = .error e ∨ ∃ a, x = .ok a ∧ f a = .error e := by
  cases x <;> simp [bind, Except.bind]

namespace Module

variable {m m' : Module}

def node? (m : Module) (id : NodeId) : Option Node := m.nodes[id.index]?

def value? (m : Module) (v : ValueId) : Option Value := m.values[v.index]?

def block? (m : Module) (b : BlockId) : Option Block := m.blocks[b.index]?

/-- A node of a module, without its links. -/
def core (m : Module) (id : NodeId) : Option Node := (m.node? id).map Node.core

/-- A block of a module, without the ends of its list. -/
def blockCore (m : Module) (b : BlockId) : Option Block := (m.block? b).map Block.core

@[simp] theorem node_eq_ok_iff {id : NodeId} {n : Node} :
    m.node id = .ok n ↔ m.node? id = some n := by
  unfold node node?
  split <;> simp_all

@[simp] theorem value_eq_ok_iff {v : ValueId} {x : Value} :
    m.value v = .ok x ↔ m.value? v = some x := by
  unfold value value?
  split <;> simp_all

@[simp] theorem block_eq_ok_iff {b : BlockId} {x : Block} :
    m.block b = .ok x ↔ m.block? b = some x := by
  unfold block block?
  split <;> simp_all

theorem lt_of_node? {id : NodeId} {n : Node} (h : m.node? id = some n) :
    id.index < m.nodes.size := by
  unfold node? at h
  exact (Array.getElem?_eq_some_iff.1 h).1

theorem lt_of_value? {v : ValueId} {x : Value} (h : m.value? v = some x) :
    v.index < m.values.size := by
  unfold value? at h
  exact (Array.getElem?_eq_some_iff.1 h).1

theorem lt_of_block? {b : BlockId} {x : Block} (h : m.block? b = some x) :
    b.index < m.blocks.size := by
  unfold block? at h
  exact (Array.getElem?_eq_some_iff.1 h).1

theorem core_of_node? {id : NodeId} {n : Node} (h : m.node? id = some n) :
    m.core id = some n.core := by
  simp [core, h]

/-! ## Small edits -/

/-- What changing a node in place leaves. -/
theorem modifyNode_eq_ok {id : NodeId} {f : Node → Node} (h : m.modifyNode id f = .ok m') :
    ∃ nodes, m' = { m with nodes } ∧ nodes.size = m.nodes.size ∧
      ∀ j, m'.node? j = if id = j then (m.node? j).map f else m.node? j := by
  unfold modifyNode at h
  split at h <;> cases h
  refine ⟨_, rfl, by simp, fun j => ?_⟩
  obtain ⟨i⟩ := id
  obtain ⟨j⟩ := j
  by_cases hij : i = j <;> simp [node?, Array.getElem?_modify, hij]

/-- What changing a block in place leaves. -/
theorem modifyBlock_eq_ok {b : BlockId} {f : Block → Block} (h : m.modifyBlock b f = .ok m') :
    ∃ blocks, m' = { m with blocks } ∧ blocks.size = m.blocks.size ∧
      ∀ c, m'.block? c = if b = c then (m.block? c).map f else m.block? c := by
  unfold modifyBlock at h
  split at h <;> cases h
  refine ⟨_, rfl, by simp, fun c => ?_⟩
  obtain ⟨b⟩ := b
  obtain ⟨c⟩ := c
  by_cases hbc : b = c <;> simp [block?, Array.getElem?_modify, hbc]

/-- What changing a value in place leaves. -/
theorem modifyValue_eq_ok {v : ValueId} {f : Value → Value} (h : m.modifyValue v f = .ok m') :
    ∃ values, m' = { m with values } ∧ values.size = m.values.size ∧
      ∀ w, m'.value? w = if v = w then (m.value? w).map f else m.value? w := by
  unfold modifyValue at h
  split at h <;> cases h
  refine ⟨_, rfl, by simp, fun w => ?_⟩
  obtain ⟨v⟩ := v
  obtain ⟨w⟩ := w
  by_cases hvw : v = w <;> simp [value?, Array.getElem?_modify, hvw]

end Module

end NetPrep
