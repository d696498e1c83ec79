import NetPrep.Netlist.Cursor

/-!
# Questions about a module

Definitions and uses of values, the nesting of nodes and blocks, and the walk over all blocks.
-/

namespace NetPrep.Module

/-! ## Definitions and uses -/

def valueType (m : Module) (v : ValueId) : Except Fault TypeId := do
  return (← m.value v).type

/-- The node that defines a value; none for a port. -/
def definingNode? (m : Module) (v : ValueId) : Except Fault (Option NodeId) := do
  match (← m.value v).definition with
  | .result node _ => return some node
  | .port _ => return none

/-- The operation that defines a value; none for a port. -/
def definingOp? (m : Module) (v : ValueId) : Except Fault (Option Op) := do
  match ← m.definingNode? v with
  | some id => return some (← m.node id).op
  | none => return none

def isPort (m : Module) (v : ValueId) : Except Fault Bool := do
  return (← m.definingNode? v).isNone

/-- A result of a node by its position. -/
def result (m : Module) (id : NodeId) (index : Nat) : Except Fault ValueId := do
  match (← m.node id).results[index]? with
  | some v => return v
  | none => .error (.noResult id index)

/-- An operand of a node by its position. -/
def operand (m : Module) (id : NodeId) (index : Nat) : Except Fault ValueId := do
  match (← m.node id).operands[index]? with
  | some v => return v
  | none => .error (.noOperand id index)

/-- The uses of the results of a node, result by result. -/
def nodeUses (m : Module) (id : NodeId) : Except Fault (List Use) := do
  let uses ← (← m.node id).results.mapM fun v => do return (← m.value v).uses
  return uses.flatten

/-- The nodes that use the results of a node, once for each use. -/
def users (m : Module) (id : NodeId) : Except Fault (List NodeId) := do
  return (← m.nodeUses id).map (·.node)

def useCount (m : Module) (id : NodeId) : Except Fault Nat := do
  return (← m.nodeUses id).length

def isUnused (m : Module) (id : NodeId) : Except Fault Bool := do
  return (← m.nodeUses id).isEmpty

/-- The user of a node whose results are used exactly once. -/
def singleUser? (m : Module) (id : NodeId) : Except Fault (Option NodeId) := do
  match ← m.nodeUses id with
  | [u] => return some u.node
  | _ => return none

/-- A port, or a read of a whole declaration. -/
def isSimpleReadOrPort (m : Module) (v : ValueId) : Except Fault Bool := do
  match ← m.definingNode? v with
  | none => return true
  | some id =>
    if (← m.node id).op = .read then
      match ← m.definingOp? (← m.operand id 0) with
      | some op => return op.isDeclaration
      | none => return false
    else return false

/-! ## Nesting and order -/

/-- The node that owns the block of a node. -/
def parentNode? (m : Module) (id : NodeId) : Except Fault (Option NodeId) := do
  return (← m.block (← m.node id).parent).parent

/-- Whether a node sits directly in a procedural block. -/
def inProcedural (m : Module) (id : NodeId) : Except Fault Bool := do
  return (← m.block (← m.node id).parent).isProcedural

/-- Whether one node comes strictly before another of its block. -/
def isBefore (m : Module) (a b : NodeId) : Except Fault Bool := do
  let na ← m.node a
  let nb ← m.node b
  if na.parent = nb.parent then return na.order < nb.order
  else .error (.comparingAcrossBlocks a b)

/-- The node itself or the node around it that sits directly in a block, looked for in so many
steps outwards. -/
def ancestorWithin (m : Module) (block : BlockId) : Nat → NodeId → Except Fault (Option NodeId)
  | 0, _ => .error .outOfFuel
  | fuel + 1, id => do
    if (← m.node id).parent = block then return some id
    match ← m.parentNode? id with
    | none => return none
    | some up => m.ancestorWithin block fuel up

/-- The node itself or the node around it that sits directly in a block. Each step outwards leaves
another block. -/
def ancestorIn? (m : Module) (id : NodeId) (block : BlockId) : Except Fault (Option NodeId) :=
  m.ancestorWithin block (m.blocks.size + 1) id

/-- The outermost of a node and the nodes around it up to the first one in a graph block, looked
for in so many steps outwards. -/
def outermostWithin (m : Module) : Nat → NodeId → Except Fault NodeId
  | 0, _ => .error .outOfFuel
  | fuel + 1, id => do
    if ← m.inProcedural id then
      match ← m.parentNode? id with
      | none => return id
      | some up => m.outermostWithin fuel up
    else return id

/-- The node around a node of a procedural block that sits in a graph block; none if nothing owns
the block of the node. -/
def enclosingProcess? (m : Module) (id : NodeId) : Except Fault (Option NodeId) := do
  match ← m.parentNode? id with
  | none => return none
  | some up => return some (← m.outermostWithin (m.blocks.size + 1) up)

/-- The block of the outermost of a node and the wrappers around it, in so many steps outwards. -/
def scopeWithin (m : Module) : Nat → NodeId → Except Fault BlockId
  | 0, _ => .error .outOfFuel
  | fuel + 1, id => do
    match ← m.parentNode? id with
    | none => return (← m.node id).parent
    | some up =>
      if (← m.node up).op.isSyntacticWrapper then m.scopeWithin fuel up
      else return (← m.node id).parent

/-- The block where declarations beside a node go: the one around all the wrappers that the node
sits in. -/
def declarationScope (m : Module) (id : NodeId) : Except Fault BlockId :=
  m.scopeWithin (m.blocks.size + 1) id

/-! ## The walk over all blocks -/

/-- The blocks that a stack of blocks leads to, each before the blocks nested in it. The regions of
a block are stacked from its last node to its first, so that the first lies on top. -/
def walkBlocks (m : Module) : Nat → List BlockId → Except Fault (List BlockId)
  | _, [] => return []
  | 0, _ => .error .outOfFuel
  | fuel + 1, block :: stack => do
    -- Each node puts its regions on top of those of the nodes after it.
    let stack ← (← m.blockNodesBack block).foldlM (fun stack id => do
      return (← m.node id).regions ++ stack) stack
    return block :: (← m.walkBlocks fuel stack)

/-- Steps enough for any walk over blocks or nodes: each is met once if the blocks form a tree, and
the surplus is for modules that were read from elsewhere and share blocks. -/
def walkFuel (m : Module) : Nat := m.blocks.size + m.nodes.size + limit32

/-- Every block, from the body inwards, each before the blocks nested in it. -/
def blocksPreorder (m : Module) : Except Fault (List BlockId) :=
  m.walkBlocks m.walkFuel [m.body]

/-- Every node in a block, block by block. -/
def liveNodes (m : Module) : Except Fault (List NodeId) := do
  let nodes ← (← m.blocksPreorder).mapM m.blockNodes
  return nodes.flatten

/-- The end of the module: the last such node of its body. -/
def outputNode? (m : Module) : Except Fault (Option NodeId) := do
  let c ← m.cursor m.body
  c.findBack? m (fun id => do return (← m.node id).op = .output) c.remaining

end NetPrep.Module
