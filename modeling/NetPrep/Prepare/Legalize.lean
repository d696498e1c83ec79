import NetPrep.Prepare.Expression
import NetPrep.Prepare.Hoist
import NetPrep.Prepare.InstancePorts
import NetPrep.Prepare.Order

/-!
# Legalization

A module is legal when it can be written down in one walk. Its blocks are legalized from the inside
out, so that what leaves a nested block is met again further out. Within a block a scan handles one
node after another; it goes on with the follower of the node, or goes back to the first of the nodes
that took its place.
-/

namespace NetPrep.Prep

/-- Where the scan goes on. -/
inductive Flow where
  | next
  | rewind (target : NodeId)
deriving DecidableEq, Repr

/-- The scan goes back to a node that was made, if there is one. -/
def Flow.ofCreated : Option NodeId → Flow
  | some id => .rewind id
  | none => .next

/-- Routes an event of a process through a wire, unless it is a port, a plain read or an output of
an instance. -/
def routeEvent (process : NodeId) (event : ValueId) : Prep Unit := do
  if ← query (·.isSimpleReadOrPort event) then return ()
  if (← query (·.definingOp? event)).any (·.isInstance) then return ()
  let body ← query fun m => .ok m.body
  let loc := (← node process).loc
  let type ← query (·.valueType event)
  let (_, wire) ← declareFor event (.front body) .wire none loc
  let (read, value) ← create (.before process) .read [wire] type loc
  edit (·.replaceUses event value)
  -- The assignment is made last: it is the one use of the event that stays.
  let _ ← createStatement (.before process) .assign [wire, event] loc
  inlineEverywhere read
  count fun s => { s with temporaries := s.temporaries + 1 }

/-- Gives an expression that cannot be printed at its uses a temporary. Without local variables it
must leave procedural code first; the answer is whether that settles it. -/
def spillOrHoist (procedural : Bool) (id : NodeId) : Prep Bool := do
  if (← options).disallowLocalVariables then
    let outside ← if procedural then hoist id else pure true
    if outside then
      -- Hoisting may stop one level out, still in procedural code; then the scan of that block
      -- meets the node again.
      if !(← query (·.inProcedural id)) then spill id false
      return procedural
    else return false
  else
    spill id false
    return false

/-- Takes an expression out of procedural code for a target without local variables: moves it, or
captures its value if it has side effects. Answers whether that was done. -/
def leaveProcedure (id : NodeId) : Prep Bool := do
  if ← isMemoryEffectFree id then hoist id else captureSideEffect id

/-- Whether an expression can be neither printed at its uses nor replaced by a declaration that is
assigned anyway. -/
def needsTemporary (procedural : Bool) (id : NodeId) : Prep Bool := do
  if !(← isExpression id) then return false
  if ← isInlineable id then return false
  if procedural then return true
  return !(← reuseAssigned id)

/-- Handles an expression, or any node to which no rule for its operation applies. -/
def legalizeExpression (procedural : Bool) (id : NodeId) : Prep Flow := do
  if ← needsTemporary procedural id then
    if ← spillOrHoist procedural id then return .next
  if ← isBalanceable id then return .ofCreated (← balance id)
  match ← query (negativeConstant? · id) with
  | some (constant, value) => return .rewind (← subtractInstead id constant value)
  | none =>
    if (← node id).op = .structExplode then return .ofCreated (← explode id)
    -- Even where no temporary is needed, a declaration that holds the value anyway can serve the
    -- other uses.
    if !procedural then
      if ← isExpression id then
        let _ ← reuseAssigned id
    return .next

/-- Handles a node that must be printed where it is used: it is settled once, or erased if it is
unused. -/
def legalizeInline (id : NodeId) (visited : IdMap Unit) : Prep (IdMap Unit) := do
  if ← query (·.isUnused id) then
    edit (·.eraseNode id)
    return visited
  if visited.contains id.index then return visited
  inlineEverywhere id
  return visited.insert id.index ()

/-- What is done to a node on account of its operation alone. Answers whether that settles it. -/
def legalizeOperation (procedural : Bool) (id : NodeId) : Prep Bool := do
  let n ← node id
  let options ← options
  match n.op with
  | .foreign dialect name => fail (.unsupported (← moduleName) dialect name n.loc)
  | .inst .. =>
    anchorInstanceOutputs id
    if options.disallowExpressionInliningInPorts then anchorInstanceInputs id
    return false
  | .logic =>
    if procedural && options.disallowLocalVariables then
      let process ← enclosingProcess id
      edit (·.moveNode id (.before process))
      count fun s => { s with hoisted := s.hoisted + 1 }
      return true
    else return false
  | .always _ | .alwaysFF .. =>
    if options.allowExprInEventControl then return false
    n.operands.forM (routeEvent id)
    return true
  | _ => return false

/-- Handles a node of a block: where the scan goes on, and the nodes settled so far. -/
def legalizeNode (block : BlockId) (id : NodeId) (visited : IdMap Unit) :
    Prep (Flow × IdMap Unit) := do
  let procedural := (← query (·.block block)).isProcedural
  if ← legalizeOperation procedural id then return (.next, visited)
  if procedural && (← options).disallowLocalVariables then
    if ← isExpression id then
      if ← leaveProcedure id then return (.next, visited)
  if ← isAlwaysInline id then return (.next, ← legalizeInline id visited)
  return (← legalizeExpression procedural id, visited)

/-- Whether a node is in a block. -/
def isIn (m : Module) (block : BlockId) (id : NodeId) : Except Fault Bool := do
  let n ← m.node id
  return !n.erased && n.parent == block

/-- Whether an optional node is there and in a block. -/
def isSomeIn (m : Module) (block : BlockId) : Option NodeId → Except Fault Bool
  | some id => isIn m block id
  | none => return false

/-- The node to handle after one whose neighbours were `prev` and `next`: the follower, if it is
still there; else what follows the node now, or, if it is gone, what follows the node before it. -/
def successor? (m : Module) (block : BlockId) (id : NodeId) (prev next : Option NodeId) :
    Except Fault (Option NodeId) := do
  if ← isSomeIn m block next then return next
  -- The follower has left the block.
  if ← isIn m block id then return (← m.node id).next
  match prev with
  | some p => if ← isIn m block p then return (← m.node p).next
  | none => pure ()
  return (← m.block block).first

/-- Handles the nodes of a block from a node on, in so many steps. -/
def scan (block : BlockId) : Nat → IdMap Unit → Option NodeId → Prep Unit
  | _, _, none => pure ()
  | 0, _, some _ => fault .outOfFuel
  | fuel + 1, visited, some id => do
    let n ← node id
    let (flow, visited) ← legalizeNode block id visited
    match flow with
    | .rewind target => scan block fuel visited (some target)
    | .next => scan block fuel visited (← query (successor? · block id n.prev n.next))

/-- Puts the nodes of a block in an order in which they can be written down. -/
def orderBlock (block : BlockId) : Prep Unit := do
  if (← query (·.block block)).isProcedural then reorderDeclarations block
  else resolveForwardReferences block

/-- Legalizes a block and the blocks in it, at most so deep. -/
def legalizeBlock : Nat → BlockId → Prep Unit
  | 0, _ => fault .outOfFuel
  | depth + 1, block => do
    -- The nodes are listed beforehand: what leaves a region lands before the node that owns it.
    (← query (·.blockNodes block)).forM fun id => do
      (← node id).regions.forM (legalizeBlock depth)
    scan block (← fuel) .empty (← query (·.block block)).first
    orderBlock block

/-- Legalizes the module. -/
def legalize : Prep Unit := do
  legalizeBlock (← fuel) (← query fun m => .ok m.body)

end NetPrep.Prep
