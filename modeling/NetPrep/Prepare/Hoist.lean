import NetPrep.Prepare.Monad

/-!
# Out of procedural code

Without local variables nothing in a procedural block can get a temporary. Expressions move out to
the graph block around it, and the value of one with side effects is captured in a register.
-/

namespace NetPrep.Prep

/-- Whether a node is used once, by a blocking assignment to a variable. -/
def isCaptured (m : Module) (id : NodeId) : Except Fault Bool := do
  match ← m.singleUser? id with
  | none => return false
  | some user =>
    if (← m.node user).op = .blockingAssign then
      return match ← m.definingOp? (← m.operand user 0) with
        | some .reg | some .logic => true
        | _ => false
    else return false

/-- Stores the result of an expression with side effects into a register before the process around
it, right after it is evaluated, and lets its uses read the register. Answers whether it did. -/
def captureSideEffect (id : NodeId) : Prep Bool := do
  if ← query (isCaptured · id) then return false
  let n ← node id
  match n.results with
  | [result] =>
    let type ← query (·.valueType result)
    let process ← enclosingProcess id
    let (_, storage) ← declareFor result (.before process) .reg none n.loc
    let (_, value) ← create (.before process) .read [storage] type n.loc
    edit (·.replaceUses result value)
    let _ ← createStatement (.after id) .blockingAssign [storage, result] n.loc
    count fun s => { s with sideEffectsExtracted := s.sideEffectsExtracted + 1 }
    return true
  | _ => return false

/-- Whether a node that must be printed where it is used deals in storage. -/
def dealsInStorage (m : Module) (n : Node) : Except Fault Bool := do
  if n.op = .read then return true
  match n.results with
  | v :: _ => m.types.isStorage (← m.valueType v)
  | [] => return false

/-- How far out the operands of a node let it move. -/
inductive Reach where
  /-- An operand is defined in the same block. -/
  | nowhere
  /-- An operand is defined in a procedural block further out. -/
  | oneLevel
  | graph
deriving DecidableEq, Repr

/-- How far out the operands let a node of a procedural block move. -/
def reachOf (m : Module) (block : BlockId) : List ValueId → Except Fault Reach
  | [] => return .graph
  | v :: vs => do
    match ← m.definingNode? v with
    | none => reachOf m block vs
    | some id =>
      if ← m.inProcedural id then
        if (← m.node id).parent = block then return .nowhere
        -- An operand further on may still lie in the same block.
        match ← reachOf m block vs with
        | .nowhere => return .nowhere
        | _ => return .oneLevel
      else reachOf m block vs

/-- Moves an expression without side effects out of its procedural block: to the graph block if its
operands allow that, else one level out, else not at all. Answers whether it moved. -/
def hoist (id : NodeId) : Prep Bool := do
  let n ← node id
  if ← isAlwaysInline id then
    if !(← query (dealsInStorage · n)) then return false
  let process ← enclosingProcess id
  let move (anchor : NodeId) : Prep Bool := do
    edit (·.moveNode id (.before anchor))
    count fun s => { s with hoisted := s.hoisted + 1 }
    return true
  match ← query (reachOf · n.parent n.operands) with
  | .nowhere => return false
  | .oneLevel =>
    match ← query (·.parentNode? id) with
    | some owner => move owner
    | none => return false
  | .graph => move process

end NetPrep.Prep
