import NetPrep.Netlist.Query
import NetPrep.Options.Basic

/-!
# What the emitter does with expressions

Which nodes are printed as expressions, which must be printed where they are used, and which can be,
is up to the emitter. Preparation asks an `Oracle`; `Oracle.systemVerilog` answers for the
SystemVerilog emitter.
-/

namespace NetPrep

/-- The emitter's classification of nodes. -/
structure Oracle where
  /-- Printed as an expression or a part of one. -/
  isExpression (m : Module) (id : NodeId) : Except Fault Bool
  /-- Can be printed at each of its uses. -/
  isInlineableAtUse (m : Module) (id : NodeId) (options : Options) : Except Fault Bool
  /-- Must be printed at each of its uses. -/
  isAlwaysInline (m : Module) (id : NodeId) : Except Fault Bool
  isConstantExpression (m : Module) (id : NodeId) : Except Fault Bool
  /-- Evaluated without side effects. -/
  isMemoryEffectFree (m : Module) (id : NodeId) : Except Fault Bool

namespace Oracle

/-- Text longer than this, in bytes, is printed out of line. -/
def maxInlineVerbatim : Nat := 32

/-- Whether a node is cheap enough to be printed at each of several uses. -/
def isDuplicatable (m : Module) (n : Node) (id : NodeId) : Except Fault Bool := do
  if n.operands.isEmpty then
    return match n.op with
      | .constant _ => true
      | .verbatim text sideEffects => !sideEffects && text.utf8ByteSize ≤ maxInlineVerbatim
      | _ => false
  else
    match n.op with
    | .extract _ | .structExtract _ => return true
    | .arrayGet =>
      let index ← m.operand id 1
      match ← m.definingOp? index with
      | none => return true
      | some (.constant _) => return true
      | some .read => m.isSimpleReadOrPort index
      | some _ => return false
    | _ => return false

/-- Whether a part of a value can be selected: it must have a name in the output. -/
def canSelectFrom (m : Module) (v : ValueId) : Except Fault Bool := do
  match ← m.definingOp? v with
  | none => return true
  | some op => return match op with
    | .read | .structExtract _ | .arrayGet => true
    | _ => false

/-- Whether a use keeps the node that it refers to from being printed there. -/
def useForbidsInlining (m : Module) (options : Options) (u : Use) : Except Fault Bool := do
  let op := (← m.node u.node).op
  if op.isSelection && u.operand == 0 then
    if !(← canSelectFrom m (← m.operand u.node 0)) then return true
  return !options.allowExprInEventControl && op.isClocked

/-- Whether one of the uses keeps a node from being printed there. -/
def anyForbids (m : Module) (options : Options) : List Use → Except Fault Bool
  | [] => return false
  | u :: us => do
    if ← useForbidsInlining m options u then return true
    anyForbids m options us

/-- Whether a node cannot be printed at its uses. -/
def cannotInline (m : Module) (n : Node) (uses : List Use) (options : Options) :
    Except Fault Bool :=
  match n.op with
  | .structCreate => return true
  | .verbatim text _ =>
    if maxInlineVerbatim < text.utf8ByteSize then return true else anyForbids m options uses
  | _ => anyForbids m options uses

/-- Whether a node can be printed at each of its uses. -/
def inlineable (m : Module) (id : NodeId) (options : Options) : Except Fault Bool := do
  let n ← m.node id
  -- Taking a struct apart is replaced before it would be printed.
  if n.op = .structExplode then return true
  let uses ← m.nodeUses id
  match uses with
  | [] => return true
  | [u] =>
    if (← m.node u.node).op.namesOperand then return true
    if options.disallowMuxInlining && n.op == .mux then return false
    return !(← cannotInline m n uses options)
  | _ =>
    if options.disallowMuxInlining && n.op == .mux then return false
    if !(← isDuplicatable m n id) then return false
    return !(← cannotInline m n uses options)

/-- The rules of the SystemVerilog emitter. -/
def systemVerilog : Oracle where
  isExpression m id := do
    let category := (← m.node id).op.category
    return category == .expression || category == .read
  isInlineableAtUse := inlineable
  isAlwaysInline m id := do
    return match (← m.node id).op with
      | .read | .elementStorage | .fieldStorage _ => true
      | _ => false
  isConstantExpression m id := do return (← m.node id).op.isConstant
  isMemoryEffectFree m id := do
    let op := (← m.node id).op
    return (op.category == .expression || op.category == .read || op.category == .declaration)
      && !op.hasSideEffects

/-- The questions that an oracle answers. An emitter of its own can answer them in its own way. -/
inductive Query where
  | isExpression
  | isInlineableAtUse
  | isAlwaysInline
  | isConstantExpression
  | isMemoryEffectFree
deriving DecidableEq, Repr

/-- The oracle of an emitter that answers some questions by the mnemonic of a node, and leaves the others
to another oracle. -/
def withAnswers (oracle : Oracle) (answer : Query → String → Option Bool) : Oracle :=
  let ask (query : Query) (m : Module) (id : NodeId) (otherwise : Except Fault Bool) :
      Except Fault Bool := do
    match answer query (← m.node id).op.mnemonic with
    | some b => return b
    | none => otherwise
  { isExpression := fun m id => ask .isExpression m id (oracle.isExpression m id)
    isInlineableAtUse := fun m id options =>
      ask .isInlineableAtUse m id (oracle.isInlineableAtUse m id options)
    isAlwaysInline := fun m id => ask .isAlwaysInline m id (oracle.isAlwaysInline m id)
    isConstantExpression := fun m id =>
      ask .isConstantExpression m id (oracle.isConstantExpression m id)
    isMemoryEffectFree := fun m id =>
      ask .isMemoryEffectFree m id (oracle.isMemoryEffectFree m id) }

end Oracle

end NetPrep
