import NetPrep.Netlist.Cost
import NetPrep.Prepare.Temporary

/-!
# Readability

In graph blocks of a legal module, expressions that are large, or that carry a name worth showing,
get temporaries of their own. Procedural blocks are left alone.
-/

namespace NetPrep.Prep

/-- Whether the only user of a node gives its value a name: an instance, an assignment or the end of
the module, or one of the latter two behind a bitcast, which prints as nothing. -/
def isNamedByUser (m : Module) (id : NodeId) : Except Fault Bool := do
  match ← m.singleUser? id with
  | none => return false
  | some user =>
    let op := (← m.node user).op
    if op.namesOperand || op.isInstance then return true
    if op = .bitcast then
      match ← m.singleUser? user with
      | some next => return (← m.node next).op.namesOperand
      | none => return false
    else return false

/-- Whether a node can have a temporary at all: what it computes is neither storage, nor a read, nor
a constant, nor named by its only user. -/
def maySpill (m : Module) (id : NodeId) (result : ValueId) : Except Fault Bool := do
  let op := (← m.node id).op
  if ← m.types.isStorage (← m.valueType result) then return false
  if op = .read ∨ op.isConstant then return false
  return !(← isNamedByUser m id)

/-- Whether a heuristic asks for a temporary for a node of so many terms. -/
def heuristicSpills (id : NodeId) (cost : Nat) : Prep Bool := do
  let options ← options
  if options.spillHeuristics.contains .largeTermsWithNamehints then
    match (← node id).name with
    | some hint =>
      if !Text.beginsWith '_' (← resolve hint) then return true
      return options.namehintTermLimit ≤ cost
    | none => return false
  else return false

/-- Whether a node gets a temporary, and the sizes known then. -/
def shouldSpill (memo : CostMemo) (id : NodeId) : Prep (Bool × CostMemo) := do
  match (← node id).results with
  | [] => return (false, memo)
  | result :: _ =>
    if ← query (maySpill · id result) then
      let (cost, memo) ← query (CostMemo.cost · memo result)
      if (← options).maximumTerms < cost then return (true, memo)
      return (← heuristicSpills id cost, memo)
    else return (false, memo)

/-- Gives a node a temporary if it should have one. -/
def prettifyNode (memo : CostMemo) (id : NodeId) : Prep CostMemo := do
  if (← node id).erased then return memo
  if !(← isExpression id) then return memo
  let (wanted, memo) ← shouldSpill memo id
  if wanted then spill id false
  return memo

/-- Prettifies a block and the graph blocks in it, at most so deep. -/
def prettifyBlock : Nat → CostMemo → BlockId → Prep CostMemo
  | 0, _, _ => fault .outOfFuel
  | depth + 1, memo, block => do
    if (← query (·.block block)).isProcedural then return memo
    let memo ← (← query (·.blockNodes block)).foldlM prettifyNode memo
    -- The block has more nodes now, but none of the new ones owns a region.
    (← query (·.blockNodes block)).foldlM (fun memo id => do
      (← node id).regions.foldlM (prettifyBlock depth) memo) memo

/-- Prettifies the module. -/
def prettify : Prep Unit := do
  let _ ← prettifyBlock (← fuel) .empty (← query fun m => .ok m.body)

end NetPrep.Prep
