import NetPrep.Prepare.Monad

/-!
# Dead logic

Expressions without side effects that nothing uses are erased, and so is what only they used.
-/

namespace NetPrep.Prep

/-- Whether a node is an expression without side effects whose results are unused. -/
def isDead (id : NodeId) : Prep Bool := do
  if (← node id).erased then return false
  if !(← isExpression id) then return false
  if !(← isMemoryEffectFree id) then return false
  query (·.isUnused id)

/-- The dead among the nodes that define operands, the last operand's first, before the worklist. -/
def pushDeadOperands : List ValueId → List NodeId → Prep (List NodeId)
  | [], worklist => return worklist
  | v :: vs, worklist => do
    match ← query (·.definingNode? v) with
    | some id => pushDeadOperands vs (if ← isDead id then id :: worklist else worklist)
    | none => pushDeadOperands vs worklist

/-- Erases the dead nodes of a worklist and what they leave dead. Answers how many are erased. -/
def eraseDead : Nat → Nat → List NodeId → Prep Nat
  | _, erased, [] => return erased
  | 0, _, _ => fault .outOfFuel
  | fuel + 1, erased, id :: worklist => do
    -- A node that is on the worklist twice is erased by now.
    if ← isDead id then
      let operands := (← node id).operands
      edit (·.eraseNode id)
      eraseDead fuel (erased + 1) (← pushDeadOperands operands worklist)
    else eraseDead fuel erased worklist

/-- Erases all dead expressions of the module, beginning with the last. Answers how many. -/
def pruneDeadLogic : Prep Nat := do
  let dead ← (← query (·.liveNodes)).filterM isDead
  let erased ← eraseDead (← fuel) 0 dead.reverse
  count fun s => { s with pruned := s.pruned + erased }
  return erased

end NetPrep.Prep
