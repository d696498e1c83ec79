import NetPrep.Prepare.Monad

/-!
# Expressions that are printed at each use

A node that must be printed where it is used gets a copy for each use, each right before its user;
and so do, in turn, the nodes of this kind among the operands of the copies.
-/

namespace NetPrep.Prep

/-- The nodes among the definitions of operands that must be printed where they are used, in the
order of the operands. -/
def alwaysInlineAmong : List ValueId → Prep (List NodeId)
  | [] => return []
  | v :: vs => do
    let rest ← alwaysInlineAmong vs
    match ← query (·.definingNode? v) with
    | some id => if ← isAlwaysInline id then return id :: rest else return rest
    | none => return rest

/-- The operands of a node that must be printed where they are used. -/
def alwaysInlineOperands (id : NodeId) : Prep (List NodeId) := do
  alwaysInlineAmong (← node id).operands

/-- Gives every use of a value but the last a clone of the node that defines it, right before the
user. The operands to look at next are put on the worklist. -/
def cloneForUses (id : NodeId) (v : ValueId) : Nat → List NodeId → Prep (List NodeId)
  | 0, _ => fault .outOfFuel
  | fuel + 1, worklist => do
    match (← query (·.value v)).uses with
    | u :: _ :: _ => do
      -- The first use in line gets the clone; the node itself stays for the last.
      let clone ← editWith (·.cloneNode id (.before u.node))
      let copy ← query (·.result clone 0)
      edit (·.setOperand u.node u.operand copy)
      count fun s => { s with duplicated := s.duplicated + 1 }
      cloneForUses id v fuel ((← alwaysInlineOperands clone) ++ worklist)
    | _ => return worklist

/-- Settles a node of the worklist: a copy for each use, and the node itself before the last. -/
def settleInline (id : NodeId) (worklist : List NodeId) : Prep (List NodeId) := do
  let n ← node id
  match n.erased, n.results with
  | false, [v] => do
    let worklist ← cloneForUses id v (← fuel) worklist
    match (← query (·.value v)).uses with
    | [] => return worklist
    | u :: _ => do
      edit (·.moveNode id (.before u.node))
      return (← alwaysInlineOperands id) ++ worklist
  | _, _ => return worklist

/-- Settles the nodes of a worklist and those that they lead to. -/
def settleAllInline : Nat → List NodeId → Prep Unit
  | _, [] => pure ()
  | 0, _ => fault .outOfFuel
  | fuel + 1, id :: worklist => do
    settleAllInline fuel (← settleInline id worklist)

/-- Gives a node that must be printed where it is used a copy for each use. -/
def inlineEverywhere (id : NodeId) : Prep Unit := do
  settleAllInline (← fuel) [id]

/-- Settles the operands of a freshly made node, which would otherwise be left before the node that
it replaces. -/
def inlineOperands (id : NodeId) : Prep Unit := do
  (← node id).operands.forM fun v => do
    match ← query (·.definingNode? v) with
    | some operand => if ← isAlwaysInline operand then inlineEverywhere operand
    | none => pure ()

end NetPrep.Prep
