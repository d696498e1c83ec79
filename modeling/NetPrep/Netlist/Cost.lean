import NetPrep.IdMap
import NetPrep.Netlist.Query

/-!
# The size of expressions

How many terms the expression behind a value has when it is printed in full: a port and a node
without operands count one, any other node as much as its operands together. Sizes are computed
without recursion, for chains of expressions may be long, and remembered.
-/

namespace NetPrep

/-- The sizes known so far. -/
abbrev CostMemo := IdMap Nat

namespace CostMemo

/-- The operands of the node that defines a value; none for a port. -/
def operandsOf (m : Module) (v : ValueId) : Except Fault (List ValueId) := do
  match ← m.definingNode? v with
  | some id => return (← m.node id).operands
  | none => return []

/-- The sum of the sizes of operands; an operand whose size is being computed counts one. -/
def sum (memo : CostMemo) : Nat → List ValueId → Except Fault Nat
  | soFar, [] => return soFar
  | soFar, v :: vs => do
    memo.sum (← below limit64 (soFar + (memo.get? v.index).getD 1)) vs

/-- A value on the stack; its size is looked for first, and added up when its operands are done. -/
structure Task where
  value : ValueId
  expanded : Bool
deriving DecidableEq, Repr

/-- Carries out the tasks of a stack. The values whose operands are on the stack are marked open. -/
def settle (m : Module) : Nat → CostMemo → IdMap Unit → List Task → Except Fault CostMemo
  | _, memo, _, [] => return memo
  | 0, _, _, _ => .error .outOfFuel
  | fuel + 1, memo, opened, ⟨v, expanded⟩ :: stack => do
    if memo.contains v.index then settle m fuel memo opened stack
    else
      let operands ← operandsOf m v
      if operands.isEmpty then settle m fuel (memo.insert v.index 1) opened stack
      else if expanded then
        let size ← memo.sum 0 operands
        settle m fuel (memo.insert v.index size) (opened.erase v.index) stack
      else
        -- A cycle leads back to an open value, which is not stacked again.
        let opened := opened.insert v.index ()
        let unknown := operands.filter fun o =>
          !memo.contains o.index && !opened.contains o.index
        settle m fuel memo opened
          (unknown.map (⟨·, false⟩) ++ ⟨v, true⟩ :: stack)

/-- Steps enough to compute any size: each value is opened once, and puts itself and its operands on
the stack. -/
def settleFuel (m : Module) : Nat :=
  m.values.foldl (fun n v => match v.definition with
    | .result id _ => n + 1 + ((m.nodes[id.index]?).map (·.operands.length)).getD 0
    | .port _ => n) 1

/-- The size of the expression behind a value, and the sizes known then. -/
def cost (m : Module) (memo : CostMemo) (v : ValueId) : Except Fault (Nat × CostMemo) := do
  match memo.get? v.index with
  | some size => return (size, memo)
  | none =>
    let memo ← settle m (settleFuel m) memo .empty [⟨v, false⟩]
    return ((memo.get? v.index).getD 1, memo)

end CostMemo

end NetPrep
