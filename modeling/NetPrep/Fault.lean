import NetPrep.Id
import NetPrep.Word

/-!
# Faults

A fault is a misuse of a graph that no caller recovers from: an identifier that names nothing, an
edit outside its contract, a counter that leaves its range, or a budget of steps that ran out. It
is kept apart from the errors that preparation reports about a design (`Prepare.Failure`): a fault
leaves no module behind.
-/

namespace NetPrep

/-- The causes that stop a computation on a graph for good. -/
inductive Fault where
  | noModule (id : ModuleId)
  | noNode (id : NodeId)
  | noValue (id : ValueId)
  | noBlock (id : BlockId)
  | noType (id : TypeId)
  | noName (id : Name)
  | noOperand (node : NodeId) (index : Nat)
  | noResult (node : NodeId) (index : Nat)
  /-- An erased node has no place to move from. -/
  | movingErased (node : NodeId)
  /-- Only a node whose results are unused may be erased. -/
  | erasingUsed (node : NodeId)
  /-- Only nodes of one block are ordered. -/
  | comparingAcrossBlocks (a b : NodeId)
  /-- A count would become negative. -/
  | underflow
  | overflow
  | outOfFuel
deriving DecidableEq, Repr

/-- The number itself if it lies below the limit, else an overflow. -/
def below (limit n : Nat) : Except Fault Nat :=
  if n < limit then .ok n else .error .overflow

/-- The difference, which must not be negative. -/
def difference (a b : Nat) : Except Fault Nat :=
  if b ≤ a then .ok (a - b) else .error .underflow

theorem below_eq_ok_iff {limit n k : Nat} : below limit n = .ok k ↔ n < limit ∧ k = n := by
  unfold below
  split <;> simp [eq_comm] <;> omega

end NetPrep
