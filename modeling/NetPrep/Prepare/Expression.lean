import NetPrep.Prepare.Inline

/-!
# Expressions in printable form

Three replacements of single nodes: a variadic operator becomes a balanced tree, adding a negative
constant becomes subtracting a positive one, and a struct is taken apart field by field. Each
answers the first node that it made, so that the scan can go on from there.
-/

namespace NetPrep

/-- A binary tree over operands. -/
inductive OperandTree where
  | leaf (v : ValueId)
  | branch (left right : OperandTree)
deriving DecidableEq, Repr

namespace OperandTree

/-- The tree over operands that splits them in the middle again and again, if it is at most so deep.
A tree is never as deep as it has operands; over no operands there is none. -/
def balanced? : Nat → List ValueId → Option OperandTree
  | _, [] => none
  | _, [v] => some (.leaf v)
  | 0, _ => none
  | depth + 1, operands => do
    let half := operands.length / 2
    let left ← balanced? depth (operands.take half)
    let right ← balanced? depth (operands.drop half)
    return .branch left right

/-- The operands of a tree, from left to right. -/
def leaves : OperandTree → List ValueId
  | .leaf v => [v]
  | .branch left right => left.leaves ++ right.leaves

end OperandTree

namespace Prep

/-! ## Balancing -/

/-- Whether a node is a variadic operator to be made into a tree. -/
def isBalanceable (id : NodeId) : Prep Bool := do
  let n ← node id
  if 2 < n.operands.length && n.results.length == 1 && n.regions.isEmpty && n.op.isCommutative
  then isMemoryEffectFree id
  else return false

/-- What the nodes of a tree have in common. -/
structure TreeShape where
  op : Op
  type : TypeId
  twoState : Bool
  /-- The node that the tree goes before. -/
  anchor : NodeId
  loc : Loc

/-- Makes a node of a tree. -/
def createTreeNode (shape : TreeShape) (lhs rhs : ValueId) : Prep (NodeId × ValueId) := do
  let (id, value) ← create (.before shape.anchor) shape.op [lhs, rhs] shape.type shape.loc
  edit (·.setTwoState id shape.twoState)
  return (id, value)

/-- Makes the nodes of a tree, the operands of a node before it: the value of the tree, and its
nodes in the order of their making. -/
def createTree (shape : TreeShape) : OperandTree → Prep (ValueId × List NodeId)
  | .leaf v => return (v, [])
  | .branch left right => do
    let (lhs, leftNodes) ← createTree shape left
    let (rhs, rightNodes) ← createTree shape right
    let (id, value) ← createTreeNode shape lhs rhs
    return (value, leftNodes ++ rightNodes ++ [id])

/-- Replaces a variadic operator by a balanced tree of binary ones. The name goes to the root. -/
def balance (id : NodeId) : Prep (Option NodeId) := do
  let n ← node id
  match OperandTree.balanced? n.operands.length n.operands with
  | none => return none
  | some tree =>
    let old ← query (·.result id 0)
    let shape : TreeShape := {
      op := n.op, type := ← query (·.valueType old), twoState := n.twoState
      anchor := id, loc := n.loc }
    let (root, created) ← createTree shape tree
    match ← query (·.definingNode? root) with
    | some rootNode => edit (·.setName rootNode n.name)
    | none => pure ()
    edit (·.replaceUses old root)
    edit (·.eraseNode id)
    -- Reads that stood right before the node now stand before the whole tree, and must follow
    -- their users.
    created.forM inlineOperands
    count fun s => { s with balanced := s.balanced + 1 }
    return created.head?

/-! ## Subtraction for negative constants -/

/-- The negative constant on the right of a binary addition: its node and value. -/
def negativeConstant? (m : Module) (id : NodeId) : Except Fault (Option (NodeId × Int)) := do
  let n ← m.node id
  match n.op, n.operands with
  | .add, [_, rhs] =>
    match ← m.definingNode? rhs with
    | none => return none
    | some constant =>
      match (← m.node constant).op with
      | .constant value => return if value < 0 then some (constant, value) else none
      | _ => return none
  | _, _ => return none

/-- The stored form of the negation of a constant. -/
def negatedConstant (value : Int) (width : Nat) : Int :=
  canonicalConstant (Int.bmod (-value) limit64) width

/-- Replaces the addition of a constant by the subtraction of its negation, and erases the constant
if nothing else uses it. Answers the new constant. -/
def subtractInstead (add constant : NodeId) (value : Int) : Prep NodeId := do
  let n ← node add
  let lhs ← query (·.operand add 0)
  let old ← query (·.result add 0)
  let type ← query (·.valueType old)
  let width := (← query fun m => m.types.bitWidth type).getD 64
  let (positive, positiveValue) ←
    create (.before add) (.constant (negatedConstant value width)) [] type n.loc
  let (sub, difference) ← create (.before add) .sub [lhs, positiveValue] type n.loc
  edit (·.setTwoState sub n.twoState)
  edit (·.setName sub n.name)
  edit (·.replaceUses old difference)
  edit (·.eraseNode add)
  if ← query (·.isUnused constant) then edit (·.eraseNode constant)
  inlineOperands sub
  return positive

/-! ## Struct fields -/

/-- Makes a selection of each field before a node and lets the uses of the node's results refer to
them. -/
def extractFields (id : NodeId) (input : ValueId) (loc : Loc) :
    List (ValueId × Name) → Prep (List NodeId)
  | [] => return []
  | (result, field) :: rest => do
    let type ← query (·.valueType result)
    let (extract, value) ← create (.before id) (.structExtract field) [input] type loc
    edit (·.replaceUses result value)
    return extract :: (← extractFields id input loc rest)

/-- Replaces taking a struct apart by a selection of each field. -/
def explode (id : NodeId) : Prep (Option NodeId) := do
  let n ← node id
  match n.operands with
  | [] => return none
  | input :: _ =>
    let fields ← query fun m => do m.types.fields (← m.valueType input)
    let extracts ← extractFields id input n.loc (n.results.zip (fields.map (·.1)))
    edit (·.eraseNode id)
    extracts.forM inlineOperands
    return extracts.head?

end Prep

end NetPrep
