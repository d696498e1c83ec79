import NetPrep.IdMap
import NetPrep.Prepare.Temporary

/-!
# Declarations before statements, definitions before uses

In a procedural block, declarations go to the front of their scope. In a graph block, whose order
means nothing, a node that an earlier one uses goes to the front if it can stand there, and gets a
temporary at the front if it cannot.
-/

namespace NetPrep.Prep

/-! ## Procedural blocks -/

/-- Moves the `logic` declarations among nodes to the front of a scope, after the one placed
before. -/
def placeDeclarations (scope : BlockId) : Option NodeId → List NodeId → Prep Unit
  | _, [] => pure ()
  | placed, id :: rest => do
    let n ← node id
    if n.op = .logic then
      if n.parent ≠ scope ∨ n.prev ≠ placed then
        let pos := match placed with
          | some before => Position.after before
          | none => .front scope
        edit (·.moveNode id pos)
      placeDeclarations scope (some id) rest
    else placeDeclarations scope placed rest

/-- Moves the `logic` declarations of a procedural block to the front of their scope, in their
order. -/
def reorderDeclarations (block : BlockId) : Prep Unit := do
  match (← query (·.block block)).first with
  | none => pure ()
  | some first =>
    let scope ← query (·.declarationScope first)
    placeDeclarations scope none (← query (·.blockNodes block))

/-! ## Graph blocks -/

/-- Whether one of the users, or the node of the block that it is nested in, is among the nodes
seen. -/
def anyUserSeen (m : Module) (block : BlockId) (seen : IdMap Unit) :
    List NodeId → Except Fault Bool
  | [] => return false
  | user :: users => do
    match ← m.ancestorIn? user block with
    | some id => if seen.contains id.index then return true else anyUserSeen m block seen users
    | none => anyUserSeen m block seen users

/-- The nodes, among those of a block, that a node before them uses. -/
def usedBefore (m : Module) (block : BlockId) (seen : IdMap Unit) :
    List NodeId → Except Fault (List NodeId)
  | [] => return []
  | id :: rest => do
    let early ← anyUserSeen m block seen (← m.users id)
    let rest ← usedBefore m block (seen.insert id.index ()) rest
    return if early then id :: rest else rest

/-- The nodes of a block, in order, that a node before them uses. A user in a nested block counts as
the node around it. -/
def outOfOrder (m : Module) (block : BlockId) : Except Fault (List NodeId) := do
  usedBefore m block .empty (← m.blockNodes block)

/-- A declaration: it has no operands, so it can stand anywhere. -/
def isMovableDeclaration (m : Module) (id : NodeId) : Except Fault Bool := do
  let n ← m.node id
  match n.operands, n.results with
  | [], [v] => m.types.isStorage (← m.valueType v)
  | _, _ => return false

/-- The movable declaration that a node reads, if it is a read of one. -/
def readDeclaration? (m : Module) (id : NodeId) : Except Fault (Option NodeId) := do
  if (← m.node id).op = .read then
    match ← m.definingNode? (← m.operand id 0) with
    | some decl => if ← isMovableDeclaration m decl then return some decl else return none
    | none => return none
  else return none

/-- Lets a node come before the nodes of its graph block that use it. -/
def resolveForwardReference (block : BlockId) (id : NodeId) : Prep Unit := do
  count fun s => { s with forwardRefs := s.forwardRefs + 1 }
  let movable ← query (isMovableDeclaration · id)
  let placeable ← if movable then pure true else isConstantExpression id
  if placeable then
    edit (·.moveNode id (.front block))
  else
    match ← query (readDeclaration? · id) with
    | some decl =>
      -- The declaration goes to the front second, so it comes before the read.
      edit (·.moveNode id (.front block))
      edit (·.moveNode decl (.front block))
    | none => spill id true

/-- Lets every node of a graph block come before the nodes that use it. The nodes out of order are
found before the first of them is moved. -/
def resolveForwardReferences (block : BlockId) : Prep Unit := do
  (← query (outOfOrder · block)).forM (resolveForwardReference block)

end NetPrep.Prep
