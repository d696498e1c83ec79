import NetPrep.Netlist.Basic

/-!
# Walking a block

A cursor over the nodes of a block moves inwards from both ends. It follows the links of the nodes
and counts down the length of the block, so it stops where its ends meet.
-/

namespace NetPrep

/-- The part of a block that has not been walked yet. -/
structure BlockCursor where
  front : Option NodeId
  back : Option NodeId
  remaining : Nat
deriving DecidableEq, Repr

namespace BlockCursor

/-- The next node from the front and the cursor after it. -/
def next? (m : Module) (c : BlockCursor) : Except Fault (Option (NodeId × BlockCursor)) :=
  match c.remaining, c.front with
  | remaining + 1, some id => do
    let n ← m.node id
    return some (id, { c with front := n.next, remaining })
  | _, _ => return none

/-- The next node from the back and the cursor before it. -/
def nextBack? (m : Module) (c : BlockCursor) : Except Fault (Option (NodeId × BlockCursor)) :=
  match c.remaining, c.back with
  | remaining + 1, some id => do
    let n ← m.node id
    return some (id, { c with back := n.prev, remaining })
  | _, _ => return none

/-- At most so many nodes from the front. -/
def take (m : Module) : Nat → BlockCursor → Except Fault (List NodeId)
  | 0, _ => return []
  | k + 1, c => do
    match ← c.next? m with
    | none => return []
    | some (id, c) => return id :: (← take m k c)

/-- At most so many nodes from the back. -/
def takeBack (m : Module) : Nat → BlockCursor → Except Fault (List NodeId)
  | 0, _ => return []
  | k + 1, c => do
    match ← c.nextBack? m with
    | none => return []
    | some (id, c) => return id :: (← takeBack m k c)

/-- The last node with a property, among so many from the back. -/
def findBack? (m : Module) (p : NodeId → Except Fault Bool) :
    Nat → BlockCursor → Except Fault (Option NodeId)
  | 0, _ => return none
  | k + 1, c => do
    match ← c.nextBack? m with
    | none => return none
    | some (id, c) => if ← p id then return some id else findBack? m p k c

end BlockCursor

namespace Module

/-- A cursor over a whole block. -/
def cursor (m : Module) (block : BlockId) : Except Fault BlockCursor := do
  let b ← m.block block
  return ⟨b.first, b.last, b.len⟩

/-- The nodes of a block in order. -/
def blockNodes (m : Module) (block : BlockId) : Except Fault (List NodeId) := do
  let c ← m.cursor block
  c.take m c.remaining

/-- The nodes of a block, the last one first. -/
def blockNodesBack (m : Module) (block : BlockId) : Except Fault (List NodeId) := do
  let c ← m.cursor block
  c.takeBack m c.remaining

end Module

end NetPrep
