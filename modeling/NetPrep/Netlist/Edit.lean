import NetPrep.Netlist.Query

/-!
# Editing a module

Creating, cloning, moving and erasing nodes, and redirecting operands. Each edit keeps the links and
order keys of the blocks and the use lists of the values in step with the nodes and operands.

Entries and operands are referred to by numbers. What number a position is given can be said by the
caller (`number`): it is the position itself if nothing is said, and what a word keeps of it (`low32`)
where numbers are words.
-/

namespace NetPrep

/-- Where a new or moved node goes. -/
inductive Position where
  | before (anchor : NodeId)
  | after (anchor : NodeId)
  | front (block : BlockId)
  | back (block : BlockId)
deriving DecidableEq, Repr

/-- A place between two neighbours of a block; at an end of the block a neighbour is missing. -/
structure Gap where
  block : BlockId
  prev : Option NodeId
  next : Option NodeId
deriving DecidableEq, Repr

/-- The distance of the order keys of neighbours in a freshly numbered block. -/
def orderStride : Nat := 0x100000

namespace Module

/-- The gap that a position stands for. An erased anchor stands for the end of its block. -/
def gapAt (m : Module) : Position → Except Fault Gap
  | .before anchor => do
    let n ← m.node anchor
    if n.erased then return ⟨n.parent, (← m.block n.parent).last, none⟩
    else return ⟨n.parent, n.prev, some anchor⟩
  | .after anchor => do
    let n ← m.node anchor
    if n.erased then return ⟨n.parent, (← m.block n.parent).last, none⟩
    else return ⟨n.parent, some anchor, n.next⟩
  | .front block => do return ⟨block, none, (← m.block block).first⟩
  | .back block => do return ⟨block, (← m.block block).last, none⟩

/-! ## Links and order keys -/

/-- Makes `node` follow `prev`, or come first in the block if there is no `prev`. -/
def linkAfter (m : Module) (block : BlockId) (prev node : Option NodeId) : Except Fault Module :=
  match prev with
  | some p => m.modifyNode p ({ · with next := node })
  | none => m.modifyBlock block ({ · with first := node })

/-- Makes `node` precede `next`, or come last in the block if there is no `next`. -/
def linkBefore (m : Module) (block : BlockId) (next node : Option NodeId) : Except Fault Module :=
  match next with
  | some n => m.modifyNode n ({ · with prev := node })
  | none => m.modifyBlock block ({ · with last := node })

/-- Takes a node out of its block. -/
def detach (m : Module) (id : NodeId) : Except Fault Module := do
  let n ← m.node id
  let m ← m.linkAfter n.parent n.prev n.next
  let m ← m.linkBefore n.parent n.next n.prev
  -- The node keeps its parent and its order key: nothing asks a detached node for them.
  let m ← m.modifyNode id ({ · with prev := none, next := none })
  let len ← difference (← m.block n.parent).len 1
  m.modifyBlock n.parent ({ · with len })

/-- Numbers the nodes from `cursor` on evenly above an order key, in at most so many steps. -/
def renumberFrom (m : Module) : Nat → Nat → Option NodeId → Except Fault Module
  | _, _, none => return m
  | 0, _, some _ => .error .outOfFuel
  | fuel + 1, order, some id => do
    let order ← below limit64 (order + orderStride)
    let m ← m.modifyNode id ({ · with order })
    m.renumberFrom fuel order (← m.node id).next

/-- Spreads the order keys of a block evenly. A block links each node once. -/
def renumber (m : Module) (block : BlockId) : Except Fault Module := do
  m.renumberFrom (m.nodes.size + 1) 0 (← m.block block).first

/-- Gives a node an order key between those of its neighbours: a stride above the last node of a
block, else half way. A closed gap renumbers the block. -/
def assignOrder (m : Module) (id : NodeId) (gap : Gap) : Except Fault Module := do
  let low ← match gap.prev with
    | some p => do pure (← m.node p).order
    | none => pure 0
  match gap.next with
  | none => do
    let order ← below limit64 (low + orderStride)
    m.modifyNode id ({ · with order })
  | some next => do
    let high := (← m.node next).order
    -- Keys that do not rise leave no room either, so truncated subtraction is what is wanted.
    if high - low < 2 then m.renumber gap.block
    else m.modifyNode id ({ · with order := low + (high - low) / 2 })

/-- Puts a detached node into a gap. -/
def link (m : Module) (id : NodeId) (gap : Gap) : Except Fault Module := do
  let m ← m.linkAfter gap.block gap.prev (some id)
  let m ← m.linkBefore gap.block gap.next (some id)
  let len ← below limit64 ((← m.block gap.block).len + 1)
  let m ← m.modifyBlock gap.block ({ · with len })
  let m ← m.modifyNode id
    ({ · with parent := gap.block, prev := gap.prev, next := gap.next })
  m.assignOrder id gap

/-! ## Uses -/

/-- Records that an operand refers to a value. -/
def addUse (m : Module) (v : ValueId) (u : Use) : Except Fault Module :=
  m.modifyValue v fun value => { value with uses := value.uses ++ [u] }

/-- Forgets that an operand refers to a value. -/
def removeUse (m : Module) (v : ValueId) (u : Use) : Except Fault Module :=
  m.modifyValue v fun value => { value with uses := value.uses.erase u }

/-- Records the operands of a node from a position on. -/
def addUses (m : Module) (id : NodeId) (i : Nat) (vs : List ValueId)
    (number : Nat → Nat := fun k => k) : Except Fault Module :=
  match vs with
  | [] => return m
  | v :: vs => do (← m.addUse v ⟨id, number i⟩).addUses id (i + 1) vs number

/-- Forgets the operands of a node from a position on. -/
def removeUses (m : Module) (id : NodeId) (i : Nat) (vs : List ValueId)
    (number : Nat → Nat := fun k => k) : Except Fault Module :=
  match vs with
  | [] => return m
  | v :: vs => do (← m.removeUse v ⟨id, number i⟩).removeUses id (i + 1) vs number

/-- Points an operand of a node at a value. -/
def setOperand (m : Module) (id : NodeId) (index : Nat) (v : ValueId)
    (number : Nat → Nat := fun k => k) : Except Fault Module := do
  let old ← m.operand id index
  if old = v then return m
  let m ← m.removeUse old ⟨id, number index⟩
  let m ← m.addUse v ⟨id, number index⟩
  m.modifyNode id fun n => { n with operands := n.operands.set index v }

/-- Points operands, given as uses, at a value, leaving the use lists alone. -/
def retarget (m : Module) (v : ValueId) : List Use → Except Fault Module
  | [] => return m
  | u :: us => do
    let _ ← m.operand u.node u.operand
    let m ← m.modifyNode u.node fun n => { n with operands := n.operands.set u.operand v }
    m.retarget v us

/-- Redirects every use of one value to another, after the uses that the other has. -/
def replaceUses (m : Module) (old new : ValueId) : Except Fault Module := do
  if old = new then return m
  let uses := (← m.value old).uses
  -- The uses move as a whole, so their order among themselves is kept.
  let m ← m.modifyValue old ({ · with uses := [] })
  let m ← m.retarget new uses
  m.modifyValue new fun value => { value with uses := value.uses ++ uses }

/-! ## Nodes -/

/-- Adds the results of a node from a position on. -/
def addResults (m : Module) (id : NodeId) (i : Nat) (types : List TypeId)
    (number : Nat → Nat := fun k => k) : List ValueId × Module :=
  match types with
  | [] => ([], m)
  | type :: types =>
    let v : ValueId := ⟨number m.values.size⟩
    let m := { m with values := m.values.push ⟨type, .result id (number i), []⟩ }
    let (vs, m) := m.addResults id (i + 1) types number
    (v :: vs, m)

/-- Adds an empty block for each region of a node. -/
def addRegions (m : Module) (id : NodeId) (kinds : List RegionKind)
    (number : Nat → Nat := fun k => k) : List BlockId × Module :=
  match kinds with
  | [] => ([], m)
  | kind :: kinds =>
    let b : BlockId := ⟨number m.blocks.size⟩
    let m := { m with blocks := m.blocks.push (.empty kind (some id)) }
    let (bs, m) := m.addRegions id kinds number
    (b :: bs, m)

/-- Creates a node with fresh results of the given types and an empty block for each region. -/
def createNode (m : Module) (pos : Position) (op : Op) (operands : List ValueId)
    (resultTypes : List TypeId) (loc : Loc) (number : Nat → Nat := fun k => k) :
    Except Fault (NodeId × Module) := do
  let id : NodeId := ⟨number m.nodes.size⟩
  let gap ← m.gapAt pos
  -- The results and regions refer to the node before it is stored.
  let (results, m) := m.addResults id 0 resultTypes number
  let (regions, m) := m.addRegions id op.regionKinds number
  let m ← m.addUses id 0 operands number
  let node : Node := {
    op, operands, results, regions, loc
    name := none, twoState := false, parent := gap.block, erased := false
    prev := none, next := none, order := 0 }
  let m ← { m with nodes := m.nodes.push node }.link id gap
  return (id, m)

/-- Creates a node that is like another except for its results, which are fresh, and its regions,
which are empty. -/
def cloneNode (m : Module) (source : NodeId) (pos : Position)
    (number : Nat → Nat := fun k => k) : Except Fault (NodeId × Module) := do
  let n ← m.node source
  let types ← n.results.mapM m.valueType
  let (id, m) ← m.createNode pos n.op n.operands types n.loc number
  let m ← m.modifyNode id ({ · with name := n.name, twoState := n.twoState })
  return (id, m)

/-- Moves a node. Next to itself is where it is. -/
def moveNode (m : Module) (id : NodeId) (pos : Position) : Except Fault Module := do
  if pos = .before id ∨ pos = .after id then return m
  if (← m.node id).erased then .error (.movingErased id)
  let m ← m.detach id
  -- The place is looked up without the node, which may have been a neighbour of it.
  m.link id (← m.gapAt pos)

/-- The nodes that a stack of nodes leads to through their regions, from the one met last to the
one met first. -/
def nestedNodes (m : Module) : Nat → List NodeId → List NodeId → Except Fault (List NodeId)
  | _, met, [] => return met
  | 0, _, _ => .error .outOfFuel
  | fuel + 1, met, id :: stack => do
    let stack ← (← m.node id).regions.foldlM (fun stack region => do
      return (← m.blockNodes region).reverse ++ stack) stack
    m.nestedNodes fuel (id :: met) stack

/-- Forgets the operands of a node and empties its regions. -/
def dropContents (m : Module) (id : NodeId) (number : Nat → Nat := fun k => k) :
    Except Fault Module := do
  let n ← m.node id
  let m ← m.removeUses id 0 n.operands number
  n.regions.foldlM (fun m region =>
    m.modifyBlock region ({ · with first := none, last := none, len := 0 })) m

/-- Erases a node whose results are unused, with everything nested in its regions, innermost
first. Erasing it again does nothing. -/
def eraseNode (m : Module) (id : NodeId) (number : Nat → Nat := fun k => k) :
    Except Fault Module := do
  if (← m.node id).erased then return m
  if !(← m.isUnused id) then .error (.erasingUsed id)
  let doomed ← m.nestedNodes m.walkFuel [] [id]
  let m ← doomed.foldlM (·.dropContents · number) m
  -- The nested nodes need no detaching: their blocks are empty by now.
  let m ← m.detach id
  doomed.foldlM (fun m n => m.modifyNode n ({ · with erased := true })) m

/-- Names a node, or takes its name away. -/
def setName (m : Module) (id : NodeId) (name : Option Name) : Except Fault Module :=
  m.modifyNode id ({ · with name })

def setTwoState (m : Module) (id : NodeId) (twoState : Bool) : Except Fault Module :=
  m.modifyNode id ({ · with twoState })

end Module

end NetPrep
