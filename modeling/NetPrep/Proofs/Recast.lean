import Mathlib
import NetPrep.Netlist.Edit

/-!
# What edits do not look at

Edits work on the links, operands and uses of nodes. What a node is called, which operation it
performs and where it came from makes no difference to them, and neither does the header of the
module. So an edit commutes with every change of these (`Recast`). A change that is the identity on
what a module contains then shows that the edit brings in nothing else.
-/

namespace NetPrep

/-- A change of what edits do not look at. Operations keep their regions, and nodes without a name
stay without one. -/
structure Recast where
  name : Option Name → Option Name
  op : Op → Op
  loc : Loc → Loc
  title : Name → Name
  ports : List Port → List Port
  types : TypeTable → TypeTable
  name_none : name none = none
  regionKinds : ∀ o, (op o).regionKinds = o.regionKinds

def Node.recast (r : Recast) (n : Node) : Node :=
  { n with op := r.op n.op, name := r.name n.name, loc := r.loc n.loc }

def Module.recast (r : Recast) (m : Module) : Module :=
  { m with
    name := r.title m.name, ports := r.ports m.ports, types := r.types m.types
    nodes := m.nodes.map (Node.recast r) }

namespace Except

variable {ε α α' β β' : Type}

theorem map_bind (f : α → α') (x : Except ε α) (k : α' → Except ε β) :
    (x.map f >>= k) = x >>= fun a => k (f a) := by
  cases x <;> rfl

/-- A computation that goes on after a changed result, with a changed result at its end. -/
theorem bind_eq_map {f : α → α'} {g : β → β'} {x : Except ε α} {x' : Except ε α'}
    {k : α → Except ε β} {k' : α' → Except ε β'} (hx : x' = x.map f)
    (hk : ∀ a, k' (f a) = (k a).map g) : (x' >>= k') = (x >>= k).map g := by
  subst hx
  cases x with
  | error e => rfl
  | ok a => exact hk a

theorem bind_same {g : β → β'} {x : Except ε α} {k : α → Except ε β} {k' : α → Except ε β'}
    (hk : ∀ a, k' a = (k a).map g) : (x >>= k') = (x >>= k).map g := by
  cases x with
  | error e => rfl
  | ok a => exact hk a

end Except

namespace Module

/-! ## Looking up and changing in place -/

section

variable (r : Recast) (m : Module)

theorem node_recast (id : NodeId) : (m.recast r).node id = (m.node id).map (·.recast r) := by
  simp only [node, recast, Array.getElem?_map]
  cases m.nodes[id.index]? <;> rfl

@[simp] theorem value_recast (v : ValueId) : (m.recast r).value v = m.value v := rfl

@[simp] theorem block_recast (b : BlockId) : (m.recast r).block b = m.block b := rfl

/-- What is read off a node, and not changed. -/
theorem node_bind_recast {α : Type} {id : NodeId} {k k' : Node → Except Fault α}
    (h : ∀ n : Node, k' (n.recast r) = k n) : ((m.recast r).node id >>= k') = m.node id >>= k := by
  rw [node_recast, Except.map_bind]
  exact bind_congr h

theorem modifyValue_recast (v : ValueId) (f : Value → Value) :
    (m.recast r).modifyValue v f = (m.modifyValue v f).map (·.recast r) := by
  unfold modifyValue
  rw [apply_ite (Except.map _)]
  rfl

theorem modifyBlock_recast (b : BlockId) (f : Block → Block) :
    (m.recast r).modifyBlock b f = (m.modifyBlock b f).map (·.recast r) := by
  unfold modifyBlock
  rw [apply_ite (Except.map _)]
  rfl

/-- Changing a node in a way that the change of its looks allows for. -/
theorem modifyNode_recast {f f' : Node → Node} (hf : ∀ n : Node, f' (n.recast r) = (f n).recast r)
    (id : NodeId) : (m.recast r).modifyNode id f' = (m.modifyNode id f).map (·.recast r) := by
  have hnodes : (m.nodes.map (Node.recast r)).modify id.index f' =
      (m.nodes.modify id.index f).map (Node.recast r) := by
    refine Array.ext (by simp) fun i _ _ => ?_
    simp only [Array.getElem_modify, Array.getElem_map]
    split
    · rw [hf]
    · rfl
  unfold modifyNode
  rw [apply_ite (Except.map _)]
  simp only [recast, Array.size_map, Except.map, hnodes]

/-! ## Questions -/

@[simp] theorem definingNode?_recast (v : ValueId) :
    (m.recast r).definingNode? v = m.definingNode? v := rfl

@[simp] theorem valueType_recast (v : ValueId) : (m.recast r).valueType v = m.valueType v := rfl

@[simp] theorem result_recast (id : NodeId) (i : Nat) : (m.recast r).result id i = m.result id i :=
  node_bind_recast r m fun _ => rfl

@[simp] theorem operand_recast (id : NodeId) (i : Nat) :
    (m.recast r).operand id i = m.operand id i :=
  node_bind_recast r m fun _ => rfl

@[simp] theorem nodeUses_recast (id : NodeId) : (m.recast r).nodeUses id = m.nodeUses id :=
  node_bind_recast r m fun _ => rfl

@[simp] theorem users_recast (id : NodeId) : (m.recast r).users id = m.users id := by
  rw [users, nodeUses_recast, users]

@[simp] theorem isUnused_recast (id : NodeId) : (m.recast r).isUnused id = m.isUnused id := by
  rw [isUnused, nodeUses_recast, isUnused]

@[simp] theorem singleUser?_recast (id : NodeId) :
    (m.recast r).singleUser? id = m.singleUser? id := by
  rw [singleUser?, nodeUses_recast, singleUser?]

@[simp] theorem parentNode?_recast (id : NodeId) :
    (m.recast r).parentNode? id = m.parentNode? id :=
  node_bind_recast r m fun _ => rfl

@[simp] theorem inProcedural_recast (id : NodeId) :
    (m.recast r).inProcedural id = m.inProcedural id :=
  node_bind_recast r m fun _ => rfl

@[simp] theorem ancestorWithin_recast (block : BlockId) (fuel : Nat) (id : NodeId) :
    (m.recast r).ancestorWithin block fuel id = m.ancestorWithin block fuel id := by
  induction fuel generalizing id with
  | zero => rfl
  | succ fuel ih =>
    refine node_bind_recast r m fun n => ?_
    simp only [parentNode?_recast, ih]
    rfl

@[simp] theorem ancestorIn?_recast (id : NodeId) (block : BlockId) :
    (m.recast r).ancestorIn? id block = m.ancestorIn? id block :=
  ancestorWithin_recast r m block _ id

@[simp] theorem outermostWithin_recast (fuel : Nat) (id : NodeId) :
    (m.recast r).outermostWithin fuel id = m.outermostWithin fuel id := by
  induction fuel generalizing id with
  | zero => rfl
  | succ fuel ih => simp only [outermostWithin, inProcedural_recast, parentNode?_recast, ih]

@[simp] theorem enclosingProcess?_recast (id : NodeId) :
    (m.recast r).enclosingProcess? id = m.enclosingProcess? id := by
  simp only [enclosingProcess?, parentNode?_recast, outermostWithin_recast]
  rfl

@[simp] theorem take_recast (k : Nat) (c : BlockCursor) :
    c.take (m.recast r) k = c.take m k := by
  induction k generalizing c with
  | zero => rfl
  | succ k ih =>
    have hnext : c.next? (m.recast r) = c.next? m := by
      unfold BlockCursor.next?
      split
      · exact node_bind_recast r m fun _ => rfl
      · rfl
    simp only [BlockCursor.take, hnext, ih]

@[simp] theorem takeBack_recast (k : Nat) (c : BlockCursor) :
    c.takeBack (m.recast r) k = c.takeBack m k := by
  induction k generalizing c with
  | zero => rfl
  | succ k ih =>
    have hnext : c.nextBack? (m.recast r) = c.nextBack? m := by
      unfold BlockCursor.nextBack?
      split
      · exact node_bind_recast r m fun _ => rfl
      · rfl
    simp only [BlockCursor.takeBack, hnext, ih]

@[simp] theorem blockNodes_recast (b : BlockId) : (m.recast r).blockNodes b = m.blockNodes b := by
  simp only [blockNodes, cursor, block_recast, take_recast]

@[simp] theorem blockNodesBack_recast (b : BlockId) :
    (m.recast r).blockNodesBack b = m.blockNodesBack b := by
  simp only [blockNodesBack, cursor, block_recast, takeBack_recast]

@[simp] theorem walkFuel_recast : (m.recast r).walkFuel = m.walkFuel := by
  simp [walkFuel, recast]

@[simp] theorem walkBlocks_recast (fuel : Nat) (stack : List BlockId) :
    (m.recast r).walkBlocks fuel stack = m.walkBlocks fuel stack := by
  induction fuel generalizing stack with
  | zero => cases stack <;> rfl
  | succ fuel ih =>
    cases stack with
    | nil => rfl
    | cons block stack =>
      have hpush : (fun stack id => do return (← (m.recast r).node id).regions ++ stack :
          List BlockId → NodeId → Except Fault (List BlockId)) =
          fun stack id => do return (← m.node id).regions ++ stack := by
        funext stack id
        exact node_bind_recast r m fun _ => rfl
      simp only [walkBlocks, blockNodesBack_recast, hpush, ih]

@[simp] theorem liveNodes_recast : (m.recast r).liveNodes = m.liveNodes := by
  have hblocks : (m.recast r).blockNodes = m.blockNodes := funext (blockNodes_recast r m)
  simp only [liveNodes, blocksPreorder, walkFuel_recast, walkBlocks_recast, hblocks]
  rfl

@[simp] theorem gapAt_recast (pos : Position) : (m.recast r).gapAt pos = m.gapAt pos := by
  cases pos with
  | before a => exact node_bind_recast r m fun _ => rfl
  | after a => exact node_bind_recast r m fun _ => rfl
  | front b => rfl
  | back b => rfl

/-! ## Links -/

theorem linkAfter_recast (b : BlockId) (prev node : Option NodeId) :
    (m.recast r).linkAfter b prev node = (m.linkAfter b prev node).map (·.recast r) := by
  cases prev with
  | none => exact modifyBlock_recast r m b _
  | some p => exact modifyNode_recast r m (by intro; rfl) p

theorem linkBefore_recast (b : BlockId) (next node : Option NodeId) :
    (m.recast r).linkBefore b next node = (m.linkBefore b next node).map (·.recast r) := by
  cases next with
  | none => exact modifyBlock_recast r m b _
  | some n => exact modifyNode_recast r m (by intro; rfl) n

theorem detach_recast (id : NodeId) :
    (m.recast r).detach id = (m.detach id).map (·.recast r) := by
  refine Except.bind_eq_map (node_recast r m id) fun n => ?_
  refine Except.bind_eq_map (linkAfter_recast r m _ _ _) fun m => ?_
  refine Except.bind_eq_map (linkBefore_recast r m _ _ _) fun m => ?_
  refine Except.bind_eq_map (modifyNode_recast r m (by intro; rfl) _) fun m => ?_
  exact Except.bind_same fun b => Except.bind_same fun len => modifyBlock_recast r m _ _

theorem renumberFrom_recast (fuel order : Nat) (cursor : Option NodeId) :
    (m.recast r).renumberFrom fuel order cursor =
      (m.renumberFrom fuel order cursor).map (·.recast r) := by
  induction fuel generalizing m order cursor with
  | zero => cases cursor <;> rfl
  | succ fuel ih =>
    cases cursor with
    | none => rfl
    | some id =>
      refine Except.bind_same fun order => ?_
      refine Except.bind_eq_map (modifyNode_recast r m (by intro; rfl) _) fun m => ?_
      exact Except.bind_eq_map (node_recast r m id) fun n => ih m _ _

theorem renumber_recast (b : BlockId) :
    (m.recast r).renumber b = (m.renumber b).map (·.recast r) := by
  refine Except.bind_same fun blk => ?_
  have hsize : (m.recast r).nodes.size = m.nodes.size := by simp [recast]
  rw [hsize]
  exact renumberFrom_recast r m _ _ _

/-- The key of a node once that of the node before it is known. -/
theorem assignOrder_above_recast (id : NodeId) (block : BlockId) (next : Option NodeId)
    (low : Nat) : (match next with
      | none => do
        let order ← below limit64 (low + orderStride)
        (m.recast r).modifyNode id ({ · with order })
      | some next => do
        let high := (← (m.recast r).node next).order
        if high - low < 2 then (m.recast r).renumber block
        else (m.recast r).modifyNode id ({ · with order := low + (high - low) / 2 })) =
      Except.map (·.recast r) (match next with
      | none => do
        let order ← below limit64 (low + orderStride)
        m.modifyNode id ({ · with order })
      | some next => do
        let high := (← m.node next).order
        if high - low < 2 then m.renumber block
        else m.modifyNode id ({ · with order := low + (high - low) / 2 })) := by
  cases next with
  | none => exact Except.bind_same fun order => modifyNode_recast r m (by intro; rfl) _
  | some next =>
    refine Except.bind_eq_map (node_recast r m next) fun n => ?_
    change (if n.order - low < 2 then _ else _) = Except.map _ (if n.order - low < 2 then _ else _)
    split
    · exact renumber_recast r m block
    · exact modifyNode_recast r m (by intro; rfl) _

theorem assignOrder_recast (id : NodeId) (gap : Gap) :
    (m.recast r).assignOrder id gap = (m.assignOrder id gap).map (·.recast r) := by
  obtain ⟨block, prev, next⟩ := gap
  cases prev with
  | none => exact assignOrder_above_recast r m id block next 0
  | some p =>
    exact Except.bind_eq_map (node_recast r m p) fun n =>
      assignOrder_above_recast r m id block next n.order

theorem link_recast (id : NodeId) (gap : Gap) :
    (m.recast r).link id gap = (m.link id gap).map (·.recast r) := by
  refine Except.bind_eq_map (linkAfter_recast r m _ _ _) fun m => ?_
  refine Except.bind_eq_map (linkBefore_recast r m _ _ _) fun m => ?_
  refine Except.bind_same fun b => Except.bind_same fun len => ?_
  refine Except.bind_eq_map (modifyBlock_recast r m _ _) fun m => ?_
  refine Except.bind_eq_map (modifyNode_recast r m (by intro; rfl) _) fun m => ?_
  exact assignOrder_recast r m id gap

/-! ## Uses -/

theorem addUses_recast (id : NodeId) (i : Nat) (vs : List ValueId) :
    (m.recast r).addUses id i vs = (m.addUses id i vs).map (·.recast r) := by
  induction vs generalizing m i with
  | nil => rfl
  | cons v vs ih => exact Except.bind_eq_map (modifyValue_recast r m v _) fun m => ih m _

theorem removeUses_recast (id : NodeId) (i : Nat) (vs : List ValueId) :
    (m.recast r).removeUses id i vs = (m.removeUses id i vs).map (·.recast r) := by
  induction vs generalizing m i with
  | nil => rfl
  | cons v vs ih => exact Except.bind_eq_map (modifyValue_recast r m v _) fun m => ih m _

theorem setOperand_recast (id : NodeId) (i : Nat) (v : ValueId) :
    (m.recast r).setOperand id i v = (m.setOperand id i v).map (·.recast r) := by
  unfold setOperand
  rw [operand_recast]
  refine Except.bind_same fun old => ?_
  split
  · rfl
  · refine Except.bind_eq_map (modifyValue_recast r m _ _) fun m => ?_
    refine Except.bind_eq_map (modifyValue_recast r m _ _) fun m => ?_
    exact modifyNode_recast r m (by intro; rfl) _

theorem retarget_recast (v : ValueId) (us : List Use) :
    (m.recast r).retarget v us = (m.retarget v us).map (·.recast r) := by
  induction us generalizing m with
  | nil => rfl
  | cons u us ih =>
    unfold retarget
    rw [operand_recast]
    refine Except.bind_same fun old => ?_
    exact Except.bind_eq_map (modifyNode_recast r m (by intro; rfl) _) fun m => ih m

theorem replaceUses_recast (old new : ValueId) :
    (m.recast r).replaceUses old new = (m.replaceUses old new).map (·.recast r) := by
  unfold replaceUses
  split
  · rfl
  · refine Except.bind_same fun x => ?_
    refine Except.bind_eq_map (modifyValue_recast r m _ _) fun m => ?_
    exact Except.bind_eq_map (retarget_recast r m _ _) fun m => modifyValue_recast r m _ _

/-! ## Nodes -/

theorem addResults_recast (id : NodeId) (i : Nat) (types : List TypeId) :
    (m.recast r).addResults id i types =
      ((m.addResults id i types).1, (m.addResults id i types).2.recast r) := by
  induction types generalizing m i with
  | nil => rfl
  | cons type types ih =>
    have h := ih { m with values := m.values.push ⟨type, .result id i, []⟩ } (i + 1)
    exact congrArg (fun p : List ValueId × Module => (⟨m.values.size⟩ :: p.1, p.2)) h

theorem addRegions_recast (id : NodeId) (kinds : List RegionKind) :
    (m.recast r).addRegions id kinds =
      ((m.addRegions id kinds).1, (m.addRegions id kinds).2.recast r) := by
  induction kinds generalizing m with
  | nil => rfl
  | cons kind kinds ih =>
    have h := ih { m with blocks := m.blocks.push (.empty kind (some id)) }
    exact congrArg (fun p : List BlockId × Module => (⟨m.blocks.size⟩ :: p.1, p.2)) h

theorem createNode_recast (pos : Position) (op : Op) (operands : List ValueId)
    (types : List TypeId) (loc : Loc) :
    (m.recast r).createNode pos (r.op op) operands types (r.loc loc) =
      (m.createNode pos op operands types loc).map fun (id, m) => (id, m.recast r) := by
  have hsize : (m.recast r).nodes.size = m.nodes.size := by simp [recast]
  unfold createNode
  simp only [gapAt_recast, addResults_recast, addRegions_recast, r.regionKinds, hsize]
  refine Except.bind_same fun gap => ?_
  refine Except.bind_eq_map (addUses_recast r _ _ _ _) fun m => ?_
  refine Except.bind_eq_map (f := (·.recast r)) ?_ fun m => rfl
  rw [← link_recast]
  simp only [recast, Array.map_push, Node.recast, r.name_none]

theorem moveNode_recast (id : NodeId) (pos : Position) :
    (m.recast r).moveNode id pos = (m.moveNode id pos).map (·.recast r) := by
  unfold moveNode
  split
  · rfl
  · refine Except.bind_eq_map (node_recast r m id) fun n => ?_
    change (if n.erased then _ else _) = Except.map _ (if n.erased then _ else _)
    split
    · rfl
    · refine Except.bind_eq_map (detach_recast r m id) fun m => ?_
      rw [gapAt_recast]
      exact Except.bind_same fun gap => link_recast r m id gap

theorem nestedNodes_recast (fuel : Nat) (met stack : List NodeId) :
    (m.recast r).nestedNodes fuel met stack = m.nestedNodes fuel met stack := by
  induction fuel generalizing met stack with
  | zero => cases stack <;> rfl
  | succ fuel ih =>
    cases stack with
    | nil => rfl
    | cons id stack =>
      refine node_bind_recast r m fun n => ?_
      simp only [blockNodes_recast, ih]
      rfl

theorem foldlM_recast {α : Type} {f : Module → α → Except Fault Module}
    (hf : ∀ m a, f (m.recast r) a = (f m a).map (·.recast r)) (as : List α) :
    as.foldlM f (m.recast r) = (as.foldlM f m).map (·.recast r) := by
  induction as generalizing m with
  | nil => rfl
  | cons a as ih => exact Except.bind_eq_map (hf m a) fun m => ih m

theorem dropContents_recast (id : NodeId) :
    (m.recast r).dropContents id = (m.dropContents id).map (·.recast r) := by
  refine Except.bind_eq_map (node_recast r m id) fun n => ?_
  refine Except.bind_eq_map (removeUses_recast r m _ _ _) fun m => ?_
  exact foldlM_recast r m (fun m b => modifyBlock_recast r m b _) _

theorem eraseNode_recast (id : NodeId) :
    (m.recast r).eraseNode id = (m.eraseNode id).map (·.recast r) := by
  refine Except.bind_eq_map (node_recast r m id) fun n => ?_
  change (if n.erased then _ else _) = Except.map _ (if n.erased then _ else _)
  split
  · rfl
  · rw [isUnused_recast]
    refine Except.bind_same fun unused => ?_
    split
    · rfl
    · rw [walkFuel_recast, nestedNodes_recast]
      refine Except.bind_same fun doomed => ?_
      refine Except.bind_eq_map (foldlM_recast r m (fun m => dropContents_recast r m) _) fun m => ?_
      refine Except.bind_eq_map (detach_recast r m id) fun m => ?_
      exact foldlM_recast r m (fun m n => modifyNode_recast r m (by intro; rfl) n) _

theorem setName_recast (id : NodeId) (name : Option Name) :
    (m.recast r).setName id (r.name name) = (m.setName id name).map (·.recast r) :=
  modifyNode_recast r m (by intro; rfl) id

theorem setTwoState_recast (id : NodeId) (twoState : Bool) :
    (m.recast r).setTwoState id twoState = (m.setTwoState id twoState).map (·.recast r) :=
  modifyNode_recast r m (by intro; rfl) id

theorem cloneNode_recast (source : NodeId) (pos : Position) :
    (m.recast r).cloneNode source pos =
      (m.cloneNode source pos).map fun (id, m) => (id, m.recast r) := by
  refine Except.bind_eq_map (node_recast r m source) fun n => ?_
  refine Except.bind_same fun types => ?_
  refine Except.bind_eq_map (createNode_recast r m _ _ _ _ _) fun (id, m) => ?_
  exact Except.bind_eq_map (modifyNode_recast r m (by intro; rfl) id) fun m => rfl

end

end Module

end NetPrep
