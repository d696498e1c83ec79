import Mathlib
import NetPrep.Prepare.Run
import NetPrep.Proofs.Recast

/-!
# What preparation asks about a module

Apart from the texts of names, nothing that preparation asks depends on what the nodes are called.
-/

namespace NetPrep

/-- Other names for the nodes of a module. -/
def Recast.rename (ρ : Name → Option Name) : Recast where
  name name := name.bind ρ
  op op := op
  loc loc := loc
  title name := name
  ports ports := ports
  types types := types
  name_none := rfl
  regionKinds _ := rfl

/-- A node with another name. A name without a substitute is dropped. -/
abbrev Node.rename (ρ : Name → Option Name) (n : Node) : Node := n.recast (.rename ρ)

/-- The module with other names for its nodes. -/
abbrev Module.rename (ρ : Name → Option Name) (m : Module) : Module := m.recast (.rename ρ)

variable (ρ : Name → Option Name) (m : Module)

@[simp] theorem Node.operands_recast (r : Recast) (n : Node) :
    (n.recast r).operands = n.operands := rfl

@[simp] theorem Node.op_rename (n : Node) : (n.rename ρ).op = n.op := rfl

namespace Module

/-! ## Definitions -/

@[simp] theorem definingOp?_rename (v : ValueId) :
    (m.rename ρ).definingOp? v = m.definingOp? v := by
  refine bind_congr fun d => ?_
  cases d with
  | none => rfl
  | some id => exact node_bind_recast _ m fun _ => rfl

@[simp] theorem isSimpleReadOrPort_rename (v : ValueId) :
    (m.rename ρ).isSimpleReadOrPort v = m.isSimpleReadOrPort v := by
  refine bind_congr fun d => ?_
  cases d with
  | none => rfl
  | some id =>
    refine node_bind_recast _ m fun n => ?_
    simp only [Node.op_rename, operand_recast, definingOp?_rename]

@[simp] theorem scopeWithin_rename (fuel : Nat) (id : NodeId) :
    (m.rename ρ).scopeWithin fuel id = m.scopeWithin fuel id := by
  induction fuel generalizing id with
  | zero => rfl
  | succ fuel ih =>
    unfold scopeWithin
    rw [parentNode?_recast]
    refine bind_congr fun up => ?_
    cases up with
    | none => exact node_bind_recast _ m fun _ => rfl
    | some up =>
      refine node_bind_recast _ m fun n => ?_
      have hhome : ((m.rename ρ).node id >>= fun n => pure n.parent) =
          m.node id >>= fun n => pure n.parent := node_bind_recast _ m fun _ => rfl
      simp only [Node.op_rename, ih, hhome]

@[simp] theorem declarationScope_rename (id : NodeId) :
    (m.rename ρ).declarationScope id = m.declarationScope id :=
  scopeWithin_rename ρ m _ id

end Module

/-! ## The emitter -/

namespace Oracle

open NetPrep.Module

theorem isDuplicatable_rename (n : Node) (id : NodeId) :
    isDuplicatable (m.rename ρ) (n.rename ρ) id = isDuplicatable m n id := by
  simp only [isDuplicatable, Node.op_rename, operand_recast, definingOp?_rename,
    isSimpleReadOrPort_rename]
  rfl

theorem useForbidsInlining_rename (options : Options) (u : Use) :
    useForbidsInlining (m.rename ρ) options u = useForbidsInlining m options u := by
  refine node_bind_recast _ m fun n => ?_
  simp only [Node.op_rename, operand_recast, canSelectFrom, definingOp?_rename]

theorem anyForbids_rename (options : Options) (us : List Use) :
    anyForbids (m.rename ρ) options us = anyForbids m options us := by
  induction us with
  | nil => rfl
  | cons u us ih => simp only [anyForbids, useForbidsInlining_rename, ih]

theorem cannotInline_rename (n : Node) (uses : List Use) (options : Options) :
    cannotInline (m.rename ρ) (n.rename ρ) uses options = cannotInline m n uses options := by
  simp only [cannotInline, Node.op_rename, anyForbids_rename]

@[simp] theorem inlineable_rename (id : NodeId) (options : Options) :
    inlineable (m.rename ρ) id options = inlineable m id options := by
  refine node_bind_recast _ m fun n => ?_
  rw [Node.op_rename, nodeUses_recast]
  split
  · rfl
  · refine bind_congr fun uses => ?_
    split
    · rfl
    · refine node_bind_recast _ m fun user => ?_
      simp only [Node.op_rename, cannotInline_rename]
    · simp only [isDuplicatable_rename, cannotInline_rename]

end Oracle

/-! ## The passes -/

namespace Prep

open NetPrep.Module

@[simp] theorem isCaptured_rename (id : NodeId) : isCaptured (m.rename ρ) id = isCaptured m id := by
  unfold isCaptured
  rw [singleUser?_recast]
  refine bind_congr fun user => ?_
  cases user with
  | none => rfl
  | some user =>
    refine node_bind_recast _ m fun n => ?_
    simp only [Node.op_rename, operand_recast, definingOp?_rename]

@[simp] theorem reachOf_rename (b : BlockId) (vs : List ValueId) :
    reachOf (m.rename ρ) b vs = reachOf m b vs := by
  induction vs with
  | nil => rfl
  | cons v vs ih =>
    unfold reachOf
    rw [definingNode?_recast]
    refine bind_congr fun d => ?_
    cases d with
    | none => exact ih
    | some id =>
      simp only [inProcedural_recast, ih]
      refine bind_congr fun inside => ?_
      split
      · exact node_bind_recast _ m fun _ => rfl
      · rfl

@[simp] theorem splitAssignment_rename (a : Option NodeId) (us : List Use) :
    splitAssignment (m.rename ρ) a us = splitAssignment m a us := by
  induction us generalizing a with
  | nil => rfl
  | cons u us ih =>
    refine node_bind_recast _ m fun n => ?_
    simp only [Node.op_rename, parentNode?_recast, ih]

@[simp] theorem negativeConstant?_rename (id : NodeId) :
    negativeConstant? (m.rename ρ) id = negativeConstant? m id := by
  refine node_bind_recast _ m fun n => ?_
  rw [Node.op_rename, Node.operands_recast]
  split
  · refine bind_congr fun constant => ?_
    cases constant with
    | none => rfl
    | some constant => exact node_bind_recast _ m fun _ => rfl
  · rfl

@[simp] theorem isMovableDeclaration_rename (id : NodeId) :
    isMovableDeclaration (m.rename ρ) id = isMovableDeclaration m id :=
  node_bind_recast _ m fun _ => rfl

@[simp] theorem readDeclaration?_rename (id : NodeId) :
    readDeclaration? (m.rename ρ) id = readDeclaration? m id := by
  refine node_bind_recast _ m fun n => ?_
  simp only [Node.op_rename, operand_recast, definingNode?_recast, isMovableDeclaration_rename]

theorem anyUserSeen_rename (b : BlockId) (seen : IdMap Unit) (users : List NodeId) :
    anyUserSeen (m.rename ρ) b seen users = anyUserSeen m b seen users := by
  induction users with
  | nil => rfl
  | cons u us ih => simp only [anyUserSeen, ancestorIn?_recast, ih]

theorem usedBefore_rename (b : BlockId) (seen : IdMap Unit) (ids : List NodeId) :
    usedBefore (m.rename ρ) b seen ids = usedBefore m b seen ids := by
  induction ids generalizing seen with
  | nil => rfl
  | cons id ids ih => simp only [usedBefore, users_recast, anyUserSeen_rename, ih]

@[simp] theorem outOfOrder_rename (b : BlockId) : outOfOrder (m.rename ρ) b = outOfOrder m b := by
  simp only [outOfOrder, blockNodes_recast, usedBefore_rename]

@[simp] theorem isIn_rename (b : BlockId) (id : NodeId) : isIn (m.rename ρ) b id = isIn m b id :=
  node_bind_recast _ m fun _ => rfl

@[simp] theorem successor?_rename (b : BlockId) (id : NodeId) (prev next : Option NodeId) :
    successor? (m.rename ρ) b id prev next = successor? m b id prev next := by
  have hthere : isSomeIn (m.rename ρ) b next = isSomeIn m b next := by
    cases next with
    | none => rfl
    | some id => exact isIn_rename ρ m b id
  have hnext (id : NodeId) : ((m.rename ρ).node id >>= fun n => pure n.next) =
      m.node id >>= fun n => pure n.next := node_bind_recast _ m fun _ => rfl
  simp only [successor?, hthere, isIn_rename, hnext]
  rfl

@[simp] theorem isNamedByUser_rename (id : NodeId) :
    isNamedByUser (m.rename ρ) id = isNamedByUser m id := by
  unfold isNamedByUser
  rw [singleUser?_recast]
  refine bind_congr fun user => ?_
  cases user with
  | none => rfl
  | some user =>
    refine node_bind_recast _ m fun n => ?_
    have hnames (id : NodeId) : ((m.rename ρ).node id >>= fun n => pure n.op.namesOperand) =
        m.node id >>= fun n => pure n.op.namesOperand := node_bind_recast _ m fun _ => rfl
    simp only [Node.op_rename, singleUser?_recast, hnames]

@[simp] theorem maySpill_rename (id : NodeId) (v : ValueId) :
    maySpill (m.rename ρ) id v = maySpill m id v := by
  refine node_bind_recast _ m fun n => ?_
  simp only [Node.op_rename, valueType_recast, isNamedByUser_rename]
  rfl

end Prep

namespace CostMemo

open NetPrep.Module

theorem operandsOf_rename (v : ValueId) : operandsOf (m.rename ρ) v = operandsOf m v := by
  refine bind_congr fun d => ?_
  cases d with
  | none => rfl
  | some id => exact node_bind_recast _ m fun _ => rfl

theorem settle_rename (fuel : Nat) (memo : CostMemo) (opened : IdMap Unit) (tasks : List Task) :
    settle (m.rename ρ) fuel memo opened tasks = settle m fuel memo opened tasks := by
  induction fuel generalizing memo opened tasks with
  | zero => cases tasks <;> rfl
  | succ fuel ih =>
    cases tasks with
    | nil => rfl
    | cons task tasks => simp only [settle, operandsOf_rename, ih]

theorem settleFuel_rename : settleFuel (m.rename ρ) = settleFuel m := by
  have hnodes (id : NodeId) : ((m.rename ρ).nodes[id.index]?).map (·.operands.length) =
      (m.nodes[id.index]?).map (·.operands.length) := by
    simp only [recast, Array.getElem?_map, Option.map_map]
    rfl
  simp only [settleFuel, hnodes]
  rfl

@[simp] theorem cost_rename (memo : CostMemo) (v : ValueId) :
    cost (m.rename ρ) memo v = cost m memo v := by
  simp only [cost, settle_rename, settleFuel_rename]

end CostMemo

end NetPrep
