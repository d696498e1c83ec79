import Mathlib
import NetPrep.Proofs.Limits
import NetPrep.Proofs.Ordering
import NetPrep.Proofs.Orderly

/-!
# Questions about an orderly module

Whatever preparation asks about nodes and values of an orderly module that are there has an answer,
unless room or fuel runs out: no identifier leads nowhere, and every operand and result that is looked
for is there.
-/

namespace NetPrep

open Prepare Prep

variable {m : Module} {names : NameTable} {id j : NodeId} {n : Node} {b : BlockId} {v : ValueId}
  {i : Nat} {β : Type}

/-! ## Looking things up -/

namespace Tame

theorem node {f : Node → Except Fault β} (hn : m.live? id = some n)
    (hf : ∀ nd, m.node? id = some nd → nd.core = n → Tame (f nd)) : Tame (m.node id >>= f) := by
  obtain ⟨nd, hnd, -, hcore⟩ := Module.exists_of_live? hn
  exact bind_eq (Module.node_eq_ok_iff.2 hnd) (hf nd hnd hcore)

theorem operand {f : ValueId → Except Fault β} (hn : m.live? id = some n)
    (hi : i < n.operands.length) (hf : ∀ v, m.Uses ⟨id, i⟩ v → Tame (f v)) :
    Tame (m.operand id i >>= f) := by
  obtain ⟨nd, hnd, he, rfl⟩ := Module.exists_of_live? hn
  exact bind_eq (Module.exists_operand hnd hi)
    (hf _ ⟨_, Module.live?_of_node? hnd he, List.getElem?_eq_getElem hi⟩)

theorem valueType {f : TypeId → Except Fault β} (hv : m.Usable v)
    (hf : ∀ t, m.type? v = some t → Tame (f t)) : Tame (m.valueType v >>= f) := by
  obtain ⟨t, ht⟩ := hv.exists_type
  exact bind_eq (valueType_eq_ok_iff.2 ht) (hf t ht)

theorem definingNode? {f : Option NodeId → Except Fault β} (hv : m.Usable v)
    (hnone : Tame (f none))
    (hsome : ∀ d nd i, m.def? v = some (.result d i) → m.live? d = some nd → Tame (f (some d))) :
    Tame (m.definingNode? v >>= f) := by
  obtain ⟨d, hd, hlive⟩ := hv
  cases d with
  | port i => exact bind_eq (Module.definingNode?_eq_none_iff.2 ⟨i, hd⟩) hnone
  | result d i =>
    obtain ⟨nd, hnd⟩ := hlive rfl
    exact bind_eq (Module.definingNode?_eq_some_iff.2 ⟨i, hd⟩) (hsome d nd i hd hnd)

theorem definingOp? {f : Option Op → Except Fault β} (hv : m.Usable v) (hf : ∀ op, Tame (f op)) :
    Tame (m.definingOp? v >>= f) := by
  unfold Module.definingOp?
  rw [bind_assoc]
  refine definingNode? hv (hf none) fun d nd _ _ hnd => ?_
  show Tame ((m.node d >>= fun n => Pure.pure (some n.op)) >>= f)
  rw [bind_assoc]
  exact node hnd fun n' _ _ => hf (some n'.op)

theorem parentNode? {f : Option NodeId → Except Fault β} (hs : Sound m) (hn : m.live? id = some n)
    (hnone : m.parentNode? id = .ok none → Tame (f none))
    (hsome : ∀ up nup, m.OwnedBy id up → m.live? up = some nup → Tame (f (some up))) :
    Tame (m.parentNode? id >>= f) := by
  obtain ⟨up, hup⟩ : ∃ up, m.parentNode? id = .ok up := by
    obtain ⟨nd, hnd, -, rfl⟩ := Module.exists_of_live? hn
    obtain ⟨blk, hblk⟩ := hs.exists_block hn
    refine exists_bind_ok ⟨nd, Module.node_eq_ok_iff.2 hnd⟩ fun nd' hnd' => ?_
    obtain rfl := Option.some.inj (hnd.symm.trans (Module.node_eq_ok_iff.1 hnd'))
    exact exists_bind_ok ⟨blk, Module.block_eq_ok_iff.2 hblk⟩ fun _ _ => ⟨_, rfl⟩
  refine bind_eq hup ?_
  cases up with
  | none => exact hnone hup
  | some up =>
    have ho := hs.ownedBy_of_parentNode? hn hup
    obtain ⟨nup, hnup⟩ := ho.live
    exact hsome up nup ho hnup

theorem block {f : Block → Except Fault β} (hs : Sound m) (hb : m.Placed b)
    (hf : ∀ blk, m.block? b = some blk → Tame (f blk)) : Tame (m.block b >>= f) := by
  obtain ⟨blk, hblk⟩ := hs.exists_block_of_placed hb
  exact bind_eq (Module.block_eq_ok_iff.2 hblk) (hf blk hblk)

end Tame

/-! ## Uses -/

namespace Sound

theorem exists_nodeUses (hs : Sound m) (hn : m.live? id = some n) :
    ∃ uses, m.nodeUses id = .ok uses ∧ ∀ u ∈ uses, ∃ v ∈ n.results, m.Uses u v := by
  obtain ⟨nd, hnd, -, rfl⟩ := Module.exists_of_live? hn
  obtain ⟨uses, huses⟩ := Module.exists_nodeUses hnd fun v hv =>
    hs.lt_of_result (Module.core_of_node? hnd) hv
  exact ⟨uses, huses, fun u hu => (hs.recorded.mem_nodeUses_iff hnd huses).1 hu⟩

/-- Whether a node is unused has an answer. -/
theorem exists_isUnused (hs : Sound m) (hn : m.live? id = some n) :
    ∃ unused, m.isUnused id = .ok unused ∧
      (unused = true ↔ ∀ u, ∀ v ∈ n.results, ¬ m.Uses u v) := by
  obtain ⟨nd, hnd, -, rfl⟩ := Module.exists_of_live? hn
  obtain ⟨uses, huses, -⟩ := hs.exists_nodeUses hn
  have hmem := fun {u : Use} => hs.toWellFormed.recorded.mem_nodeUses_iff hnd huses (u := u)
  refine ⟨uses.isEmpty, by rw [Module.isUnused, huses]; rfl, ?_⟩
  rw [List.isEmpty_iff, List.eq_nil_iff_forall_not_mem]
  constructor
  · exact fun h u v hv hu => h u (hmem.2 ⟨v, hv, hu⟩)
  · intro h u hu
    obtain ⟨v, hv, hu⟩ := hmem.1 hu
    exact h u v hv hu

theorem isUnused_tame (hs : Sound m) (hn : m.live? id = some n) : Tame (m.isUnused id) := by
  obtain ⟨unused, hunused, -⟩ := hs.exists_isUnused hn
  exact hunused ▸ .ok unused

/-- The user of a node that is used once. -/
theorem singleUser?_tame {f : Option NodeId → Except Fault β} (hs : Sound m)
    (hn : m.live? id = some n) (hnone : Tame (f none))
    (hsome : ∀ user nu, m.live? user = some nu → Tame (f (some user))) :
    Tame (m.singleUser? id >>= f) := by
  obtain ⟨uses, huses, hall⟩ := hs.exists_nodeUses hn
  unfold Module.singleUser?
  rw [huses, ok_bind]
  cases uses with
  | nil => exact hnone
  | cons u us =>
    cases us with
    | nil =>
      obtain ⟨v, -, nu, hnu, -⟩ := hall u (by simp)
      exact hsome u.node nu hnu
    | cons u' us => exact hnone

/-! ## Nesting -/

theorem inProcedural_tame {f : Bool → Except Fault β} (hs : Sound m) (hn : m.live? id = some n)
    (hf : ∀ r, Tame (f r)) : Tame (m.inProcedural id >>= f) := by
  unfold Module.inProcedural
  simp only [bind_assoc]
  have hplaced := hs.placed hn
  refine .node hn fun nd _ hcore => ?_
  subst hcore
  exact .block hs hplaced fun blk _ => hf _

theorem outermostWithin_tame (hs : Sound m) {fuel : Nat} (hn : m.live? j = some n) :
    Tame (m.outermostWithin fuel j) := by
  induction fuel generalizing j n with
  | zero => exact .outOfFuel
  | succ fuel ih =>
    refine hs.inProcedural_tame hn fun r => ?_
    cases r with
    | false => exact .ok j
    | true => exact .parentNode? hs hn (fun _ => .ok j) fun up nup _ hnup => ih hnup

theorem enclosingProcess?_tame (hs : Sound m) (hn : m.live? id = some n) :
    Tame (m.enclosingProcess? id) :=
  .parentNode? hs hn (fun _ => .ok none) fun _ _ _ hnup =>
    (hs.outermostWithin_tame hnup).bind fun _ _ => .ok _

theorem ancestorWithin_tame (hs : Sound m) {fuel : Nat} (hn : m.live? j = some n) :
    Tame (m.ancestorWithin b fuel j) := by
  induction fuel generalizing j n with
  | zero => exact .outOfFuel
  | succ fuel ih =>
    refine .node hn fun nd _ _ => ?_
    split
    · exact .ok _
    · exact .parentNode? hs hn (fun _ => .ok none) fun up nup _ hnup => ih hnup

theorem scopeWithin_tame (hs : Sound m) {fuel : Nat} (hn : m.live? j = some n) :
    Tame (m.scopeWithin fuel j) := by
  have hparent : Tame (do return (← m.node j).parent : Except Fault BlockId) :=
    .node hn fun nd _ _ => .ok _
  induction fuel generalizing j n with
  | zero => exact .outOfFuel
  | succ fuel ih =>
    refine .parentNode? hs hn (fun _ => hparent) fun up nup _ hnup => .node hnup fun nd _ _ => ?_
    split
    · exact ih hnup (.node hnup fun nd _ _ => .ok _)
    · exact hparent

/-- The nodes of a block of the tree are listed. -/
theorem blockNodes_eq (hs : Sound m) (hb : m.Placed b) : m.blockNodes b = .ok (m.nodesOf b) := by
  obtain ⟨blk, hblk⟩ := hs.exists_block_of_placed hb
  exact hs.linked.blockNodes_eq hblk

/-! ## Order -/

theorem anyUserSeen_tame (hs : Sound m) {seen : IdMap Unit} {users : List NodeId}
    (husers : ∀ j ∈ users, ∃ n, m.live? j = some n) : Tame (anyUserSeen m b seen users) := by
  induction users with
  | nil => exact .ok false
  | cons user users ih =>
    have hrest := ih fun j hj => husers j (List.mem_cons_of_mem _ hj)
    obtain ⟨nu, hnu⟩ := husers user (by simp)
    refine (hs.ancestorWithin_tame hnu).bind fun a _ => ?_
    cases a with
    | none => exact hrest
    | some a =>
      show Tame (if seen.contains a.index then _ else _)
      split
      · exact .ok true
      · exact hrest

theorem usedBefore_tame (hs : Sound m) {seen : IdMap Unit} {ids : List NodeId}
    (hids : ∀ j ∈ ids, ∃ n, m.live? j = some n) : Tame (usedBefore m b seen ids) := by
  induction ids generalizing seen with
  | nil => exact .ok []
  | cons id ids ih =>
    obtain ⟨n, hn⟩ := hids id (by simp)
    obtain ⟨uses, huses, hall⟩ := hs.exists_nodeUses hn
    refine .bind_eq (a := uses.map (·.node)) (by rw [Module.users, huses, ok_bind]; rfl) ?_
    refine (hs.anyUserSeen_tame fun j hj => ?_).bind fun early _ =>
      (ih fun j hj => hids j (List.mem_cons_of_mem _ hj)).bind fun rest _ => .ok _
    obtain ⟨u, hu, rfl⟩ := List.mem_map.1 hj
    obtain ⟨v, -, nu, hnu, -⟩ := hall u hu
    exact ⟨nu, hnu⟩

theorem live_of_mem (hs : Sound m) (hid : id ∈ m.nodesOf b) : ∃ n, m.live? id = some n := by
  obtain ⟨n, hn, -⟩ := hs.mem_nodesOf_iff.1 hid
  exact ⟨n, hn⟩

theorem outOfOrder_tame (hs : Sound m) (hb : m.Placed b) : Tame (outOfOrder m b) :=
  .bind_eq (hs.blockNodes_eq hb) (hs.usedBefore_tame fun _ hj => hs.live_of_mem hj)

end Sound

/-! ## Types -/

namespace TypeTable

variable {t : TypeTable} {type : TypeId}

theorem storedType?_tame (h : ∃ ty, t.entry? type = some ty) : Tame (t.storedType? type) := by
  obtain ⟨ty, hty⟩ := h
  refine .bind_eq (get_eq_ok_iff.2 hty) ?_
  cases ty <;> exact .ok _

theorem isStorage_tame (h : ∃ ty, t.entry? type = some ty) : Tame (t.isStorage type) :=
  (storedType?_tame h).bind fun _ _ => .ok _

theorem sumWidths_tame {width : TypeId → Except Fault (Option Nat)} {soFar : Nat}
    {fields : List (Name × TypeId)} (h : ∀ part ∈ fields.map (·.2), Tame (width part)) :
    Tame (sumWidths width soFar fields) := by
  induction fields generalizing soFar with
  | nil => exact .ok _
  | cons field fields ih =>
    refine (h field.2 (by simp)).bind fun w _ => ?_
    cases w with
    | none => exact .ok none
    | some w =>
      exact (Tame.below _ _).bind fun soFar _ => ih fun part hpart =>
        h part (List.mem_cons_of_mem _ hpart)

/-- The width of a type is looked for among its parts, which are in the table. -/
theorem widthWithin_tame (ht : t.Grounded) {fuel : Nat} (h : ∃ ty, t.entry? type = some ty) :
    Tame (t.widthWithin fuel type) := by
  induction fuel generalizing type with
  | zero => exact .outOfFuel
  | succ fuel ih =>
    obtain ⟨ty, hty⟩ := h
    have hparts : ∀ part ∈ ty.parts, Tame (t.widthWithin fuel part) := fun part hpart =>
      ih (ht.exists_part hty hpart)
    refine .bind_eq (get_eq_ok_iff.2 hty) ?_
    cases ty with
    | int width => exact .ok _
    | storage element => exact .ok _
    | array element length =>
      refine (hparts element (by simp [HwType.parts])).bind fun w _ => ?_
      cases w with
      | none => exact .ok none
      | some w => exact (Tame.below _ _).bind fun _ _ => .ok _
    | record fields => exact sumWidths_tame hparts

end TypeTable

namespace Module.Orderly

variable (h : m.Orderly names)
include h

theorem bitWidth_tame {type : TypeId} (htype : m.type? v = some type) :
    Tame (m.types.bitWidth type) := TypeTable.widthWithin_tame h.grounded (h.entry htype)

/-- What is looked for in a node is there. -/
theorem exists_shape (hn : m.live? id = some n) :
    ∃ os rs, List.Forall₂ (fun v t => m.type? v = some t) n.operands os ∧
      List.Forall₂ (fun v t => m.type? v = some t) n.results rs ∧ m.types.Shapes n.op os rs := by
  obtain ⟨os, rs, hos, hrs, hshape⟩ := h.shaped hn
  exact ⟨os, rs, forall₂_of_mapM_type? hos, forall₂_of_mapM_type? hrs, hshape⟩

theorem operands_pos {op : Op} (hn : m.live? id = some n) (hop : n.op = op)
    (hne : ∀ os rs, m.types.Shapes op os rs → os ≠ []) : 0 < n.operands.length := by
  obtain ⟨os, rs, hos, -, hshape⟩ := h.exists_shape hn
  rw [hos.length_eq]
  exact List.length_pos_of_ne_nil (hne os rs (hop ▸ hshape))

/-- An assignment connects storage to a value of the type that it holds. -/
theorem exists_assign (hn : m.live? id = some n) (hop : n.op = .assign) :
    ∃ target source stype type, n.operands = [target, source] ∧ m.type? target = some stype ∧
      m.type? source = some type ∧ m.types.get stype = .ok (.storage type) := by
  obtain ⟨os, rs, hos, -, hshape⟩ := h.exists_shape hn
  rw [hop] at hshape
  obtain ⟨stype, type, rfl, helement⟩ := hshape
  obtain ⟨target, sources, htarget, hsources, hops⟩ := List.forall₂_cons_right_iff.1 hos
  obtain ⟨source, rest, hsource, hrest, rfl⟩ := List.forall₂_cons_right_iff.1 hsources
  obtain rfl := List.forall₂_nil_right_iff.1 hrest
  exact ⟨target, source, stype, type, hops, htarget, hsource,
    TypeTable.elementOf?_eq_some_iff.1 helement⟩

/-! ## Classes of nodes -/

theorem isSimpleReadOrPort_tame (hv : m.Usable v) : Tame (m.isSimpleReadOrPort v) := by
  refine .definingNode? hv (.ok true) fun d nd _ _ hnd => .node hnd fun nd' _ hcore => ?_
  split
  · next hop =>
    have hop' : nd.op = .read := (congrArg Node.op hcore).symm.trans hop
    have hpos := h.operands_pos hnd hop' fun _ _ hshape => hshape
    refine .operand hnd hpos fun w hw => .definingOp? (h.usable hw) fun op => ?_
    cases op <;> exact .ok _
  · exact .ok false

theorem isDuplicatable_tame {nd : Node} (hn : m.live? id = some n) (hcore : nd.core = n) :
    Tame (Oracle.isDuplicatable m nd id) := by
  have hop : nd.op = n.op := by
    subst hcore
    rfl
  unfold Oracle.isDuplicatable
  split
  · exact .ok _
  · split
    · exact .ok true
    · exact .ok true
    · next hget =>
      obtain ⟨os, rs, hos, -, hshape⟩ := h.exists_shape hn
      rw [← hop, hget] at hshape
      have hlen : 1 < n.operands.length := hos.length_eq ▸ hshape
      refine .operand hn hlen fun index hindex => .definingOp? (h.usable hindex) fun op => ?_
      split
      · exact .ok true
      · exact .ok true
      · exact h.isSimpleReadOrPort_tame (h.usable hindex)
      · exact .ok false
    · exact .ok false

omit h in
theorem canSelectFrom_tame (hv : m.Usable v) : Tame (Oracle.canSelectFrom m v) := by
  refine .definingOp? hv fun op => ?_
  cases op <;> exact .ok _

theorem useForbidsInlining_tame {options : Options} {u : Use} (hu : m.Uses u v) :
    Tame (Oracle.useForbidsInlining m options u) := by
  have hu' := hu
  obtain ⟨nu, hnu, hget⟩ := hu'
  refine .node hnu fun nd _ _ => ?_
  have hend : Tame (pure (!options.allowExprInEventControl && nd.op.isClocked) : Except Fault Bool) :=
    .ok _
  show Tame (if nd.op.isSelection && u.operand == 0 then _ else _)
  split
  · next hop =>
    have hzero : u.operand = 0 := beq_iff_eq.1 (Bool.and_eq_true_iff.1 hop).2
    obtain ⟨hlt, -⟩ := List.getElem?_eq_some_iff.1 hget
    refine .operand hnu (hzero ▸ hlt) fun w hw => (canSelectFrom_tame (h.usable hw)).bind
      fun b _ => ?_
    cases b with
    | false => exact .ok true
    | true => exact hend
  · exact hend

theorem anyForbids_tame {options : Options} {uses : List Use}
    (huses : ∀ u ∈ uses, ∃ v, m.Uses u v) : Tame (Oracle.anyForbids m options uses) := by
  induction uses with
  | nil => exact .ok false
  | cons u us ih =>
    obtain ⟨v, hu⟩ := huses u (by simp)
    refine (h.useForbidsInlining_tame hu).bind fun b _ => ?_
    cases b with
    | true => exact .ok true
    | false => exact ih fun w hw => huses w (List.mem_cons_of_mem _ hw)

theorem cannotInline_tame {options : Options} {nd : Node} {uses : List Use}
    (huses : ∀ u ∈ uses, ∃ v, m.Uses u v) : Tame (Oracle.cannotInline m nd uses options) := by
  have hany : Tame (Oracle.anyForbids m options uses) := h.anyForbids_tame huses
  unfold Oracle.cannotInline
  split
  · exact .ok true
  · split
    · exact .ok true
    · exact hany
  · exact hany

theorem inlineable_tame {options : Options} (hn : m.live? id = some n) :
    Tame (Oracle.inlineable m id options) := by
  refine .node hn fun nd _ hcore => ?_
  split
  · exact .ok true
  · obtain ⟨uses, huses, hall⟩ := h.exists_nodeUses hn
    have hall' : ∀ u ∈ uses, ∃ v, m.Uses u v := fun u hu => by
      obtain ⟨v, -, huse⟩ := hall u hu
      exact ⟨v, huse⟩
    have hcannot : Tame (do return !(← Oracle.cannotInline m nd uses options) : Except Fault Bool) :=
      (h.cannotInline_tame hall').bind fun _ _ => .ok _
    refine .bind_eq huses ?_
    split
    · exact .ok true
    · next u =>
      obtain ⟨v, nu, hnu, -⟩ := hall' u (by simp)
      refine .node hnu fun _ _ _ => ?_
      split
      · exact .ok true
      · split
        · exact .ok false
        · exact hcannot
    · split
      · exact .ok false
      · refine (h.isDuplicatable_tame hn hcore).bind fun b _ => ?_
        cases b with
        | false => exact .ok false
        | true => exact hcannot

/-! ## What the rules ask -/

theorem isCaptured_tame (hn : m.live? id = some n) : Tame (isCaptured m id) := by
  refine h.singleUser?_tame hn (.ok false) fun user nu hnu => .node hnu fun nd _ hcore => ?_
  split
  · next hop =>
    have hop' : nu.op = .blockingAssign := (congrArg Node.op hcore).symm.trans hop
    have hpos := h.operands_pos hnu hop' fun _ _ hshape => hshape
    refine .operand hnu hpos fun w hw => .definingOp? (h.usable hw) fun op => ?_
    split <;> exact .ok _
  · exact .ok false

theorem dealsInStorage_tame {nd : Node} (hn : m.live? id = some n) (hcore : nd.core = n) :
    Tame (dealsInStorage m nd) := by
  subst hcore
  unfold dealsInStorage
  split
  · exact .ok true
  · split
    · next v vs hv =>
      have hmem : v ∈ nd.core.results := by simp [Node.core, hv]
      exact .valueType (h.usable_of_mem_results hn hmem) fun t ht =>
        TypeTable.isStorage_tame (h.entry ht)
    · exact .ok false

theorem reachOf_tame {vs : List ValueId} (hvs : ∀ v ∈ vs, m.Usable v) : Tame (reachOf m b vs) := by
  induction vs with
  | nil => exact .ok _
  | cons v vs ih =>
    have hrest := ih fun w hw => hvs w (List.mem_cons_of_mem _ hw)
    refine .definingNode? (hvs v (by simp)) hrest fun d nd _ _ hnd =>
      h.inProcedural_tame hnd fun r => ?_
    cases r with
    | false => exact hrest
    | true =>
      refine .node hnd fun nd' _ _ => ?_
      split
      · exact .ok _
      · refine hrest.bind fun reach _ => ?_
        cases reach <;> exact .ok _

theorem splitAssignment_tame {assignment : Option NodeId} {us : List Use}
    (hus : ∀ u ∈ us, ∃ v, m.Uses u v) : Tame (splitAssignment m assignment us) := by
  induction us generalizing assignment with
  | nil => exact .ok _
  | cons u us ih =>
    have hrest : ∀ a, Tame (splitAssignment m a us) := fun _ => ih fun w hw =>
      hus w (List.mem_cons_of_mem _ hw)
    obtain ⟨v, nu, hnu, -⟩ := hus u (by simp)
    refine .node hnu fun nd _ _ => ?_
    split
    · split
      · exact .ok none
      · refine .parentNode? h.toSound hnu (fun _ => ?_) fun _ _ _ _ => .ok none
        show Tame (if u.operand ≠ 1 then _ else _)
        split
        · exact .ok none
        · exact hrest _
    · refine (hrest assignment).bind fun r _ => ?_
      cases r <;> exact .ok _

theorem negativeConstant?_tame (hn : m.live? id = some n) : Tame (negativeConstant? m id) := by
  refine .node hn fun nd _ hcore => ?_
  subst hcore
  split
  · next lhs rhs hop hops =>
    have hmem : rhs ∈ nd.core.operands := by simp [Node.core, hops]
    refine .definingNode? (h.usable_operand hn hmem) (.ok none) fun d nd _ _ hnd =>
      .node hnd fun nd' _ _ => ?_
    split
    · split <;> exact .ok _
    · exact .ok none
  · exact .ok none

theorem isMovableDeclaration_tame (hn : m.live? id = some n) : Tame (isMovableDeclaration m id) := by
  refine .node hn fun nd _ hcore => ?_
  subst hcore
  split
  · next v hops hv =>
    have hmem : v ∈ nd.core.results := by simp [Node.core, hv]
    exact .valueType (h.usable_of_mem_results hn hmem) fun t ht =>
      TypeTable.isStorage_tame (h.entry ht)
  · exact .ok false

theorem readDeclaration?_tame (hn : m.live? id = some n) : Tame (readDeclaration? m id) := by
  refine .node hn fun nd _ hcore => ?_
  split
  · next hop =>
    have hop' : n.op = .read := (congrArg Node.op hcore).symm.trans hop
    have hpos := h.operands_pos hn hop' fun _ _ hshape => hshape
    refine .operand hn hpos fun w hw => .definingNode? (h.usable hw) (.ok none) fun d nd _ _ hnd =>
      (h.isMovableDeclaration_tame hnd).bind fun r _ => ?_
    cases r <;> exact .ok _
  · exact .ok none

end Module.Orderly

/-! ## The walk over a block -/

namespace Sound

theorem isIn_tame (hid : id.index < m.nodes.size) : Tame (isIn m b id) := by
  obtain ⟨nd, hnd⟩ := Module.exists_node?_iff.2 hid
  exact .bind_eq (Module.node_eq_ok_iff.2 hnd) (.ok _)

theorem successor?_tame (hs : Sound m) {prev next : Option NodeId} (hb : m.Placed b)
    (hid : id.index < m.nodes.size) (hprev : ∀ p, prev = some p → p.index < m.nodes.size)
    (hnext : ∀ x, next = some x → x.index < m.nodes.size) : Tame (successor? m b id prev next) := by
  have hfirst : Tame (do return (← m.block b).first : Except Fault (Option NodeId)) :=
    .block hs hb fun _ _ => .ok _
  have hfollower : ∀ {j : NodeId}, j.index < m.nodes.size →
      Tame (do return (← m.node j).next : Except Fault (Option NodeId)) := fun hj => by
    obtain ⟨nd, hnd⟩ := Module.exists_node?_iff.2 hj
    exact .bind_eq (Module.node_eq_ok_iff.2 hnd) (.ok _)
  have hsome : Tame (isSomeIn m b next) := by
    cases next with
    | none => exact .ok false
    | some x => exact isIn_tame (hnext x rfl)
  refine hsome.bind fun r _ => ?_
  cases r with
  | true => exact .ok next
  | false =>
    refine (isIn_tame hid).bind fun r _ => ?_
    cases r with
    | true => exact hfollower hid
    | false =>
      cases prev with
      | none => exact hfirst
      | some p =>
        refine (isIn_tame (hprev p rfl)).bind fun r _ => ?_
        cases r with
        | true => exact hfollower (hprev p rfl)
        | false => exact hfirst

end Sound

end NetPrep
