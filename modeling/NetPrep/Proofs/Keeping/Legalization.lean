import Mathlib
import NetPrep.Proofs.Keeping.Expression
import NetPrep.Proofs.Keeping.Hoist
import NetPrep.Proofs.Keeping.InstancePorts
import NetPrep.Proofs.Keeping.Order

/-!
# Legalization misuses nothing

One node after another is handled without misuse, and hence a block, and the module: legalization
stops with an orderly module, or for want of room or of steps.
-/

namespace NetPrep

open Prepare Prep

/-- A node keeps its regions through edits. -/
theorem Module.Edits.exists_regions {m m' : Module} {id : NodeId} {n : Node} (h : m.Edits m')
    (hn : m.live? id = some n) : ∃ nd, m'.node? id = some nd ∧ nd.regions = n.regions := by
  obtain ⟨n', hn', -, -, hr, -⟩ := h.kept.node (Module.core_of_live? hn)
  obtain ⟨nd, hnd, rfl⟩ := Option.map_eq_some_iff.1 hn'
  exact ⟨nd, hnd, hr⟩

namespace Prep

variable {env : Env} {s s' : State} {id process : NodeId} {n : Node} {block : BlockId}
  {event : ValueId}

/-! ## Events -/

theorem routeEvent_keeps (ho : env.oracle = .systemVerilog) (hs : s.Orderly)
    (hp : s.module.live? process = some n) (hevent : s.module.Usable event) :
    (routeEvent process event).Keeps env s := by
  obtain ⟨nd, hnd, -, rfl⟩ := Module.exists_of_live? hp
  obtain ⟨type, htype⟩ := hevent.exists_type
  refine .ask (hs.isSimpleReadOrPort_tame hevent) fun simple _ => ?_
  split
  · exact .pure hs ()
  refine .definingOp? hevent fun op => ?_
  split
  · exact .pure hs ()
  refine .ask (.ok _) fun body hbody => ?_
  cases hbody
  refine .node hnd (.valueType htype (.declareFor (p := .front s.module.body) hs rfl .body rfl htype
    (by simp) fun decl storage stype s₁ hget hc₁ hl₁ => ?_))
  have hs₁ := hl₁.orderly
  have hstorage : s₁.module.Usable storage := hc₁.usable_result (i := 0) rfl
  have hp₁ := hc₁.live hp
  refine .createRead hs₁ (hs₁.sound.in_before hp₁) (hs₁.placed hp₁) hstorage (hc₁.kept.type? htype)
    fun read value s₂ hc₂ hl₂ => ?_
  refine .replaceUses hl₂.orderly (hc₂.usable_result (i := 0) rfl)
    (hc₂.kept.type? (hc₁.kept.type? htype)) (hc₂.type?_result (i := 0) rfl) fun s₃ hr hl₃ => ?_
  have hs₃ := hl₃.orderly
  have hp₃ := hr.live (hc₂.live hp₁)
  have hkept := hc₂.kept.trans hr.kept
  refine .connect hs₃ (hs₃.sound.in_before hp₃) (hs₃.placed hp₃) (Or.inl rfl)
    (hr.usable (hc₂.usable hstorage)) (hr.usable (hc₂.usable (hc₁.usable hevent)))
    (hkept.type? (hc₁.type?_result (i := 0) rfl)) (hkept.types hget)
    (hkept.type? (hc₁.kept.type? htype)) fun conn s₄ hc₄ hl₄ => ?_
  have hin : IsInline s₄.module read :=
    ⟨_, Module.core_of_live? (hc₄.live (hr.live hc₂.live?_self)), rfl⟩
  exact .bind (inlineEverywhere_keeps ho hl₄.orderly hin) fun _ _ _ hl => .counts hl.orderly _

theorem routeEvents_keeps (ho : env.oracle = .systemVerilog) {events : List ValueId}
    (hs : s.Orderly) (hp : s.module.live? process = some n)
    (hevents : ∀ v ∈ events, s.module.Usable v) :
    (events.forM (routeEvent process)).Keeps env s := by
  refine .forM (P := fun t => (∃ n, t.module.live? process = some n) ∧
    ∀ v ∈ events, t.module.Usable v) hs ⟨⟨n, hp⟩, hevents⟩ fun v hv t ht ⟨⟨n, hn⟩, hall⟩ => ?_
  refine ⟨routeEvent_keeps ho ht hn (hall v hv), fun t' h hl => ?_⟩
  have hroute := routeEvent_runs ho ht.toSound hn (hall v hv) h
  obtain ⟨n', hn', -⟩ := hroute.live hn
  exact ⟨⟨n', hn'⟩, fun w hw => hroute.usable (hall w hw)⟩

/-! ## One node -/

theorem isExpression_keeps (ho : env.oracle = .systemVerilog) {β : Type} {f : Bool → Prep β}
    (hn : s.module.live? id = some n) (hf : (f n.op.isExpression).Keeps env s) :
    (isExpression id >>= f).Keeps env s := by
  obtain ⟨nd, hnd, -, rfl⟩ := Module.exists_of_live? hn
  refine .consult (.tell ?_ hf)
  rw [ho]
  exact Oracle.isExpression_eq_ok_iff.2 ⟨nd, hnd, rfl⟩

theorem needsTemporary_keeps (ho : env.oracle = .systemVerilog) {procedural : Bool} (hs : s.Orderly)
    (hn : s.module.live? id = some n) (hinline : n.op.isAlwaysInline = false) :
    (needsTemporary procedural id).Keeps env s := by
  refine isExpression_keeps ho hn ?_
  split
  · exact .pure hs false
  refine .consult (.ask ?_ fun inlineable _ => ?_)
  · rw [ho]
    exact hs.inlineable_tame hn
  split
  · exact .pure hs false
  split
  · exact .pure hs true
  · exact .bind (reuseAssigned_keeps ho hs hn hinline) fun _ _ _ hl => .pure hl.orderly _

/-- A node that is in a graph block gets a temporary. -/
theorem spillOutside_keeps {answer : Bool} (hs : s.Orderly) (hn : s.module.live? id = some n) :
    (do
      if !(← query (·.inProcedural id)) then spill id false
      return answer : Prep Bool).Keeps env s := by
  refine .ask (.last (hs.toSound.inProcedural_tame hn fun r => .ok r)) fun inside _ => ?_
  split
  · exact .bind (spill_keeps hs hn) fun _ _ _ hl => .pure hl.orderly _
  · exact .pure hs _

theorem spillOrHoist_keeps (ho : env.oracle = .systemVerilog) {procedural : Bool} (hs : s.Orderly)
    (hn : s.module.live? id = some n) (hreg : n.regions = [])
    (hk : procedural = true → s.module.kind? n.parent = some .procedural) :
    (spillOrHoist procedural id).Keeps env s := by
  refine .options ?_
  split
  · cases procedural with
    | false => exact spillOutside_keeps hs hn
    | true =>
      refine .bind (hoist_keeps hs ho hn hreg) fun outside s₁ hrun hl => ?_
      have hn₁ : ∃ n₁, s₁.module.live? id = some n₁ := by
        rcases hoist_runs ho hs.toSound hn hreg (hk rfl) hrun with
          ⟨-, rfl, -⟩ | ⟨-, -, -, -, hm, -⟩
        · exact ⟨n, hn⟩
        · exact ⟨_, hm.live hn⟩
      obtain ⟨n₁, hn₁⟩ := hn₁
      cases outside with
      | true => exact spillOutside_keeps hl.orderly hn₁
      | false => exact .pure hl.orderly false
  · exact .bind (spill_keeps hs hn) fun _ _ _ hl => .pure hl.orderly false

theorem leaveProcedure_keeps (ho : env.oracle = .systemVerilog) (hs : s.Orderly)
    (hn : s.module.live? id = some n) (hreg : n.regions = []) :
    (leaveProcedure id).Keeps env s := by
  obtain ⟨nd, hnd, -, rfl⟩ := Module.exists_of_live? hn
  refine .isMemoryEffectFree ho hnd fun free => ?_
  split
  · exact hoist_keeps hs ho hn hreg
  · exact captureSideEffect_keeps hs hn

/-- Replacing an expression by a printable form. -/
theorem rewrite_keeps (ho : env.oracle = .systemVerilog) {procedural : Bool} (hs : s.Orderly)
    (hn : s.module.live? id = some n) (hinline : n.op.isAlwaysInline = false) :
    (do
      if ← isBalanceable id then return .ofCreated (← balance id)
      match ← query (negativeConstant? · id) with
      | some (constant, value) => return .rewind (← subtractInstead id constant value)
      | none =>
        if (← node id).op = .structExplode then return .ofCreated (← explode id)
        if !procedural then
          if ← isExpression id then
            let _ ← reuseAssigned id
        return .next : Prep Flow).Keeps env s := by
  refine .bind (isBalanceable_keeps ho hs hn) fun balanceable s₁ hb hl₁ => ?_
  obtain ⟨rfl, hbal⟩ := isBalanceable_runs ho hs.toSound hn hb
  split
  · next hb =>
    obtain ⟨hop, hlen, hres⟩ := hbal.1 hb
    obtain ⟨old, hres⟩ := List.length_eq_one_iff.1 hres
    exact .bind (balance_keeps ho hs hn hres hop (Nat.lt_of_succ_lt hlen))
      fun _ _ _ hl => .pure hl.orderly _
  refine .ask (hs.negativeConstant?_tame hn) fun constant hconstant => ?_
  cases constant with
  | some p =>
    exact .bind (subtractInstead_keeps ho hs hn hconstant) fun _ _ _ hl => .pure hl.orderly _
  | none =>
    obtain ⟨nd, hnd, -, rfl⟩ := Module.exists_of_live? hn
    refine .node hnd ?_
    split
    · next hop => exact .bind (explode_keeps ho hs hn hop) fun _ _ _ hl => .pure hl.orderly _
    split
    · refine isExpression_keeps ho hn ?_
      split
      · exact .bind (reuseAssigned_keeps ho hs hn hinline) fun _ _ _ hl => .pure hl.orderly _
      · exact .pure hs _
    · exact .pure hs _

theorem legalizeExpression_keeps (ho : env.oracle = .systemVerilog) {procedural : Bool}
    (hs : s.Orderly) (hn : s.module.live? id = some n) (hinline : n.op.isAlwaysInline = false)
    (hk : procedural = true ↔ s.module.kind? n.parent = some .procedural)
    (hk' : procedural = false → s.module.kind? n.parent = some .graph)
    (hstays : n.op.isExpression = true → Module.Stays env.options s.module id n) :
    (legalizeExpression procedural id).Keeps env s := by
  refine .bind (needsTemporary_keeps ho hs hn hinline) fun needs s₁ hneeds hl₁ => ?_
  rcases needsTemporary_runs ho hs.toSound hn hinline hk' hneeds with ⟨rfl, hexpr⟩ | ⟨rfl, -, hst⟩
  · cases needs with
    | true =>
      have hop := hexpr rfl
      have hreg := hs.regions_eq_nil hn (Op.regionKinds_of_isExpression hop)
      refine .bind (spillOrHoist_keeps ho hs hn hreg hk.1) fun settled s₂ hsettled hl₂ => ?_
      cases settled with
      | true => exact .pure hl₂.orderly Flow.next
      | false =>
        obtain ⟨hr, -⟩ | ⟨-, hst, -⟩ :=
          spillOrHoist_runs ho hs.toSound hn hop hinline hk (hstays hop) hsettled
        · cases hr
        · obtain ⟨n₂, hn₂, hop₂, -⟩ := hst.live hn hinline
          exact rewrite_keeps ho hl₂.orderly hn₂ (hop₂ ▸ hinline)
    | false => exact rewrite_keeps ho hs hn hinline
  · obtain ⟨n₁, hn₁, hop₁, -⟩ := hst.live hn hinline
    exact rewrite_keeps ho hl₁.orderly hn₁ (hop₁ ▸ hinline)

theorem legalizeInline_keeps (ho : env.oracle = .systemVerilog) {visited : IdMap Unit}
    (hs : s.Orderly) (hn : s.module.live? id = some n) (hinline : n.op.isAlwaysInline = true) :
    (legalizeInline id visited).Keeps env s := by
  refine .ask (hs.toSound.isUnused_tame hn) fun unused hunused => ?_
  split
  · next hu =>
    obtain rfl : unused = true := hu
    have hkinds := Op.regionKinds_of_isAlwaysInline hinline
    exact .eraseNode hs hn (hs.regions_eq_nil hn hkinds)
      (fun v hv u => hs.unused_of_isUnused (Module.core_of_live? hn) hunused hv)
      fun _ _ hl => .pure hl.orderly visited
  split
  · exact .pure hs visited
  · exact .bind (inlineEverywhere_keeps ho hs ⟨n, Module.core_of_live? hn, hinline⟩)
      fun _ _ _ hl => .pure hl.orderly _

theorem legalizeOperation_keeps (ho : env.oracle = .systemVerilog) {procedural : Bool}
    (hs : s.Orderly) (hn : s.module.live? id = some n) :
    (legalizeOperation procedural id).Keeps env s := by
  obtain ⟨nd, hnd, -, rfl⟩ := Module.exists_of_live? hn
  have hevents : (if env.options.allowExprInEventControl = true then pure false else do
      nd.operands.forM (routeEvent id)
      pure true : Prep Bool).Keeps env s := by
    split
    · exact .pure hs false
    · exact .bind (routeEvents_keeps ho hs hn fun v hv => hs.usable_operand hn hv)
        fun _ _ _ hl => .pure hl.orderly true
  refine .node hnd (.options ?_)
  split
  · exact .moduleName (.fail hs _)
  · next hop =>
    have hinst : nd.core.op.isInstance = true := by
      rw [show nd.core.op = nd.op from rfl, hop]
      rfl
    refine .bind (anchorInstanceOutputs_keeps ho hs hn hinst) fun _ s₁ h₁ hl₁ => ?_
    split
    · obtain ⟨n₁, hn₁, -⟩ := (anchorInstanceOutputs_runs ho hs.toSound hn hinst h₁).live_inst hn hinst
      exact .bind (anchorInstanceInputs_keeps hl₁.orderly hn₁) fun _ _ _ hl => .pure hl.orderly false
    · exact .pure hl₁.orderly false
  · next hop =>
    split
    · refine .enclosingProcess hs hn fun process np _ hnp hne => ?_
      have hkinds : nd.core.op.regionKinds = [] := by
        rw [show nd.core.op = nd.op from rfl, hop]
        rfl
      exact moveBefore_keeps hs hn (hs.regions_eq_nil hn hkinds) hnp hne
        fun _ hs => .count hs fun hs => .pure hs true
    · exact .pure hs false
  · exact hevents
  · exact hevents
  · exact .pure hs false

/-- A node that stays in its block is handled as an expression, or as one that is printed at its
uses. -/
theorem legalizeInBlock_keeps (ho : env.oracle = .systemVerilog) {procedural : Bool}
    {visited : IdMap Unit} (hs : s.Orderly) (hn : s.module.live? id = some n)
    (hk : procedural = true ↔ s.module.kind? n.parent = some .procedural)
    (hk' : procedural = false → s.module.kind? n.parent = some .graph)
    (hstays : n.op.isExpression = true → Module.Stays env.options s.module id n) :
    (do
      if ← isAlwaysInline id then return (.next, ← legalizeInline id visited)
      return (← legalizeExpression procedural id, visited) :
        Prep (Flow × IdMap Unit)).Keeps env s := by
  obtain ⟨nd, hnd, -, rfl⟩ := Module.exists_of_live? hn
  refine .isAlwaysInline ho hnd ?_
  split
  · next hinline =>
    exact .bind (legalizeInline_keeps ho hs hn hinline) fun _ _ _ hl => .pure hl.orderly _
  · next hinline =>
    have hinline' : nd.core.op.isAlwaysInline = false := eq_false_of_ne_true hinline
    exact .bind (legalizeExpression_keeps ho hs hn hinline' hk hk' hstays)
      fun _ _ _ hl => .pure hl.orderly _

/-- A node of a block is handled without misuse. -/
theorem legalizeNode_keeps (ho : env.oracle = .systemVerilog) {visited : IdMap Unit}
    (hs : s.Orderly) (hn : s.module.live? id = some n) (hp : n.parent = block) :
    (legalizeNode block id visited).Keeps env s := by
  subst hp
  refine .block hs (hs.placed hn) fun blk hblk => ?_
  have hk : blk.isProcedural = true ↔ s.module.kind? n.parent = some .procedural :=
    block_isProcedural_iff hblk
  have hk' : blk.isProcedural = false → s.module.kind? n.parent = some .graph := fun hp => by
    rw [Module.kind?_of_block? hblk]
    cases hb : blk.kind with
    | graph => rfl
    | procedural => simp [Block.isProcedural, hb] at hp
  refine .bind (legalizeOperation_keeps ho hs hn) fun settled s₁ hop hl₁ => ?_
  cases settled with
  | true => exact .pure hl₁.orderly _
  | false =>
    obtain ⟨n₁, hn₁, hp₁⟩ : ∃ n₁, s₁.module.live? id = some n₁ ∧ n₁.parent = n.parent := by
      rcases (legalizeOperation_runs ho hs.toSound hn hk hop).2 with
        ⟨hr, -⟩ | ⟨-, -, -, n₁, hn₁, -, hp₁⟩ | ⟨-, -, rfl, -⟩
      · cases hr
      · exact ⟨n₁, hn₁, hp₁⟩
      · exact ⟨n, hn, rfl⟩
    have hs₁ := hl₁.orderly
    rw [← hp₁, ← hl₁.edits.kept.kind?] at hk hk'
    refine .options ?_
    split
    · next hcond =>
      obtain ⟨hproc, hstrict⟩ := Bool.and_eq_true_iff.1 hcond
      refine isExpression_keeps ho hn₁ ?_
      split
      · next hexpr =>
        have hreg := hs₁.regions_eq_nil hn₁ (Op.regionKinds_of_isExpression hexpr)
        refine .bind (leaveProcedure_keeps ho hs₁ hn₁ hreg) fun left s₂ hleft hl₂ => ?_
        cases left with
        | true => exact .pure hl₂.orderly _
        | false =>
          obtain ⟨-, rfl, hstays⟩ | ⟨hr, -⟩ :=
            leaveProcedure_runs ho hs₁.toSound hn₁ hexpr (hk.1 hproc) hstrict hleft
          · exact legalizeInBlock_keeps ho hs₁ hn₁ hk hk' fun _ => hstays
          · cases hr
      · next hexpr => exact legalizeInBlock_keeps ho hs₁ hn₁ hk hk' fun h => absurd h hexpr
    · next hcond =>
      refine legalizeInBlock_keeps ho hs₁ hn₁ hk hk' fun _ hstrict hproc => absurd ?_ hcond
      rw [hk.2 hproc, hstrict]
      rfl

/-! ## Blocks -/

/-- A scan of a block misuses nothing: the neighbours that a node had are nodes still. -/
theorem scan_keeps (ho : env.oracle = .systemVerilog) {fuel : Nat} {visited : IdMap Unit}
    {cursor : Option NodeId} (hs : s.Orderly) (hb : s.module.Placed block)
    (hcursor : ∀ c, cursor = some c → c ∈ s.module.nodesOf block) :
    (scan block fuel visited cursor).Keeps env s := by
  induction fuel generalizing s visited cursor with
  | zero =>
    cases cursor with
    | none => exact .pure hs ()
    | some id => exact .outOfFuel
  | succ fuel ih =>
    cases cursor with
    | none => exact .pure hs ()
    | some id =>
      have hmem := hcursor id rfl
      obtain ⟨n, hn, hp⟩ := hs.mem_nodesOf_iff.1 hmem
      obtain ⟨nd, hnd, -, rfl⟩ := Module.exists_of_live? hn
      refine .node hnd (.bind (legalizeNode_keeps ho hs hn hp) fun ⟨flow, visited'⟩ s₁ hrun hl₁ => ?_)
      have hs₁ := hl₁.orderly
      have hb₁ := hl₁.edits.placed hb
      have hhandles := (legalizeNode_runs ho hs.toSound hn hp hrun).2.1.rules
      cases flow with
      | rewind target =>
        obtain ⟨hflow, -⟩ | ⟨_, m₁, hflow, hst, hrep⟩ := hhandles
        · cases hflow
        · cases hflow
          refine ih hs₁ hb₁ fun c hc => ?_
          obtain rfl := Option.some.inj hc
          exact hp ▸ (hrep.after_stores hst hs.toSound hn).2
      | next =>
        have hlt : ∀ {j}, j ∈ s.module.nodesOf block → j.index < s₁.module.nodes.size := fun hj => by
          obtain ⟨nj, hnj⟩ := hs.toSound.live_of_mem hj
          obtain ⟨nj', hnj', -⟩ := hl₁.edits.kept.node (Module.core_of_live? hnj)
          obtain ⟨x, hx, -⟩ := Option.map_eq_some_iff.1 hnj'
          exact Module.lt_of_node? hx
        obtain ⟨l, r, hlist⟩ := List.append_of_mem hmem
        obtain ⟨hprev, hnext⟩ := hs.linked.link hlist hnd
        refine .ask (hs₁.toSound.successor?_tame hb₁ (hlt hmem) (fun p hpn => ?_) fun x hx => ?_)
          fun cursor hcursor => ih hs₁ hb₁ (successor?_eq_ok hs₁.toSound hcursor).1
        · exact hlt (hlist ▸ List.mem_append_left _ (List.mem_of_getLast? (hprev.symm.trans hpn)))
        · refine hlt (hlist ▸ List.mem_append_right _ (List.mem_cons_of_mem _ ?_))
          exact List.mem_of_head? (hnext.symm.trans hx)

/-- A block is legalized without misuse, after the blocks in it. -/
theorem legalizeBlock_keeps (ho : env.oracle = .systemVerilog) {depth : Nat} (hs : s.Orderly)
    (hb : s.module.Placed block) : (legalizeBlock depth block).Keeps env s := by
  induction depth generalizing s block with
  | zero => exact .outOfFuel
  | succ depth ih =>
    refine .tell (hs.toSound.blockNodes_eq hb) (.bind ?_ fun _ s₁ _ hl₁ => ?_)
    · refine .forM (P := fun t => s.module.Edits t.module) hs (.refl hs.toSound)
        fun id hid t ht he => ⟨?_, fun t' _ hl => he.trans hl.edits⟩
      obtain ⟨n, hn⟩ := hs.toSound.live_of_mem hid
      obtain ⟨nd, hnd, hregions⟩ := he.exists_regions hn
      refine .node hnd (.forM (P := fun t => s.module.Edits t.module) ht he
        fun c hc t' ht' he' => ⟨ih ht' (he'.placed (.region hn (hregions ▸ hc) (hs.placed hn))),
          fun _ _ hl => he'.trans hl.edits⟩)
    · have hs₁ := hl₁.orderly
      have hb₁ := hl₁.edits.placed hb
      refine .fuel (.block hs₁ hb₁ fun blk hblk => ?_)
      have hfirst := hs₁.linked.first hblk
      exact .bind (scan_keeps ho hs₁ hb₁ fun c hc => List.mem_of_head? (hfirst.symm.trans hc))
        fun _ s₂ _ hl₂ => orderBlock_keeps ho hl₂.orderly (hl₂.edits.placed hb₁)

/-- Legalization misuses nothing, and keeps the module orderly whether it succeeds or fails. -/
theorem legalize_keeps (ho : env.oracle = .systemVerilog) (hs : s.Orderly) :
    legalize.Keeps env s :=
  .fuel (.ask (.ok _) fun body hbody => by
    cases hbody
    exact legalizeBlock_keeps ho hs .body)

end Prep

end NetPrep
