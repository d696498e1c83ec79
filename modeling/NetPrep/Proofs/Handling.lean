import Mathlib
import NetPrep.Proofs.Legalizing
import NetPrep.Proofs.Tree

/-!
# Handling one node

What becomes of a node that the scan of a block comes to. `Module.Handled` has a case for each way
through the rules: what was found out about the node on the way there, and what was done to it.
-/

namespace NetPrep

open Prepare Prep

theorem Op.ne_logic_of_isClocked {op : Op} (h : op.isClocked = true) : op ≠ .logic := by
  rintro rfl
  cases h

theorem Op.isExpression_of_isClocked {op : Op} (h : op.isClocked = true) :
    op.isExpression = false := by
  cases op <;> first | rfl | cases h

namespace Module

variable {o : Options} {flow : Flow} {m m₁ m' : Module} {id target : NodeId} {n : Node}

/-- A node that is replaced: an operator with more than two operands, taking a struct apart, or the
addition of a negative constant. -/
def IsReducible (m : Module) (id : NodeId) : Prop :=
  ∃ n, m.live? id = some n ∧
    ((n.op.isCommutative = true ∧ 2 < n.operands.length ∧ n.results.length = 1) ∨
      (n.op = .structExplode ∧ n.operands ≠ []) ∨
      (n.op = .add ∧ ∃ lhs rhs d i value, n.operands = [lhs, rhs] ∧
        m.def? rhs = some (.result d i) ∧ m.HasOp (· = .constant value) d ∧ value < 0))

/-- Without local variables, an expression stays in procedural code only if it is printed at its uses,
needs an operand of its block, or has its effects captured. -/
def Stays (o : Options) (m : Module) (id : NodeId) (n : Node) : Prop :=
  o.disallowLocalVariables = true → m.kind? n.parent = some .procedural →
    if n.op.hasSideEffects then m.IsCaptured id ∨ ∀ v, n.results ≠ [v]
    else n.op.isAlwaysInline = true ∨ m.Bound n

/-- What becomes of a node that is handled, and how the scan goes on. -/
inductive Handled (o : Options) (id : NodeId) (m m' : Module) : Flow → Prop
  | leave {n : Node} (hn : m.live? id = some n) (hop : n.op = .logic)
      (hk : m.kind? n.parent = some .procedural) (hstrict : o.disallowLocalVariables = true)
      (h : m.LeavesProcess id m') : Handled o id m m' .next
  | route {n : Node} (hn : m.live? id = some n) (hop : n.op.isClocked = true)
      (hexpr : o.allowExprInEventControl = false) (h : RoutesEvents id n.operands m m') :
      Handled o id m m' .next
  | anchor {n n₁ : Node} {m₁ : Module} (hn : m.live? id = some n) (hop : n.op.isInstance = true)
      (h : AnchorsOutputs id n.results m m₁) (hn₁ : m₁.live? id = some n₁)
      (h' : if o.disallowExpressionInliningInPorts then AnchorsInputs id 0 n₁.operands m₁ m'
        else m₁ = m') : Handled o id m m' .next
  | other {n : Node} (hn : m.live? id = some n) (hop : n.op.isExpression = false)
      (hinst : n.op.isInstance = false)
      (hlogic : n.op = .logic → m.kind? n.parent = some .procedural →
        o.disallowLocalVariables = false)
      (hclocked : n.op.isClocked = true → o.allowExprInEventControl = true) (h : m = m') :
      Handled o id m m' .next
  | hoist {n : Node} (hn : m.live? id = some n) (hop : n.op.isExpression = true)
      (hk : m.kind? n.parent = some .procedural) (hstrict : o.disallowLocalVariables = true)
      (hpure : n.op.hasSideEffects = false) (h : m.Hoists id m') : Handled o id m m' .next
  | capture {n : Node} (hn : m.live? id = some n) (hop : n.op.isExpression = true)
      (hk : m.kind? n.parent = some .procedural) (hstrict : o.disallowLocalVariables = true)
      (heffect : n.op.hasSideEffects = true) (h : m.Captures id m') : Handled o id m m' .next
  | erase {n : Node} (hn : m.live? id = some n) (hop : n.op.isAlwaysInline = true)
      (hstays : Stays o m id n) (hunused : ∀ u, ∀ v ∈ n.results, ¬ m.Uses u v)
      (h : m.Erases m' id) (hs : Sound m') : Handled o id m m' .next
  | skip {n : Node} (hn : m.live? id = some n) (hop : n.op.isAlwaysInline = true)
      (hstays : Stays o m id n) (h : m = m') : Handled o id m m' .next
  | settle {n : Node} (hn : m.live? id = some n) (hop : n.op.isAlwaysInline = true)
      (hstays : Stays o m id n) (h : m.Settles (· = id) m') : Handled o id m m' .next
  /-- An expression with captured effects can still leave procedural code for want of a temporary. -/
  | withdraw {n : Node} {m₁ : Module} (hn : m.live? id = some n) (hop : n.op.isExpression = true)
      (hinline : n.op.isAlwaysInline = false) (hk : m.kind? n.parent = some .procedural)
      (hstrict : o.disallowLocalVariables = true) (hstays : Stays o m id n) (h : m.Hoists id m₁)
      (h' : m₁ = m' ∨ ((∃ n₁, m₁.live? id = some n₁ ∧ m₁.kind? n₁.parent = some .graph) ∧
        m₁.Spills id false m')) : Handled o id m m' .next
  | finish {n : Node} {m₁ : Module} (hn : m.live? id = some n) (hop : n.op.isExpression = true)
      (hinline : n.op.isAlwaysInline = false) (hstays : Stays o m id n) (hst : m.Stores id m₁)
      (hstrict : o.disallowLocalVariables = true → m.kind? n.parent = some .procedural → m = m₁)
      (hnormal : ¬ m₁.IsReducible id)
      (h : m₁ = m' ∨ (m₁.kind? n.parent = some .graph ∧ m₁.Reuses id m')) : Handled o id m m' .next
  /-- A struct of which no field is taken. -/
  | vanish {n : Node} {m₁ : Module} (hn : m.live? id = some n) (hop : n.op = .structExplode)
      (hstays : Stays o m id n) (hst : m.Stores id m₁)
      (hstrict : o.disallowLocalVariables = true → m.kind? n.parent = some .procedural → m = m₁)
      (h : m₁.Explodes id [] m') : Handled o id m m' .next
  | replace {n : Node} {target : NodeId} {m₁ : Module} (hn : m.live? id = some n)
      (hstays : Stays o m id n) (hst : m.Stores id m₁)
      (hstrict : o.disallowLocalVariables = true → m.kind? n.parent = some .procedural → m = m₁)
      (h : m₁.Replaces id target m') : Handled o id m m' (.rewind target)

/-- What becomes of a node comes down to rules that are applied to it one after another, or to another
node in its place. -/
theorem Handled.rules (h : Handled o id m m' flow) : (flow = .next ∧ m.Rules id m') ∨
    ∃ target m₁, flow = .rewind target ∧ m.Stores id m₁ ∧ m₁.Replaces id target m' := by
  cases h with
  | leave hn hop hk _ h => exact Or.inl ⟨rfl, .single (.leaveProcess hn hop hk h)⟩
  | route hn hop _ h => exact Or.inl ⟨rfl, .single (.route hn hop h)⟩
  | anchor hn hop h hn₁ h' =>
    have hstep := Rule.anchorOutputs hn hop h
    split at h'
    · have hop₁ := (h.live_inst hn hop)
      obtain ⟨n₂, hn₂, hop₂, -⟩ := hop₁
      obtain rfl := Option.some.inj (hn₁.symm.trans hn₂)
      exact Or.inl ⟨rfl, .step hstep (.single (.anchorInputs hn₁ (hop₂ ▸ hop) h'))⟩
    · exact Or.inl ⟨rfl, h' ▸ .single hstep⟩
  | other _ _ _ _ _ h => exact Or.inl ⟨rfl, h ▸ .refl m⟩
  | hoist hn hop hk _ _ h => exact Or.inl ⟨rfl, .single (.hoist hn hop hk h)⟩
  | capture hn hop hk _ _ h => exact Or.inl ⟨rfl, .single (.capture hn hop hk h)⟩
  | erase hn hop _ hunused h hs =>
    exact Or.inl ⟨rfl, .single (.erase hn (Op.isExpression_of_isAlwaysInline hop) hunused h hs)⟩
  | skip _ _ _ h => exact Or.inl ⟨rfl, h ▸ .refl m⟩
  | settle hn hop _ h => exact Or.inl ⟨rfl, .single (.settle hn hop h.inlines)⟩
  | withdraw hn hop hinline hk _ _ h h' =>
    have hstep := Rule.hoist hn hop hk h
    rcases h' with rfl | ⟨-, h'⟩
    · exact Or.inl ⟨rfl, .single hstep⟩
    · obtain ⟨-, -, -, hm, -⟩ := h
      exact Or.inl ⟨rfl, .step hstep (.single (.spill (hm.live hn) hop hinline h'))⟩
  | finish hn hop hinline _ hst _ _ h =>
    rcases h with rfl | ⟨hk, h⟩
    · exact Or.inl ⟨rfl, hst.rules⟩
    · obtain ⟨n₁, hn₁, hop₁, hp₁⟩ := hst.live hn hinline
      exact Or.inl ⟨rfl, hst.rules.trans (.single (.reuse hn₁ (hop₁ ▸ hop) (hop₁ ▸ hinline)
        (hp₁ ▸ hk) h))⟩
  | vanish hn hop _ hst _ h =>
    obtain ⟨n₁, hn₁, hop₁, -⟩ := hst.live hn (by rw [hop]; rfl)
    exact Or.inl ⟨rfl, hst.rules.trans (.single (.erase_of_explodes hn₁ (hop₁.trans hop) h))⟩
  | replace _ _ hst _ h => exact Or.inr ⟨_, _, rfl, hst, h⟩

end Module

/-- A balanced tree over values is found if it may be as deep as there are values. -/
theorem OperandTree.isSome_balanced? {depth : Nat} {vs : List ValueId} (hvs : vs ≠ [])
    (hdepth : vs.length ≤ depth) : (balanced? depth vs).isSome := by
  induction depth generalizing vs with
  | zero => exact absurd (List.length_eq_zero_iff.1 (Nat.le_zero.1 hdepth)) hvs
  | succ depth ih =>
    match vs, hvs, hdepth with
    | [v], _, _ => rfl
    | v :: w :: vs, _, hdepth =>
      have hlen : (v :: w :: vs).length ≤ depth + 1 := hdepth
      have hhalf : 0 < (v :: w :: vs).length / 2 ∧
          (v :: w :: vs).length / 2 < (v :: w :: vs).length := by
        simp only [List.length_cons]
        omega
      have hleft := @ih ((v :: w :: vs).take ((v :: w :: vs).length / 2))
        (List.ne_nil_of_length_pos (by rw [List.length_take]; omega))
        (by rw [List.length_take]; omega)
      have hright := @ih ((v :: w :: vs).drop ((v :: w :: vs).length / 2))
        (List.ne_nil_of_length_pos (by rw [List.length_drop]; omega))
        (by rw [List.length_drop]; omega)
      obtain ⟨left, hleft⟩ := Option.isSome_iff_exists.1 hleft
      obtain ⟨right, hright⟩ := Option.isSome_iff_exists.1 hright
      simp only [balanced?, hleft, hright]
      rfl

namespace Prep

variable {env : Env} {s s' : State} {id : NodeId} {n : Node} {r : Bool}

/-- What the operation of a node leads to: the node is settled, or it is an instance, which stays once
its ports are settled, or there is nothing to do. -/
def Operated (env : Env) (id : NodeId) (n : Node) (s : State) (r : Bool) (s' : State) : Prop :=
  (r = true ∧ n.op.isExpression = false ∧ s.module.Handled env.options id s'.module .next) ∨
    (r = false ∧ n.op.isInstance = true ∧ s.module.Handled env.options id s'.module .next ∧
      ∃ n', s'.module.live? id = some n' ∧ n'.op = n.op ∧ n'.parent = n.parent) ∨
    (r = false ∧ n.op.isInstance = false ∧ s = s' ∧
      (n.op = .logic → s.module.kind? n.parent = some .procedural →
        env.options.disallowLocalVariables = false) ∧
      (n.op.isClocked = true → env.options.allowExprInEventControl = true))

/-- The ports of an instance are anchored, those for its inputs only where that is asked for. -/
theorem anchorPorts_operated (ho : env.oracle = .systemVerilog) (hs : Sound s.module)
    (hn : s.module.live? id = some n) (hinst : n.op.isInstance = true)
    (h : (do
      anchorInstanceOutputs id
      if env.options.disallowExpressionInliningInPorts then anchorInstanceInputs id
      return false : Prep Bool).Runs env s r s') : Operated env id n s r s' := by
  obtain ⟨_, s₁, h₁, h⟩ := runs_bind.1 h
  have houtputs := anchorInstanceOutputs_runs ho hs hn hinst h₁
  obtain ⟨n₁, hn₁, hop₁, -, hp₁⟩ := houtputs.live_inst hn hinst
  split at h
  · next hports =>
    simp only [runs_bind, runs_pure] at h
    obtain ⟨_, s₂, h₂, rfl, rfl⟩ := h
    have hs₁ := (houtputs.edits hs).sound
    have hinputs := anchorInstanceInputs_runs hs₁ hn₁ (hop₁ ▸ hinst) h₂
    obtain ⟨n₂, hn₂, hop₂, -, hp₂⟩ := hinputs.live hn₁
    exact Or.inr (Or.inl ⟨rfl, hinst, .anchor hn hinst houtputs hn₁ (by rwa [if_pos hports]),
      n₂, hn₂, hop₂.trans hop₁, hp₂.trans hp₁⟩)
  · next hports =>
    obtain ⟨rfl, rfl⟩ := runs_pure.1 h
    exact Or.inr (Or.inl ⟨rfl, hinst, .anchor hn hinst houtputs hn₁ (by rw [if_neg hports]), n₁,
      hn₁, hop₁, hp₁⟩)

/-- The events of a clocked process are routed, unless expressions are allowed there. -/
theorem routeEvents_operated (ho : env.oracle = .systemVerilog) (hs : Sound s.module)
    (hn : s.module.live? id = some n) (hop : n.op.isClocked = true)
    (h : (if env.options.allowExprInEventControl = true then pure false else do
      n.operands.forM (routeEvent id)
      pure true : Prep Bool).Runs env s r s') : Operated env id n s r s' := by
  split at h
  · next hallow =>
    obtain ⟨rfl, rfl⟩ := runs_pure.1 h
    exact Or.inr (Or.inr ⟨rfl, Op.isInstance_of_isClocked hop, rfl,
      fun hl => absurd hl (Op.ne_logic_of_isClocked hop), fun _ => hallow⟩)
  · next hallow =>
    simp only [runs_bind, runs_pure] at h
    obtain ⟨_, s₁, hevents, rfl, rfl⟩ := h
    have hroutes := routeEvents_runs ho hs hn (fun v hv => by
      obtain ⟨i, hi⟩ := Module.exists_uses_of_mem hn hv
      exact hs.usable hi) hevents
    exact Or.inl ⟨rfl, Op.isExpression_of_isClocked hop,
      .route hn hop (by simpa using hallow) hroutes⟩

/-- What is done to a node on account of its operation: it settles it, or leaves it where it is. -/
theorem legalizeOperation_runs (ho : env.oracle = .systemVerilog) (hs : Sound s.module)
    {procedural : Bool} (hn : s.module.live? id = some n)
    (hk : procedural = true ↔ s.module.kind? n.parent = some .procedural)
    (h : (legalizeOperation procedural id).Runs env s r s') :
    n.op.category ≠ .foreign ∧ Operated env id n s r s' := by
  obtain ⟨nd, hnd, -, rfl⟩ := Module.exists_of_live? hn
  simp only [legalizeOperation, runs_bind, runs_node, runs_options] at h
  obtain ⟨nd', _, ⟨hnd', rfl⟩, o, _, ⟨rfl, rfl⟩, h⟩ := h
  obtain rfl : nd = nd' := by simpa using hnd.symm.trans hnd'
  split at h
  · simp only [runs_bind, runs_moduleName] at h
    obtain ⟨_, _, -, h⟩ := h
    exact absurd h runs_fail
  · next target name inputs outputs hop =>
    replace hop : nd.core.op = .inst target name inputs outputs := hop
    exact ⟨by simp [hop, Op.category], anchorPorts_operated ho hs hn (by rw [hop]; rfl) h⟩
  · next hop =>
    replace hop : nd.core.op = .logic := hop
    refine ⟨by simp [hop, Op.category], ?_⟩
    split at h
    · next hp =>
      obtain ⟨hproc, hstrict⟩ := Bool.and_eq_true_iff.1 hp
      simp only [runs_bind, runs_edit, runs_count, runs_pure] at h
      obtain ⟨process, s₁, hprocess, _, _, ⟨m₁, hm₁, rfl⟩, _, _, rfl, rfl, rfl⟩ := h
      obtain ⟨rfl, hpo⟩ := enclosingProcess_runs hs hn hprocess
      obtain ⟨np, hnp, hne⟩ := hpo.regions
      have hreg := hs.toNested.regions_eq_nil hn (by rw [hop]; rfl)
      obtain ⟨hm, hs'⟩ := hs.moveBefore hn hreg hnp hne hm₁
      exact Or.inl ⟨rfl, by rw [hop]; rfl,
        .leave hn hop (hk.1 hproc) hstrict (.mk hn hpo hnp hm hs')⟩
    · next hp =>
      obtain ⟨rfl, rfl⟩ := runs_pure.1 h
      exact Or.inr (Or.inr ⟨rfl, by rw [hop]; rfl, rfl,
        fun _ hk' => by simpa [hk.2 hk'] using hp, fun hclock => by rw [hop] at hclock; cases hclock⟩)
  · next edges hop =>
    replace hop : nd.core.op = .always edges := hop
    exact ⟨by simp [hop, Op.category], routeEvents_operated ho hs hn (by rw [hop]; rfl) h⟩
  · next clock reset hop =>
    replace hop : nd.core.op = .alwaysFF clock reset := hop
    exact ⟨by simp [hop, Op.category], routeEvents_operated ho hs hn (by rw [hop]; rfl) h⟩
  · next hforeign hinst hlogic halways halwaysFF =>
    obtain ⟨rfl, rfl⟩ := runs_pure.1 h
    have hother : nd.op.category ≠ .foreign ∧ nd.op.isInstance = false ∧ nd.op ≠ .logic ∧
        nd.op.isClocked = false := by
      cases hop : nd.op
      case foreign => exact absurd hop (hforeign _ _)
      case inst => exact absurd hop (hinst _ _ _ _)
      case logic => exact absurd hop hlogic
      case always => exact absurd hop (halways _)
      case alwaysFF => exact absurd hop (halwaysFF _ _)
      all_goals simp [Op.category, Op.isInstance, Op.isClocked]
    exact ⟨hother.1, Or.inr (Or.inr ⟨rfl, hother.2.1, rfl, fun hl => absurd hl hother.2.2.1,
      fun hc => absurd hc (Bool.eq_false_iff.1 hother.2.2.2)⟩)⟩

/-- An expression leaves a procedural block, or there is a reason for it to stay. -/
theorem leaveProcedure_runs (ho : env.oracle = .systemVerilog) (hs : Sound s.module)
    (hn : s.module.live? id = some n) (hop : n.op.isExpression = true)
    (hk : s.module.kind? n.parent = some .procedural)
    (hstrict : env.options.disallowLocalVariables = true)
    (h : (leaveProcedure id).Runs env s r s') :
    (r = false ∧ s = s' ∧ Module.Stays env.options s.module id n) ∨
      (r = true ∧ s.module.Handled env.options id s'.module .next) := by
  obtain ⟨nd, hnd, -, rfl⟩ := Module.exists_of_live? hn
  obtain ⟨free, s₁, hfree, h⟩ := runs_bind.1 h
  simp only [runs_isMemoryEffectFree, ho, Oracle.systemVerilog, bind_eq_ok_iff,
    Module.node_eq_ok_iff] at hfree
  obtain ⟨⟨nd', hnd', hfree⟩, rfl⟩ := hfree
  obtain rfl : nd = nd' := by simpa using hnd.symm.trans hnd'
  have hfree : free = !nd.core.op.hasSideEffects := by
    have hexpr : (nd.op.category == .expression || nd.op.category == .read) = true := hop
    rw [← Except.ok.inj hfree, hexpr]
    rfl
  have hreg := hs.toNested.regions_eq_nil hn (Op.regionKinds_of_isExpression hop)
  cases heffect : nd.core.op.hasSideEffects with
  | false =>
    rw [hfree, heffect] at h
    simp only [Bool.not_false, if_true] at h
    rcases hoist_runs ho hs hn hreg hk h with ⟨rfl, rfl, hbound⟩ | ⟨rfl, hhoist⟩
    · exact Or.inl ⟨rfl, rfl, fun _ _ => by rwa [heffect, if_neg Bool.false_ne_true]⟩
    · exact Or.inr ⟨rfl, .hoist hn hop hk hstrict heffect hhoist⟩
  | true =>
    rw [hfree, heffect] at h
    simp only [Bool.not_true, Bool.false_eq_true, if_false] at h
    rcases captureSideEffect_runs hs hn h with ⟨rfl, rfl, hcaptured⟩ | ⟨rfl, hcapture⟩
    · exact Or.inl ⟨rfl, rfl, fun _ _ => by rwa [heffect, if_pos rfl]⟩
    · exact Or.inr ⟨rfl, .capture hn hop hk hstrict heffect hcapture⟩

/-- What is done to a node that must be printed at its uses. -/
theorem legalizeInline_runs (ho : env.oracle = .systemVerilog) (hs : Sound s.module)
    {visited visited' : IdMap Unit} (hn : s.module.live? id = some n)
    (hop : n.op.isAlwaysInline = true)
    (h : (legalizeInline id visited).Runs env s visited' s') :
    (visited.contains id.index = true ∧ visited' = visited ∧ s = s') ∨
    (visited' = visited ∧ (∀ u, ∀ v ∈ n.results, ¬ s.module.Uses u v) ∧
      s.module.Erases s'.module id ∧ Sound s'.module) ∨
    (visited' = visited.insert id.index () ∧
      s.module.Settles (· = id) s'.module) := by
  obtain ⟨unused, s₁, hunused, h⟩ := runs_bind.1 h
  obtain rfl := (runs_query.1 hunused).2
  split at h
  · simp only [runs_bind, runs_edit, runs_pure] at h
    obtain ⟨_, _, ⟨m₁, hm₁, rfl⟩, rfl, rfl⟩ := h
    have hreg := hs.toNested.regions_eq_nil hn (Op.regionKinds_of_isAlwaysInline hop)
    obtain ⟨hnone, he, hs'⟩ := hs.eraseNode hn hreg hm₁
    exact Or.inr (Or.inl ⟨rfl, hnone, he, hs'⟩)
  · split at h
    · next hvisited =>
      obtain ⟨rfl, rfl⟩ := runs_pure.1 h
      exact Or.inl ⟨hvisited, rfl, rfl⟩
    · simp only [runs_bind, runs_pure] at h
      obtain ⟨_, s₂, hsettle, rfl, rfl⟩ := h
      exact Or.inr (Or.inr ⟨rfl, inlineEverywhere_runs ho hs
        ⟨n, Module.core_of_live? hn, hop⟩ hsettle⟩)

/-- Whether an expression needs a temporary; it does not where it reads an assignment instead. -/
theorem needsTemporary_runs (ho : env.oracle = .systemVerilog) (hs : Sound s.module)
    {procedural : Bool} (hn : s.module.live? id = some n) (hinline : n.op.isAlwaysInline = false)
    (hk : procedural = false → s.module.kind? n.parent = some .graph)
    (h : (needsTemporary procedural id).Runs env s r s') :
    (s = s' ∧ (r = true → n.op.isExpression = true)) ∨
      (r = false ∧ procedural = false ∧ s.module.Stores id s'.module) := by
  obtain ⟨nd, hnd, -, rfl⟩ := Module.exists_of_live? hn
  obtain ⟨expr, s₁, hexpr, h⟩ := runs_bind.1 h
  rw [runs_isExpression, ho, Oracle.isExpression_eq_ok_iff] at hexpr
  obtain ⟨⟨nd', hnd', hexpr⟩, rfl⟩ := hexpr
  obtain rfl : nd = nd' := by simpa using hnd.symm.trans hnd'
  cases expr with
  | false =>
    obtain ⟨rfl, rfl⟩ := runs_pure.1 h
    exact Or.inl ⟨rfl, fun hr => by cases hr⟩
  | true =>
    simp only [Bool.not_true, Bool.false_eq_true, if_false] at h
    obtain ⟨inlineable, s₁, hinlineable, h⟩ := runs_bind.1 h
    obtain rfl := (runs_query.1 hinlineable).2
    split at h
    · obtain ⟨rfl, rfl⟩ := runs_pure.1 h
      exact Or.inl ⟨rfl, fun hr => by cases hr⟩
    · cases procedural with
      | true =>
        simp only [if_true] at h
        obtain ⟨rfl, rfl⟩ := runs_pure.1 h
        exact Or.inl ⟨rfl, fun _ => hexpr⟩
      | false =>
        simp only [Bool.false_eq_true, if_false] at h
        obtain ⟨reused, s₁, hreused, h⟩ := runs_bind.1 h
        obtain ⟨rfl, rfl⟩ := runs_pure.1 h
        rcases reuseAssigned_runs ho hs hn hinline hreused with ⟨rfl, rfl⟩ | ⟨rfl, hreuse⟩
        · exact Or.inl ⟨rfl, fun _ => hexpr⟩
        · exact Or.inr ⟨rfl, rfl, .reuse hn hexpr hinline (hk rfl) hreuse⟩

/-- Giving an expression a temporary, in the graph block around it if that is asked for. -/
theorem spillOrHoist_runs (ho : env.oracle = .systemVerilog) (hs : Sound s.module)
    {procedural : Bool} (hn : s.module.live? id = some n) (hop : n.op.isExpression = true)
    (hinline : n.op.isAlwaysInline = false)
    (hk : procedural = true ↔ s.module.kind? n.parent = some .procedural)
    (hstays : Module.Stays env.options s.module id n)
    (h : (spillOrHoist procedural id).Runs env s r s') :
    (r = true ∧ s.module.Handled env.options id s'.module .next) ∨
      (r = false ∧ s.module.Stores id s'.module ∧
        (env.options.disallowLocalVariables = true → s.module.kind? n.parent = some .procedural →
          s.module = s'.module)) := by
  obtain ⟨o, s₁, hopt, h⟩ := runs_bind.1 h
  obtain ⟨rfl, rfl⟩ := runs_options.1 hopt
  -- What follows the attempt to move the expression out.
  have hout : ∀ {t : State} {n' : Node}, Sound t.module → t.module.live? id = some n' → (do
        if !(← query (·.inProcedural id)) then spill id false
        return procedural : Prep Bool).Runs env t r s' →
      r = procedural ∧ ((t.module = s'.module ∧ t.module.kind? n'.parent = some .procedural) ∨
        (t.module.kind? n'.parent = some .graph ∧ t.module.Spills id false s'.module)) := by
    intro t n' hs' hn' h
    obtain ⟨inside, t₁, hquery, h⟩ := runs_bind.1 h
    obtain ⟨hinside, rfl⟩ := runs_query.1 hquery
    obtain ⟨k, hk', hkind⟩ := Sound.inProcedural_eq_ok hn' hinside
    cases inside with
    | true =>
      obtain ⟨rfl, rfl⟩ := runs_pure.1 h
      exact ⟨rfl, Or.inl ⟨rfl, hkind.1 rfl ▸ hk'⟩⟩
    | false =>
      simp only [Bool.not_false, if_true, runs_bind, runs_pure] at h
      obtain ⟨_, t₁, hspill, rfl, rfl⟩ := h
      refine ⟨rfl, Or.inr ⟨?_, spill_runs hs' hn' hspill⟩⟩
      cases k with
      | graph => exact hk'
      | procedural => cases hkind.2 rfl
  split at h
  · next hstrict =>
    cases procedural with
    | true =>
      simp only [if_true] at h
      obtain ⟨outside, s₁, hhoist, h⟩ := runs_bind.1 h
      have hreg := hs.toNested.regions_eq_nil hn (Op.regionKinds_of_isExpression hop)
      rcases hoist_runs ho hs hn hreg (hk.1 rfl) hhoist with ⟨rfl, rfl, -⟩ | ⟨rfl, hhoists⟩
      · obtain ⟨rfl, rfl⟩ := runs_pure.1 h
        exact Or.inr ⟨rfl, .nothing rfl, fun _ _ => rfl⟩
      · have hs₁ := (hhoists.edits hs hn (Op.regionKinds_of_isExpression hop)).sound
        have hmoved := hhoists
        obtain ⟨-, -, -, hm, -⟩ := hmoved
        obtain ⟨rfl, hrest⟩ := hout hs₁ (hm.live hn) h
        refine Or.inl ⟨rfl, .withdraw hn hop hinline (hk.1 rfl) hstrict hstays hhoists ?_⟩
        rcases hrest with ⟨h, -⟩ | ⟨hg, h⟩
        · exact Or.inl h
        · exact Or.inr ⟨⟨_, hm.live hn, hg⟩, h⟩
    | false =>
      simp only [Bool.false_eq_true, if_false] at h
      obtain ⟨outside, s₁, houtside, h⟩ := runs_bind.1 h
      obtain ⟨rfl, rfl⟩ := runs_pure.1 houtside
      obtain ⟨rfl, ⟨-, hp⟩ | ⟨hg, hspills⟩⟩ := hout hs hn h
      · cases hk.2 hp
      · exact Or.inr ⟨rfl, .spill hn hop hinline hspills, fun _ hp => by cases hk.2 hp⟩
  · next hstrict =>
    simp only [runs_bind, runs_pure] at h
    obtain ⟨_, s₁, hspill, rfl, rfl⟩ := h
    exact Or.inr ⟨rfl, .spill hn hop hinline (spill_runs hs hn hspill), fun h => absurd h hstrict⟩

theorem isBalanceable_runs (ho : env.oracle = .systemVerilog) (hs : Sound s.module)
    (hn : s.module.live? id = some n) (h : (isBalanceable id).Runs env s r s') :
    s = s' ∧ (r = true ↔
      n.op.isCommutative = true ∧ 2 < n.operands.length ∧ n.results.length = 1) := by
  obtain ⟨nd, hnd, -, rfl⟩ := Module.exists_of_live? hn
  simp only [isBalanceable, runs_bind, runs_node] at h
  obtain ⟨nd', _, ⟨hnd', rfl⟩, h⟩ := h
  obtain rfl : nd = nd' := by simpa using hnd.symm.trans hnd'
  split at h
  · next hcond =>
    simp only [Bool.and_eq_true, decide_eq_true_eq, beq_iff_eq, List.isEmpty_iff] at hcond
    obtain ⟨⟨⟨hlen, hres⟩, -⟩, hop⟩ := hcond
    simp only [runs_isMemoryEffectFree, ho, Oracle.systemVerilog, bind_eq_ok_iff,
      Module.node_eq_ok_iff] at h
    obtain ⟨⟨nd', hnd', h⟩, rfl⟩ := h
    obtain rfl : nd = nd' := by simpa using hnd.symm.trans hnd'
    refine ⟨rfl, iff_of_true ?_ ⟨hop, hlen, hres⟩⟩
    rw [← Except.ok.inj h]
    cases hop' : nd.op <;> first | rfl | (rw [hop'] at hop; cases hop)
  · next hcond =>
    obtain ⟨rfl, rfl⟩ := runs_pure.1 h
    refine ⟨rfl, iff_of_false Bool.false_ne_true fun hnary => hcond ?_⟩
    obtain ⟨hop, hlen, hres⟩ := hnary
    have hreg := hs.toNested.regions_eq_nil hn
      (Op.regionKinds_of_isExpression (Op.isExpression_of_isCommutative hop))
    replace hop : nd.op.isCommutative = true := hop
    replace hlen : 2 < nd.operands.length := hlen
    replace hres : nd.results.length = 1 := hres
    replace hreg : nd.regions = [] := hreg
    simp [hop, hlen, hres, hreg]

/-- Where no negative constant is found, none is added. -/
theorem negativeConstant?_eq_none {m : Module} {lhs rhs : ValueId} {d : NodeId} {i : Nat}
    {value : Int} (hn : m.live? id = some n) (h : negativeConstant? m id = .ok none)
    (hop : n.op = .add) (hops : n.operands = [lhs, rhs]) (hdef : m.def? rhs = some (.result d i))
    (hd : m.HasOp (· = .constant value) d) : ¬ value < 0 := by
  intro hneg
  obtain ⟨nd, hnd, -, rfl⟩ := Module.exists_of_live? hn
  obtain ⟨_, hcore, hdop⟩ := hd
  obtain ⟨x, hx, rfl⟩ := Option.map_eq_some_iff.1 hcore
  replace hop : nd.op = .add := hop
  replace hops : nd.operands = [lhs, rhs] := hops
  replace hdop : x.op = .constant value := hdop
  have hnode : m.node id = .ok nd := Module.node_eq_ok_iff.2 hnd
  have hdnode : m.node d = .ok x := Module.node_eq_ok_iff.2 hx
  have hdefining := Module.definingNode?_eq_some_iff.2 ⟨i, hdef⟩
  simp [negativeConstant?, hnode, hop, hops, hdefining, hdnode, hdop, hneg, bind, Except.bind, pure,
    Except.pure] at h

/-- A node that none of the rewritings applies to has its normal form. -/
theorem not_isReducible {m : Module} (hn : m.live? id = some n)
    (hnary : ¬ (n.op.isCommutative = true ∧ 2 < n.operands.length ∧ n.results.length = 1))
    (hconstant : negativeConstant? m id = .ok none)
    (hexplode : n.op = .structExplode → n.operands = []) : ¬ m.IsReducible id := by
  rintro ⟨n', hn', hcases⟩
  obtain rfl := Option.some.inj (hn.symm.trans hn')
  rcases hcases with hcomm | ⟨hop, hops⟩ | ⟨hop, lhs, rhs, d, i, value, hops, hdef, hd, hneg⟩
  · exact hnary hcomm
  · exact hops (hexplode hop)
  · exact negativeConstant?_eq_none hn hconstant hop hops hdef hd hneg

/-- An expression of a graph block may read an assignment of it instead. -/
theorem reuseInGraph_runs (ho : env.oracle = .systemVerilog) (hs : Sound s.module)
    {procedural : Bool} {flow : Flow} (hn : s.module.live? id = some n)
    (hinline : n.op.isAlwaysInline = false)
    (hk : procedural = false → s.module.kind? n.parent = some .graph)
    (h : (do
      if !procedural then
        if ← isExpression id then
          let _ ← reuseAssigned id
      return .next : Prep Flow).Runs env s flow s') :
    flow = .next ∧ (s.module = s'.module ∨
      (s.module.kind? n.parent = some .graph ∧ s.module.Reuses id s'.module)) := by
  cases procedural with
  | true =>
    obtain ⟨rfl, rfl⟩ := runs_pure.1 h
    exact ⟨rfl, Or.inl rfl⟩
  | false =>
    simp only [Bool.not_false, if_true] at h
    obtain ⟨expr, s₁, hexpr, h⟩ := runs_bind.1 h
    obtain ⟨-, rfl⟩ := runs_isExpression.1 hexpr
    cases expr with
    | false =>
      obtain ⟨rfl, rfl⟩ := runs_pure.1 h
      exact ⟨rfl, Or.inl rfl⟩
    | true =>
      simp only [if_true, runs_bind, runs_pure] at h
      obtain ⟨reused, s₁, hreused, rfl, rfl⟩ := h
      rcases reuseAssigned_runs ho hs hn hinline hreused with ⟨-, rfl⟩ | ⟨-, hreuse⟩
      · exact ⟨rfl, Or.inl rfl⟩
      · exact ⟨rfl, Or.inr ⟨hk rfl, hreuse⟩⟩

/-- Replacing an expression by a printable form, or finding that it has one. -/
theorem rewrite_runs (ho : env.oracle = .systemVerilog) (hs : Sound s.module)
    {procedural : Bool} {flow : Flow} (hn : s.module.live? id = some n)
    (hinline : n.op.isAlwaysInline = false)
    (hk : procedural = false → s.module.kind? n.parent = some .graph)
    (h : (do
      if ← isBalanceable id then return .ofCreated (← balance id)
      match ← query (negativeConstant? · id) with
      | some (constant, value) => return .rewind (← subtractInstead id constant value)
      | none =>
        if (← node id).op = .structExplode then return .ofCreated (← explode id)
        if !procedural then
          if ← isExpression id then
            let _ ← reuseAssigned id
        return .next : Prep Flow).Runs env s flow s') :
    (flow = .next ∧ n.op = .structExplode ∧ s.module.Explodes id [] s'.module) ∨
      (flow = .next ∧ ¬ s.module.IsReducible id ∧ (s.module = s'.module ∨
        (s.module.kind? n.parent = some .graph ∧ s.module.Reuses id s'.module))) ∨
      ∃ target, flow = .rewind target ∧ s.module.Replaces id target s'.module := by
  obtain ⟨nd, hnd, -, rfl⟩ := Module.exists_of_live? hn
  obtain ⟨balanceable, s₁, hbalanceable, h⟩ := runs_bind.1 h
  obtain ⟨rfl, hbal⟩ := isBalanceable_runs ho hs hn hbalanceable
  split at h
  · next hb =>
    simp only [runs_bind, runs_pure] at h
    obtain ⟨created, s₁, hbalance, rfl, rfl⟩ := h
    obtain ⟨hcomm, hlen, -⟩ := hbal.1 hb
    have hreg := hs.toNested.regions_eq_nil hn
      (Op.regionKinds_of_isExpression (Op.isExpression_of_isCommutative hcomm))
    rcases balance_runs ho hs hn hreg hbalance with ⟨-, htree, -⟩ | ⟨ids, rfl, hbal⟩
    · have hne : nd.core.operands ≠ [] := List.ne_nil_of_length_pos (Nat.zero_lt_of_lt hlen)
      have hsome := OperandTree.isSome_balanced? hne le_rfl
      rw [htree] at hsome
      cases hsome
    · obtain ⟨target, rest, rfl⟩ := List.exists_cons_of_ne_nil
        (hbal.ne_nil hn (Nat.lt_of_succ_lt hlen))
      exact Or.inr (Or.inr ⟨target, rfl, .balance hn hcomm hlen rfl hbal⟩)
  · next hb =>
    obtain ⟨constant, s₁, hquery, h⟩ := runs_bind.1 h
    obtain ⟨hconstant, rfl⟩ := runs_query.1 hquery
    split at h
    · simp only [runs_bind, runs_pure] at h
      obtain ⟨positive, s₁, hsub, rfl, rfl⟩ := h
      exact Or.inr (Or.inr ⟨positive, rfl, .subtract (subtractInstead_runs ho hs hn hconstant hsub)⟩)
    · simp only [runs_bind, runs_node] at h
      obtain ⟨nd', _, ⟨hnd', rfl⟩, h⟩ := h
      obtain rfl : nd = nd' := by simpa using hnd.symm.trans hnd'
      have hnormal := not_isReducible hn (mt hbal.2 hb) hconstant
      split at h
      · next hop =>
        simp only [runs_bind, runs_pure] at h
        obtain ⟨created, s₁, hexplode, rfl, rfl⟩ := h
        rcases explode_runs ho hs hn hop hexplode with ⟨rfl, hops, rfl⟩ | ⟨ids, rfl, hexp⟩
        · exact Or.inr (Or.inl ⟨rfl, hnormal fun _ => hops, Or.inl rfl⟩)
        · cases ids with
          | nil => exact Or.inl ⟨rfl, hop, hexp⟩
          | cons target rest => exact Or.inr (Or.inr ⟨target, rfl, .explode hn hop rfl hexp⟩)
      · next hop =>
        obtain ⟨rfl, hrest⟩ := reuseInGraph_runs ho hs hn hinline hk h
        exact Or.inr (Or.inl ⟨rfl, hnormal fun h => absurd h hop, hrest⟩)

/-- A node that is no expression is passed over. -/
theorem legalizeExpression_other (ho : env.oracle = .systemVerilog) (hs : Sound s.module)
    {procedural : Bool} {flow : Flow} (hn : s.module.live? id = some n)
    (hop : n.op.isExpression = false) (h : (legalizeExpression procedural id).Runs env s flow s') :
    flow = .next ∧ s = s' := by
  obtain ⟨nd, hnd, -, rfl⟩ := Module.exists_of_live? hn
  have hexpr : ∀ {r : Bool} {t : State}, (isExpression id).Runs env s r t → r = false ∧ s = t := by
    intro r t hr
    rw [runs_isExpression, ho, Oracle.isExpression_eq_ok_iff] at hr
    obtain ⟨⟨nd', hnd', hr⟩, rfl⟩ := hr
    obtain rfl : nd = nd' := by simpa using hnd.symm.trans hnd'
    exact ⟨hr.symm.trans hop, rfl⟩
  obtain ⟨needs, s₁, hneeds, h⟩ := runs_bind.1 h
  obtain ⟨expr, s₂, hexpr₁, hneeds⟩ := runs_bind.1 hneeds
  obtain ⟨rfl, rfl⟩ := hexpr hexpr₁
  obtain ⟨rfl, rfl⟩ := runs_pure.1 hneeds
  simp only [Bool.false_eq_true, if_false] at h
  obtain ⟨balanceable, s₁, hbalanceable, h⟩ := runs_bind.1 h
  obtain ⟨rfl, hbal⟩ := isBalanceable_runs ho hs hn hbalanceable
  split at h
  · next hb =>
    have hcomm := Op.isExpression_of_isCommutative (hbal.1 hb).1
    rw [hop] at hcomm
    cases hcomm
  obtain ⟨constant, s₁, hquery, h⟩ := runs_bind.1 h
  obtain ⟨hconstant, rfl⟩ := runs_query.1 hquery
  split at h
  · obtain ⟨nd', lhs, rhs, nc, hnd', hadd, -⟩ := negativeConstant?_eq_some hconstant
    obtain rfl : nd = nd' := by simpa using hnd.symm.trans hnd'
    replace hop : nd.op.isExpression = false := hop
    rw [hadd] at hop
    cases hop
  · simp only [runs_bind, runs_node] at h
    obtain ⟨nd', _, ⟨hnd', rfl⟩, h⟩ := h
    obtain rfl : nd = nd' := by simpa using hnd.symm.trans hnd'
    split at h
    · next hexplode =>
      replace hop : nd.op.isExpression = false := hop
      rw [hexplode] at hop
      cases hop
    · cases procedural with
      | true =>
        obtain ⟨rfl, rfl⟩ := runs_pure.1 h
        exact ⟨rfl, rfl⟩
      | false =>
        simp only [Bool.not_false, if_true] at h
        obtain ⟨expr, s₁, hexpr₁, h⟩ := runs_bind.1 h
        obtain ⟨rfl, rfl⟩ := hexpr hexpr₁
        obtain ⟨rfl, rfl⟩ := runs_pure.1 h
        exact ⟨rfl, rfl⟩

theorem legalizeExpression_runs (ho : env.oracle = .systemVerilog) (hs : Sound s.module)
    {procedural : Bool} {flow : Flow} (hn : s.module.live? id = some n)
    (hop : n.op.isExpression = true) (hinline : n.op.isAlwaysInline = false)
    (hk : procedural = true ↔ s.module.kind? n.parent = some .procedural)
    (hstays : Module.Stays env.options s.module id n)
    (h : (legalizeExpression procedural id).Runs env s flow s') :
    s.module.Handled env.options id s'.module flow := by
  have hk' : procedural = false → s.module.kind? n.parent = some .graph := fun hp =>
    (hs.kind?_parent hn).resolve_left fun hk' => by
      rw [hk.2 hk'] at hp
      cases hp
  obtain ⟨needs, s₁, hneeds, h⟩ := runs_bind.1 h
  -- What follows once the expression is stored where it must be.
  have hrest : ∀ {t : State}, s.module.Stores id t.module →
      (env.options.disallowLocalVariables = true → s.module.kind? n.parent = some .procedural →
        s.module = t.module) → ∀ {flow : Flow}, (do
      if ← isBalanceable id then return .ofCreated (← balance id)
      match ← query (negativeConstant? · id) with
      | some (constant, value) => return .rewind (← subtractInstead id constant value)
      | none =>
        if (← node id).op = .structExplode then return .ofCreated (← explode id)
        if !procedural then
          if ← isExpression id then
            let _ ← reuseAssigned id
        return .next : Prep Flow).Runs env t flow s' →
        s.module.Handled env.options id s'.module flow := by
    intro t hst hstrict flow h
    have he := hst.rules.edits hs
    obtain ⟨n₁, hn₁, hop₁, hp₁⟩ := hst.live hn hinline
    rcases rewrite_runs ho he.sound hn₁ (hop₁ ▸ hinline) (fun hp => by
      rw [hp₁, he.kept.kind?]
      exact hk' hp) h with ⟨rfl, hexplode, h⟩ | ⟨rfl, hnormal, h⟩ | ⟨target, rfl, hrep⟩
    · exact .vanish hn (hop₁.symm.trans hexplode) hstays hst hstrict h
    · exact .finish hn hop hinline hstays hst hstrict hnormal (hp₁ ▸ h)
    · exact .replace hn hstays hst hstrict hrep
  rcases needsTemporary_runs ho hs hn hinline hk' hneeds with ⟨rfl, -⟩ | ⟨rfl, hp, hst⟩
  · cases needs with
    | true =>
      simp only [if_true] at h
      obtain ⟨settled, s₁, hsettled, h⟩ := runs_bind.1 h
      rcases spillOrHoist_runs ho hs hn hop hinline hk hstays hsettled with
        ⟨rfl, hhandled⟩ | ⟨rfl, hst, hstrict⟩
      · obtain ⟨rfl, rfl⟩ := runs_pure.1 h
        exact hhandled
      · simp only [Bool.false_eq_true, if_false] at h
        exact hrest hst hstrict h
    | false =>
      simp only [Bool.false_eq_true, if_false] at h
      exact hrest (.nothing rfl) (fun _ _ => rfl) h
  · simp only [Bool.false_eq_true, if_false] at h
    refine hrest hst (fun _ hk' => ?_) h
    rw [hk.2 hk'] at hp
    cases hp

/-- What is done to an expression, and whether it is noted as settled: other nodes are passed over. -/
def Expressed (env : Env) (id : NodeId) (n : Node) (visited : IdMap Unit) (s : State) (flow : Flow)
    (visited' : IdMap Unit) (s' : State) : Prop :=
  (n.op.isExpression = false ∧ flow = .next ∧ visited' = visited ∧ s = s') ∨
    (n.op.isExpression = true ∧ s.module.Handled env.options id s'.module flow ∧
      ((visited' = visited ∧ (n.op.isAlwaysInline = true →
          s.module.kind? n.parent = some .procedural ∨ visited.contains id.index = true ∨
            s'.module.live? id = none)) ∨
        (visited' = visited.insert id.index () ∧ n.op.isAlwaysInline = true ∧ flow = .next ∧
          s.module.Settles (· = id) s'.module)))

/-- What is done to a node that stays in its block. -/
theorem legalizeStaying_runs (ho : env.oracle = .systemVerilog) (hs : Sound s.module)
    {procedural : Bool} {visited visited' : IdMap Unit} {flow : Flow}
    (hn : s.module.live? id = some n)
    (hk : procedural = true ↔ s.module.kind? n.parent = some .procedural)
    (hstays : n.op.isExpression = true → Module.Stays env.options s.module id n)
    (h : (do
      if ← isAlwaysInline id then return (.next, ← legalizeInline id visited)
      return (← legalizeExpression procedural id, visited) :
        Prep (Flow × IdMap Unit)).Runs env s (flow, visited') s') :
    Expressed env id n visited s flow visited' s' := by
  obtain ⟨nd, hnd, -, rfl⟩ := Module.exists_of_live? hn
  obtain ⟨inline, s₁, hinline, h⟩ := runs_bind.1 h
  rw [runs_isAlwaysInline, ho, Oracle.isAlwaysInline_eq_ok_iff] at hinline
  obtain ⟨⟨nd', hnd', hinline⟩, rfl⟩ := hinline
  obtain rfl : nd = nd' := by simpa using hnd.symm.trans hnd'
  replace hinline : nd.core.op.isAlwaysInline = inline := hinline
  cases inline with
  | true =>
    simp only [if_true, runs_bind, runs_pure, Prod.mk.injEq] at h
    obtain ⟨v, s₂, hv, ⟨rfl, rfl⟩, rfl⟩ := h
    have hexpr := Op.isExpression_of_isAlwaysInline hinline
    replace hstays := hstays hexpr
    refine Or.inr ⟨hexpr, ?_⟩
    rcases legalizeInline_runs ho hs hn hinline hv with
      ⟨hvisited, rfl, rfl⟩ | ⟨rfl, hunused, he, hs'⟩ | ⟨rfl, hsettle⟩
    · exact ⟨.skip hn hinline hstays rfl, Or.inl ⟨rfl, fun _ => Or.inr (Or.inl hvisited)⟩⟩
    · refine ⟨.erase hn hinline hstays hunused he hs', Or.inl ⟨rfl, fun _ => Or.inr (Or.inr ?_)⟩⟩
      rw [he.live?, if_pos rfl]
    · exact ⟨.settle hn hinline hstays hsettle, Or.inr ⟨rfl, hinline, rfl, hsettle⟩⟩
  | false =>
    simp only [Bool.false_eq_true, if_false, runs_bind, runs_pure, Prod.mk.injEq] at h
    obtain ⟨f, s₂, hf, ⟨rfl, rfl⟩, rfl⟩ := h
    cases hop : nd.core.op.isExpression with
    | false =>
      obtain ⟨rfl, rfl⟩ := legalizeExpression_other ho hs hn hop hf
      exact Or.inl ⟨hop, rfl, rfl, rfl⟩
    | true =>
      exact Or.inr ⟨hop, legalizeExpression_runs ho hs hn hop hinline hk (hstays hop) hf,
        Or.inl ⟨rfl, fun hi => by rw [hinline] at hi; cases hi⟩⟩

/-- What is done to a node that its operation alone does not settle. -/
theorem legalizeRest_runs (ho : env.oracle = .systemVerilog) (hs : Sound s.module)
    {procedural : Bool} {visited visited' : IdMap Unit} {flow : Flow}
    (hn : s.module.live? id = some n)
    (hk : procedural = true ↔ s.module.kind? n.parent = some .procedural)
    (h : (do
      if procedural && (← options).disallowLocalVariables then
        if ← isExpression id then
          if ← leaveProcedure id then return (.next, visited)
      if ← isAlwaysInline id then return (.next, ← legalizeInline id visited)
      return (← legalizeExpression procedural id, visited) :
        Prep (Flow × IdMap Unit)).Runs env s (flow, visited') s') :
    Expressed env id n visited s flow visited' s' := by
  obtain ⟨nd, hnd, -, rfl⟩ := Module.exists_of_live? hn
  obtain ⟨o, s₁, hopt, h⟩ := runs_bind.1 h
  obtain ⟨rfl, rfl⟩ := runs_options.1 hopt
  split at h
  · next hcond =>
    obtain ⟨hproc, hstrict⟩ := Bool.and_eq_true_iff.1 hcond
    obtain ⟨expr, s₁, hexpr, h⟩ := runs_bind.1 h
    rw [runs_isExpression, ho, Oracle.isExpression_eq_ok_iff] at hexpr
    obtain ⟨⟨nd', hnd', hexpr⟩, rfl⟩ := hexpr
    obtain rfl : nd = nd' := by simpa using hnd.symm.trans hnd'
    replace hexpr : nd.core.op.isExpression = expr := hexpr
    cases expr with
    | true =>
      simp only [if_true] at h
      obtain ⟨left, s₁, hleft, h⟩ := runs_bind.1 h
      rcases leaveProcedure_runs ho hs hn hexpr (hk.1 hproc) hstrict hleft with
        ⟨rfl, rfl, hstays⟩ | ⟨rfl, hhandled⟩
      · exact legalizeStaying_runs ho hs hn hk (fun _ => hstays) h
      · simp only [if_true, runs_pure, Prod.mk.injEq] at h
        obtain ⟨⟨rfl, rfl⟩, rfl⟩ := h
        exact Or.inr ⟨hexpr, hhandled, Or.inl ⟨rfl, fun _ => Or.inl (hk.1 hproc)⟩⟩
    | false =>
      simp only [Bool.false_eq_true, if_false] at h
      exact legalizeStaying_runs ho hs hn hk (fun h => by rw [hexpr] at h; cases h) h
  · next hcond =>
    refine legalizeStaying_runs ho hs hn hk (fun _ hstrict hk' => absurd ?_ hcond) h
    rw [hk.2 hk', hstrict]
    rfl

/-- Handling a node of a block: what becomes of it, and it is settled at most once. -/
theorem legalizeNode_runs (ho : env.oracle = .systemVerilog) (hs : Sound s.module)
    {block : BlockId} {visited visited' : IdMap Unit} {flow : Flow}
    (hn : s.module.live? id = some n) (hp : n.parent = block)
    (h : (legalizeNode block id visited).Runs env s (flow, visited') s') :
    n.op.category ≠ .foreign ∧ s.module.Handled env.options id s'.module flow ∧
      ((visited' = visited ∧ (n.op.isAlwaysInline = true →
          s.module.kind? block = some .procedural ∨ visited.contains id.index = true ∨
            s'.module.live? id = none)) ∨
        (visited' = visited.insert id.index () ∧ n.op.isAlwaysInline = true ∧ flow = .next ∧
          s.module.Settles (· = id) s'.module)) := by
  subst hp
  simp only [legalizeNode, runs_bind, runs_query, Module.block_eq_ok_iff] at h
  obtain ⟨blk, _, ⟨hblk, rfl⟩, settled, s₁, hop, h⟩ := h
  have hk : blk.isProcedural = true ↔ s.module.kind? n.parent = some .procedural :=
    block_isProcedural_iff hblk
  obtain ⟨hforeign, hcases⟩ := legalizeOperation_runs ho hs hn hk hop
  refine ⟨hforeign, ?_⟩
  have hnot : n.op.isExpression = false → ¬ n.op.isAlwaysInline = true := fun hexpr hinline => by
    rw [Op.isExpression_of_isAlwaysInline hinline] at hexpr
    cases hexpr
  rcases hcases with ⟨rfl, hexpr, hhandled⟩ | ⟨rfl, hinst, hhandled, n₁, hn₁, hop₁, hp₁⟩ |
    ⟨rfl, hinst, rfl, hlogic, hclocked⟩
  · simp only [if_true, runs_pure, Prod.mk.injEq] at h
    obtain ⟨⟨rfl, rfl⟩, rfl⟩ := h
    exact ⟨hhandled, Or.inl ⟨rfl, fun hi => absurd hi (hnot hexpr)⟩⟩
  · simp only [Bool.false_eq_true, if_false] at h
    have hexpr : n₁.op.isExpression = false := by
      rw [hop₁]
      cases hexpr : n.op.isExpression with
      | false => rfl
      | true =>
        rw [Op.isInstance_of_isExpression hexpr] at hinst
        cases hinst
    obtain ⟨-, hrules⟩ | ⟨_, _, hflow, -⟩ := hhandled.rules
    · have he := hrules.edits hs
      rcases legalizeRest_runs ho he.sound hn₁ (by rw [hp₁, he.kept.kind?]; exact hk) h with
        ⟨-, rfl, rfl, rfl⟩ | ⟨hexpr₁, -⟩
      · exact ⟨hhandled, Or.inl ⟨rfl, fun hi => absurd hi (hnot (hop₁ ▸ hexpr))⟩⟩
      · rw [hexpr] at hexpr₁
        cases hexpr₁
    · cases hflow
  · simp only [Bool.false_eq_true, if_false] at h
    rcases legalizeRest_runs ho hs hn hk h with ⟨hexpr, rfl, rfl, rfl⟩ | ⟨-, hhandled, hvisited⟩
    · exact ⟨.other hn hexpr hinst hlogic hclocked rfl,
        Or.inl ⟨rfl, fun hi => absurd hi (hnot hexpr)⟩⟩
    · exact ⟨hhandled, hvisited⟩

end Prep

end NetPrep
