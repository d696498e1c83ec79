import Mathlib
import NetPrep.Proofs.Keeping

/-!
# Copies for each use

Settling what must be printed where it is used misuses nothing. A worklist holds nodes of this kind;
one that was erased in the meantime is passed over.
-/

namespace NetPrep

open Prepare Prep

namespace Prep

variable {env : Env} {s s' : State} {id : NodeId} {v : ValueId}

/-- A node of a module that is there is in the store. -/
theorem IsInline.exists_node {m : Module} (h : IsInline m id) :
    ∃ nd, m.node? id = some nd ∧ nd.op.isAlwaysInline = true := by
  obtain ⟨n, hn, hop⟩ := h
  obtain ⟨nd, hnd, rfl⟩ := Option.map_eq_some_iff.1 hn
  exact ⟨nd, hnd, hop⟩

theorem alwaysInlineAmong_keeps (ho : env.oracle = .systemVerilog) {vs : List ValueId}
    (hs : s.Orderly) (hvs : ∀ v ∈ vs, s.module.Usable v) : (alwaysInlineAmong vs).Keeps env s := by
  induction vs with
  | nil => exact .pure hs []
  | cons v vs ih =>
    refine .bind (ih fun w hw => hvs w (List.mem_cons_of_mem _ hw)) fun rest s₁ hrun _ => ?_
    obtain ⟨rfl, -⟩ := alwaysInlineAmong_runs ho hrun
    refine .definingNode? (hvs v (by simp)) (.pure hs rest) fun d nd i _ hnd => ?_
    obtain ⟨nd', hnd', -⟩ := Module.exists_of_live? hnd
    refine .isAlwaysInline ho hnd' ?_
    split <;> exact .pure hs _

theorem alwaysInlineOperands_keeps (ho : env.oracle = .systemVerilog) {n : Node} (hs : s.Orderly)
    (hn : s.module.live? id = some n) : (alwaysInlineOperands id).Keeps env s := by
  obtain ⟨nd, hnd, -, rfl⟩ := Module.exists_of_live? hn
  exact .node hnd (alwaysInlineAmong_keeps ho hs fun w hw => hs.usable_operand hn hw)

theorem InlineOf.usable {m : Module} (hw : WellFormed m) (h : InlineOf m id v) : m.Usable v := by
  obtain ⟨n, hn, -, hv⟩ := h
  exact hw.usable_of_mem_results hn (by simp [hv])

/-- Copying a node for all uses of its result but one. -/
theorem cloneForUses_keeps (ho : env.oracle = .systemVerilog) {fuel : Nat} {worklist : List NodeId}
    (hs : s.Orderly) (hin : InlineOf s.module id v) :
    (cloneForUses id v fuel worklist).Keeps env s := by
  induction fuel generalizing s worklist with
  | zero => exact .outOfFuel
  | succ fuel ih =>
    refine .value hs (hin.usable hs.toWellFormed) fun x _ hmem _ => ?_
    cases huses : x.uses with
    | nil => exact .pure hs worklist
    | cons u us =>
      cases us with
      | nil => exact .pure hs worklist
      | cons u' us =>
        have hin' := hin
        obtain ⟨n, hn, hop, hv⟩ := hin'
        have hu : s.module.Uses u v := (hmem u).1 (by simp [huses])
        have hu' := hu
        obtain ⟨nu, hnu, -⟩ := hu'
        refine .cloneNode hs hn hv (Op.regionKinds_of_isAlwaysInline hop) (hs.sound.in_before hnu)
          (hs.placed hnu) fun copyId copy type s₁ htype hc hl₁ => ?_
        refine .result hc.live?_self (i := 0) rfl ?_
        have htypes : s₁.module.type? copy = s₁.module.type? v := by
          rw [hc.kept.type? htype]
          exact hc.type?_result (i := 0) rfl
        refine .setOperand hl₁.orderly (hc.uses_iff.2 (Or.inl hu)) (hc.usable_result (i := 0) rfl)
          htypes fun s₂ hr hl₂ => .count hl₂.orderly fun hs₃ => ?_
        have hcopy := hr.live hc.live?_self
        refine .bind (alwaysInlineOperands_keeps ho hs₃ hcopy) fun more s₃ hmore hl₃ => ?_
        obtain ⟨rfl, -⟩ := alwaysInlineOperands_runs ho hmore
        exact ih hs₃ ⟨_, hr.live (hc.live hn), hop, hv⟩

theorem settleInline_keeps (ho : env.oracle = .systemVerilog) {worklist : List NodeId}
    (hs : s.Orderly) (hin : IsInline s.module id) : (settleInline id worklist).Keeps env s := by
  obtain ⟨nd, hnd, hop⟩ := hin.exists_node
  refine .node hnd ?_
  split
  · next v he hv =>
    have hn : InlineOf s.module id v := ⟨_, Module.live?_of_node? hnd he, hop, hv⟩
    refine .fuel (.bind (cloneForUses_keeps ho hs hn) fun w s₁ hrun hl => ?_)
    obtain ⟨hin₁, -⟩ := cloneForUses_runs ho hs.sound hn hrun
    have hs₁ := hl.orderly
    refine .value hs₁ (hin₁.usable hs₁.toWellFormed) fun x _ hmem _ => ?_
    cases huses : x.uses with
    | nil => exact .pure hs₁ w
    | cons u us =>
      obtain ⟨n₁, hn₁, hop₁, -⟩ := hin₁
      obtain ⟨nu, hnu, -⟩ := (hmem u).1 (by simp [huses])
      by_cases hself : u.node = id
      · -- The node uses itself, and stays where it is.
        refine .moveNode_self hs₁ (by simp [hself]) ?_
        exact .bind (alwaysInlineOperands_keeps ho hs₁ hn₁) fun _ _ _ hl₂ => .pure hl₂.orderly _
      · refine .moveNode hs₁ hn₁ (hs₁.regions_eq_nil hn₁ (Op.regionKinds_of_isAlwaysInline hop₁))
          (hs₁.sound.in_before hnu) (hs₁.placed hnu) (by simp [hself]) (by simp) fun s₂ hm hl₂ => ?_
        exact .bind (alwaysInlineOperands_keeps ho hl₂.orderly (hm.live hn₁))
          fun _ _ _ hl₃ => .pure hl₃.orderly _
  · exact .pure hs worklist

theorem settleAllInline_keeps (ho : env.oracle = .systemVerilog) {fuel : Nat}
    {worklist : List NodeId} (hs : s.Orderly) (hwork : ∀ j ∈ worklist, IsInline s.module j) :
    (settleAllInline fuel worklist).Keeps env s := by
  induction fuel generalizing s worklist with
  | zero =>
    cases worklist with
    | nil => exact .pure hs ()
    | cons id worklist => exact .outOfFuel
  | succ fuel ih =>
    cases worklist with
    | nil => exact .pure hs ()
    | cons id worklist =>
      have hin := hwork id (by simp)
      refine .bind (settleInline_keeps ho hs hin) fun w s₁ hrun hl => ih hl.orderly fun j hj => ?_
      obtain ⟨more, rfl, hmore, -⟩ := settleInline_runs ho hs.sound hin hrun
      rcases List.mem_append.1 hj with hj | hj
      · exact hmore.inline j hj
      · exact (hwork j (List.mem_cons_of_mem _ hj)).mono hl.edits.kept

theorem inlineEverywhere_keeps (ho : env.oracle = .systemVerilog) (hs : s.Orderly)
    (hin : IsInline s.module id) : (inlineEverywhere id).Keeps env s :=
  .fuel (settleAllInline_keeps ho hs (by simpa using hin))

/-- What is done to one operand by `inlineOperands`. -/
theorem inlineOperand_keeps (ho : env.oracle = .systemVerilog) (hs : s.Orderly)
    (hv : s.module.Usable v) : (do
      match ← query (·.definingNode? v) with
      | some operand => if ← isAlwaysInline operand then inlineEverywhere operand
      | none => pure () : Prep Unit).Keeps env s := by
  refine .definingNode? hv (.pure hs ()) fun d nd _ _ hnd => ?_
  obtain ⟨nd', hnd', -, -⟩ := Module.exists_of_live? hnd
  refine .isAlwaysInline ho hnd' ?_
  split
  · next hop => exact inlineEverywhere_keeps ho hs ⟨_, Module.core_of_node? hnd', hop⟩
  · exact .pure hs ()

theorem inlineOperand_runs (ho : env.oracle = .systemVerilog) (hs : Sound s.module) {r : Unit}
    (h : (do
      match ← query (·.definingNode? v) with
      | some operand => if ← isAlwaysInline operand then inlineEverywhere operand
      | none => pure () : Prep Unit).Runs env s r s') :
    s.module.Inlines (fun _ => True) s'.module := by
  simp only [runs_bind, runs_query] at h
  obtain ⟨d, _, ⟨-, rfl⟩, h⟩ := h
  cases d with
  | none =>
    obtain ⟨-, rfl⟩ := runs_pure.1 h
    exact .refl _
  | some d =>
    simp only [runs_bind, runs_isAlwaysInline, ho, Oracle.isAlwaysInline_eq_ok_iff] at h
    obtain ⟨b, _, ⟨⟨nd, hnd, hop⟩, rfl⟩, h⟩ := h
    cases b with
    | false =>
      obtain ⟨-, rfl⟩ := runs_pure.1 h
      exact .refl _
    | true =>
      exact (inlineEverywhere_runs ho hs ⟨_, Module.core_of_node? hnd, hop⟩ h).inlines.mono
        fun _ _ => trivial

theorem inlineOperands_keeps (ho : env.oracle = .systemVerilog) {n : Node} (hs : s.Orderly)
    (hn : s.module.live? id = some n) : (inlineOperands id).Keeps env s := by
  obtain ⟨nd, hnd, -, rfl⟩ := Module.exists_of_live? hn
  refine .node hnd (.forM (P := fun s => ∀ v ∈ nd.operands, s.module.Usable v) hs
    (fun v hv => hs.usable_operand hn hv) fun v hv s hs hall => ?_)
  exact ⟨inlineOperand_keeps ho hs (hall v hv), fun s' hrun _ w hw =>
    (inlineOperand_runs ho hs.sound hrun).usable (hall w hw)⟩

end Prep

end NetPrep
