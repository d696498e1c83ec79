import Mathlib
import NetPrep.Prepare.DeadLogic
import NetPrep.Prepare.Prettify
import NetPrep.Proofs.Legalizing

/-!
# Removing dead logic and making a module readable

The two passes around legalization as runs: the one erases expressions that nothing uses, the other
gives expressions temporaries.
-/

namespace NetPrep

open Prepare Prep

namespace Module

variable {m m' m'' : Module}

/-- Unused expressions are erased, one after another. -/
inductive Prunes : Module → Module → Prop
  | refl (m : Module) : Prunes m m
  | step {id : NodeId} {n : Node} {m m₁ m' : Module} (hn : m.live? id = some n)
      (hop : n.op.isExpression = true) (hunused : ∀ u, ∀ v ∈ n.results, ¬ m.Uses u v)
      (h : m.Erases m₁ id) (hs₁ : Sound m₁) (hrest : Prunes m₁ m') : Prunes m m'

/-- Expressions are given temporaries, one after another. -/
inductive Prettifies : Module → Module → Prop
  | refl (m : Module) : Prettifies m m
  | step {id : NodeId} {n : Node} {m m₁ m' : Module} (hn : m.live? id = some n)
      (hop : n.op.isExpression = true) (h : m.Spills id false m₁) (hrest : Prettifies m₁ m') :
      Prettifies m m'

theorem Prettifies.trans (h : Prettifies m m') (h' : Prettifies m' m'') : Prettifies m m'' := by
  induction h with
  | refl => exact h'
  | step hn hop h _ ih => exact .step hn hop h (ih h')

theorem Prettifies.edits (h : Prettifies m m') (hs : Sound m) : Edits m m' := by
  induction h with
  | refl => exact .refl hs
  | step _ _ h _ ih =>
    have h₁ := h.edits hs
    exact h₁.trans (ih h₁.sound)

end Module

namespace Prep

variable {env : Env} {s s' : State} {id : NodeId}

/-- A test that changes nothing can be used to filter a list. -/
theorem state_eq_of_filterM {f : NodeId → Prep Bool} {ids r : List NodeId}
    (hf : ∀ {id b s s'}, (f id).Runs env s b s' → s = s')
    (h : (ids.filterM f).Runs env s r s') : s = s' := by
  suffices haux : ∀ {ids acc r : List NodeId} {s s' : State},
      (ids.filterAuxM f acc).Runs env s r s' → s = s' by
    obtain ⟨acc, s₁, h₁, h⟩ := runs_bind.1 h
    exact (haux h₁).trans (runs_pure.1 h).2
  intro ids
  induction ids with
  | nil => exact fun h => (runs_pure.1 h).2
  | cons id ids ih =>
    intro acc r s s' h
    obtain ⟨b, s₁, hb, h⟩ := runs_bind.1 h
    exact (hf hb).trans (ih h)

/-- A node that is found dead is an expression that is still there. -/
theorem isDead_runs (ho : env.oracle = .systemVerilog) {dead : Bool}
    (h : (isDead id).Runs env s dead s') :
    s = s' ∧ (dead = true → ∃ n, s.module.live? id = some n ∧ n.op.isExpression = true) := by
  simp only [isDead, runs_bind, runs_node] at h
  obtain ⟨nd, _, ⟨hnd, rfl⟩, h⟩ := h
  split at h
  · obtain ⟨rfl, rfl⟩ := runs_pure.1 h
    exact ⟨rfl, fun hdead => by cases hdead⟩
  · next he =>
    obtain ⟨expr, s₁, hexpr, h⟩ := runs_bind.1 h
    rw [runs_isExpression, ho, Oracle.isExpression_eq_ok_iff] at hexpr
    obtain ⟨⟨nd', hnd', hexpr⟩, rfl⟩ := hexpr
    obtain rfl : nd = nd' := by simpa using hnd.symm.trans hnd'
    cases expr with
    | false =>
      obtain ⟨rfl, rfl⟩ := runs_pure.1 h
      exact ⟨rfl, fun hdead => by cases hdead⟩
    | true =>
      simp only [Bool.not_true, Bool.false_eq_true, if_false] at h
      obtain ⟨free, s₁, hfree, h⟩ := runs_bind.1 h
      obtain ⟨-, rfl⟩ := runs_isMemoryEffectFree.1 hfree
      have hlive : ∃ n, s.module.live? id = some n ∧ n.op.isExpression = true :=
        ⟨_, Module.live?_of_node? hnd (by simpa using he), hexpr⟩
      split at h
      · obtain ⟨rfl, rfl⟩ := runs_pure.1 h
        exact ⟨rfl, fun hdead => by cases hdead⟩
      · exact ⟨(runs_query.1 h).2, fun _ => hlive⟩

/-- Listing what an erased node used changes nothing. -/
theorem pushDeadOperands_runs (ho : env.oracle = .systemVerilog) {vs : List ValueId}
    {worklist ids : List NodeId} (h : (pushDeadOperands vs worklist).Runs env s ids s') : s = s' := by
  induction vs generalizing worklist with
  | nil => exact (runs_pure.1 h).2
  | cons v vs ih =>
    obtain ⟨d, s₁, hd, h⟩ := runs_bind.1 h
    obtain rfl := (runs_query.1 hd).2
    cases d with
    | none => exact ih h
    | some id =>
      obtain ⟨dead, s₁, hdead, h⟩ := runs_bind.1 h
      obtain ⟨rfl, -⟩ := isDead_runs ho hdead
      exact ih h

theorem eraseDead_runs (ho : env.oracle = .systemVerilog) {fuel erased r : Nat}
    {worklist : List NodeId} (hs : Sound s.module)
    (h : (eraseDead fuel erased worklist).Runs env s r s') :
    s.module.Prunes s'.module := by
  induction fuel generalizing s erased worklist with
  | zero =>
    cases worklist with
    | nil => exact (runs_pure.1 h).2 ▸ .refl _
    | cons => exact absurd h runs_fault
  | succ fuel ih =>
    cases worklist with
    | nil => exact (runs_pure.1 h).2 ▸ .refl _
    | cons id worklist =>
      obtain ⟨dead, s₁, hdead, h⟩ := runs_bind.1 h
      obtain ⟨rfl, hlive⟩ := isDead_runs ho hdead
      cases dead with
      | false => exact ih hs h
      | true =>
        simp only [if_true, runs_bind, runs_node, runs_edit] at h
        obtain ⟨nd, _, ⟨-, rfl⟩, _, _, ⟨m₁, hm₁, rfl⟩, ids, s₂, hids, h⟩ := h
        obtain ⟨n, hn, hop⟩ := hlive rfl
        have hr := hs.toNested.regions_eq_nil hn (Op.regionKinds_of_isExpression hop)
        obtain ⟨hunused, he, hs₁⟩ := hs.eraseNode hn hr hm₁
        obtain rfl := pushDeadOperands_runs ho hids
        exact .step hn hop hunused he hs₁ (ih (s := { s with module := m₁ }) hs₁ h)

theorem pruneDeadLogic_runs (ho : env.oracle = .systemVerilog) {r : Nat} (hs : Sound s.module)
    (h : pruneDeadLogic.Runs env s r s') : s.module.Prunes s'.module := by
  simp only [pruneDeadLogic, runs_bind, runs_query, runs_fuel, runs_count, runs_pure] at h
  obtain ⟨ids, _, ⟨-, rfl⟩, dead, s₁, hdead, _, _, ⟨-, rfl⟩, erased, s₂, herase, _, _, rfl, -, rfl⟩ := h
  obtain rfl := state_eq_of_filterM (fun h => (isDead_runs ho h).1) hdead
  exact (eraseDead_runs ho hs herase :)

/-- Deciding whether a node gets a temporary changes nothing. -/
theorem shouldSpill_runs {memo memo' : CostMemo} {wanted : Bool}
    (h : (shouldSpill memo id).Runs env s (wanted, memo') s') : s = s' := by
  simp only [shouldSpill, runs_bind, runs_node] at h
  obtain ⟨nd, _, ⟨-, rfl⟩, h⟩ := h
  split at h
  · exact (runs_pure.1 h).2
  · simp only [runs_bind, runs_query] at h
    obtain ⟨may, _, ⟨-, rfl⟩, h⟩ := h
    split at h
    · simp only [runs_bind, runs_query, runs_options] at h
      obtain ⟨⟨cost, memo₁⟩, _, ⟨-, rfl⟩, o, _, ⟨-, rfl⟩, h⟩ := h
      split at h
      · exact (runs_pure.1 h).2
      · simp only [runs_bind, runs_pure] at h
        obtain ⟨b, s₁, hheuristic, -, rfl⟩ := h
        simp only [heuristicSpills, runs_bind, runs_options] at hheuristic
        obtain ⟨o, _, ⟨-, rfl⟩, h⟩ := hheuristic
        split at h
        · simp only [runs_bind, runs_node] at h
          obtain ⟨nd, _, ⟨-, rfl⟩, h⟩ := h
          split at h
          · simp only [runs_bind, runs_resolve] at h
            obtain ⟨t, _, ⟨-, rfl⟩, h⟩ := h
            split at h <;> exact (runs_pure.1 h).2
          · exact (runs_pure.1 h).2
        · exact (runs_pure.1 h).2
    · exact (runs_pure.1 h).2

/-- A node is left alone, or it is an expression about which is decided. -/
theorem prettifyNode_cases (ho : env.oracle = .systemVerilog) {memo memo' : CostMemo}
    (h : (prettifyNode memo id).Runs env s memo' s') :
    (s = s' ∧ memo = memo' ∧ ∀ n, s.module.live? id = some n → n.op.isExpression = false) ∨
      ∃ n wanted, s.module.live? id = some n ∧ n.op.isExpression = true ∧
        (shouldSpill memo id).Runs env s (wanted, memo') s ∧
        (wanted = false ∧ s = s' ∨ wanted = true ∧ (spill id false).Runs env s () s') := by
  obtain ⟨nd, s₁, hget, h⟩ := runs_bind.1 h
  obtain ⟨hnd, rfl⟩ := runs_node.1 hget
  split at h
  · next he =>
    obtain ⟨rfl, rfl⟩ := runs_pure.1 h
    refine Or.inl ⟨rfl, rfl, fun n hn => ?_⟩
    obtain ⟨nd', hnd', he', -⟩ := Module.exists_of_live? hn
    obtain rfl := Option.some.inj (hnd.symm.trans hnd')
    exact absurd (he'.symm.trans he) Bool.false_ne_true
  · next he =>
    have hn := Module.live?_of_node? hnd (by simpa using he)
    obtain ⟨expr, s₁, hexpr, h⟩ := runs_bind.1 h
    rw [runs_isExpression, ho, Oracle.isExpression_eq_ok_iff] at hexpr
    obtain ⟨⟨nd', hnd', hexpr⟩, rfl⟩ := hexpr
    obtain rfl := Option.some.inj (hnd.symm.trans hnd')
    cases expr with
    | false =>
      obtain ⟨rfl, rfl⟩ := runs_pure.1 h
      refine Or.inl ⟨rfl, rfl, fun n hn' => ?_⟩
      obtain rfl := Option.some.inj (hn.symm.trans hn')
      exact hexpr
    | true =>
      simp only [Bool.not_true, Bool.false_eq_true, if_false] at h
      obtain ⟨⟨wanted, memo₁⟩, s₁, hwanted, hdo⟩ := runs_bind.1 h
      obtain rfl := shouldSpill_runs hwanted
      cases wanted with
      | false =>
        obtain ⟨rfl, rfl⟩ := runs_pure.1 hdo
        exact Or.inr ⟨_, false, hn, hexpr, hwanted, Or.inl ⟨rfl, rfl⟩⟩
      | true =>
        obtain ⟨u, s₁, hspill, hdone⟩ := runs_bind.1 hdo
        obtain ⟨rfl, rfl⟩ := runs_pure.1 hdone
        exact Or.inr ⟨_, true, hn, hexpr, hwanted, Or.inr ⟨rfl, hspill⟩⟩

theorem prettifyNode_runs (ho : env.oracle = .systemVerilog) {memo memo' : CostMemo}
    (hs : Sound s.module) (h : (prettifyNode memo id).Runs env s memo' s') :
    s.module.Prettifies s'.module := by
  obtain ⟨rfl, -⟩ | ⟨n, wanted, hn, hop, -, ⟨-, rfl⟩ | ⟨-, hspill⟩⟩ := prettifyNode_cases ho h
  · exact .refl _
  · exact .refl _
  · exact .step hn hop (spill_runs hs hn hspill) (.refl _)

/-- Steps over a list that each make a module readable do so together. -/
theorem prettifies_of_foldlM {α : Type} {f : CostMemo → α → Prep CostMemo} {l : List α}
    {memo memo' : CostMemo}
    (hf : ∀ {s s' : State} {memo memo' : CostMemo} {a : α}, Sound s.module →
      (f memo a).Runs env s memo' s' → s.module.Prettifies s'.module)
    (hs : Sound s.module) (h : (l.foldlM f memo).Runs env s memo' s') :
    s.module.Prettifies s'.module := by
  refine Runs.foldlM (P := fun _ t => s.module.Prettifies t.module) h (.refl _) ?_
  intro a _ memo t memo' t' ht h
  exact ht.trans (hf (ht.edits hs).sound h)

theorem prettifyBlock_runs (ho : env.oracle = .systemVerilog) {depth : Nat} {memo memo' : CostMemo}
    {block : BlockId} (hs : Sound s.module)
    (h : (prettifyBlock depth memo block).Runs env s memo' s') :
    s.module.Prettifies s'.module := by
  induction depth generalizing s s' memo memo' block with
  | zero => exact absurd h runs_fault
  | succ depth ih =>
    simp only [prettifyBlock, runs_bind, runs_query] at h
    obtain ⟨blk, _, ⟨-, rfl⟩, h⟩ := h
    split at h
    · exact (runs_pure.1 h).2 ▸ .refl _
    · simp only [runs_bind, runs_query] at h
      obtain ⟨ids, _, ⟨-, rfl⟩, memo₁, s₁, hnodes, ids', _, ⟨-, rfl⟩, h⟩ := h
      have hnodes := prettifies_of_foldlM (prettifyNode_runs ho) hs hnodes
      refine hnodes.trans (prettifies_of_foldlM (fun {t t' memo memo' id} ht h => ?_)
        (hnodes.edits hs).sound h)
      simp only [runs_bind, runs_node] at h
      obtain ⟨nd, _, ⟨-, rfl⟩, h⟩ := h
      exact prettifies_of_foldlM ih ht h

theorem prettify_runs (ho : env.oracle = .systemVerilog) {r : Unit} (hs : Sound s.module)
    (h : prettify.Runs env s r s') : s.module.Prettifies s'.module := by
  simp only [prettify, runs_bind, runs_fuel, runs_query, runs_pure] at h
  obtain ⟨fuel, _, ⟨-, rfl⟩, body, _, ⟨-, rfl⟩, memo, s₁, h, -, rfl⟩ := h
  exact prettifyBlock_runs ho hs h

end Prep

end NetPrep
