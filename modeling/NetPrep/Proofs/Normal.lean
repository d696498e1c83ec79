import Mathlib
import NetPrep.Proofs.Acts
import NetPrep.Proofs.Checking
import NetPrep.Proofs.Passes
import NetPrep.Proofs.Walk

/-!
# Normal form

Operators with many operands become trees, structs are taken apart field by field, and adding a
negative constant becomes a subtraction. What is made in place of a node is handled next, and nothing
else becomes reducible, so that nothing reducible is left behind the scan. Where storage is accessed
directly the scan comes to every reducible node.
-/

namespace NetPrep

open Prepare

namespace Module

variable {o : Options} {m m' : Module} {block b c : BlockId} {F : NodeId → Prop} {id x : NodeId}
  {n n' : Node}

/-- Operators have at most two operands, no struct is taken apart, and no negative constant is added. -/
def Normal (m : Module) : Prop := ∀ {id n}, m.live? id = some n →
  (n.op.isCommutative = true → n.operands.length ≤ 2) ∧ n.op ≠ .structExplode ∧
    ∀ {lhs rhs d i value}, n.op = .add → n.operands = [lhs, rhs] →
      m.def? rhs = some (.result d i) → m.HasOp (· = .constant value) d → 0 ≤ value

theorem IsReducible.hasOp (h : m.IsReducible x) :
    m.HasOp (fun op => op.isCommutative = true ∨ op = .structExplode) x := by
  obtain ⟨n, hn, ⟨hop, -⟩ | ⟨hop, -⟩ | ⟨hop, -⟩⟩ := h
  · exact ⟨n, core_of_live? hn, Or.inl hop⟩
  · exact ⟨n, core_of_live? hn, Or.inr hop⟩
  · exact ⟨n, core_of_live? hn, Or.inl (by rw [hop]; rfl)⟩

theorem IsReducible.not_loose (h : m.IsReducible x) : ¬ m.Loose x := by
  rintro ⟨n, hn, hop⟩
  obtain ⟨n', hn', hop'⟩ := h.hasOp
  obtain rfl := Option.some.inj (hn.symm.trans hn')
  revert hop hop'
  cases n.op <;> simp [Op.isAlwaysInline, Op.isConstant, Op.isCommutative]

theorem IsReducible.not_assign (h : m.IsReducible x) : ¬ m.HasOp (· = .assign) x := by
  rintro ⟨n, hn, hop⟩
  obtain ⟨n', hn', hop'⟩ := h.hasOp
  obtain rfl := Option.some.inj (hn.symm.trans hn')
  rw [hop] at hop'
  simp [Op.isCommutative] at hop'

theorem not_isReducible_of_isSettled (hn : m.live? x = some n) (h : n.IsSettled) :
    ¬ m.IsReducible x := by
  rintro ⟨n', hn', hcases⟩
  obtain rfl := Option.some.inj (hn.symm.trans hn')
  rcases h with hops | ⟨hcomm, hexplode⟩
  · rcases hcases with ⟨-, hlen, -⟩ | ⟨-, hne⟩ | ⟨-, lhs, rhs, -, -, -, hops', -⟩
    · simp [hops] at hlen
    · exact hne hops
    · simp [hops] at hops'
  · rcases hcases with ⟨hop, -⟩ | ⟨hop, -⟩ | ⟨hop, -⟩
    · rw [hcomm] at hop
      cases hop
    · exact hexplode hop
    · rw [hop] at hcomm
      cases hcomm

/-! ## What an edit makes reducible -/

/-- A node with as many operands as before, none of them a constant that was not there, is reducible
only if it was before. -/
theorem IsReducible.of_kept (h : m'.IsReducible x) (hk : m.Kept m') (hs : Sound m)
    (hn : m.live? x = some n) (hn' : m'.live? x = some n')
    (hlen : n'.operands.length = n.operands.length)
    (hnew : ∀ v, m'.Uses ⟨x, 1⟩ v → m.Uses ⟨x, 1⟩ v ∨ m.IsDerived v) : m.IsReducible x := by
  obtain ⟨n₁, hn₁, hcases⟩ := h
  obtain rfl := Option.some.inj (hn'.symm.trans hn₁)
  obtain ⟨n₂, hn₂, hop, hres, -⟩ := hk.node (core_of_live? hn)
  obtain rfl := Option.some.inj ((core_of_live? hn').symm.trans hn₂)
  rw [hop, hres, hlen, ← List.length_pos_iff, hlen, List.length_pos_iff] at hcases
  refine ⟨n, hn, hcases.imp_right fun h => h.imp_right ?_⟩
  rintro ⟨hadd, lhs, rhs, d, i, value, hops, hdef, hd, hneg⟩
  have huse : m'.Uses ⟨x, 1⟩ rhs := ⟨n', hn', by simp [hops]⟩
  rcases hnew rhs huse with hu | ⟨d', i', hdef', hop'⟩
  · obtain ⟨n₁, hn₁, hget⟩ := hu
    obtain rfl := Option.some.inj (hn.symm.trans hn₁)
    obtain ⟨lhs', rhs', hops'⟩ := List.length_eq_two.1 (hlen.symm.trans (by simp [hops]))
    obtain rfl : rhs' = rhs := by simpa [hops'] using hget
    obtain ⟨e, hdef₀, hlive⟩ := hs.usable ⟨n, hn, hget⟩
    obtain rfl := Option.some.inj ((hk.def? hdef₀).symm.trans hdef)
    obtain ⟨nd, hnd⟩ := hlive rfl
    exact ⟨hadd, lhs', rhs', d, i, value, hops', hdef₀, hd.of_kept hk hnd, hneg⟩
  · obtain ⟨nd, hnd, hconst⟩ := hop'.mono hk
    obtain ⟨nd', hnd', hvalue⟩ := hd
    obtain ⟨rfl, -⟩ : d' = d ∧ i' = i := by simpa using (hk.def? hdef').symm.trans hdef
    obtain rfl := Option.some.inj (hnd.symm.trans hnd')
    rw [hvalue] at hconst
    cases hconst

/-- What is reducible after an edit was so before, or is made or moved around the block that is
legalized. -/
theorem Act.reducible (h : Act block F m m') (hs : Sound m) (hx : x ∈ m'.nodesOf c)
    (hr : m'.IsReducible x) :
    (x ∈ m.nodesOf c ∧ m.IsReducible x) ∨ (F x ∧ m.Inside c block) := by
  have he := h.edits hs
  obtain ⟨n', hn', hp⟩ := he.sound.mem_nodesOf_iff.1 hx
  have hsame : ∀ {n : Node}, m.live? x = some n → n'.operands = n.operands → m.IsReducible x :=
    fun hn hops => hr.of_kept he.kept hs hn hn' (congrArg _ hops) fun v hu => by
      obtain ⟨n₁, hn₁, hget⟩ := hu
      obtain rfl := Option.some.inj (hn'.symm.trans hn₁)
      exact Or.inl ⟨_, hn, hops ▸ hget⟩
  cases h with
  | relabel h =>
    obtain ⟨n, hn, rfl⟩ := h.live_cases hn'
    exact Or.inl ⟨hs.mem_nodesOf_iff.2 ⟨n, hn, hp⟩, hsame hn rfl⟩
  | create h _ _ _ _ hform =>
    rcases h.live_cases hn' with ⟨rfl, rfl⟩ | ⟨-, hn⟩
    · rcases hform with hsettled | ⟨hF, hin⟩
      · exact absurd hr (not_isReducible_of_isSettled hn' hsettled)
      · exact Or.inr ⟨hF, hp ▸ h.parent ▸ hin⟩
    · exact Or.inl ⟨hs.mem_nodesOf_iff.2 ⟨n', hn, hp⟩, hsame hn rfl⟩
  | redirect h _ hlen hnew =>
    obtain ⟨n, hn, rfl⟩ := h.live_cases hn'
    exact Or.inl ⟨hs.mem_nodesOf_iff.2 ⟨n, hn, hp⟩,
      hr.of_kept he.kept hs hn hn' (hlen _ _) fun v hu => hnew _ v hu⟩
  | @move b pos id nid h _ hid _ _ hform =>
    obtain ⟨n, hn, rfl⟩ := h.live_cases hn'
    by_cases hxid : x = id
    · subst hxid
      obtain rfl := Option.some.inj (hid.symm.trans hn)
      rcases hform with hsettled | ⟨hF, hin⟩
      · exact absurd (hsame hn rfl) (not_isReducible_of_isSettled hn hsettled)
      · exact Or.inr ⟨hF, hp ▸ (if_pos rfl).symm ▸ hin⟩
    · exact Or.inl ⟨hs.mem_nodesOf_iff.2 ⟨n, hn, (if_neg hxid).symm.trans hp⟩, hsame hn rfl⟩
  | erase h =>
    obtain ⟨-, hn⟩ := h.live_cases hn'
    exact Or.inl ⟨hs.mem_nodesOf_iff.2 ⟨n', hn, hp⟩, hsame hn rfl⟩

theorem Acts.reducible (h : Acts block F m m') (hs : Sound m) (hx : x ∈ m'.nodesOf c)
    (hr : m'.IsReducible x) :
    (x ∈ m.nodesOf c ∧ m.IsReducible x) ∨ (F x ∧ m.Inside c block) := by
  induction h with
  | refl => exact Or.inl ⟨hx, hr⟩
  | tail h hstep ih =>
    have he := Acts.edits h hs
    rcases hstep.reducible he.sound hx hr with ⟨hx, hr⟩ | ⟨hF, hin⟩
    · exact ih hx hr
    · exact Or.inr ⟨hF, he.sameTree.symm.inside hin⟩

/-! ## Nodes of a scan -/

theorem SettlesOperands.gone {ids : List NodeId} (h : SettlesOperands ids m m') (hs : Sound m)
    (hid : m.live? id = none) (hlt : id.index < m.nodes.size) : m'.live? id = none :=
  have hacts : Acts m.body (fun _ => False) m m' := h.acts
  Acts.gone hacts hs hid hlt

theorem Explodes.gone {ids : List NodeId} (h : m.Explodes id ids m') (hn : m.live? id = some n) :
    m'.live? id = none := by
  obtain ⟨-, -, -, -, hextract, -, he, hs₂, hsettle⟩ := h
  exact hsettle.gone hs₂ ((he.live? id).trans (if_pos rfl))
    ((lt_of_live? hn).trans_le (hextract.kept.trans he.kept).nodes_size)

/-- A node that is replaced is gone. -/
theorem Replaces.gone {target : NodeId} (h : m.Replaces id target m') : m'.live? id = none := by
  cases h with
  | balance hn _ _ _ h =>
    obtain ⟨-, -, -, -, -, -, hgrow, hname, -, hr, -, -, he, hs₄, hsettle⟩ := h
    have hk : Kept _ _ := hname.elim (fun h => h ▸ .refl _) fun h => h.kept
    exact hsettle.gone hs₄ ((he.live? id).trans (if_pos rfl)) ((lt_of_live? hn).trans_le
      (((hgrow.kept.trans hk).trans hr.kept).trans he.kept).nodes_size)
  | subtract h =>
    obtain ⟨hn, -, -, -, -, -, -, -, -, -, hpos, -, hsub, -, hr, -, -, he, -, hconst, hs₅,
      hsettle⟩ := h
    have hk := ((hpos.kept.trans hsub.kept).trans hr.kept).trans he.kept
    have hgone := (he.live? id).trans (if_pos rfl)
    rcases hconst with ⟨rfl, -⟩ | ⟨-, he'⟩
    · exact hsettle.gone hs₅ hgone ((lt_of_live? hn).trans_le hk.nodes_size)
    · refine hsettle.gone hs₅ ?_ ((lt_of_live? hn).trans_le (hk.trans he'.kept).nodes_size)
      rw [he'.live?, hgone]
      exact ite_self none
  | explode hn _ _ h => exact h.gone hn

/-- What replacing a node makes is the node that the scan goes on with, or after it. -/
theorem Replaces.acts_ahead {target : NodeId} (h : m.Replaces id target m') (hd : Direct m)
    (hn : m.live? id = some n) :
    Acts n.parent (fun j => j = target ∨ Precedes (m'.nodesOf n.parent) target j) m m' := by
  cases h with
  | balance hn' hop hlen hids h =>
    obtain rfl := Option.some.inj (hn.symm.trans hn')
    obtain ⟨rest, rfl⟩ := List.head?_eq_some_iff.1 hids
    have hordered := (h.ordered hd.toSound hn hop).1
    exact h.acts hd.toSound hn hop (Nat.lt_of_succ_lt hlen) .self fun j hj =>
      (List.mem_cons.1 hj).imp_right ((List.pairwise_cons.1 hordered).1 j)
  | subtract h => exact h.acts
  | explode hn' hop _ h => exact h.acts hn' hop

/-- A node that the scan leaves behind in its block is not reducible. -/
theorem Handled.not_isReducible (h : m.Handled o id m' .next) (hs : Sound m)
    (hn : m.live? id = some n) (hid : id ∈ m'.nodesOf n.parent) : ¬ m'.IsReducible id := by
  have he : m.Edits m' := by
    obtain ⟨-, hrules⟩ | ⟨_, _, hflow, -⟩ := h.rules
    · exact hrules.edits hs
    · cases hflow
  obtain ⟨n', hid', hp⟩ := he.sound.mem_nodesOf_iff.1 hid
  intro hr
  have hform := (hr.hasOp.of_kept he.kept hn).of_live hn
  have hexpr : n.op.isExpression = true :=
    hform.elim Op.isExpression_of_isCommutative fun h => by rw [h]; rfl
  have hinline : ¬ n.op.isAlwaysInline = true := fun hi =>
    hr.not_loose (HasOp.mono ⟨n, core_of_live? hn, Or.inl hi⟩ he.kept)
  have hself : ∀ {n₁}, m.live? id = some n₁ → n₁ = n := fun h => Option.some.inj (h.symm.trans hn)
  cases h with
  | leave hn' hop =>
    rw [← hself hn', hop] at hexpr
    cases hexpr
  | route hn' hop =>
    rw [← hself hn', Op.isExpression_of_isClocked hop] at hexpr
    cases hexpr
  | anchor hn' hop =>
    rw [← hself hn'] at hexpr
    rw [Op.isInstance_of_isExpression hexpr] at hop
    cases hop
  | other hn' hop =>
    rw [hself hn', hexpr] at hop
    cases hop
  | hoist hn' _ hk _ _ h => exact h.not_mem hs hn (hself hn' ▸ hk) hid
  | capture hn' _ _ _ heffect =>
    rw [hself hn'] at heffect
    rcases hform with hop | hop
    · revert hop heffect
      cases n.op <;> simp [Op.isCommutative, Op.hasSideEffects]
    · rw [hop] at heffect
      cases heffect
  | erase _ _ _ _ h =>
    rw [h.live?, if_pos rfl] at hid'
    cases hid'
  | skip hn' hop => exact hinline (hself hn' ▸ hop)
  | settle hn' hop => exact hinline (hself hn' ▸ hop)
  | withdraw hn' hop _ hk _ _ h h' =>
    have hleft := h.not_mem hs hn (hself hn' ▸ hk)
    rcases h' with rfl | ⟨⟨n₁, hn₁, -⟩, h'⟩
    · exact hleft hid
    · obtain ⟨n₂, hn₂, -, -, hp₂⟩ := h'.live hn₁
      obtain rfl := Option.some.inj (hid'.symm.trans hn₂)
      refine hleft ((h.edits hs hn' (Op.regionKinds_of_isExpression hop)).sound.mem_nodesOf_iff.2
        ⟨n₁, hn₁, hp₂.symm.trans hp⟩)
  | finish hn' _ hinline' _ hst _ hnormal h =>
    rcases h with rfl | ⟨-, h⟩
    · exact hnormal hr
    · have hacts : Acts n.parent (fun _ => False) _ m' := h.acts
      rcases Acts.reducible hacts (hst.rules.edits hs).sound hid hr with ⟨-, hr₁⟩ | ⟨hF, -⟩
      · exact hnormal hr₁
      · exact hF
  | vanish hn' hop _ hst _ h =>
    obtain ⟨n₁, hn₁, -⟩ := hst.live hn' (by rw [hop]; rfl)
    rw [h.gone hn₁] at hid'
    cases hid'

/-- Whatever is reducible in a block comes at the node where the scan goes on, or after it. -/
def Pending (m : Module) (block : BlockId) (cursor : Option NodeId) : Prop :=
  ∀ x ∈ m.nodesOf block, m.IsReducible x →
    ∃ y, cursor = some y ∧ (y = x ∨ Precedes (m.nodesOf block) y x)

theorem ScanStep.pending {visited visited' : IdMap Unit} {next : Option NodeId}
    (h : ScanStep o block id visited visited' next m m') (hd : Direct m)
    (hpending : m.Pending block (some id)) : m'.Pending block next := by
  obtain ⟨n, hn, rfl, -⟩ := h.live
  -- What was reducible before is still ahead, but for the node itself.
  have hahead : ∀ x ∈ m.nodesOf n.parent, m.IsReducible x → x ≠ id →
      ∃ y, next = some y ∧ (y = x ∨ Precedes (m'.nodesOf n.parent) y x) := fun x hx hr hne => by
    obtain ⟨_, hc, hx⟩ := hpending x hx hr
    cases hc
    exact h.ahead hd hr.not_loose hr.not_assign (hx.resolve_left hne.symm)
  intro x hx hr
  rcases h.handled with ⟨hhandled, -⟩ | ⟨target, rfl, hhandled⟩
  · have hacts : Acts n.parent (· = id) m m' := by
      obtain ⟨-, hrules⟩ | ⟨_, _, hflow, -⟩ := hhandled.rules
      · exact hrules.acts hd.toSound hn (fun _ => .self) rfl
      · cases hflow
    have hne : x ≠ id := by
      rintro rfl
      exact hhandled.not_isReducible hd.toSound hn hx hr
    obtain ⟨hx₀, hr₀⟩ := (Acts.reducible hacts hd.toSound hx hr).resolve_right fun h => hne h.1
    exact hahead x hx₀ hr₀ hne
  · obtain ⟨hflow, -⟩ | ⟨_, m₁, hflow, hst, hrep⟩ := hhandled.rules
    · cases hflow
    · cases hflow
      have hadv : Advances (fun _ => False) m m₁ := hst.advances hd
      obtain ⟨n₁, hn₁, hp₁⟩ := hadv.frame.live hn not_false
      have hst₁ : Acts n.parent (fun _ => False) m m₁ := hst.acts hd.toSound hn .self
      have hrep₁ := hrep.acts_ahead hadv.direct hn₁
      rw [hp₁] at hrep₁
      rcases Acts.reducible hrep₁ hadv.direct.toSound hx hr with ⟨hx₁, hr₁⟩ | ⟨hnew, -⟩
      · obtain ⟨hx₀, hr₀⟩ := (Acts.reducible hst₁ hd.toSound hx₁ hr₁).resolve_right fun h => h.1
        refine hahead x hx₀ hr₀ ?_
        rintro rfl
        obtain ⟨n', hn', -⟩ := hr
        rw [hrep.gone] at hn'
        cases hn'
      · exact ⟨_, rfl, hnew.imp_left Eq.symm⟩

/-- Nothing reducible is left in a block that was scanned. -/
theorem Scans.pending {visited : IdMap Unit} {cursor : Option NodeId}
    (h : Scans o block visited cursor m m') (hd : Direct m) (hpending : m.Pending block cursor) :
    m'.Pending block none := by
  induction h with
  | done => exact hpending
  | step h _ ih => exact ih (h.advances hd).direct (h.pending hd hpending)

/-- A scan from the first node on leaves nothing reducible in its block. -/
theorem Scans.not_isReducible (h : Scans o block .empty (m.nodesOf block).head? m m')
    (hd : Direct m) (hx : x ∈ m'.nodesOf block) : ¬ m'.IsReducible x := fun hr => by
  obtain ⟨_, hnone, -⟩ := h.pending hd (fun x hx _ => by
    obtain ⟨y, r, hl⟩ := List.exists_cons_of_ne_nil (List.ne_nil_of_mem hx)
    rw [hl] at hx ⊢
    exact ⟨y, rfl, (List.mem_cons.1 hx).imp Eq.symm fun hx =>
      Precedes.cons_iff.2 (Or.inl ⟨rfl, hx⟩)⟩) x hx hr
  cases hnone

theorem Orders.reducible (h : Orders block m m') (hs : Sound m) (hx : x ∈ m'.nodesOf c)
    (hr : m'.IsReducible x) : x ∈ m.nodesOf c ∧ m.IsReducible x :=
  have hacts : Acts block (fun _ => False) m m' := h.acts hs
  (Acts.reducible hacts hs hx hr).resolve_right fun h => h.1

/-- Legalizing a block leaves nothing reducible in it, and makes nothing reducible but around it. -/
theorem Scans.normalizes {m₁ : Module} (h : Scans o block .empty (m.nodesOf block).head? m m₁)
    (h' : Orders block m₁ m') (hd : Direct m) :
    (∀ x ∈ m'.nodesOf block, ¬ m'.IsReducible x) ∧ ∀ c, ¬ m.Inside c block →
      (∀ x ∈ m.nodesOf c, ¬ m.IsReducible x) → ∀ x ∈ m'.nodesOf c, ¬ m'.IsReducible x := by
  have hs₁ := (h.edits hd.toSound).sound
  refine ⟨fun x hx hr => ?_, fun c hc hD x hx hr => ?_⟩
  · obtain ⟨hx₁, hr₁⟩ := h'.reducible hs₁ hx hr
    exact h.not_isReducible hd hx₁ hr₁
  · obtain ⟨hx₁, hr₁⟩ := h'.reducible hs₁ hx hr
    obtain ⟨hx₀, hr₀⟩ := (Acts.reducible (h.acts hd.toSound) hd.toSound hx₁ hr₁).resolve_right
      fun h => hc h.2
    exact hD x hx₀ hr₀

end Module

/-- Where storage is accessed directly, what legalization leaves is in normal form. -/
theorem normal_of_legalize {m m' : Module} {names names' : NameTable} {options : Options}
    (hm : WellTyped m) (hp : m.Plain) (h : Yields .legalize options m names m' names') :
    m'.Normal := by
  obtain ⟨env, s, s', ho, -, rfl, -, rfl, -, hrun⟩ := h.runs
  have hd := hm.direct hp
  have hlegal := Prep.legalize_runs ho hd.toSound hrun
  have he := hlegal.edits hd.toSound
  have hfinish := hlegal.finishes
    (I := fun m => Direct m ∧ m.Fitted) (D := fun b m => ∀ x ∈ m.nodesOf b, ¬ m.IsReducible x)
    (fun hm => hm.1.toSound) (fun hm _ hscan horder => by
      obtain ⟨hd, hf⟩ := hm
      have hd₁ := (hscan.advances hd).direct
      have horder₁ : Module.Acts _ (fun _ => False) _ _ := horder.acts hd₁.toSound
      exact ⟨⟨(horder.advances hd₁).direct,
        Module.Acts.fitted horder₁ (Module.Acts.fitted (hscan.acts hd.toSound) hf)⟩,
        hscan.normalizes horder hd⟩) ⟨hd, hm.fitted⟩ (List.pairwise_singleton _ _)
  obtain ⟨⟨-, hfit⟩, -, hnormal⟩ := hfinish
  intro id n hn
  have hin := (he.sound.toNested.placed hn).inside
  rw [he.kept.body] at hin
  have hnot := hnormal _ (List.mem_singleton_self _) _ (he.sameTree.symm.inside hin) id
    (he.sound.mem_nodesOf_iff.2 ⟨n, hn, rfl⟩)
  refine ⟨fun hop => Nat.le_of_not_lt fun hlen => ?_,
    fun hop => hnot ⟨n, hn, Or.inr (Or.inl ⟨hop, (hfit hn).operand (Or.inl hop)⟩)⟩,
    fun hop hops hdef hvalue => Int.not_lt.1 fun hneg =>
      hnot ⟨n, hn, Or.inr (Or.inr ⟨hop, _, _, _, _, _, hops, hdef, hvalue, hneg⟩)⟩⟩
  obtain ⟨v, hres⟩ := (hfit hn).result (by rw [hop]; rfl)
  exact hnot ⟨n, hn, Or.inl ⟨hop, hlen, by rw [hres]; rfl⟩⟩

/-- A sum of three values and a constant that is negative. -/
def Module.sums : Module :=
  .sketch [.int 8] [(.input, 0), (.input, 0), (.input, 0), (.output, 0)]
    [(.back ⟨0⟩, .add, [0, 1, 2], [0]), (.back ⟨0⟩, .constant (-3), [], [0]),
      (.back ⟨0⟩, .add, [3, 4], [0]), (.back ⟨0⟩, .output, [5], [])]

/-- Two binary sums take the place of the first one, and a difference that of the second. -/
theorem normal_sums : Valid Module.sums ∧ Module.sums.Plain ∧ ∃ m' names',
    Yields .legalize .default .sums Module.sketchNames m' names' ∧ m'.Normal ∧
      (m'.nodesOf ⟨0⟩).filterMap (fun id => (m'.live? id).map (·.op)) =
        [.add, .add, .constant 3, .sub, .output] := by
  have hv : Valid Module.sums := valid_of_isValid (by decide +kernel)
  have hp : Module.sums.Plain := plain_of_isPlain (by decide +kernel)
  obtain ⟨m', names', h, hm'⟩ := exists_yields_of_leaves
    (p := fun m' _ => (m'.nodesOf ⟨0⟩).filterMap (fun id => (m'.live? id).map (·.op)) ==
      [.add, .add, .constant 3, .sub, .output])
    (show leaves .legalize .default .sums Module.sketchNames _ = true by decide +kernel)
  exact ⟨hv, hp, m', names', h, normal_of_legalize hv.toWellTyped hp h, beq_iff_eq.1 hm'⟩

/-- There are no paths to elements or fields of storage: what is printed at its uses is a read. -/
def Module.Pathless (m : Module) : Prop :=
  ∀ id ∈ m.nodeIds, ∀ n, m.live? id = some n → n.op.isAlwaysInline = true → n.op = .read

/-- Storage that holds storage, the read of the read of it before that read, and behind them an
operator with three operands. When the scan comes to the outer read, it moves it behind the operator,
where it is used, and goes on with the inner one; that follows, and the scan follows it. -/
def Module.nested : Module :=
  .sketch [.int 8, .storage ⟨0⟩, .storage ⟨1⟩]
    [(.input, 0), (.input, 0), (.input, 0), (.output, 0), (.output, 0)]
    [(.back ⟨0⟩, .wire, [], [2]), (.back ⟨0⟩, .read, [3], [1]), (.before ⟨1⟩, .read, [4], [0]),
      (.back ⟨0⟩, .and, [0, 1, 2], [0]), (.back ⟨0⟩, .output, [5, 6], [])]

/-- Behind a read of storage that is itself read an operator with many operands can stay. -/
theorem not_normal_nested : ¬ ∀ (options : Options) (m m' : Module) (names names' : NameTable),
    Valid m → m.Pathless → Yields .legalize options m names m' names' → m'.Normal := by
  intro h
  have hv : Valid Module.nested := valid_of_isValid (by decide +kernel)
  have hp : Module.nested.Pathless := by
    have hall : (Module.nested.nodeIds.all fun id => (Module.nested.live? id).all fun n =>
      !n.op.isAlwaysInline || n.op == .read) = true := by decide +kernel
    intro id hid n hn hinline
    simpa [hn, hinline] using List.all_eq_true.1 hall id hid
  obtain ⟨m', names', hy, hm'⟩ := exists_yields_of_leaves
    (p := fun m' _ => (m'.live? ⟨3⟩).any fun n => n.op == .and && n.operands.length == 3)
    (show leaves .legalize .default .nested Module.sketchNames _ = true by decide +kernel)
  obtain ⟨n, hn, hop⟩ := (Option.any_eq_true _ _).1 hm'
  simp only [Bool.and_eq_true, beq_iff_eq] at hop
  have hlen := (h _ _ _ _ _ hv hp hy hn).1 (by rw [hop.1]; rfl)
  omega

end NetPrep
