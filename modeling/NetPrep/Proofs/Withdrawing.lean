import Mathlib
import NetPrep.Proofs.Leading
import NetPrep.Proofs.Normal
import NetPrep.Proofs.Resting
import NetPrep.Proofs.Trailing

/-!
# Procedural code without local variables

Without local variables the scan of a procedural block leaves behind it no variable, and no expression
that could leave: each takes a node of the block, or its effects are captured. A node that is handled is
at rest from then on, and those that are made in its place are ahead of the scan. Blocks that were
legalized before stay as they are.
-/

namespace NetPrep

open Prepare Prep

theorem Op.isExpression_of_hasSideEffects {op : Op} (h : op.hasSideEffects = true) :
    op.isExpression = true := by
  cases op <;> first | rfl | cases h

namespace Module

variable {o : Options} {flow : Flow} {m m' : Module} {b c block : BlockId} {S N : NodeId → Prop}
  {id x : NodeId} {n : Node} {cursor next : Option NodeId} {visited visited' : IdMap Unit}

/-- There is a reason for a node to stay in a block: its effects are captured, or it is an expression
without side effects that takes a node of the block. -/
def AtRest (m : Module) (b : BlockId) (x : NodeId) : Prop :=
  m.Deposited x ∨ (m.HasOp (fun op => op ≠ .logic ∧ op.hasSideEffects = false) x ∧ m.Tied b x)

theorem AtRest.of_retains (h : m.AtRest b x) (hr : Retains b S N m m') (hx : S x)
    (hop : m.HasOp Op.Weighs x) : m'.AtRest b x :=
  h.imp (hr.deposited hx) fun ⟨hpure, ht⟩ => ⟨hpure.mono hr.kept, hr.tied hx hop ht⟩

/-- The effects of nodes at rest are captured. -/
theorem secure_of_atRest (h : ∀ x, S x → m.AtRest b x) : m.Secure S := fun x hx =>
  (h x hx).symm.imp_left fun ⟨⟨n, hn, hop⟩, _⟩ => ⟨n, hn, hop.2⟩

/-- An expression whose only result is used once, by a blocking assignment to a register or a variable,
is the source of that assignment. -/
theorem IsCaptured.deposited (h : m.IsCaptured id) (hw : WellFormed m) (hf : m.Fitted)
    (hn : m.live? id = some n) (hop : n.op.hasSideEffects = true) : m.Deposited id := by
  obtain ⟨⟨a, k⟩, na, dest, d, i, nd, ha, hassign, hdest, hdef, hnd, hdecl, huses⟩ := h
  obtain ⟨v, hv⟩ := (hf hn).result (by simp [hop])
  have honly : ∀ u, m.Uses u v ↔ u = ⟨a, k⟩ := fun u => by
    simpa [hv] using huses n hn u
  have hst : m.IsStorage dest := ⟨d, i, nd, hdef, hnd, by obtain h | h := hdecl <;> rw [h] <;> rfl⟩
  have hsource : m.Uses ⟨a, k⟩ v := (honly _).2 rfl
  -- The destination is storage, which the node does not compute, so that it is not the use.
  have hne : dest ≠ v := by
    rintro rfl
    refine Module.not_isStorage (hw.result (core_of_live? hn) (i := 0) (by simp [hv]))
      (core_of_live? hn) ?_ hst
    exact Op.isDeclaration_of_isExpression (Op.isExpression_of_hasSideEffects hop)
  have hk : k = 1 := by
    obtain ⟨na', hna', hget⟩ := hsource
    obtain rfl := Option.some.inj (ha.symm.trans hna')
    obtain ⟨hlen, -⟩ := (hf ha).connection (by rw [hassign]; rfl)
    have hlt : k < 2 := hlen ▸ (List.getElem?_eq_some_iff.1 hget).1
    have hzero : k ≠ 0 := by
      rintro rfl
      exact hne (Option.some.inj (hdest.symm.trans hget))
    omega
  subst hk
  exact ⟨⟨n, core_of_live? hn, hop⟩, n, v, a, dest, hn, hv, honly, ⟨na, core_of_live? ha, hassign⟩,
    ⟨na, ha, hdest⟩, hst⟩

/-- An expression that is left in procedural code on purpose is at rest. -/
theorem Stays.atRest (h : Stays o m id n) (hm : m.Sustained) (hstrict : o.disallowLocalVariables = true)
    (hn : m.live? id = some n) (hop : n.op.isExpression = true) (hinline : n.op.isAlwaysInline = false)
    (hk : m.kind? n.parent = some .procedural) : m.AtRest n.parent id := by
  have hmem := hm.toSound.mem_nodesOf hn
  replace h := h hstrict hk
  split at h
  · next heffect =>
    obtain hcaptured | hnone := h
    · exact Or.inl (hcaptured.deposited hm.toWellFormed hm.fitted hn heffect)
    · obtain ⟨v, hv⟩ := (hm.fitted hn).result (by simp [heffect])
      exact absurd hv (hnone v)
  · next hpure =>
    obtain hi | ⟨v, hv, d, i, nd, hdef, hd, hp⟩ := h
    · exact absurd (hinline.symm.trans hi) Bool.false_ne_true
    · obtain ⟨k, hu⟩ := exists_uses_of_mem hn hv
      exact Or.inr ⟨⟨n, core_of_live? hn, Op.ne_logic_of_isExpression hop, by simpa using hpure⟩,
        hmem, d, hm.toSound.mem_nodesOf_iff.2 ⟨nd, hd, hp⟩, k, v, i, hu, hdef⟩

/-- The nodes of a block that may not stay there just so are ahead of the scan or at rest. -/
def Swept (m : Module) (b : BlockId) (cursor : Option NodeId) : Prop :=
  ∀ ⦃x⦄, x ∈ m.nodesOf b → m.HasOp Op.Weighs x →
    (∃ y, cursor = some y ∧ (y = x ∨ Precedes (m.nodesOf b) y x)) ∨ m.AtRest b x

/-- At the start of a scan all nodes are ahead. -/
theorem swept_head (m : Module) (b : BlockId) : m.Swept b (m.nodesOf b).head? := fun x hx _ => by
  obtain ⟨y, l, hl⟩ := List.exists_cons_of_ne_nil (List.ne_nil_of_mem hx)
  refine Or.inl ⟨y, by rw [hl]; rfl, ?_⟩
  rw [hl] at hx ⊢
  obtain rfl | hx := List.mem_cons.1 hx
  · exact Or.inl rfl
  · exact Or.inr (Precedes.cons_iff.2 (Or.inl ⟨rfl, hx⟩))

/-! ## One node -/

/-- The nodes of a block that a scan has left behind at rest when it is at a node. -/
def Behind (m : Module) (b : BlockId) (id x : NodeId) : Prop :=
  x ∈ m.nodesOf b ∧ m.HasOp Op.Weighs x ∧ m.AtRest b x ∧ x ≠ id ∧ ¬ Precedes (m.nodesOf b) id x

/-- What is behind the scan in procedural code does not take the node that it is at. -/
theorem aside_behind (hm : m.Sustained) (hk : m.kind? b = some .procedural) :
    m.Aside b (m.Behind b id) id where
  secure := secure_of_atRest fun x hx => hx.2.2.1
  ne hx := hx.2.2.2.1 rfl
  users hid x hx ht := by
    obtain ⟨hmem, ⟨nx, hnx, hweighs⟩, -, -, hnot⟩ := hx
    obtain ⟨n, hn, hg⟩ | ⟨n, hn, hop⟩ | ⟨⟨n, hn, hop⟩, -⟩ | ⟨hW, -⟩ | hdom := (hm.fed ht).ahead
    · obtain ⟨n', hn', hp⟩ := hm.toSound.mem_nodesOf_iff.1 hid
      obtain rfl := Option.some.inj (hn.symm.trans hn')
      rw [hp, hk] at hg
      cases hg
    · obtain rfl := Option.some.inj (hnx.symm.trans hn)
      exact Op.not_weighs (by simp [hop]) (by rw [hop]; rfl) hweighs
    · obtain rfl := Option.some.inj (hnx.symm.trans hn)
      exact Bool.false_ne_true (hweighs.isAlwaysInline.symm.trans hop)
    · cases hW
    · exact hnot (hdom.precedes hm.toSound hid hmem)

/-- A variable that leaves its process is no longer in its block. -/
theorem LeavesProcess.not_mem (h : m.LeavesProcess id m') (hn : m.live? id = some n)
    (hk : m.kind? n.parent = some .procedural) : id ∉ m'.nodesOf n.parent := by
  obtain ⟨-, hprocess, hp, hmove, hs'⟩ := h
  intro hmem
  obtain ⟨n', hn', hp'⟩ := hs'.mem_nodesOf_iff.1 hmem
  obtain rfl := Option.some.inj ((hmove.live hn).symm.trans hn')
  have hg := hprocess.graph hp
  rw [(if_pos rfl).symm.trans hp', hk] at hg
  cases hg

/-- A node that is handled and still there afterwards is at rest. -/
theorem Handled.atRest (h : m.Handled o id m' flow) (hm : m.Sustained) (hs' : Sound m')
    (hstrict : o.disallowLocalVariables = true) (hn : m.live? id = some n)
    (hk : m.kind? n.parent = some .procedural) (hweighs : n.op.Weighs)
    (hid : id ∈ m'.nodesOf n.parent) : m'.AtRest n.parent id := by
  have hs := hm.toSound
  have hinline := hweighs.isAlwaysInline
  have hgone : m'.live? id ≠ none := fun hnone => by
    obtain ⟨n', hn', -⟩ := hs'.mem_nodesOf_iff.1 hid
    simp [hnone] at hn'
  have hnot : ∀ {n'}, m.live? id = some n' → n'.op.isAlwaysInline = true → m'.AtRest n.parent id :=
    fun hn' hop => by
      obtain rfl := Option.some.inj (hn.symm.trans hn')
      exact absurd (hinline.symm.trans hop) Bool.false_ne_true
  cases h with
  | leave _ _ _ _ h => exact absurd hid (h.not_mem hn hk)
  | route hn' hop =>
    obtain rfl := Option.some.inj (hn.symm.trans hn')
    exact absurd hweighs (Op.not_weighs (Op.ne_logic_of_isClocked hop) (Op.isExpression_of_isClocked hop))
  | anchor hn' hop =>
    obtain rfl := Option.some.inj (hn.symm.trans hn')
    refine absurd hweighs (Op.not_weighs (Op.ne_logic_of_isInstance hop) (Bool.eq_false_iff.2 fun he => ?_))
    exact Bool.false_ne_true ((Op.isInstance_of_isExpression he).symm.trans hop)
  | other hn' hop _ hlogic =>
    obtain rfl := Option.some.inj (hn.symm.trans hn')
    obtain hl | ⟨hexpr, -⟩ := hweighs
    · exact absurd (hstrict.symm.trans (hlogic hl hk)) Bool.noConfusion
    · exact absurd (hop.symm.trans hexpr) Bool.false_ne_true
  | hoist _ _ _ _ _ h => exact absurd hid (h.not_mem hs hn hk)
  | capture hn' _ _ _ heffect h =>
    obtain rfl := Option.some.inj (hn.symm.trans hn')
    exact Or.inl (h.deposited hs hn heffect)
  | erase hn' hop => exact hnot hn' hop
  | skip hn' hop => exact hnot hn' hop
  | settle hn' hop => exact hnot hn' hop
  | @withdraw n' m₁ hn' hop _ _ _ _ h h' =>
    obtain rfl := Option.some.inj (hn.symm.trans hn')
    have hout := h.not_mem hs hn hk
    obtain rfl | ⟨-, h'⟩ := h'
    · exact absurd hid hout
    · have hs₁ := (h.edits hs hn (Op.regionKinds_of_isExpression hop)).sound
      obtain ⟨-, -, -, hmove, -⟩ := h
      obtain ⟨n₂, hn₂, -, -, hp₂⟩ := h'.live (hmove.live hn)
      obtain ⟨n₃, hn₃, hp₃⟩ := hs'.mem_nodesOf_iff.1 hid
      obtain rfl := Option.some.inj (hn₂.symm.trans hn₃)
      exact absurd (hs₁.mem_nodesOf_iff.2 ⟨_, hmove.live hn, hp₂.symm.trans hp₃⟩) hout
  | finish hn' hop _ hstays _ hproc _ h =>
    obtain rfl := Option.some.inj (hn.symm.trans hn')
    obtain rfl := hproc hstrict hk
    obtain rfl | ⟨hg, -⟩ := h
    · exact hstays.atRest hm hstrict hn hop hinline hk
    · rw [hk] at hg
      cases hg
  | vanish hn' _ _ _ hproc h =>
    obtain rfl := Option.some.inj (hn.symm.trans hn')
    obtain rfl := hproc hstrict hk
    exact absurd (h.gone hn) hgone
  | replace _ _ _ _ h => exact absurd h.gone hgone

/-- What is ahead of the scan of procedural code, and stays in the block, is still ahead after a step. -/
theorem ScanStep.still_ahead (h : ScanStep o block id visited visited' next m m') (hm : m.Sustained)
    (hstrict : o.disallowLocalVariables = true) (hk : m.kind? block = some .procedural)
    (hop : m.HasOp Op.Weighs x) (hx : Precedes (m.nodesOf block) id x) (hx' : x ∈ m'.nodesOf block) :
    ∃ y, next = some y ∧ (y = x ∨ Precedes (m'.nodesOf block) y x) := by
  have hs := hm.toSound
  have hs' := (h.edits hs).sound
  obtain ⟨n, hn, rfl, -⟩ := h.live
  obtain ⟨nx, hnx, hweighs⟩ := hop
  obtain ⟨hh, hf⟩ | ⟨target, rfl, hh⟩ := h.handled
  · refine hh.ahead hm hs' hstrict hn hk hf ?_ hx
    rintro ⟨nx', hnx', hassign⟩
    obtain rfl := Option.some.inj (hnx.symm.trans hnx')
    exact Op.not_weighs (by simp [hassign]) (by rw [hassign]; rfl) hweighs
  · obtain _ | _ | _ | _ | _ | _ | _ | _ | _ | _ | _ | _ | ⟨hn', -, -, hproc, hrep⟩ := hh
    obtain rfl := Option.some.inj (hn.symm.trans hn')
    obtain rfl := hproc hstrict hk
    refine ⟨target, rfl, Or.inr ((hrep.frame hs).2.precedes ?_ hx)⟩
    rintro (rfl | ⟨nx', hnx', hinline⟩ | ⟨-, hgone⟩)
    · exact hx.ne (hs.nodup _) rfl
    · obtain rfl := Option.some.inj (hnx.symm.trans hnx')
      exact Bool.false_ne_true (hweighs.isAlwaysInline.symm.trans hinline)
    · obtain ⟨nx', hnx', -⟩ := hs'.mem_nodesOf_iff.1 hx'
      simp [hgone] at hnx'

/-- A step of a scan of procedural code leaves nothing behind it that is not at rest. -/
theorem ScanStep.swept (h : ScanStep o block id visited visited' next m m') (hm : m.Sustained)
    (hstrict : o.disallowLocalVariables = true) (hk : m.kind? block = some .procedural)
    (hsw : m.Swept block (some id)) : m'.Swept block next := by
  have hs := hm.toSound
  have hs' := (h.edits hs).sound
  have hlive := h.live
  obtain ⟨n, hn, hp, -⟩ := hlive
  obtain ⟨flow, hh, hnext⟩ : ∃ flow, m.Handled o id m' flow ∧
      ∀ target, flow = .rewind target → next = some target := by
    obtain ⟨hh, -⟩ | ⟨target, hnext, hh⟩ := h.handled
    · exact ⟨_, hh, nofun⟩
    · exact ⟨_, hh, fun t ht => by cases ht; exact hnext⟩
  have hret : Retains block (m.Behind block id) (fun j => ∃ target, flow = .rewind target ∧
      (j = target ∨ Precedes (m'.nodesOf block) target j)) m m' :=
    hh.retains hm hstrict hn hk (fun _ => hp.symm) (aside_behind hm hk)
      fun target j ht _ hj => ⟨target, ht, hj⟩
  intro x hx hop
  obtain hold | ⟨target, ht, hj⟩ := hret.mem hx hop
  · obtain ⟨nx, hnx, -⟩ := hs.mem_nodesOf_iff.1 hold
    have hop₀ : m.HasOp Op.Weighs x := hop.of_kept hret.kept hnx
    by_cases hid : x = id
    · subst hid
      subst hp
      obtain rfl := Option.some.inj (hn.symm.trans hnx)
      exact Or.inr (hh.atRest hm hs' hstrict hn hk (hop₀.of_live hn) hx)
    by_cases hpre : Precedes (m.nodesOf block) id x
    · exact Or.inl (h.still_ahead hm hstrict hk hop₀ hpre hx)
    · obtain ⟨y, hy, hyx⟩ | hrest := hsw hold hop₀
      · cases hy
        exact absurd hyx (not_or.2 ⟨Ne.symm hid, hpre⟩)
      · exact Or.inr (hrest.of_retains hret ⟨hold, hop₀, hrest, hid, hpre⟩ hop₀)
  · exact Or.inl ⟨target, hnext target ht, hj.imp_left Eq.symm⟩

/-! ## Blocks -/

theorem Scans.sustained (h : Scans o block visited cursor m m') (hm : m.Sustained)
    (hstrict : o.disallowLocalVariables = true) : m'.Sustained := by
  induction h with
  | done => exact hm
  | step h _ ih => exact ih (h.sustained hm hstrict)

/-- Once procedural code is scanned all that is left in it is at rest. -/
theorem Scans.swept (h : Scans o block visited cursor m m') (hm : m.Sustained)
    (hstrict : o.disallowLocalVariables = true) (hk : m.kind? block = some .procedural)
    (hsw : m.Swept block cursor) : m'.Swept block none := by
  induction h with
  | done => exact hsw
  | step h _ ih =>
    exact ih (h.sustained hm hstrict) ((h.edits hm.toSound).kept.kind? _ ▸ hk) (h.swept hm hstrict hk hsw)

/-- No variable is at rest. -/
theorem Swept.not_logic (h : m.Swept b none) (hx : x ∈ m.nodesOf b) : ¬ m.HasOp (· = .logic) x := by
  rintro ⟨n, hn, hop⟩
  obtain ⟨y, hy, -⟩ | ⟨⟨n', hn', heffect⟩, -⟩ | ⟨⟨n', hn', hlogic, -⟩, -⟩ := h hx ⟨n, hn, Or.inl hop⟩
  · cases hy
  · obtain rfl := Option.some.inj (hn.symm.trans hn')
    simp [hop, Op.hasSideEffects] at heffect
  · obtain rfl := Option.some.inj (hn.symm.trans hn')
    exact hlogic hop

/-- The nodes that may not stay in a block just so. -/
def Resident (m : Module) (b : BlockId) (x : NodeId) : Prop := x ∈ m.nodesOf b ∧ m.HasOp Op.Weighs x

theorem Swept.secure (h : m.Swept b none) : m.Secure (m.Resident b) := secure_of_atRest fun _ hx =>
  (h hx.1 hx.2).resolve_left fun ⟨_, hy, _⟩ => nomatch hy

theorem Swept.of_retains (h : m.Swept b none) (hw : WellFormed m)
    (hr : Retains b (m.Resident b) (fun _ => False) m m') : m'.Swept b none := fun x hx hop => by
  have hold := (hr.mem hx hop).resolve_right not_false
  obtain ⟨n, hn, -⟩ := hw.mem_nodesOf_iff.1 hold
  have hop₀ := hop.of_kept hr.kept hn
  exact (h hold hop₀).imp (fun ⟨_, hy, _⟩ => nomatch hy)
    fun hrest => hrest.of_retains hr ⟨hold, hop₀⟩ hop₀

/-- A scan leaves a block alone that was legalized before and is not around the scanned one. -/
theorem Scans.swept_of_not_inside (h : Scans o block visited cursor m m') (hm : m.Sustained)
    (hstrict : o.disallowLocalVariables = true) (hk : m.kind? c = some .procedural)
    (hout : ¬ m.Inside c block) (hsw : m.Swept c none) : m'.Swept c none := by
  induction h with
  | done => exact hsw
  | @step visited visited' id next m m₁ m' h _ ih =>
    have he := h.edits hm.toSound
    obtain ⟨n, hn, hp, -⟩ := h.live
    obtain ⟨flow, hh⟩ : ∃ flow, m.Handled o id m₁ flow := by
      obtain ⟨hh, -⟩ | ⟨target, -, hh⟩ := h.handled <;> exact ⟨_, hh⟩
    have hnot : id ∉ m.nodesOf c := fun hmem => by
      obtain ⟨n', hn', rfl⟩ := hm.toSound.mem_nodesOf_iff.1 hmem
      obtain rfl := Option.some.inj (hn.symm.trans hn')
      exact hout (hp ▸ .self)
    have hret : Retains c (m.Resident c) (fun _ => False) m m₁ :=
      hh.retains hm hstrict hn hk (fun hin => absurd (hp ▸ hin) hout)
        (.of_not_mem hsw.secure (fun hr => hnot hr.1) hnot) fun _ _ _ he _ =>
          hout (by rw [← hp, he]; exact .self)
    exact ih (h.sustained hm hstrict) (he.kept.kind? c ▸ hk) (fun hin => hout (he.sameTree.symm.inside hin))
      (hsw.of_retains hm.toWellFormed hret)

/-- Once a block is legalized nothing that is procedural in it, or was legalized before, holds a node that
is not at rest. -/
theorem Scans.swept_of_orders {m₁ : Module} (h : Scans o block .empty (m.nodesOf block).head? m m₁)
    (h' : Orders block m₁ m') (hm : m.Sustained) (hstrict : o.disallowLocalVariables = true) :
    m'.Sustained ∧ (m'.kind? block = some .procedural → m'.Swept block none) ∧
      ∀ c, ¬ m.Inside c block → (m.kind? c = some .procedural → m.Swept c none) →
        m'.kind? c = some .procedural → m'.Swept c none := by
  have hm₁ := h.sustained hm hstrict
  have he := h.edits hm.toSound
  have he' := h'.edits hm₁.toSound
  have hsw : m₁.kind? block = some .procedural → m₁.Swept block none := fun hk =>
    h.swept hm hstrict (he.kept.kind? _ ▸ hk) (m.swept_head block)
  have hnone : m₁.kind? block = some .procedural → ∀ x ∈ m₁.nodesOf block, ¬ m₁.HasOp (· = .logic) x :=
    fun hk _ hx => (hsw hk).not_logic hx
  refine ⟨h'.sustained hm₁ hnone, fun hk => ?_, fun c hout hc hk => ?_⟩
  · rw [he'.kept.kind?] at hk
    exact h'.eq_of_forall hk (hnone hk) ▸ hsw hk
  · rw [he'.kept.kind?] at hk
    have hk₀ : m.kind? c = some .procedural := he.kept.kind? c ▸ hk
    have hsw₁ := h.swept_of_not_inside hm hstrict hk₀ hout (hc hk₀)
    have hout₁ : ¬ m₁.Inside c block := fun hin => hout (he.sameTree.symm.inside hin)
    refine hsw₁.of_retains hm₁.toWellFormed (h'.retains hm₁ hnone hk hout₁ fun x hx hr => ?_)
    obtain ⟨n, hn, rfl⟩ := hm₁.toSound.mem_nodesOf_iff.1 hx
    obtain ⟨n', hn', rfl⟩ := hm₁.toSound.mem_nodesOf_iff.1 hr.1
    obtain rfl := Option.some.inj (hn.symm.trans hn')
    exact hout₁ .self

/-! ## What is left of a process -/

/-- Procedural code declares no variable, and an expression without side effects that is in it and is not
printed at its uses takes a node of its own block. -/
def Withdrawn (m : Module) : Prop := ∀ ⦃id n⦄, m.live? id = some n →
  m.kind? n.parent = some .procedural → n.op ≠ .logic ∧
    (n.op.isExpression = true → n.op.hasSideEffects = false → n.op.isAlwaysInline = false → m.Bound n)

/-- The results of a node have one use, as the source of a blocking assignment to a declaration. -/
def AssignedOnce (m : Module) (id : NodeId) : Prop :=
  ∃ a na dest d i nd, m.nodeUses id = .ok [⟨a, 1⟩] ∧ m.live? a = some na ∧ na.op = .blockingAssign ∧
    na.operands[0]? = some dest ∧ m.def? dest = some (.result d i) ∧ m.live? d = some nd ∧
      nd.op.isDeclaration = true

/-- The uses of a node with one result, if that is used once. -/
theorem nodeUses_of_forall {v : ValueId} {u : Use} (hw : WellFormed m) (hn : m.live? id = some n)
    (hres : n.results = [v]) (honly : ∀ q, m.Uses q v ↔ q = u) : m.nodeUses id = .ok [u] := by
  obtain ⟨nd, hnd, -, rfl⟩ := exists_of_live? hn
  obtain ⟨x, hx⟩ := hw.exists_value ((honly u).2 rfl)
  have huses : x.uses = [u] := by
    refine List.perm_singleton.1 ((List.perm_ext_iff_of_nodup (hw.uses_nodup hx)
      (List.nodup_singleton u)).2 fun q => ?_)
    rw [hw.mem_uses hx, honly, List.mem_singleton]
  replace hres : nd.results = [v] := hres
  simp [nodeUses, node_eq_ok_iff.2 hnd, hres, value_eq_ok_iff.2 hx, huses, bind, Except.bind, pure,
    Except.pure]

theorem Deposited.assignedOnce (h : m.Deposited id) (hs : Sound m) : m.AssignedOnce id := by
  obtain ⟨-, n, v, a, dest, hn, hres, honly, hop, ⟨na, ha, hdest⟩, d, i, nd, hdef, hnd, hdecl⟩ := h
  obtain ⟨d', hdef', hlive⟩ := hs.operand ⟨na, ha, hdest⟩
  obtain rfl := Option.some.inj (hdef.symm.trans hdef')
  obtain ⟨nd', hnd'⟩ := hlive rfl
  obtain rfl := Option.some.inj (hnd.symm.trans (core_of_live? hnd'))
  exact ⟨a, na, dest, d, i, nd, nodeUses_of_forall hs.toWellFormed hn hres honly, ha, hop.of_live ha,
    hdest, hdef, hnd', hdecl⟩

theorem Tied.bound (h : m.Tied n.parent id) (hw : WellFormed m) (hn : m.live? id = some n) :
    m.Bound n := by
  obtain ⟨-, d, hd, k, v, i, ⟨n', hn', hv⟩, hdef⟩ := h
  obtain rfl := Option.some.inj (hn.symm.trans hn')
  obtain ⟨nd, hnd, hp⟩ := hw.mem_nodesOf_iff.1 hd
  exact ⟨v, List.mem_of_getElem? hv, d, i, nd, hdef, hnd, hp⟩

end Module

/-- Legalization without local variables leaves nothing in procedural code that is not at rest. -/
theorem swept_of_legalizes {m m' : Module} {names names' : NameTable} {options : Options}
    {id : NodeId} {n : Node} (hw : WellScoped m) (hstrict : options.disallowLocalVariables = true)
    (h : Yields .legalize options m names m' names') (hn : m'.live? id = some n)
    (hk : m'.kind? n.parent = some .procedural) (hop : n.op.Weighs) :
    Sound m' ∧ m'.AtRest n.parent id := by
  obtain ⟨env, s, s', ho, rfl, rfl, -, rfl, -, hrun⟩ := h.runs
  have hlegal := Prep.legalize_runs ho hw.toSound hrun
  have he := hlegal.edits hw.toSound
  have hin := (he.sound.toNested.placed hn).inside
  rw [he.kept.body] at hin
  have hswept := (hlegal.finishes (I := fun m => m.Sustained)
    (D := fun b m => m.kind? b = some .procedural → m.Swept b none) (fun hm => hm.toSound)
    (fun hm _ hscan horder => hscan.swept_of_orders horder hm hstrict) hw.sustained
    (List.pairwise_singleton _ _)).2.2 _ (List.mem_singleton_self _) _ (he.sameTree.symm.inside hin) hk
  exact ⟨he.sound, (hswept (he.sound.mem_nodesOf hn) ⟨n, Module.core_of_live? hn, hop⟩).resolve_left
    fun ⟨_, hy, _⟩ => nomatch hy⟩

/-- Without local variables a legalized process is empty of local state, and of logic that could stand
outside of it. -/
theorem withdrawn_of_legalize {m m' : Module} {names names' : NameTable} {options : Options}
    (hw : WellScoped m) (hstrict : options.disallowLocalVariables = true)
    (h : Yields .legalize options m names m' names') : m'.Withdrawn := by
  intro id n hn hk
  have hrest := fun hop : n.op.Weighs => swept_of_legalizes hw hstrict h hn hk hop
  refine ⟨fun hlogic => ?_, fun hexpr hpure hinline => ?_⟩
  · -- A variable has no effects to be captured, and is no expression.
    obtain ⟨-, ⟨heffect, -⟩ | ⟨hop, -⟩⟩ := hrest (Or.inl hlogic)
    · exact absurd (heffect.of_live hn) (by simp [hlogic, Op.hasSideEffects])
    · exact (hop.of_live hn).1 hlogic
  · obtain ⟨hs', ⟨heffect, -⟩ | ⟨-, htied⟩⟩ := hrest (Or.inr ⟨hexpr, hinline⟩)
    · exact absurd (hpure.symm.trans (heffect.of_live hn)) Bool.false_ne_true
    · exact htied.bound hs'.toWellFormed hn

/-- A process with a variable and a register, an expression that takes the register and one that takes
the variable. -/
def Module.sheltered : Module :=
  .sketch [.int 8, .storage ⟨0⟩] [(.input, 0), (.output, 0)]
    [(.back ⟨0⟩, .initial, [], []), (.back ⟨1⟩, .logic, [], [1]), (.back ⟨1⟩, .reg, [], [1]),
      (.back ⟨1⟩, .read, [2], [0]), (.back ⟨1⟩, .add, [3, 0], [0]),
      (.back ⟨1⟩, .blockingAssign, [1, 4], []), (.back ⟨1⟩, .read, [1], [0]),
      (.back ⟨1⟩, .xor, [5, 0], [0]), (.back ⟨1⟩, .blockingAssign, [2, 6], []),
      (.back ⟨0⟩, .output, [0], [])]

/-- The variable leaves the process, and what takes it follows; what takes the register stays. -/
theorem withdrawn_sheltered : Valid Module.sheltered ∧ ∃ m' names',
    Yields .legalize { Options.default with disallowLocalVariables := true } .sheltered
      Module.sketchNames m' names' ∧ m'.Withdrawn ∧
        m'.nodesOf ⟨0⟩ = [⟨1⟩, ⟨6⟩, ⟨7⟩, ⟨0⟩, ⟨9⟩] ∧ m'.nodesOf ⟨1⟩ = [⟨2⟩, ⟨3⟩, ⟨4⟩, ⟨5⟩, ⟨8⟩] := by
  have hv : Valid Module.sheltered := valid_of_isValid (by decide +kernel)
  obtain ⟨m', names', h, hm'⟩ := exists_yields_of_leaves
    (p := fun m' _ => m'.nodesOf ⟨0⟩ == [⟨1⟩, ⟨6⟩, ⟨7⟩, ⟨0⟩, ⟨9⟩] &&
      m'.nodesOf ⟨1⟩ == [⟨2⟩, ⟨3⟩, ⟨4⟩, ⟨5⟩, ⟨8⟩])
    (show leaves .legalize { Options.default with disallowLocalVariables := true } .sheltered
      Module.sketchNames _ = true by decide +kernel)
  simp only [Bool.and_eq_true, beq_iff_eq] at hm'
  exact ⟨hv, m', names', h, withdrawn_of_legalize hv.toWellScoped rfl h, hm'⟩

/-- Without local variables the side effects of a legalized process are captured once: an expression that
has them is used once, by an assignment to a declaration. -/
theorem assignedOnce_of_legalize {m m' : Module} {names names' : NameTable} {options : Options}
    {id : NodeId} {n : Node} (hw : WellScoped m) (hstrict : options.disallowLocalVariables = true)
    (h : Yields .legalize options m names m' names') (hn : m'.live? id = some n)
    (hk : m'.kind? n.parent = some .procedural) (hexpr : n.op.isExpression = true)
    (heffect : n.op.hasSideEffects = true) : m'.AssignedOnce id := by
  have hinline : n.op.isAlwaysInline = false := Op.isAlwaysInline_of_hasSideEffects heffect
  obtain ⟨hs', hdeposited | ⟨hop, -⟩⟩ :=
    swept_of_legalizes hw hstrict h hn hk (Or.inr ⟨hexpr, hinline⟩)
  · exact hdeposited.assignedOnce hs'
  · exact absurd ((hop.of_live hn).2.symm.trans heffect) Bool.false_ne_true

/-- A process that draws a number and takes it twice. -/
def Module.drawing : Module :=
  .sketch [.int 8, .storage ⟨0⟩] [(.input, 0), (.output, 0)]
    [(.back ⟨0⟩, .reg, [], [1]), (.back ⟨0⟩, .initial, [], []),
      (.back ⟨1⟩, .systemCall ⟨1⟩ true, [], [0]), (.back ⟨1⟩, .add, [2, 2], [0]),
      (.back ⟨1⟩, .blockingAssign, [1, 3], []), (.back ⟨0⟩, .output, [0], [])]

/-- The number is kept in a register. -/
theorem assignedOnce_drawing : Valid Module.drawing ∧ ∃ m' names' n,
    Yields .legalize { Options.default with disallowLocalVariables := true } .drawing
      Module.sketchNames m' names' ∧ m'.live? ⟨2⟩ = some n ∧ m'.kind? n.parent = some .procedural ∧
        n.op = .systemCall ⟨1⟩ true ∧ m'.AssignedOnce ⟨2⟩ := by
  have hv : Valid Module.drawing := valid_of_isValid (by decide +kernel)
  obtain ⟨m', names', h, hm'⟩ := exists_yields_of_leaves
    (p := fun m' _ => (m'.live? ⟨2⟩).any fun n =>
      n.op == .systemCall ⟨1⟩ true && m'.kind? n.parent == some .procedural)
    (show leaves .legalize { Options.default with disallowLocalVariables := true } .drawing
      Module.sketchNames _ = true by decide +kernel)
  obtain ⟨n, hn, hn'⟩ := (Option.any_eq_true _ _).1 hm'
  simp only [Bool.and_eq_true, beq_iff_eq] at hn'
  obtain ⟨hop, hk⟩ := hn'
  exact ⟨hv, m', names', n, h, hn, hk, hop,
    assignedOnce_of_legalize hv.toWellScoped rfl h hn hk (by rw [hop]; rfl) (by rw [hop]; rfl)⟩

end NetPrep
