import Mathlib
import NetPrep.Proofs.Renewing

/-!
# Operands stay in reach

Putting a graph block in order leaves every node where those that take it find it, and so does whatever
becomes of a node that the scan comes to without local variables. In a well-scoped module every node
stands there from the start.
-/

namespace NetPrep

open Prepare Prep

/-- In a well-scoped module every node stands where those that take it find it. -/
theorem WellScoped.fed {m : Module} (hw : WellScoped m) : m.Fed [] := by
  rintro u d ⟨k, v, i, hu, hdef⟩
  obtain ⟨nd, a, hnd, ha, hmem, horder⟩ := hw.inScope hu hdef
  obtain ⟨nu, hnu, -⟩ := hu
  obtain ⟨na, hna, hp⟩ := hw.toWellFormed.mem_nodesOf_iff.1 hmem
  refine ⟨Or.inr (Or.inr ⟨nd, nu, hnd, hnu, hp ▸ ha.inside hna hnu⟩), ?_⟩
  obtain hk | hk := hw.kind?_parent hnd
  · exact Or.inr (Or.inr (Or.inr (Or.inr ⟨_, a, ha, horder hk⟩)))
  · exact Or.inl ⟨nd, hnd, hk⟩

theorem WellTyped.proper {m : Module} (hm : WellTyped m) : m.Proper where
  placeable hn hop := Or.inr (hm.declaration hn hop)
  event hn hop hmem := hm.not_isStorage_event hn hop hmem

namespace Module

variable {o : Options} {flow : Flow} {m m' : Module} {a d e id u : NodeId} {n na nd nu : Node}
  {b block : BlockId} {pos : Position} {ids : List NodeId} {v : ValueId}

/-! ## Order -/

/-- A node moves within its graph block. -/
theorem Moves.fed_within (h : m.Moves m' block pos id) (hs : Sound m) (hn : m.live? id = some n)
    (hreg : n.regions = []) (hp : n.parent = block) (hk : m.kind? block = some .graph)
    (hm : m.Fed []) : m'.Fed [] := by
  have hparent : ∀ {j nj}, m.live? j = some nj → (if j = id then block else nj.parent) = nj.parent := by
    intro j nj hj
    split
    · next he =>
      subst he
      obtain rfl := Option.some.inj (hn.symm.trans hj)
      exact hp.symm
    · rfl
  have hgraph : ∀ {j}, m.InGraph j → m'.InGraph j := by
    rintro j ⟨nj, hj, hkj⟩
    exact ⟨_, h.live hj, by rw [h.kept.kind?, hparent hj]; exact hkj⟩
  have hself : m.InGraph id := ⟨n, hn, hp ▸ hk⟩
  have hinline : ∀ {j}, m.InGraph j → ¬ IsInline m j → ¬ IsInline m' j := by
    rintro j ⟨nj, hnj, -⟩ hnot hi
    exact hnot (hi.of_kept h.kept hnj)
  have hinside : ∀ {u d}, m.Takes u d → m'.Free d ∨ (d ∈ [] ∧ m'.Roams d) ∨ m'.Encloses d u := by
    intro u d hud
    obtain hfree | ⟨hW, -⟩ | hin := (hm hud).inside
    · exact Or.inl ⟨hgraph hfree.1, hinline hfree.1 hfree.2⟩
    · cases hW
    · exact Or.inr (Or.inr (h.encloses hn hreg hp hin))
  refine h.fed hs.toWellFormed hn hreg hm (fun u hu _ => ⟨hinside hu, Or.inl (hgraph hself)⟩)
    fun d hd => ⟨hinside hd, ?_⟩
  obtain hg | hassign | ⟨hi, hnot⟩ | ⟨hW, -⟩ | hdom := (hm hd).ahead
  · exact Or.inl (hgraph hg)
  · exact Or.inr (Or.inl (hassign.mono h.kept))
  · obtain ⟨nd, hnd⟩ := hd.live_right hs.toWellFormed
    exact Or.inr (Or.inr (Or.inl ⟨hi.mono h.kept, fun hi => hnot (hi.of_kept h.kept hnd)⟩))
  · cases hW
  · have hne := hdom.ne hs
    obtain ⟨c, a, ha, hda⟩ := hdom
    cases ha with
    | self =>
      obtain ⟨n', hn', rfl⟩ := hs.mem_nodesOf_iff.1 hda.mem_right
      obtain rfl := Option.some.inj (hn.symm.trans hn')
      obtain ⟨nd, hnd, hpd⟩ := hs.mem_nodesOf_iff.1 hda.mem_left
      exact Or.inl (hgraph ⟨nd, hnd, hpd.trans hp ▸ hk⟩)
    | up hown hrest =>
      have hne' : a ≠ id := by
        rintro rfl
        exact hs.not_around_owner hown hrest
      refine Or.inr (Or.inr (Or.inr (Or.inr ⟨c, a, (Around.up hown hrest).of_sameTree
        (h.sameTree hn hreg) ⟨n, _, hn, h.live hn, hparent hn⟩, ?_⟩)))
      exact ((h.frame hs.toWellFormed).order hne hne' hda.mem_left hda.mem_right).2 hda

/-- What can stand anywhere takes nothing and is not printed at its uses. -/
theorem Placeable.fits (h : m.Placeable n) (hn : n.Fits) :
    n.operands = [] ∧ n.op.isAlwaysInline = false := by
  have hops : n.operands = [] := h.elim (fun hc => hn.alone (by simp [Op.standsAlone, hc])) (·.1)
  refine ⟨hops, ?_⟩
  cases hi : n.op.isAlwaysInline with
  | true => exact absurd hops (hn.operand (Or.inr hi))
  | false => rfl

/-- What can stand anywhere moves into a graph block. -/
theorem Moves.fed_placeable (h : m.Moves m' block pos id) (hs : Sound m) (hf : m.Fitted)
    (hn : m.live? id = some n) (hplace : m.Placeable n) (hk : m.kind? block = some .graph)
    (hm : m.Fed []) : m'.Fed [] := by
  obtain ⟨hops, hinline⟩ := hplace.fits (hf hn)
  have hfree : m'.Free id := ⟨⟨_, h.live hn, by rw [h.kept.kind?, if_pos rfl]; exact hk⟩,
    not_isInline_of_live (h.live hn) hinline⟩
  refine h.fed hs.toWellFormed hn (hs.regions_of_placeable hn hplace) hm (fun u _ _ => .of_free hfree)
    fun d ⟨k, v, i, ⟨n', hn', hv⟩, _⟩ => ?_
  obtain rfl := Option.some.inj (hn.symm.trans hn')
  rw [hops] at hv
  cases hv

theorem Resolves.fed (h : m.Resolves block id m') (hs : Sound m) (hf : m.Fitted)
    (hn : m.live? id = some n) (hp : n.parent = block) (hk : m.kind? block = some .graph)
    (hm : m.Fed []) : m'.Fed [] := by
  cases h with
  | front hn' hplace hmove =>
    obtain rfl := Option.some.inj (hn.symm.trans hn')
    exact hmove.fed_placeable hs hf hn hplace hk hm
  | @read n' nd decl storage i m₁ hn' hop hstorage hdef hd hplace hmove hs₁ hmove' =>
    obtain rfl := Option.some.inj (hn.symm.trans hn')
    have hreg := hs.toNested.regions_eq_nil hn (by rw [hop]; rfl)
    have hf₁ : m₁.Fitted := fun {j nj} hj => by
      obtain ⟨n₀, hn₀, rfl⟩ := hmove.live_cases hj
      exact (hf hn₀).congr rfl rfl rfl
    refine hmove'.fed_placeable hs₁ hf₁ (hmove.live hd) (hplace.imp_right fun h => ⟨h.1, ?_⟩)
      (hmove.kept.kind? _ ▸ hk) (hmove.fed_within hs hn hreg hp hk hm)
    obtain ⟨v, type, hres, htype, hst⟩ := h.2
    exact ⟨v, type, hres, hmove.type? v ▸ htype, hmove.types ▸ hst⟩
  | spill _ h => exact h.fed hs hf hn (hp ▸ hk) hm

theorem ResolvesAll.fed (h : ResolvesAll block ids m m') (hs : Sound m) (hf : m.Fitted)
    (hids : ∀ j ∈ ids, ∃ n, m.live? j = some n ∧ n.parent = block)
    (hk : m.kind? block = some .graph) (hm : m.Fed []) : m'.Fed [] := by
  induction h with
  | nil => exact hm
  | cons h _ ih =>
    obtain ⟨n, hn, hp⟩ := hids _ List.mem_cons_self
    have he := h.edits hs
    have hacts : Acts block (fun _ => False) _ _ := h.acts hs hn hp hk
    refine ih he.sound (Acts.fitted hacts hf) (fun j hj => ?_) (he.kept.kind? _ ▸ hk)
      (h.fed hs hf hn hp hk hm)
    obtain ⟨nj, hnj, hpj⟩ := hids j (List.mem_cons_of_mem _ hj)
    obtain ⟨nj', hnj', -, -, hpj'⟩ := h.live hnj
    exact ⟨nj', hnj', hpj'.elim (·.trans hpj) fun h => h⟩

/-- Without declarations none are put in order. -/
theorem PlacesDeclarations.eq_of_forall {scope : BlockId} {placed : Option NodeId}
    (h : PlacesDeclarations scope placed ids m m') (hids : ∀ j ∈ ids, ¬ m.HasOp (· = .logic) j) :
    m = m' := by
  induction h with
  | nil => rfl
  | skip _ _ _ ih => exact ih fun j hj => hids j (List.mem_cons_of_mem _ hj)
  | stay hn hop => exact absurd ⟨_, core_of_live? hn, hop⟩ (hids _ List.mem_cons_self)
  | move hn hop => exact absurd ⟨_, core_of_live? hn, hop⟩ (hids _ List.mem_cons_self)

/-- Procedural code without declarations is in order. -/
theorem Orders.eq_of_forall (h : Orders block m m') (hk : m.kind? block = some .procedural)
    (hnone : ∀ j ∈ m.nodesOf block, ¬ m.HasOp (· = .logic) j) : m = m' := by
  cases h with
  | empty _ _ h => exact h
  | declarations _ _ _ h => exact h.eq_of_forall hnone
  | definitions hg => simp [hk] at hg

theorem Orders.fed (h : Orders block m m') (hs : Sound m) (hf : m.Fitted)
    (hnone : m.kind? block = some .procedural → ∀ j ∈ m.nodesOf block, ¬ m.HasOp (· = .logic) j)
    (hm : m.Fed []) : m'.Fed [] := by
  cases h with
  | empty _ _ h => exact h ▸ hm
  | declarations hk _ _ h => exact h.eq_of_forall (hnone hk) ▸ hm
  | definitions hk hids h =>
    refine h.fed hs hf (fun j hj => ?_) hk hm
    exact hs.mem_nodesOf_iff.1 ((outOfOrder_eq_ok hs hids).1.subset hj)

/-! ## The scan -/

theorem Stores.fitted (h : m.Stores id m') (hs : Sound m) (hn : m.live? id = some n)
    (hf : m.Fitted) : m'.Fitted := by
  have hacts : Acts n.parent (fun _ => False) m m' := h.acts hs hn .self
  intro j nj hj
  exact Acts.fitted hacts hf hj

theorem Stores.fed (h : m.Stores id m') (hs : Sound m) (hf : m.Fitted) (hn : m.live? id = some n)
    (hk : m.kind? n.parent = some .graph) (hm : m.Fed []) : m'.Fed [] := by
  cases h with
  | nothing h => exact h ▸ hm
  | reuse _ _ _ _ h => exact h.fed hs hf hm
  | spill _ _ _ h => exact h.fed hs hf hn hk hm

theorem Handled.fed (h : m.Handled o id m' flow) (hs : Sound m) (hf : m.Fitted)
    (hstrict : o.disallowLocalVariables = true) (hm : m.Fed []) : m'.Fed [] := by
  have hstores : ∀ {n m₁}, m.live? id = some n → m.Stores id m₁ →
      (o.disallowLocalVariables = true → m.kind? n.parent = some .procedural → m = m₁) →
      Sound m₁ ∧ m₁.Fitted ∧ m₁.Fed [] := by
    intro n m₁ hn hst hproc
    refine ⟨(hst.rules.edits hs).sound, hst.fitted hs hn hf, ?_⟩
    obtain hk | hk := hs.kind?_parent hn
    · exact hproc hstrict hk ▸ hm
    · exact hst.fed hs hf hn hk hm
  cases h with
  | leave hn hop _ _ h => exact h.fed hs hf hn hop hm
  | route hn hop _ h =>
    refine (h.provides hs).2 hf (fun v hv => ⟨(hm.finds_of_mem hn hv).sights, ?_⟩) hm
    obtain ⟨k, hu⟩ := exists_uses_of_mem hn hv
    obtain ⟨d, hdef, -⟩ := hs.usable hu
    exact ⟨d, hdef⟩
  | anchor hn hop h hn₁ h' =>
    have hm₁ := h.fed hs hn hop hf hm
    split at h'
    · obtain ⟨n₁, hn₁', hop₁, -⟩ := h.live_inst hn hop
      obtain rfl := Option.some.inj (hn₁.symm.trans hn₁')
      exact h'.fed (h.edits hs).sound hn₁ (hop₁ ▸ hop) hm₁
    · exact h' ▸ hm₁
  | other _ _ _ _ _ h => exact h ▸ hm
  | hoist hn hop hk _ _ h => exact h.fed hs hn hop hk hm
  | capture hn _ hk _ _ h => exact h.fed hs hn hk hm
  | erase hn hop _ _ h hs' => exact h.fed hs hs' hn (hs.toNested.regions_eq_nil hn
      (Op.regionKinds_of_isExpression (Op.isExpression_of_isAlwaysInline hop))) hm
  | skip _ _ _ h => exact h ▸ hm
  | settle hn hop _ h => exact h.fed hs hf (fun d hd => hd ▸ isInline_of_live hn hop) hm nofun
  | @withdraw n m₁ hn hop _ hk _ _ h h' =>
    have hm₁ := h.fed hs hn hop hk hm
    obtain rfl | ⟨⟨n₁, hn₁, hk₁⟩, h'⟩ := h'
    · exact hm₁
    · have hacts : Acts n.parent (fun _ => True) m m₁ :=
        h.acts hs hn hop (Or.inr ⟨trivial, .self⟩)
      exact h'.fed (hacts.edits hs).sound (Acts.fitted hacts hf) hn₁ hk₁ hm₁
  | finish hn _ _ _ hst hproc _ h =>
    obtain ⟨hs₁, hf₁, hm₁⟩ := hstores hn hst hproc
    obtain rfl | ⟨-, h⟩ := h
    · exact hm₁
    · exact h.fed hs₁ hf₁ hm₁
  | vanish hn hop _ hst hproc h =>
    obtain ⟨hs₁, hf₁, hm₁⟩ := hstores hn hst hproc
    obtain ⟨n₁, hn₁, hop₁, -⟩ := hst.live hn (by rw [hop]; rfl)
    exact h.fed hs₁ hf₁ hn₁ (hop₁.trans hop) hm₁
  | replace hn _ hst hproc h =>
    obtain ⟨hs₁, hf₁, hm₁⟩ := hstores hn hst hproc
    exact h.fed hs₁ hf₁ hm₁

/-- What a valid module is, and stays all through legalization without local variables. -/
structure Sustained (m : Module) : Prop extends Sound m where
  fitted : m.Fitted
  proper : m.Proper
  fed : m.Fed []

theorem Sustained.of_acts {F : NodeId → Prop} (hm : m.Sustained) (h : Acts block F m m')
    (hfed : m'.Fed []) : m'.Sustained where
  toSound := (Acts.edits h hm.toSound).sound
  fitted := Acts.fitted h hm.fitted
  proper := Acts.proper h hm.toSound hm.proper
  fed := hfed

theorem Resolves.sustained (h : m.Resolves block id m') (hm : m.Sustained) (hn : m.live? id = some n)
    (hp : n.parent = block) (hk : m.kind? block = some .graph) : m'.Sustained :=
  have hacts : Acts block (fun _ => False) m m' := h.acts hm.toSound hn hp hk
  hm.of_acts hacts (h.fed hm.toSound hm.fitted hn hp hk hm.fed)

theorem Orders.sustained (h : Orders block m m') (hm : m.Sustained)
    (hnone : m.kind? block = some .procedural → ∀ j ∈ m.nodesOf block, ¬ m.HasOp (· = .logic) j) :
    m'.Sustained :=
  have hacts : Acts block (fun _ => False) m m' := h.acts hm.toSound
  hm.of_acts hacts (h.fed hm.toSound hm.fitted hnone hm.fed)

/-- Whatever becomes of a node that the scan comes to, the module stays as it has to be. -/
theorem ScanStep.sustained {visited visited' : IdMap Unit} {next : Option NodeId}
    (h : ScanStep o block id visited visited' next m m') (hm : m.Sustained)
    (hstrict : o.disallowLocalVariables = true) : m'.Sustained := by
  obtain ⟨flow, hflow⟩ : ∃ flow, m.Handled o id m' flow := by
    obtain ⟨h, -⟩ | ⟨target, -, h⟩ := h.handled <;> exact ⟨_, h⟩
  exact hm.of_acts (h.acts hm.toSound) (hflow.fed hm.toSound hm.fitted hstrict hm.fed)

end Module

theorem WellScoped.sustained {m : Module} (hw : WellScoped m) : m.Sustained where
  toSound := hw.toSound
  fitted := hw.fitted
  proper := hw.proper
  fed := hw.fed

end NetPrep
