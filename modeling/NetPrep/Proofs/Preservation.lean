import Mathlib
import NetPrep.Proofs.GraphLogic
import NetPrep.Proofs.Passes
import NetPrep.Proofs.Rewriting
import NetPrep.Proofs.Tidying

/-!
# Preparation preserves the meaning of graph logic

Each step of the three passes preserves the meaning of a module of graph blocks, hence so does a
whole preparation. Nothing is asked of the order of the nodes, and a valuation may run in circles.
-/

namespace NetPrep

open Prepare Prep

/-! ## Legalizing -/

namespace Module

variable {o : Options} {m m' : Module} {id target : NodeId} {n : Node} {block : BlockId}

theorem not_procedural (hw : Wired m) (hn : m.live? id = some n) :
    m.kind? n.parent ≠ some .procedural := by
  rw [kind?_of_placed hw (hw.placed hn)]
  nofun

theorem isFunction_or_read {op : Op} (h : op.isExpression = true) :
    op = .read ∨ op.isFunction = true := by
  cases op <;> first | exact Or.inl rfl | exact Or.inr rfl | cases h

theorem Rule.preserves (h : m.Rule id m') (hw : Wired m) : Preserves m m' := by
  cases h with
  | anchorOutputs hn hop h => exact h.preserves hw hn hop
  | anchorInputs hn hop h => exact h.preserves hw hn hop
  | leaveProcess hn _ hk => exact absurd hk (not_procedural hw hn)
  | @route n hn hop =>
    -- A process owns procedural blocks.
    have hkind : RegionKind.procedural ∈ n.op.regionKinds := by
      cases hop' : n.op with
      | alwaysFF clock reset => cases reset <;> simp [Op.regionKinds]
      | always edges => simp [Op.regionKinds]
      | _ => simp [hop', Op.isClocked] at hop
    cases hw.graph hn hkind
  | hoist hn _ hk => exact absurd hk (not_procedural hw hn)
  | capture hn _ hk => exact absurd hk (not_procedural hw hn)
  | erase hn hop hunused h hs =>
    have hr := hw.toNested.regions_eq_nil hn (Op.regionKinds_of_isExpression hop)
    exact h.preserves hw hs hn hr (isFunction_or_read hop) hunused
  | settle _ _ h => exact h.preserves hw
  | reuse hn hop hinline _ h =>
    exact h.preserves hw hn (Op.isDeclaration_of_isExpression hop) hinline
  | spill hn hop _ h => exact h.preserves hw hn (Op.isDeclaration_of_isExpression hop)

theorem Rules.preserves (h : Rules id m m') (hw : Wired m) : Preserves m m' := by
  induction h with
  | refl => exact .refl hw
  | step h _ ih =>
    have hpres := h.preserves hw
    exact hpres.trans (ih hpres.wired)

theorem Replaces.preserves (h : m.Replaces id target m') (hw : Wired m) : Preserves m m' := by
  cases h with
  | balance hn hop hlen _ h => exact h.preserves hw hn hop hlen
  | subtract h => exact h.preserves hw
  | explode hn hop _ h => exact h.preserves hw hn hop

theorem ScanStep.preserves {visited visited' : IdMap Unit} {next : Option NodeId}
    (h : ScanStep o block id visited visited' next m m') (hw : Wired m) : Preserves m m' := by
  rcases h.handles with ⟨hrules, -⟩ | ⟨target, m₁, -, hst, hrep⟩
  · exact hrules.preserves hw
  · have hpres := hst.rules.preserves hw
    exact hpres.trans (hrep.preserves hpres.wired)

theorem Scans.preserves {visited : IdMap Unit} {cursor : Option NodeId}
    (h : Scans o block visited cursor m m') (hw : Wired m) : Preserves m m' := by
  induction h with
  | done => exact .refl hw
  | step h _ ih =>
    have hpres := h.preserves hw
    exact hpres.trans (ih hpres.wired)

/-- A declaration can stand anywhere. -/
theorem placeable_of_isDeclaration (hw : Wired m) (hn : m.live? id = some n)
    (hop : n.op.isDeclaration = true) : m.Placeable n := by
  obtain ⟨os, rs, hos, hrs, hsuits⟩ := hw.suited hn
  obtain ⟨rfl, r, rfl, hr⟩ := hsuits.of_declaration hop
  obtain ⟨v, ws, htype, hnil, hres⟩ := List.forall₂_cons_right_iff.1 (forall₂_of_mapM_type? hrs)
  obtain rfl := List.forall₂_nil_right_iff.1 hnil
  exact Or.inr ⟨List.forall₂_nil_right_iff.1 (forall₂_of_mapM_type? hos), v, r, hres, htype,
    TypeTable.isStorage_of_elementOf? hr⟩

/-- What is read is declared, and a declaration may move to another block. -/
theorem Resolves.preserves (h : m.Resolves block id m') (hw : Wired m) (hn : m.live? id = some n)
    (hp : n.parent = block) : Preserves m m' := by
  cases h with
  | front hn' hplace hm hs' =>
    obtain rfl := Option.some.inj (hn.symm.trans hn')
    exact hm.preserves hw hs' hn (hw.regions_of_placeable hn hplace) (Or.inr hp.symm)
  | @read n' nd decl storage i m₁ hn' hop hstorage hdef hd hplace hm₁ hs₁ hm hs' =>
    obtain rfl := Option.some.inj (hn.symm.trans hn')
    have hr := hw.toNested.regions_eq_nil hn (by rw [hop]; rfl)
    have hpres := hm₁.preserves hw hs₁ hn hr (Or.inr hp.symm)
    obtain ⟨d, j, nd', hdef', hd', hdecl⟩ := hw.whole hn (Or.inl hop) hstorage
    obtain ⟨rfl, rfl⟩ : decl = d ∧ i = j := by
      simpa using Option.some.inj (hdef.symm.trans hdef')
    obtain rfl := Option.some.inj ((core_of_live? hd).symm.trans hd')
    have hreg := hw.regions_of_placeable hd hplace
    exact hpres.trans (hm.preserves hpres.wired hs' (hm₁.live hd) hreg (Or.inl hdecl))
  | spill hnot h =>
    refine h.preserves hw hn (Bool.eq_false_of_not_eq_true fun hop => hnot n hn ?_)
    exact placeable_of_isDeclaration hw hn hop

theorem ResolvesAll.preserves {ids : List NodeId} (h : ResolvesAll block ids m m') (hw : Wired m)
    (hids : ∀ j ∈ ids, ∃ n, m.live? j = some n ∧ n.parent = block) : Preserves m m' := by
  induction h with
  | nil => exact .refl hw
  | cons h _ ih =>
    obtain ⟨n, hn, hp⟩ := hids _ List.mem_cons_self
    have hpres := h.preserves hw hn hp
    refine hpres.trans (ih hpres.wired fun j hj => ?_)
    obtain ⟨nj, hnj, hpj⟩ := hids j (List.mem_cons_of_mem _ hj)
    obtain ⟨nj', hnj', -, -, hpj'⟩ := h.live hnj
    exact ⟨nj', hnj', hpj'.elim (·.trans hpj) id⟩

theorem Orders.preserves (h : Orders block m m') (hw : Wired m) (hb : m.Placed block) :
    Preserves m m' := by
  have hk : m.kind? block ≠ some .procedural := by
    rw [kind?_of_placed hw hb]
    nofun
  cases h with
  | empty hk' => exact absurd hk' hk
  | declarations hk' => exact absurd hk' hk
  | definitions _ hids h =>
    refine h.preserves hw fun j hj => hw.mem_nodesOf_iff.1 ?_
    exact (outOfOrder_eq_ok hw.toSound hids).1.subset hj

theorem Legalizes.preserves {bs : List BlockId} (h : Legalizes o bs m m') (hw : Wired m) :
    Preserves m m' := by
  induction h with
  | nil => exact .refl hw
  | cons hblock hinner hscan horder _ ihinner ihrest =>
    have h₁ := ihinner hw
    have h₂ := hscan.preserves h₁.wired
    have hb := (hscan.edits h₁.wired.toSound).placed ((hinner.edits hw.toSound).placed hblock)
    have h₃ := horder.preserves h₂.wired hb
    exact ((h₁.trans h₂).trans h₃).trans (ihrest h₃.wired)

/-! ## Tidying -/

theorem Prunes.preserves (h : Prunes m m') (hw : Wired m) : Preserves m m' := by
  induction h with
  | refl => exact .refl hw
  | step hn hop hunused h hs₁ _ ih =>
    have hr := hw.toNested.regions_eq_nil hn (Op.regionKinds_of_isExpression hop)
    have hpres := h.preserves hw hs₁ hn hr (isFunction_or_read hop) hunused
    exact hpres.trans (ih hpres.wired)

theorem Prettifies.preserves (h : Prettifies m m') (hw : Wired m) : Preserves m m' := by
  induction h with
  | refl => exact .refl hw
  | step hn hop h _ ih =>
    have hpres := h.preserves hw hn (Op.isDeclaration_of_isExpression hop)
    exact hpres.trans (ih hpres.wired)

end Module

/-! ## Preparing -/

namespace Module

variable {m m' : Module}

/-- A successful preparation preserves the meaning. -/
theorem GraphLogic.preserves_of_prepare {options : Options} {names names' : NameTable}
    (hm : m.GraphLogic) (h : Yields .prepare options m names m' names') : Preserves m m' := by
  obtain ⟨env, s, s', ho, -, rfl, -, rfl, -, hrun⟩ := h.runs
  simp only [Pass.action, runs_bind] at hrun
  obtain ⟨_, s₁, hprune, _, s₂, hlegalize, hprettify⟩ := hrun
  have hw := hm.wired
  have h₁ := (pruneDeadLogic_runs ho hw.toSound hprune).preserves hw
  have h₂ := (legalize_runs ho h₁.wired.toSound hlegalize).preserves h₁.wired
  have h₃ := (prettify_runs ho h₂.wired.toSound hprettify).preserves h₂.wired
  exact (h₁.trans h₂).trans h₃

end Module

/-- Whatever macros are defined, a prepared module of graph logic relates the same inputs and outputs
as before. -/
theorem realizes_prepare_iff {m m' : Module} {names names' : NameTable} {options : Options}
    (hm : m.GraphLogic) (h : Yields .prepare options m names m' names') {I : Meaning}
    (hI : I.Fits m'.types) (macros : Name → Prop) (ins : Nat → Datum)
    (outs : NodeId → List Datum) :
    I.Realizes macros m' ins outs ↔ I.Realizes macros m ins outs :=
  ((hm.preserves_of_prepare h).similar hI).realizes_iff

/-- A sum of three operands that is used twice. -/
def Module.summed : Module :=
  .sketch [.int 8, .storage ⟨0⟩] [(.input, 0), (.output, 0)]
    [(.back ⟨0⟩, .add, [0, 0, 0], [0]), (.back ⟨0⟩, .xor, [1, 1], [0]), (.back ⟨0⟩, .output, [2], [])]

theorem realizes_prepare_summed : ∃ m' names' I, Module.summed.GraphLogic ∧
    Yields .prepare .default .summed Module.sketchNames m' names' ∧ Meaning.Fits I m'.types ∧
    ∀ macros ins outs, I.Realizes macros m' ins outs ↔ I.Realizes macros .summed ins outs := by
  have hm : Module.summed.GraphLogic :=
    Module.graphLogic_of_isGraphLogic (by decide +kernel) (by decide +kernel)
  obtain ⟨m', names', h, htypes⟩ := exists_yields_of_leaves
    (p := fun m' _ => m'.types == Module.summed.types)
    (show leaves .prepare .default .summed Module.sketchNames _ = true by decide +kernel)
  obtain ⟨I, hI⟩ := Meaning.exists_fits hm.grounded
  rw [← beq_iff_eq.1 htypes] at hI
  exact ⟨m', names', I, hm, h, hI, realizes_prepare_iff hm h hI⟩

end NetPrep
