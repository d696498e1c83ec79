import Mathlib
import NetPrep.Proofs.Retaining

/-!
# Rules and the nodes that were handled

Handling a node leaves the nodes that may stay in procedural code as they are: a rule redirects results
of its own node only, moves no other node out of its block that they take, and uses no value anew whose
effects are captured. What it puts in place of the node comes where that was.
-/

namespace NetPrep

open Prepare Prep

namespace Module

variable {m m' m'' : Module} {b c : BlockId} {S N : NodeId → Prop} {a d id j u x : NodeId}
  {n na nd : Node} {pos : Position} {types : List TypeId} {i k : Nat} {v y z : ValueId} {w : Use}
  {ids : List NodeId}

/-- The side effects of nodes are captured, if they have any. -/
def Secure (S : NodeId → Prop) (m : Module) : Prop :=
  ∀ ⦃x⦄, S x → m.HasOp (·.hasSideEffects = false) x ∨ m.Deposited x

theorem Secure.mono (h : m.Secure S) (hr : Retains c S N m m') : m'.Secure S :=
  fun _ hx => (h hx).imp (·.mono hr.kept) (hr.deposited hx)

theorem Secure.core (h : m.Secure S) (hx : S x) : ∃ n, m.core x = some n := by
  obtain ⟨n, hn, -⟩ | ⟨⟨n, hn, -⟩, -⟩ := h hx <;> exact ⟨n, hn⟩

/-- What is used otherwise than captured effects are has no side effects. -/
theorem Secure.clear (h : m.Secure S) (hv : m.Outside S v) : m.Clear S v := by
  rintro x i hdef hx ⟨n, hn, hop⟩
  obtain ⟨n', hn', hop'⟩ | hdep := h hx
  · obtain rfl := Option.some.inj (hn.symm.trans hn')
    exact Bool.false_ne_true (hop'.symm.trans hop)
  · exact hv hdef hx hdep

theorem Secure.clear_of_uses (h : m.Secure S) (hw : WellFormed m) (hu : m.Uses w v)
    (hop : ¬ m.HasOp (· = .blockingAssign) w.node) : m.Clear S v := h.clear (.of_uses hu hw hop)

theorem Secure.clear_of_mem (h : m.Secure S) (hw : WellFormed m) (hn : m.live? id = some n)
    (hop : n.op ≠ .blockingAssign) (hv : v ∈ n.operands) : m.Clear S v := by
  obtain ⟨k, hk⟩ := exists_uses_of_mem hn hv
  exact h.clear_of_uses hw hk fun hb => hop (hb.of_live hn)

/-- A node is none of a set, and in a block that is watched none of the set takes it. -/
structure Aside (m : Module) (c : BlockId) (S : NodeId → Prop) (id : NodeId) : Prop where
  secure : m.Secure S
  ne : ¬ S id
  users : id ∈ m.nodesOf c → ∀ ⦃x⦄, S x → ¬ m.Takes x id

theorem Aside.step (h : m.Aside c S id) (hr : Retains c S N m m')
    (hmem : id ∈ m'.nodesOf c → id ∈ m.nodesOf c)
    (htakes : ∀ x, S x → m'.Takes x id → m.Takes x id) : m'.Aside c S id :=
  ⟨h.secure.mono hr, h.ne, fun hid x hx ht => h.users (hmem hid) hx (htakes x hx ht)⟩

/-- Making a node leaves the others aside. -/
theorem Creates.aside (h : m.Creates m' b pos j n types) (hw : WellFormed m) (hw' : WellFormed m')
    (hid : m.live? id = some na) (ha : m.Aside c S id) (hr : Retains c S N m m') :
    m'.Aside c S id := by
  refine ha.step hr (fun hmem => ?_) fun x hx ht => (h.takes hw ht).resolve_right ?_
  · obtain ⟨n', hn', hp⟩ := hw'.mem_nodesOf_iff.1 hmem
    obtain rfl := Option.some.inj ((h.live hid).symm.trans hn')
    exact hw.mem_nodesOf_iff.2 ⟨_, hid, hp⟩
  · rintro ⟨rfl, -⟩
    have hlt := exists_core_iff.1 (ha.secure.core hx)
    rw [h.fresh] at hlt
    exact lt_irrefl _ hlt

theorem Relabels.aside {name : Option Name → Option Name} {twoState : Bool → Bool}
    (h : m.Relabels m' j name twoState) (hw : WellFormed m) (ha : m.Aside c S id) :
    m'.Aside c S id :=
  ha.step (h.retains (N := fun _ => False) hw) (fun hid => h.nodesOf c ▸ hid)
    fun _ _ ht => h.takes_iff.1 ht

/-- Uses of a result are redirected to another node. -/
theorem Redirects.aside (h : m.Redirects m' (substitute y z)) (ha : m.Aside c S id)
    (hr : Retains c S N m m') (hz : m.def? z = some (.result d i)) (hne : d ≠ id) :
    m'.Aside c S id := by
  refine ha.step hr (fun hid => h.nodesOf c ▸ hid) fun x _ ht =>
    (h.takes_substitute ht).resolve_right ?_
  rintro ⟨-, j, -, hdef⟩
  rw [hz] at hdef
  cases hdef
  exact hne rfl

/-- Where a node is aside, uses of its result can be redirected. -/
theorem Redirects.retains_result (h : m.Redirects m' (substitute y z)) (hw : WellFormed m)
    (ha : m.Aside c S id) (hy : m.def? y = some (.result id i)) (hst : ¬ m.IsStorage y)
    (hz : m.Clear S z) : Retains c S N m m' := by
  refine h.retains_substitute hw (fun x _ hx _ d hd j k hdef hu => ?_) (fun x j hdef hx => ?_)
    hz.outside hst
  · obtain ⟨rfl, -⟩ : id = d ∧ i = j := by simpa using hy.symm.trans hdef
    exact absurd ⟨k, y, i, hu, hy⟩ (ha.users hd hx)
  · obtain ⟨rfl, -⟩ : id = x ∧ i = j := by simpa using hy.symm.trans hdef
    exact absurd hx ha.ne

/-! ## Temporaries -/

/-- The result of a node that is no declaration and is none of a set. -/
theorem Fleeting.of_ne (hs : Sound m) (hn : m.live? id = some n) (hv : v ∈ n.results)
    (hdecl : n.op.isDeclaration = false) (hne : ¬ S id) : m.Fleeting S v :=
  .of_mem hs hn hv hdecl fun _ => hne

theorem SpillsResult.retains {name : Option Name} {atFront : Bool}
    (h : m.SpillsResult id v name atFront m') (hs : Sound m) (hn : m.live? id = some n)
    (hb : n.parent ≠ c) (hdecl : n.op.isDeclaration = false) (hne : ¬ S id) :
    Retains c S N m m' := by
  obtain ⟨hn', hres, -, hcreate, -, hs₁, -, -, hreads, hconn, hs₃, hmove⟩ := h
  obtain rfl := Option.some.inj (hn.symm.trans hn')
  rename_i type stype decl conn storage uses m₁ m₂ m₃
  have hpure : (m.temporaryOps n.parent).1.hasSideEffects = false := by
    obtain h | h := m.temporaryOps_cases n.parent <;> rw [h] <;> rfl
  have h₁ : Retains c S N m m₁ := hcreate.retains hs.toWellFormed hs₁.toWellFormed
    (fun he => absurd he hb) nofun
  have hold₁ : m₁.Fleeting S v := .of_ne hs₁ (hcreate.live hn) hres hdecl hne
  have hst₁ : m₁.Usable storage := hcreate.usable_result (i := 0) rfl
  have hclear₁ : m₁.Clear S storage := hcreate.clear_result (i := 0) rfl hpure
  have hs₂ := hreads.sound hs₁
  have h₂ : Retains c S N m m₂ := h₁.trans (hreads.retains hs₁ hold₁ hst₁ hclear₁)
    hs₁.toWellFormed
  have h₃ : Retains c S N m m₃ := h₂.trans (hconn.retains hs₂.toWellFormed hs₃.toWellFormed
    (fun he => absurd he hb) (List.forall_mem_cons.2 ⟨(hclear₁.mono hreads.kept hst₁).outside,
      List.forall_mem_singleton.2 (hold₁.clear.mono hreads.kept hold₁.usable).outside⟩))
    hs₂.toWellFormed
  cases atFront with
  | true => exact hmove ▸ h₃
  | false =>
    obtain ⟨hmove, hs'⟩ := hmove
    obtain ⟨ops, hd₂⟩ := hreads.live hcreate.live?_self
    exact h₃.trans (hmove.retains hs₃.toWellFormed hs'.toWellFormed (hconn.live hd₂)
      (fun he => absurd he hb) (fun he => absurd he hb) fun he => absurd he hb)
      hs₃.toWellFormed

theorem SpillsResults.retains {atFront : Bool} {vs : List ValueId}
    (h : SpillsResults id atFront vs m m') (hs : Sound m) (hn : m.live? id = some n)
    (hb : n.parent ≠ c) (hdecl : n.op.isDeclaration = false) (hne : ¬ S id) :
    Retains c S N m m' := by
  induction h generalizing n with
  | nil => exact .refl _
  | cons h hrest ih =>
    obtain ⟨ops, hn₁⟩ := h.live hn
    exact (h.retains hs hn hb hdecl hne).trans (ih h.sound hn₁ hb hdecl)
      h.sound.toWellFormed

theorem Spills.retains {atFront : Bool} (h : m.Spills id atFront m') (hs : Sound m)
    (hn : m.live? id = some n) (hb : n.parent ≠ c) (hdecl : n.op.isDeclaration = false)
    (hne : ¬ S id) : Retains c S N m m' := by
  cases h with
  | single hn' hv hl hs₁ h =>
    obtain rfl := Option.some.inj (hn.symm.trans hn')
    exact (hl.retains hs.toWellFormed).trans (h.retains hs₁ (hl.live hn) (by simpa using hb)
      (by simpa using hdecl) hne) hs₁.toWellFormed
  | all hn' h =>
    obtain rfl := Option.some.inj (hn.symm.trans hn')
    exact h.retains hs hn hb hdecl hne

theorem Reuses.retains (h : m.Reuses id m') (hs : Sound m) (hn : m.live? id = some n)
    (hdecl : n.op.isDeclaration = false) (ha : m.Aside c S id) : Retains c S N m m' := by
  obtain ⟨hn', hv, -, -, -, -, hassign, hop, -, -, htarget, -, -, hreads, hrest⟩ := h
  obtain rfl := Option.some.inj (hn.symm.trans hn')
  have hmem := List.mem_of_getElem? htarget
  obtain ⟨k, hk⟩ := exists_uses_of_mem hassign hmem
  have h₁ : Retains c S N m _ := hreads.retains hs
    (.of_ne hs hn (hv ▸ List.mem_singleton_self _) hdecl ha.ne) (hs.usable hk)
    (ha.secure.clear_of_mem hs.toWellFormed hassign (by simp [hop]) hmem)
  obtain rfl | ⟨d, -, -, hsettle⟩ := hrest
  · exact h₁
  · have hs₁ := hreads.sound hs
    exact h₁.trans (hsettle.inlines.retains hs₁) hs₁.toWellFormed

/-! ## Replacing expressions -/

theorem Erases.retains_of_ne (h : m.Erases m' id) (hw : WellFormed m) (hw' : WellFormed m')
    (hn : m.live? id = some n) (hop : n.op ≠ .blockingAssign) (hne : ¬ S id) : Retains c S N m m' :=
  h.retains hw hw' hn (fun _ hx => absurd hx hne) hop fun _ => hne

section

variable {shape : TreeShape} {tree : OperandTree}

/-- Growing a tree puts nothing into a block but the nodes of the tree. -/
theorem Grows.retains (h : Grows shape tree v ids m m') (hs : Sound m)
    (hop : shape.op.isCommutative = true) (hn : m.live? shape.anchor = some na)
    (ha : m.Aside c S shape.anchor) (hN : na.parent = c → ∀ j ∈ ids, N j)
    (hleaves : ∀ w ∈ tree.leaves, m.Usable w ∧ m.Clear S w) :
    Retains c S N m m' ∧ m'.Aside c S shape.anchor ∧ m'.Clear S v := by
  induction h with
  | leaf => exact ⟨.refl _, ha, (hleaves _ (List.mem_singleton_self _)).2⟩
  | @branch left right lhs rhs value lefts rights id na₂ m m₁ m₂ m' hleft hright ha₂ hc hs' ih₁ ih₂ =>
    have hs₁ := hleft.sound hs
    have hs₂ := hright.sound hs₁
    have hn₁ := hleft.live hn
    obtain rfl := Option.some.inj (ha₂.symm.trans (hright.live hn₁))
    obtain ⟨hlefts, hrights⟩ := List.forall_mem_append.1 hleaves
    obtain ⟨h₁, ha₁, hlhs⟩ := ih₁ hs hn ha (fun he j hj => hN he j (by simp [hj])) hlefts
    obtain ⟨h₂, ha₂', hrhs⟩ := ih₂ hs₁ hn₁ ha₁ (fun he j hj => hN he j (by simp [hj])) fun w hw =>
      ⟨hleft.usable (hrights w hw).1, (hrights w hw).2.mono hleft.kept (hrights w hw).1⟩
    have hlhs₂ := hlhs.mono hright.kept (hleft.usable_value fun w hw => (hlefts w hw).1)
    have h₃ : Retains c S N m₂ m' := hc.retains hs₂.toWellFormed hs'.toWellFormed
      (fun he _ => hN he id (by simp)) (List.forall_mem_cons.2 ⟨hlhs₂.outside,
        List.forall_mem_singleton.2 hrhs.outside⟩)
    refine ⟨(h₁.trans h₂ hs₁.toWellFormed).trans h₃ hs₂.toWellFormed,
      hc.aside hs₂.toWellFormed hs'.toWellFormed ha₂ ha₂' h₃, hc.clear_result (i := 0) rfl ?_⟩
    change shape.op.hasSideEffects = false
    cases hshape : shape.op <;> simp_all [Op.isCommutative, Op.hasSideEffects]

end

theorem Balances.retains (h : m.Balances id ids m') (hs : Sound m) (hn : m.live? id = some n)
    (hop : n.op.isCommutative = true) (ha : m.Aside c S id) (hN : n.parent = c → ∀ j ∈ ids, N j) :
    Retains c S N m m' := by
  obtain ⟨hn', htree, hold, -, hopn, rfl, hgrow, hname, hs₂, hr, hs₃, -, he, hs₄, hsettle, -, -⟩ := h
  obtain rfl := Option.some.inj (hn.symm.trans hn')
  rename_i tree old root shape name rootNode m₁ m₂ m₃ m₄
  have hassign : n.op ≠ .blockingAssign := by
    intro h
    rw [h] at hop
    cases hop
  have hs₁ := hgrow.sound hs
  obtain ⟨h₁, ha₁, hroot⟩ := hgrow.retains hs (hopn ▸ hop) hn ha hN fun w hw => by
    rw [OperandTree.leaves_balanced? htree] at hw
    obtain ⟨k, hk⟩ := exists_uses_of_mem hn hw
    exact ⟨hs.usable hk, ha.secure.clear_of_mem hs.toWellFormed hn hassign hw⟩
  have hdef := hs.result (core_of_live? hn) hold
  have husable : m₁.Usable root := hgrow.usable_value fun w hw => by
    rw [OperandTree.leaves_balanced? htree] at hw
    obtain ⟨k, hk⟩ := exists_uses_of_mem hn hw
    exact hs.usable hk
  obtain ⟨h₂, ha₂⟩ : Retains c S N m₁ m₂ ∧ m₂.Aside c S shape.anchor := by
    rcases hname with rfl | hl
    · exact ⟨.refl _, ha₁⟩
    · exact ⟨hl.retains hs₁.toWellFormed, hl.aside hs₁.toWellFormed ha₁⟩
  obtain ⟨n₂, hn₂, hop₂, -⟩ := live_of_named hname (hgrow.live hn)
  have hdef₂ := h₂.kept.def? (hgrow.kept.def? hdef)
  have h₃ : Retains c S N m₂ m₃ := hr.retains_result hs₂.toWellFormed ha₂ hdef₂
    (Module.not_isStorage hdef₂ (core_of_live? hn₂) (by
      rw [hop₂]
      exact Op.isDeclaration_of_isCommutative hop)) (hroot.mono h₂.kept husable)
  have h₄ : Retains c S N m₃ m₄ := he.retains_of_ne hs₃.toWellFormed hs₄.toWellFormed (hr.live hn₂)
    (by simpa [hop₂] using hassign) ha.ne
  exact (((h₁.trans h₂ hs₁.toWellFormed).trans h₃ hs₂.toWellFormed).trans h₄ hs₃.toWellFormed).trans
    (hsettle.retains hs₄) hs₄.toWellFormed

/-- The two nodes that an addition is turned into are in its place, in the order in which they are made. -/
theorem Subtracts.retains {constant positive : NodeId} {value : Int}
    (h : m.Subtracts id constant value positive m') (hs : Sound m) (hf : m.Fitted)
    (hn : m.live? id = some n) (ha : m.Aside c S id) :
    ∃ ids : List NodeId, ids.head? = some positive ∧ ids.Pairwise (Precedes (m'.nodesOf n.parent)) ∧
      Retains c S (fun j => n.parent = c ∧ j ∈ ids) m m' := by
  obtain ⟨hn', hop, hops, hrhs, hc, hcop, -, hold, -, -, hpos, hs₁, hsub, hs₂, hr, hs₃, -, he, hs₄,
    hconst, hs₅, hsettle⟩ := h
  obtain rfl := Option.some.inj (hn.symm.trans hn')
  rename_i nc lhs rhs old positiveValue difference type sub m₁ m₂ m₃ m₄ m₅ width
  have hn₁ := hpos.live hn
  have hn₂ := hsub.live hn₁
  have hid₁ := hs₁.mem_nodesOf hn₁
  refine ⟨[positive, sub], rfl, List.pairwise_pair.2 ?_, ?_⟩
  · have hframe := hsettle.frame_subtracted hs₂ hr hs₃ he hs₄ hconst hs₅
      ((lt_of_live? hc).trans_le (hpos.kept.trans hsub.kept).nodes_size)
    exact hframe.precedes (hsub.precedes_of_before hs₁.toWellFormed hid₁
      (hpos.precedes_before hs.toWellFormed (hs.mem_nodesOf hn))).2
      (hpos.not_subtracted hsub.kept hn hc rfl) (hsub.not_subtracted (.refl _) hn₁ (hpos.live hc) rfl)
  have hlhs : lhs ∈ n.operands := hops ▸ List.mem_cons_self
  obtain ⟨k, hk⟩ := exists_uses_of_mem hn hlhs
  have hclear := ha.secure.clear_of_mem hs.toWellFormed hn (by simp [hop]) hlhs
  have h₁ : Retains c S (fun j => n.parent = c ∧ j ∈ [positive, sub]) m m₁ :=
    hpos.retains hs.toWellFormed hs₁.toWellFormed (fun he _ => ⟨he, by simp⟩) nofun
  have ha₁ := hpos.aside hs.toWellFormed hs₁.toWellFormed hn ha h₁
  have h₂ : Retains c S (fun j => n.parent = c ∧ j ∈ [positive, sub]) m₁ m₂ :=
    hsub.retains hs₁.toWellFormed hs₂.toWellFormed (fun he _ => ⟨he, by simp⟩)
      (List.forall_mem_cons.2 ⟨(hclear.mono hpos.kept (hs.usable hk)).outside,
        List.forall_mem_singleton.2 (hpos.clear_result (i := 0) rfl rfl).outside⟩)
  have ha₂ := hsub.aside hs₁.toWellFormed hs₂.toWellFormed hn₁ ha₁ h₂
  have hold₂ := hsub.kept.def? (hpos.kept.def? (hs.result (core_of_live? hn) hold))
  have h₃ := hr.retains_result (N := fun j => n.parent = c ∧ j ∈ [positive, sub]) hs₂.toWellFormed ha₂
    hold₂ (Module.not_isStorage hold₂ (core_of_live? hn₂) (by rw [hop]; rfl))
    (hsub.clear_result (i := 0) rfl rfl)
  have h₄ := he.retains_of_ne (c := c) (S := S) (N := fun j => n.parent = c ∧ j ∈ [positive, sub])
    hs₃.toWellFormed hs₄.toWellFormed (hr.live hn₂) (by simp [hop]) ha.ne
  have h₅ : Retains c S (fun j => n.parent = c ∧ j ∈ [positive, sub]) m₄ m₅ := by
    obtain ⟨rfl, -⟩ | ⟨-, he'⟩ := hconst
    · exact .refl _
    · have hne : constant ≠ id := by
        rintro rfl
        obtain rfl := Option.some.inj (hn.symm.trans hc)
        rw [hop] at hcop
        cases hcop
      have hf₂ : m₂.Fitted := hsub.fitted (hpos.fitted hf (.of_alone rfl rfl))
        (.of_result rfl nofun nofun ⟨_, rfl⟩)
      have hf₄ : m₄.Fitted := he.fitted (hr.fitted_substitute hf₂)
      have hc₄ := he.live (hr.live (hsub.live (hpos.live hc))) hne
      refine he'.retains hs₄.toWellFormed hs₅.toWellFormed hc₄ (fun _ _ ⟨_, d, _, ht⟩ =>
        hf₄.not_takes hc₄ (by simp [Op.standsAlone, hcop, Op.isConstant]) ht) (by simp [hcop])
        fun hop => ?_
      simp [hcop, Op.hasSideEffects] at hop
  exact ((((h₁.trans h₂ hs₁.toWellFormed).trans h₃ hs₂.toWellFormed).trans h₄ hs₃.toWellFormed).trans h₅
    hs₄.toWellFormed).trans (hsettle.retains hs₅) hs₅.toWellFormed

theorem Extracts.retains {input : ValueId} {loc : Loc} {fields : List (ValueId × Name)}
    (h : Extracts id input loc fields ids m m') (hs : Sound m) (hn : m.live? id = some n)
    (hdecl : n.op.isDeclaration = false) (ha : m.Aside c S id) (hN : n.parent = c → ∀ j ∈ ids, N j)
    (husable : m.Usable input) (hinput : m.Clear S input)
    (hfields : ∀ f ∈ fields, ∃ i, m.def? f.1 = some (.result id i)) : Retains c S N m m' := by
  induction h generalizing n with
  | nil => exact .refl _
  | @cons result value field rest extract ids na type m m₁ m₂ m' hna htype hc hs₁ hr hs₂ hrest ih =>
    obtain rfl := Option.some.inj (hn.symm.trans hna)
    obtain ⟨⟨i, hi⟩, hfields⟩ := List.forall_mem_cons.1 hfields
    have hn₁ := hc.live hn
    have h₁ : Retains c S N m m₁ := hc.retains hs.toWellFormed hs₁.toWellFormed
      (fun he _ => hN he extract List.mem_cons_self) (List.forall_mem_singleton.2 hinput.outside)
    have ha₁ := hc.aside hs.toWellFormed hs₁.toWellFormed hn ha h₁
    have hi₁ := hc.kept.def? hi
    have h₂ : Retains c S N m₁ m₂ := hr.retains_result hs₁.toWellFormed ha₁ hi₁
      (Module.not_isStorage hi₁ (core_of_live? hn₁) hdecl) (hc.clear_result (i := 0) rfl rfl)
    have ha₂ := hr.aside ha₁ h₂ (hc.def?_result (i := 0) rfl) (hc.ne hn).symm
    have hk := hc.kept.trans hr.kept
    exact (h₁.trans h₂ hs₁.toWellFormed).trans (ih hs₂ (hr.live hn₁) hdecl ha₂
      (fun he j hj => hN he j (List.mem_cons_of_mem _ hj))
      ((hc.usable husable).mono hr.kept fun hj => ⟨_, hr.live hj⟩) (hinput.mono hk husable)
      fun f hf => (hfields f hf).imp fun _ hi => hk.def? hi) hs₂.toWellFormed

theorem Explodes.retains (h : m.Explodes id ids m') (hs : Sound m) (hn : m.live? id = some n)
    (hop : n.op = .structExplode) (ha : m.Aside c S id) (hN : n.parent = c → ∀ j ∈ ids, N j) :
    Retains c S N m m' := by
  obtain ⟨hn', hops, -, -, hextract, -, he, hs₂, hsettle⟩ := h
  obtain rfl := Option.some.inj (hn.symm.trans hn')
  have hinput := hops ▸ List.mem_cons_self
  obtain ⟨k, hk⟩ := exists_uses_of_mem hn hinput
  have hs₁ := hextract.sound hs
  have h₁ : Retains c S N m _ := hextract.retains hs hn (by rw [hop]; rfl) ha hN (hs.usable hk)
    (ha.secure.clear_of_mem hs.toWellFormed hn (by simp [hop]) hinput) fun f hf => by
      obtain ⟨i, hi⟩ := List.mem_iff_getElem?.1 (List.of_mem_zip hf).1
      exact ⟨i, hs.result (core_of_live? hn) hi⟩
  obtain ⟨ops, hn₁⟩ := hextract.live hn
  exact (h₁.trans (he.retains_of_ne hs₁.toWellFormed hs₂.toWellFormed hn₁ (by simp [hop]) ha.ne)
    hs₁.toWellFormed).trans (hsettle.retains hs₂) hs₂.toWellFormed

/-- What is put in place of a node stands there in the order in which it is made. -/
theorem Replaces.retains {target : NodeId} (h : m.Replaces id target m') (hs : Sound m) (hf : m.Fitted)
    (hn : m.live? id = some n) (ha : m.Aside c S id) : Retains c S
      (fun j => n.parent = c ∧ (j = target ∨ Precedes (m'.nodesOf c) target j)) m m' := by
  suffices h : ∃ ids : List NodeId, ids.head? = some target ∧ ids.Pairwise (Precedes (m'.nodesOf n.parent)) ∧
      Retains c S (fun j => n.parent = c ∧ j ∈ ids) m m' by
    obtain ⟨ids, hids, hordered, h⟩ := h
    obtain ⟨rest, rfl⟩ := List.head?_eq_some_iff.1 hids
    exact h.mono fun j ⟨he, hmem⟩ => ⟨he, (List.mem_cons.1 hmem).imp_right fun hmem =>
      he ▸ (List.pairwise_cons.1 hordered).1 j hmem⟩
  cases h with
  | balance hn' hop hlen hids h =>
    obtain rfl := Option.some.inj (hn.symm.trans hn')
    exact ⟨_, hids, (h.ordered hs hn hop).1, h.retains hs hn hop ha fun he j hj => ⟨he, hj⟩⟩
  | subtract h => exact h.retains hs hf hn ha
  | explode hn' hop hids h =>
    obtain rfl := Option.some.inj (hn.symm.trans hn')
    exact ⟨_, hids, (h.frame hs hn).2.1, h.retains hs hn hop ha fun he j hj => ⟨he, hj⟩⟩

/-! ## Out of procedural code -/

/-- Where a node is aside, it can move to a block that it is in, or that is not watched. -/
theorem Moves.retains_aside (h : m.Moves m' b pos id) (hw : WellFormed m) (hw' : WellFormed m')
    (hn : m.live? id = some n) (ha : m.Aside c S id) (hin : b = c → n.parent = c) :
    Retains c S N m m' :=
  h.retains hw hw' hn (fun he _ => hin he) (fun _ _ hS => absurd hS ha.ne) fun he _ _ hS _ ht =>
    absurd ht (ha.users (hw.mem_nodesOf_iff.2 ⟨n, hn, he⟩) hS)

theorem Hoists.retains (h : m.Hoists id m') (hs : Sound m) (hn : m.live? id = some n)
    (hout : m.Inside c n.parent → c = n.parent) (ha : m.Aside c S id) : Retains c S N m m' := by
  obtain ⟨hn', hna, hreach, hm, hs'⟩ := h
  obtain rfl := Option.some.inj (hn.symm.trans hn')
  have hin : m.Inside _ n.parent :=
    hreach.elim (fun h => h.2.inside hn hna) fun h => h.2.inside hn hna
  exact hm.retains_aside hs.toWellFormed hs'.toWellFormed hn ha fun he => (hout (he ▸ hin)).symm

theorem LeavesProcess.retains (h : m.LeavesProcess id m') (hs : Sound m) (hn : m.live? id = some n)
    (hout : m.Inside c n.parent → c = n.parent) (ha : m.Aside c S id) : Retains c S N m m' := by
  obtain ⟨hn', hprocess, hp, hm, hs'⟩ := h
  exact hm.retains_aside hs.toWellFormed hs'.toWellFormed hn ha fun he =>
    (hout (he ▸ hprocess.inside hn hp)).symm

/-- A node that is none of a set computes nothing that one of the set does. -/
theorem Clear.of_ne (hdef : m.def? v = some (.result id i)) (hne : ¬ S id) : m.Clear S v := by
  intro x j hx hS _
  obtain ⟨rfl, -⟩ : id = x ∧ i = j := by simpa using hdef.symm.trans hx
  exact hne hS

theorem Captures.retains (h : m.Captures id m') (hs : Sound m) (hn : m.live? id = some n)
    (hop : n.op.isDeclaration = false) (ha : m.Aside c S id) : Retains c S N m m' := by
  obtain ⟨hn', hv, -, -, -, hdecl, -, hs₁, hread, hs₂, hr, hs₃, hconn, hs'⟩ := h
  obtain rfl := Option.some.inj (hn.symm.trans hn')
  rename_i np result value storage process decl read conn type stype m₁ m₂ m₃
  have hst₁ : m₁.Usable storage := hdecl.usable_result (i := 0) rfl
  have hclear₁ : m₁.Clear S storage := hdecl.clear_result (i := 0) rfl rfl
  have h₁ : Retains c S N m m₁ := hdecl.retains_declaration hs hs₁ (.inr rfl) rfl
  have ha₁ := hdecl.aside hs.toWellFormed hs₁.toWellFormed hn ha h₁
  have h₂ : Retains c S N m₁ m₂ := hread.retains hs₁.toWellFormed hs₂.toWellFormed
    (fun _ hw => absurd hw.isAlwaysInline Bool.noConfusion) (List.forall_mem_singleton.2 hclear₁.outside)
  have hn₁ := hdecl.live hn
  have ha₂ := hread.aside hs₁.toWellFormed hs₂.toWellFormed hn₁ ha₁ h₂
  have hdef : m.def? result = some (.result id 0) := hs.result (core_of_live? hn) (by rw [hv]; rfl)
  have hk₂ := hdecl.kept.trans hread.kept
  have hdef₂ := hk₂.def? hdef
  have h₃ : Retains c S N m₂ m₃ := hr.retains_result hs₂.toWellFormed ha₂ hdef₂
    (Module.not_isStorage hdef₂ (core_of_live? (hread.live hn₁)) hop) (hread.clear_result (i := 0) rfl rfl)
  have h₄ : Retains c S N m₃ m' := hconn.retains_connection hs₃ hs' rfl (List.forall_mem_cons.2
    ⟨(hclear₁.mono (hread.kept.trans hr.kept) hst₁).outside,
      List.forall_mem_singleton.2 (Clear.of_ne (hr.kept.def? hdef₂) ha.ne).outside⟩)
  exact ((h₁.trans h₂ hs₁.toWellFormed).trans h₃ hs₂.toWellFormed).trans h₄ hs₃.toWellFormed

/-- The effects of a node that is captured are used once, to be stored. -/
theorem Captures.deposited (h : m.Captures id m') (hs : Sound m) (hn : m.live? id = some n)
    (hop : n.op.hasSideEffects = true) : m'.Deposited id := by
  obtain ⟨hn', hv, -, -, -, hdecl, -, hs₁, hread, hs₂, hr, hs₃, hconn, hs'⟩ := h
  obtain rfl := Option.some.inj (hn.symm.trans hn')
  rename_i np result value storage process decl read conn type stype m₁ m₂ m₃
  have hn' := hconn.live (hr.live (hread.live (hdecl.live hn)))
  have hdef := hs.result (core_of_live? hn) (i := 0) (v := result) (by rw [hv]; rfl)
  have hk₂ := hdecl.kept.trans hread.kept
  have hvalue : result ≠ value := by
    rintro rfl
    have he := (hread.def?_result (i := 0) rfl).symm.trans (hk₂.def? hdef)
    simp only [Option.some.injEq, ValueDef.result.injEq] at he
    exact hread.ne (hdecl.live hn) he.1.symm
  have hstorage : result ≠ storage := by
    rintro rfl
    have he := (hdecl.def?_result (i := 0) rfl).symm.trans (hdecl.kept.def? hdef)
    simp only [Option.some.injEq, ValueDef.result.injEq] at he
    exact hdecl.ne hn he.1.symm
  have hst : m₁.IsStorage storage :=
    ⟨decl, 0, _, hdecl.def?_result (i := 0) rfl, core_of_live? hdecl.live?_self, rfl⟩
  refine ⟨⟨_, core_of_live? hn', hop⟩, _, result, conn, storage, hn', hv, fun u => ?_,
    ⟨_, core_of_live? hconn.live?_self, rfl⟩, hconn.uses_iff.2 (Or.inr ⟨rfl, rfl⟩),
    hst.mono ((hread.kept.trans hr.kept).trans hconn.kept)⟩
  have hnone : ¬ m₃.Uses u result := fun hu => by
    obtain ⟨-, he⟩ | ⟨hne, -⟩ := hr.uses_substitute_iff.1 hu
    · exact hvalue he
    · exact hne rfl
  rw [hconn.uses_iff, or_iff_right hnone]
  constructor
  · rintro ⟨hnode, hu⟩
    obtain ⟨node, operand⟩ := u
    match operand, hu with
    | 0, hu => exact absurd (Option.some.inj hu).symm hstorage
    | 1, _ => exact hnode ▸ rfl
  · rintro rfl
    exact ⟨rfl, rfl⟩

/-! ## Ports -/

theorem AnchorsOutput.retains {inst : NodeId} (h : m.AnchorsOutput inst v m') (hs : Sound m)
    (hop : m.HasOp (·.isInstance = true) inst) : Retains c S N m m' := by
  cases h with
  | ending h => exact h ▸ .refl _
  | @assigned n na _ _ hn _ ha hopa hparent hm hs' =>
    have hnot : ¬ na.op.Weighs := hopa ▸ Op.not_weighs (fun h => by cases h) rfl
    exact hm.retains hs.toWellFormed hs'.toWellFormed ha (fun _ hw => absurd hw hnot)
      (fun _ hw => absurd hw hnot) fun he _ _ _ _ _ => hparent.symm.trans he
  | @wired n name type stype decl conn storage uses m₁ m₂ hn hres htype hdecl hstype hs₁ huses hnd
      hreads hconn hs' =>
    have hinst := hop.of_live hn
    have hst₁ : m₁.Usable storage := hdecl.usable_result (i := 0) rfl
    have hclear₁ : m₁.Clear S storage := hdecl.clear_result (i := 0) rfl rfl
    have hold₁ : m₁.Fleeting S v := .of_mem hs₁ (hdecl.live hn) hres
      (Op.isDeclaration_of_isInstance hinst) fun he => by
        cases hop : n.op <;> simp_all [Op.hasSideEffects, Op.isInstance]
    have hs₂ := hreads.sound hs₁
    have h₁ : Retains c S N m m₁ := hdecl.retains_declaration hs hs₁ (.inl rfl) rfl
    exact (h₁.trans (hreads.retains hs₁ hold₁ hst₁ hclear₁) hs₁.toWellFormed).trans
      (hconn.retains_connection hs₂ hs' rfl (List.forall_mem_cons.2
        ⟨(hclear₁.mono hreads.kept hst₁).outside,
          List.forall_mem_singleton.2 (hold₁.clear.mono hreads.kept hold₁.usable).outside⟩))
      hs₂.toWellFormed

theorem AnchorsOutputs.retains {inst : NodeId} {vs : List ValueId} (h : AnchorsOutputs inst vs m m')
    (hs : Sound m) (hop : m.HasOp (·.isInstance = true) inst) : Retains c S N m m' := by
  induction h with
  | nil => exact .refl _
  | cons h _ ih =>
    have h₁ : Retains c S N _ _ := h.retains hs hop
    exact h₁.trans (ih (h.sound hs) (hop.mono h₁.kept)) (h.sound hs).toWellFormed

theorem AnchorsInput.retains {inst : NodeId} {index : Nat} (h : m.AnchorsInput inst index v m')
    (hs : Sound m) (hop : m.HasOp (·.isInstance = true) inst) (hS : m.Secure S) :
    Retains c S N m m' := by
  cases h with
  | simple h => exact h ▸ .refl _
  | @wired n name type stype decl read conn storage value m₁ m₂ m₃ hn huse htype hdecl hstype hs₁
      hread hs₂ hconn hs₃ hr hs' =>
    have hinst := hop.of_live hn
    have hblocking : ∀ {m'}, m.Kept m' → ¬ m'.HasOp (· = .blockingAssign) inst := fun hk hb => by
      have hb := (hb.of_kept hk hn).of_live hn
      rw [hb] at hinst
      cases hinst
    have hclear := hS.clear_of_uses hs.toWellFormed huse (hblocking (.refl m))
    have husable := hs.usable huse
    have hclear₁ : m₁.Clear S storage := hdecl.clear_result (i := 0) rfl rfl
    have hst₁ : m₁.Usable storage := hdecl.usable_result (i := 0) rfl
    have hk₂ := hdecl.kept.trans hread.kept
    have h₁ : Retains c S N m m₁ := hdecl.retains_declaration hs hs₁ (.inl rfl) rfl
    have h₂ : Retains c S N m₁ m₂ := hread.retains hs₁.toWellFormed hs₂.toWellFormed
      (fun _ hw => absurd hw.isAlwaysInline Bool.noConfusion) (List.forall_mem_singleton.2 hclear₁.outside)
    have h₃ : Retains c S N m₂ m₃ := hconn.retains_connection hs₂ hs₃ rfl (List.forall_mem_cons.2
      ⟨(hclear₁.mono hread.kept hst₁).outside,
        List.forall_mem_singleton.2 (hclear.mono hk₂ husable).outside⟩)
    have hvalue : m₂.Clear S value := hread.clear_result (i := 0) rfl rfl
    have h₄ : Retains c S N m₃ m' := hr.retains_pointAt hs₃.toWellFormed
      (hconn.uses_iff.2 (Or.inl (hread.uses_iff.2 (Or.inl (hdecl.uses_iff.2 (Or.inl huse))))))
      (fun _ hw => ?_) (hclear.mono (hk₂.trans hconn.kept) husable).outside
      (hvalue.mono hconn.kept (hread.usable_result (i := 0) rfl)).outside
      fun hb => absurd hb (hblocking (hk₂.trans hconn.kept))
    · exact ((h₁.trans h₂ hs₁.toWellFormed).trans h₃ hs₂.toWellFormed).trans h₄ hs₃.toWellFormed
    · refine absurd ((hw.of_kept (hk₂.trans hconn.kept) hn).of_live hn)
        (Op.not_weighs (Op.ne_logic_of_isInstance hinst) ?_)
      cases hop : n.op <;> simp_all [Op.isInstance, Op.isExpression, Op.category]

theorem AnchorsInputs.retains {inst : NodeId} {index : Nat} {vs : List ValueId}
    (h : AnchorsInputs inst index vs m m') (hs : Sound m) (hop : m.HasOp (·.isInstance = true) inst)
    (hS : m.Secure S) : Retains c S N m m' := by
  induction h with
  | nil => exact .refl _
  | cons h _ ih =>
    have h₁ : Retains c S N _ _ := h.retains hs hop hS
    exact h₁.trans (ih (h.sound hs) (hop.mono h₁.kept) (hS.mono h₁)) (h.sound hs).toWellFormed

/-! ## Events -/

/-- An event of a process that can be routed: what defines it is around the process, and computes it
without captured effects. -/
structure Routable (m : Module) (S : NodeId → Prop) (process : NodeId) (v : ValueId) : Prop
    extends m.Fleeting S v where
  sights : m.Sights process v

theorem RoutesEvent.retains {process : NodeId} (h : m.RoutesEvent process v m') (hs : Sound m)
    (hk : m.kind? c = some .procedural)
    (hout : ∀ n, m.live? process = some n → m.Inside c n.parent → c = n.parent)
    (hv : m.Routable S process v) : Retains c S N m m' := by
  cases h with
  | simple h => exact h ▸ .refl _
  | @wired np type stype decl read conn d storage value i m₁ m₂ m₃ m₄ hp hevent htype hdecl hstype
      hs₁ hread hs₂ hr hs₃ hconn hs₄ hsettle =>
    have hclear₁ : m₁.Clear S storage := hdecl.clear_result (i := 0) rfl rfl
    have hst₁ : m₁.Usable storage := hdecl.usable_result (i := 0) rfl
    have hk₂ := hdecl.kept.trans hread.kept
    have h₁ : Retains c S N m m₁ := hdecl.retains_declaration hs hs₁ (.inl rfl) rfl
    have h₂ : Retains c S N m₁ m₂ := hread.retains hs₁.toWellFormed hs₂.toWellFormed
      (fun _ hw => absurd hw.isAlwaysInline Bool.noConfusion) (List.forall_mem_singleton.2 hclear₁.outside)
    -- A node of a watched block that took the event takes the read, which is beside the process.
    have hread₂ : d ∈ m₂.nodesOf c → read ∈ m₂.nodesOf c := fun hd => by
      obtain ⟨nd₂, hnd₂, hpd⟩ := hs₂.mem_nodesOf_iff.1 hd
      have hparent : ∀ {nd}, m.live? d = some nd → nd.parent = c := fun hnd => by
        obtain rfl := Option.some.inj ((hread.live (hdecl.live hnd)).symm.trans hnd₂)
        exact hpd
      obtain ⟨⟨nd, hnd, hg⟩, -⟩ | ⟨nd, np', hnd, hnp, hin⟩ := hv.sights hevent
      · rw [hparent hnd, hk] at hg
        cases hg
      · obtain rfl := Option.some.inj (hp.symm.trans hnp)
        exact hs₂.mem_nodesOf_iff.2 ⟨_, hread.live?_self, (hout np hp (hparent hnd ▸ hin)).symm⟩
    have hevent₂ := hk₂.def? hevent
    have hv₂ := hv.clear.mono hk₂ hv.usable
    have h₃ : Retains c S N m₂ m₃ := hr.retains_substitute hs₂.toWellFormed
      (fun _ _ _ _ e he j _ hdef _ => by
        obtain ⟨rfl, -⟩ : d = e ∧ i = j := by simpa using hevent₂.symm.trans hdef
        exact ⟨read, hread₂ he, 0, hread.def?_result (i := 0) rfl⟩)
      hv₂.outside (hread.clear_result (i := 0) rfl rfl).outside
      fun ht => hv.not_isStorage (ht.of_kept hk₂ hs.toWellFormed hevent)
    have h₄ : Retains c S N m₃ m₄ := hconn.retains_connection hs₃ hs₄ rfl (List.forall_mem_cons.2
      ⟨(hclear₁.mono (hread.kept.trans hr.kept) hst₁).outside,
        List.forall_mem_singleton.2 (hv.clear.mono (hk₂.trans hr.kept) hv.usable).outside⟩)
    exact (((h₁.trans h₂ hs₁.toWellFormed).trans h₃ hs₂.toWellFormed).trans h₄ hs₃.toWellFormed).trans
      (hsettle.inlines.retains hs₄) hs₄.toWellFormed

theorem RoutesEvents.retains {process : NodeId} {vs : List ValueId}
    (h : RoutesEvents process vs m m') (hs : Sound m) (hk : m.kind? c = some .procedural)
    (hp : m.live? process = some n) (hout : m.Inside c n.parent → c = n.parent)
    (hvs : ∀ v ∈ vs, m.Routable S process v) : Retains c S N m m' := by
  induction h generalizing n with
  | nil => exact .refl _
  | @cons v vs m m₁ m' h _ ih =>
    have h₁ : Retains c S N m m₁ := h.retains hs hk (fun n' hn' => by
      obtain rfl := Option.some.inj (hp.symm.trans hn')
      exact hout) (hvs _ List.mem_cons_self)
    obtain ⟨hframe, -⟩ := h.provides hs
    have ht := (h.edits hs).sameTree
    obtain ⟨n₁, hn₁, hp₁⟩ := hframe.live hp not_false
    refine h₁.trans (ih (h.sound hs) (h₁.kept.kind? c ▸ hk) hn₁
      (hp₁ ▸ fun hin => hout (ht.symm.inside hin)) fun w hw => ?_) (h.sound hs).toWellFormed
    have hr := hvs w (List.mem_cons_of_mem _ hw)
    obtain ⟨vd, hdef, -⟩ := id hr.usable
    exact ⟨hr.toFleeting.mono h₁.kept hs.toWellFormed (hr.usable.mono h₁.kept fun hj => by
      obtain ⟨nj, hnj, -⟩ := hframe.live hj not_false
      exact ⟨nj, hnj⟩), hr.sights.stay hframe ht hdef⟩

/-! ## Order -/

/-- What a node of a block takes is not in procedural code that is not around the block. -/
theorem Fed.parent_ne (hm : m.Fed []) (hud : m.Takes u d) (hu : m.live? u = some n)
    (hd : m.live? d = some nd) (hk : m.kind? c = some .procedural) (hout : ¬ m.Inside c n.parent) :
    nd.parent ≠ c := by
  rintro rfl
  obtain ⟨⟨nd', hnd', hg⟩, -⟩ | ⟨hW, -⟩ | ⟨nd', nu', hnd', hnu', hin⟩ := (hm hud).inside
  · obtain rfl := Option.some.inj (hd.symm.trans hnd')
    rw [hk] at hg
    cases hg
  · cases hW
  · obtain rfl := Option.some.inj (hd.symm.trans hnd')
    obtain rfl := Option.some.inj (hu.symm.trans hnu')
    exact hout hin

theorem Moves.retains_outside (h : m.Moves m' b pos id) (hw : WellFormed m) (hw' : WellFormed m')
    (hn : m.live? id = some n) (hp : n.parent ≠ c) (hb : b ≠ c) : Retains c S N m m' :=
  h.retains hw hw' hn (fun he => absurd he hb) (fun he => absurd he hp) fun he => absurd he hp

theorem Resolves.retains {block : BlockId} (h : m.Resolves block id m') (hm : m.Sustained)
    (hn : m.live? id = some n) (hp : n.parent = block) (hk : m.kind? c = some .procedural)
    (hout : ¬ m.Inside c block) (hne : ¬ S id) : Retains c S N m m' := by
  have hb : block ≠ c := fun he => hout (he ▸ .self)
  have hw := hm.toWellFormed
  cases h with
  | front hn' _ hmove hs' =>
    obtain rfl := Option.some.inj (hn.symm.trans hn')
    exact hmove.retains_outside hw hs'.toWellFormed hn (hp ▸ hb) hb
  | @read n' nd decl storage i m₁ hn' hop hstorage hdef hd hplace hmove hs₁ hmove' hs' =>
    obtain rfl := Option.some.inj (hn.symm.trans hn')
    have hdecl : nd.parent ≠ c := hm.fed.parent_ne ⟨0, storage, i, ⟨n, hn, hstorage⟩, hdef⟩ hn hd hk
      (hp ▸ hout)
    refine (hmove.retains_outside hw hs₁.toWellFormed hn (hp ▸ hb) hb).trans
      (hmove'.retains_outside hs₁.toWellFormed hs'.toWellFormed (hmove.live hd) ?_ hb) hs₁.toWellFormed
    change (if decl = id then block else nd.parent) ≠ c
    split
    · exact hb
    · exact hdecl
  | spill hnot h =>
    refine h.retains hm.toSound hn (hp ▸ hb) ?_ hne
    cases hop : n.op.isDeclaration with
    | false => rfl
    | true => exact absurd (hm.proper.placeable hn hop) (hnot n hn)

theorem ResolvesAll.retains {block : BlockId} (h : ResolvesAll block ids m m') (hm : m.Sustained)
    (hids : ∀ j ∈ ids, ¬ S j ∧ ∃ n, m.live? j = some n ∧ n.parent = block)
    (hg : m.kind? block = some .graph) (hk : m.kind? c = some .procedural)
    (hout : ¬ m.Inside c block) : Retains c S N m m' := by
  induction h with
  | nil => exact .refl _
  | cons h _ ih =>
    obtain ⟨⟨hne, n, hn, hp⟩, hids⟩ := List.forall_mem_cons.1 hids
    have hm₁ := h.sustained hm hn hp hg
    have h₁ : Retains c S N _ _ := h.retains hm hn hp hk hout hne
    refine h₁.trans (ih hm₁ (fun j hj => ?_) (h₁.kept.kind? _ ▸ hg) (h₁.kept.kind? _ ▸ hk)
      fun hin => hout ((h.edits hm.toSound).sameTree.symm.inside hin)) hm₁.toWellFormed
    obtain ⟨hne, nj, hnj, hpj⟩ := hids j hj
    obtain ⟨nj', hnj', -, -, hpj'⟩ := h.live hnj
    exact ⟨hne, nj', hnj', hpj'.elim (·.trans hpj) id⟩

/-- Putting a block in order leaves the procedural code that is not around it. -/
theorem Orders.retains {block : BlockId} (h : Orders block m m') (hm : m.Sustained)
    (hnone : m.kind? block = some .procedural → ∀ j ∈ m.nodesOf block, ¬ m.HasOp (· = .logic) j)
    (hk : m.kind? c = some .procedural) (hout : ¬ m.Inside c block)
    (hS : ∀ j ∈ m.nodesOf block, ¬ S j) : Retains c S N m m' := by
  cases h with
  | empty _ _ h => exact h ▸ .refl _
  | declarations hp _ _ h => exact h.eq_of_forall (hnone hp) ▸ .refl _
  | definitions hg hids h =>
    refine h.retains hm (fun j hj => ?_) hg hk hout
    have hmem := (outOfOrder_eq_ok hm.toSound hids).1.subset hj
    exact ⟨hS j hmem, hm.toSound.mem_nodesOf_iff.1 hmem⟩

/-! ## Handling a node -/

theorem Stores.retains (h : m.Stores id m') (hs : Sound m) (hn : m.live? id = some n)
    (hb : n.parent ≠ c) (ha : m.Aside c S id) : Retains c S N m m' := by
  cases h with
  | nothing h => exact h ▸ .refl _
  | reuse hn' hop _ _ h =>
    obtain rfl := Option.some.inj (hn.symm.trans hn')
    exact h.retains hs hn (Op.isDeclaration_of_isExpression hop) ha
  | spill hn' hop _ h =>
    obtain rfl := Option.some.inj (hn.symm.trans hn')
    exact h.retains hs hn hb (Op.isDeclaration_of_isExpression hop) ha.ne

/-- A node outside of the watched block is aside. -/
theorem Aside.of_not_mem (hS : m.Secure S) (hne : ¬ S id) (hid : id ∉ m.nodesOf c) : m.Aside c S id :=
  ⟨hS, hne, fun hmem => absurd hmem hid⟩

/-- What may become of an expression before it is replaced: without local variables nothing does in
procedural code. -/
theorem Stores.retains_aside (h : m.Stores id m') (hs : Sound m) (hn : m.live? id = some n)
    (hinline : n.op.isAlwaysInline = false)
    (hproc : m.kind? n.parent = some .procedural → m = m') (hk : m.kind? c = some .procedural)
    (ha : m.Aside c S id) : Retains c S N m m' ∧ m'.Aside c S id := by
  obtain hp | hg := hs.kind?_parent hn
  · exact hproc hp ▸ ⟨.refl m, ha⟩
  · have hb : n.parent ≠ c := by
      rintro rfl
      rw [hk] at hg
      cases hg
    have h₁ : Retains c S N m m' := h.retains hs hn hb ha
    refine ⟨h₁, .of_not_mem (ha.secure.mono h₁) ha.ne fun hmem => ?_⟩
    obtain ⟨n', hn', hp'⟩ := (h.rules.edits hs).sound.mem_nodesOf_iff.1 hmem
    obtain ⟨n₁, hn₁, -, hp₁⟩ := h.live hn hinline
    obtain rfl := Option.some.inj (hn'.symm.trans hn₁)
    exact hb (hp₁.symm.trans hp')

/-- Handling a node leaves those that were handled before it at rest. What it puts into the block of the
node is what the scan goes back to. -/
theorem Handled.retains {o : Options} {flow : Flow} (h : m.Handled o id m' flow) (hm : m.Sustained)
    (hstrict : o.disallowLocalVariables = true) (hn : m.live? id = some n)
    (hk : m.kind? c = some .procedural) (hout : m.Inside c n.parent → c = n.parent)
    (ha : m.Aside c S id) (hN : ∀ target j, flow = .rewind target → n.parent = c →
      (j = target ∨ Precedes (m'.nodesOf c) target j) → N j) : Retains c S N m m' := by
  have hs := hm.toSound
  have hw := hm.toWellFormed
  cases h with
  | leave hn' _ _ _ h => exact h.retains hs hn hout ha
  | route hn' hop _ h =>
    obtain rfl := Option.some.inj (hn.symm.trans hn')
    refine h.retains hs hk hn hout fun v hv => ?_
    obtain ⟨k, hu⟩ := exists_uses_of_mem hn hv
    have hblocking : n.op ≠ .blockingAssign := by
      intro he
      rw [he] at hop
      cases hop
    exact ⟨⟨hs.usable hu, ha.secure.clear_of_mem hw hn hblocking hv, hm.proper.event hn hop hv⟩,
      (hm.fed.finds_of_mem hn hv).sights⟩
  | anchor hn' hop h hn₁ h' =>
    obtain rfl := Option.some.inj (hn.symm.trans hn')
    have hinst : m.HasOp (·.isInstance = true) id := ⟨n, core_of_live? hn, hop⟩
    have h₁ : Retains c S N m _ := h.retains hs hinst
    split at h'
    · have hs₁ := (h.edits hs).sound
      exact h₁.trans (h'.retains hs₁ (hinst.mono h₁.kept) (ha.secure.mono h₁)) hs₁.toWellFormed
    · exact h' ▸ h₁
  | other _ _ _ _ _ h => exact h ▸ .refl _
  | hoist _ _ _ _ _ h => exact h.retains hs hn hout ha
  | capture hn' hop _ _ _ h =>
    obtain rfl := Option.some.inj (hn.symm.trans hn')
    exact h.retains hs hn (Op.isDeclaration_of_isExpression hop) ha
  | erase hn' hop _ _ h hs' =>
    obtain rfl := Option.some.inj (hn.symm.trans hn')
    refine h.retains_of_ne hw hs'.toWellFormed hn ?_ ha.ne
    intro he
    rw [he] at hop
    cases hop
  | skip _ _ _ h => exact h ▸ .refl _
  | settle _ _ _ h => exact h.inlines.retains hs
  | @withdraw n' m₁ hn' hop _ _ _ _ h h' =>
    obtain rfl := Option.some.inj (hn.symm.trans hn')
    have h₁ : Retains c S N m m₁ := h.retains hs hn hout ha
    obtain rfl | ⟨⟨n₁, hn₁, hg⟩, h'⟩ := h'
    · exact h₁
    · have hs₁ := (h.edits hs hn (Op.regionKinds_of_isExpression hop)).sound
      obtain ⟨n₂, hn₂, hop₂, -⟩ := h₁.kept.node (core_of_live? hn)
      obtain rfl := Option.some.inj ((core_of_live? hn₁).symm.trans hn₂)
      refine h₁.trans (h'.retains hs₁ hn₁ ?_ (hop₂ ▸ Op.isDeclaration_of_isExpression hop) ha.ne)
        hs₁.toWellFormed
      rintro rfl
      rw [h₁.kept.kind?, hk] at hg
      cases hg
  | @finish n' m₁ hn' hop hinline _ hst hproc _ h =>
    obtain rfl := Option.some.inj (hn.symm.trans hn')
    obtain ⟨h₁, ha₁⟩ := hst.retains_aside (N := N) hs hn hinline (hproc hstrict) hk ha
    obtain rfl | ⟨hg, h⟩ := h
    · exact h₁
    · have hs₁ := (hst.rules.edits hs).sound
      obtain ⟨n₁, hn₁, hop₁, -⟩ := hst.live hn hinline
      exact h₁.trans (h.retains hs₁ hn₁ (hop₁ ▸ Op.isDeclaration_of_isExpression hop) ha₁)
        hs₁.toWellFormed
  | @vanish n' m₁ hn' hop _ hst hproc h =>
    obtain rfl := Option.some.inj (hn.symm.trans hn')
    have hinline : n.op.isAlwaysInline = false := by rw [hop]; rfl
    obtain ⟨h₁, ha₁⟩ := hst.retains_aside (N := N) hs hn hinline (hproc hstrict) hk ha
    obtain ⟨n₁, hn₁, hop₁, -⟩ := hst.live hn hinline
    have hs₁ := (hst.rules.edits hs).sound
    exact h₁.trans (h.retains hs₁ hn₁ (hop₁.trans hop) ha₁ nofun) hs₁.toWellFormed
  | @replace n' target m₁ hn' _ hst hproc h =>
    obtain rfl := Option.some.inj (hn.symm.trans hn')
    have hs₁ := (hst.rules.edits hs).sound
    obtain ⟨n₁, hn₁, -, hinline⟩ := h.isExpression
    have hop : m.HasOp (·.isAlwaysInline = false) id :=
      HasOp.of_kept ⟨n₁, core_of_live? hn₁, hinline⟩ (hst.rules.edits hs).kept hn
    obtain ⟨h₁, ha₁⟩ := hst.retains_aside (N := N) hs hn (hop.of_live hn) (hproc hstrict) hk ha
    obtain ⟨n₂, hn₂, -, hp₂⟩ := hst.live hn (hop.of_live hn)
    obtain rfl := Option.some.inj (hn₁.symm.trans hn₂)
    exact h₁.trans ((h.retains hs₁ (hst.fitted hs hn hm.fitted) hn₁ ha₁).mono
      fun j ⟨he, hj⟩ => hN target j rfl (hp₂.symm.trans he) hj) hs₁.toWellFormed

end Module

end NetPrep
