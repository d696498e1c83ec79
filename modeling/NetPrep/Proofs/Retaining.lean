import Mathlib
import NetPrep.Proofs.Exempting
import NetPrep.Proofs.Sustaining

/-!
# What may stay in procedural code

Without local variables, a variable or an expression that is not printed at its uses leaves procedural
code, unless it takes a node of its own block, or has side effects and is captured. `Module.Retains`
says of a step that it puts no such node into a block, but for given ones, and leaves the reasons that
given nodes have in place. Whatever is done to other nodes does so.
-/

namespace NetPrep

open Prepare Prep

/-- An operation of nodes that may not stay in procedural code just so: a variable, or an expression
that is not printed at its uses. -/
def Op.Weighs (op : Op) : Prop := op = .logic ∨ (op.isExpression = true ∧ op.isAlwaysInline = false)

theorem Op.Weighs.isAlwaysInline {op : Op} (h : op.Weighs) : op.isAlwaysInline = false := by
  obtain rfl | h := h
  · rfl
  · exact h.2

theorem Op.not_weighs {op : Op} (hlogic : op ≠ .logic) (hexpr : op.isExpression = false) : ¬ op.Weighs :=
  fun h => h.elim hlogic fun h => Bool.false_ne_true (hexpr.symm.trans h.1)

theorem Op.isAlwaysInline_of_hasSideEffects {op : Op} (h : op.hasSideEffects = true) :
    op.isAlwaysInline = false := by
  cases op <;> first | rfl | cases h

namespace Module

variable {m m' m'' : Module} {b c : BlockId} {S N T : NodeId → Prop} {a d e id u x : NodeId}
  {n na nd nu : Node} {pos : Position} {types : List TypeId} {i k : Nat} {t v y z : ValueId} {w : Use}

/-- A node of a block takes a node of the block. -/
def Tied (m : Module) (c : BlockId) (x : NodeId) : Prop :=
  x ∈ m.nodesOf c ∧ ∃ d ∈ m.nodesOf c, m.Takes x d

/-- The effects of a node are captured: its result is used once, as the source of a blocking assignment
to declared storage. -/
def Deposited (m : Module) (x : NodeId) : Prop :=
  m.HasOp (·.hasSideEffects = true) x ∧ ∃ n v a t, m.live? x = some n ∧ n.results = [v] ∧
    (∀ u, m.Uses u v ↔ u = ⟨a, 1⟩) ∧ m.HasOp (· = .blockingAssign) a ∧ m.Uses ⟨a, 0⟩ t ∧
      m.IsStorage t

/-- A value is no result of a node of a set whose effects are captured. -/
def Outside (S : NodeId → Prop) (m : Module) (v : ValueId) : Prop :=
  ∀ ⦃x i⦄, m.def? v = some (.result x i) → S x → ¬ m.Deposited x

/-- A value is no result of a node of a set that has side effects. -/
def Clear (S : NodeId → Prop) (m : Module) (v : ValueId) : Prop :=
  ∀ ⦃x i⦄, m.def? v = some (.result x i) → S x → ¬ m.HasOp (·.hasSideEffects = true) x

/-- A step puts no node that weighs into a block, but for those of a set, and nodes of another set stay
tied to nodes of the block, and their effects stay captured. -/
structure Retains (c : BlockId) (S N : NodeId → Prop) (m m' : Module) : Prop where
  kept : m.Kept m'
  mem : ∀ ⦃x⦄, x ∈ m'.nodesOf c → m'.HasOp Op.Weighs x → x ∈ m.nodesOf c ∨ N x
  tied : ∀ ⦃x⦄, S x → m.HasOp Op.Weighs x → m.Tied c x → m'.Tied c x
  deposited : ∀ ⦃x⦄, S x → m.Deposited x → m'.Deposited x

theorem Retains.refl (m : Module) : Retains c S N m m where
  kept := .refl m
  mem _ h _ := Or.inl h
  tied _ _ _ h := h
  deposited _ _ h := h

theorem Retains.trans (h : Retains c S N m m') (h' : Retains c S N m' m'') (hw' : WellFormed m') :
    Retains c S N m m'' where
  kept := h.kept.trans h'.kept
  mem x hx hop := by
    obtain hmem | hnew := h'.mem hx hop
    · obtain ⟨n, hn, -⟩ := hw'.mem_nodesOf_iff.1 hmem
      exact h.mem hmem (hop.of_kept h'.kept hn)
    · exact Or.inr hnew
  tied x hS hop ht := h'.tied hS (hop.mono h.kept) (h.tied hS hop ht)
  deposited x hS hx := h'.deposited hS (h.deposited hS hx)

theorem Retains.mono {N' : NodeId → Prop} (h : Retains c S N m m') (hN : ∀ j, N j → N' j) :
    Retains c S N' m m' :=
  ⟨h.kept, fun _ hx hop => (h.mem hx hop).imp_right (hN _), h.tied, h.deposited⟩

/-! ## Values -/

theorem Clear.outside (h : m.Clear S v) : m.Outside S v := fun _ _ hdef hx hdep => h hdef hx hdep.1

theorem Clear.mono (h : m.Clear S v) (hk : m.Kept m') (hv : m.Usable v) : m'.Clear S v := by
  intro x i hdef hx hop
  obtain ⟨d, hd, hlive⟩ := hv
  obtain rfl := Option.some.inj ((hk.def? hd).symm.trans hdef)
  obtain ⟨n, hn⟩ := hlive rfl
  exact h hd hx (hop.of_kept hk hn)

/-- What a node without side effects computes. -/
theorem Clear.of_op (hdef : m.def? v = some (.result d i)) (hd : m.live? d = some nd)
    (hop : nd.op.hasSideEffects = false) : m.Clear S v := by
  intro x j hdef' _ hx
  obtain ⟨rfl, -⟩ : d = x ∧ i = j := by simpa using hdef.symm.trans hdef'
  exact Bool.false_ne_true (hop.symm.trans (hx.of_live hd))

theorem Creates.clear_result (h : m.Creates m' b pos id n types) (hv : n.results[i]? = some v)
    (hop : n.op.hasSideEffects = false) : m'.Clear S v :=
  .of_op (h.def?_result hv) h.live?_self hop

/-- What is used otherwise than captured effects are. -/
theorem Outside.of_uses (h : m.Uses w v) (hw : WellFormed m)
    (hop : ¬ m.HasOp (· = .blockingAssign) w.node) : m.Outside S v := by
  rintro x i hdef - ⟨-, n, v', a, t, hn, hres, huses, ha, -⟩
  obtain ⟨n', hn', hv⟩ := hw.definition hdef
  obtain rfl := Option.some.inj ((core_of_live? hn).symm.trans hn')
  have : v = v' := by
    rw [hres] at hv
    exact (List.mem_singleton.1 (List.mem_of_getElem? hv))
  subst this
  exact hop ((huses w).1 h ▸ ha)

theorem Deposited.of_uses (h : m.Deposited x) (hw : WellFormed m) (hk : m.Kept m')
    (hlive : ∀ n, m.live? x = some n → ∃ n', m'.live? x = some n')
    (huses : ∀ v i, m.def? v = some (.result x i) → ∀ u, m'.Uses u v ↔ m.Uses u v)
    (hdest : ∀ a t, m.HasOp (· = .blockingAssign) a → m.IsStorage t → m.Uses ⟨a, 0⟩ t →
      m'.Uses ⟨a, 0⟩ t) : m'.Deposited x := by
  obtain ⟨hop, n, v, a, t, hn, hres, hall, ha, hu, ht⟩ := h
  obtain ⟨n', hn'⟩ := hlive n hn
  obtain ⟨n'', hn'', -, hres', -⟩ := hk.node (core_of_live? hn)
  obtain rfl := Option.some.inj ((core_of_live? hn').symm.trans hn'')
  have hdef : m.def? v = some (.result x 0) := hw.result (core_of_live? hn) (by simp [hres])
  exact ⟨hop.mono hk, n', v, a, t, hn', hres'.trans hres, fun u => (huses v 0 hdef u).trans (hall u),
    ha.mono hk, hdest a t ha ht hu, ht.mono hk⟩

/-! ## Edits -/

theorem Creates.retains (h : m.Creates m' b pos id n types) (hw : WellFormed m) (hw' : WellFormed m')
    (hweight : b = c → n.op.Weighs → N id) (hops : ∀ v ∈ n.operands, m.Outside S v) :
    Retains c S N m m' := by
  have hmem : ∀ {x}, x ∈ m.nodesOf c → x ∈ m'.nodesOf c := fun hx => by
    obtain ⟨nx, hnx, hp⟩ := hw.mem_nodesOf_iff.1 hx
    exact hw'.mem_nodesOf_iff.2 ⟨nx, h.live hnx, hp⟩
  refine ⟨h.kept, fun x hx hop => ?_, fun x _ _ ⟨hx, d, hd, htakes⟩ => ⟨hmem hx, d, hmem hd,
    htakes.mono h.kept fun hu => h.uses_iff.2 (Or.inl hu)⟩, fun x hS hx =>
    hx.of_uses hw h.kept (fun nx hnx => ⟨nx, h.live hnx⟩) (fun v i hdef u => ?_) fun a t _ _ hu =>
      h.uses_iff.2 (Or.inl hu)⟩
  · obtain ⟨nx, hnx, hp⟩ := hw'.mem_nodesOf_iff.1 hx
    obtain ⟨rfl, rfl⟩ | ⟨-, hnx⟩ := h.live_cases hnx
    · exact Or.inr (hweight (h.parent.symm.trans hp) (hop.of_live h.live?_self))
    · exact Or.inl (hw.mem_nodesOf_iff.2 ⟨nx, hnx, hp⟩)
  · rw [h.uses_iff]
    refine or_iff_left ?_
    rintro ⟨-, hv⟩
    exact hops v (List.mem_of_getElem? hv) hdef hS hx

theorem Relabels.retains {name : Option Name → Option Name} {twoState : Bool → Bool}
    (h : m.Relabels m' id name twoState) (hw : WellFormed m) : Retains c S N m m' where
  kept := h.kept
  mem x hx _ := Or.inl (h.nodesOf c ▸ hx)
  tied x _ _ ht := by
    simpa only [Tied, h.nodesOf, h.takes_iff] using ht
  deposited x _ hx := hx.of_uses hw h.kept (fun nx hnx => ⟨_, h.live hnx⟩) (fun _ _ _ _ => h.uses_iff)
    fun _ _ _ _ hu => h.uses_iff.2 hu

/-- A node does not leave the block if it is one of the set, or one of them takes it. -/
theorem Moves.retains (h : m.Moves m' b pos id) (hw : WellFormed m) (hw' : WellFormed m')
    (hn : m.live? id = some n) (hin : b = c → n.op.Weighs → n.parent = c)
    (hself : n.parent = c → n.op.Weighs → S id → b = c)
    (husers : n.parent = c → ∀ x ∈ m.nodesOf c, S x → m.HasOp Op.Weighs x → m.Takes x id → b = c) :
    Retains c S N m m' := by
  have hmem : ∀ {x}, x ∈ m.nodesOf c → (x = id → n.parent = c → b = c) → x ∈ m'.nodesOf c := by
    intro x hx hstay
    obtain ⟨nx, hnx, hp⟩ := hw.mem_nodesOf_iff.1 hx
    refine hw'.mem_nodesOf_iff.2 ⟨_, h.live hnx, ?_⟩
    by_cases he : x = id
    · subst he
      obtain rfl := Option.some.inj (hn.symm.trans hnx)
      exact (if_pos rfl).trans (hstay rfl hp)
    · exact (if_neg he).trans hp
  refine ⟨h.kept, fun x hx hop => Or.inl ?_, fun x hS hop ⟨hx, d, hd, htakes⟩ => ⟨hmem hx ?_, d, hmem hd ?_,
    h.takes_iff.2 htakes⟩, fun x hS hx => hx.of_uses hw h.kept (fun nx hnx => ⟨_, h.live hnx⟩)
      (fun _ _ _ _ => h.uses_iff) fun _ _ _ _ hu => h.uses_iff.2 hu⟩
  · obtain ⟨nx', hnx', hp⟩ := hw'.mem_nodesOf_iff.1 hx
    obtain ⟨nx, hnx, rfl⟩ := h.live_cases hnx'
    refine hw.mem_nodesOf_iff.2 ⟨nx, hnx, ?_⟩
    by_cases he : x = id
    · subst he
      obtain rfl := Option.some.inj (hn.symm.trans hnx)
      have hweight := hop.of_live hnx'
      exact hin ((if_pos rfl).symm.trans hp) hweight
    · exact (if_neg he).symm.trans hp
  · rintro rfl hp
    exact hself hp (hop.of_live hn) hS
  · rintro rfl hp
    exact husers hp x hx hS hop htakes

theorem Erases.retains (h : m.Erases m' id) (hw : WellFormed m) (hw' : WellFormed m')
    (hn : m.live? id = some n) (hself : n.op.Weighs → S id → ¬ m.Tied c id)
    (hdest : n.op ≠ .blockingAssign) (heffect : n.op.hasSideEffects = true → ¬ S id) :
    Retains c S N m m' := by
  have hmem : ∀ {x}, x ∈ m.nodesOf c → x ≠ id → x ∈ m'.nodesOf c := fun hx hne => by
    obtain ⟨nx, hnx, hp⟩ := hw.mem_nodesOf_iff.1 hx
    exact hw'.mem_nodesOf_iff.2 ⟨nx, h.live hnx hne, hp⟩
  refine ⟨h.kept, fun x hx _ => Or.inl ?_, fun x hS hop ⟨hx, d, hd, k, v, i, hu, hdef⟩ => ?_, fun x hS hx =>
    hx.of_uses hw h.kept (fun nx hnx => ⟨nx, h.live hnx ?_⟩) (fun v i hdef u => ?_) fun a t ha _ hu => ?_⟩
  · obtain ⟨nx, hnx, hp⟩ := hw'.mem_nodesOf_iff.1 hx
    exact hw.mem_nodesOf_iff.2 ⟨nx, (h.live_cases hnx).2, hp⟩
  · have hne : x ≠ id := by
      rintro rfl
      exact hself (hop.of_live hn) hS ⟨hx, d, hd, k, v, i, hu, hdef⟩
    have htakes : m'.Takes x d := ⟨k, v, i, h.uses_iff.2 ⟨hu, hne⟩, h.kept.def? hdef⟩
    obtain ⟨nd, hnd⟩ := htakes.live_right hw'
    exact ⟨hmem hx hne, d, hmem hd (h.live_cases hnd).1, htakes⟩
  · rintro rfl
    exact heffect (hx.1.of_live hn) hS
  · rw [h.uses_iff]
    refine and_iff_left_of_imp fun hu he => ?_
    exact Outside.of_uses (S := S) hu hw (fun hop => hdest (by
      rw [he] at hop
      exact hop.of_live hn)) hdef hS hx
  · refine h.uses_iff.2 ⟨hu, ?_⟩
    rintro rfl
    exact hdest (ha.of_live hn)

theorem Redirects.retains_substitute (h : m.Redirects m' (substitute y z)) (hw : WellFormed m)
    (hties : ∀ x ∈ m.nodesOf c, S x → m.HasOp Op.Weighs x → ∀ d ∈ m.nodesOf c, ∀ i k,
      m.def? y = some (.result d i) → m.Uses ⟨x, k⟩ y →
        ∃ e ∈ m.nodesOf c, ∃ j, m.def? z = some (.result e j))
    (hy : m.Outside S y) (hz : m.Outside S z) (hst : ¬ m.IsStorage y) : Retains c S N m m' where
  kept := h.kept
  mem x hx _ := Or.inl (h.nodesOf c ▸ hx)
  tied x hS hop := by
    rintro ⟨hx, d, hd, k, v, i, hu, hdef⟩
    simp only [Tied, h.nodesOf]
    refine ⟨hx, ?_⟩
    by_cases he : v = y
    · subst he
      obtain ⟨e, hmem, j, hz⟩ := hties x hx hS hop d hd i k hdef hu
      exact ⟨e, hmem, k, z, j, h.uses_substitute_iff.2 (Or.inl ⟨hu, rfl⟩), h.kept.def? hz⟩
    · exact ⟨d, hd, k, v, i, h.uses_substitute_iff.2 (Or.inr ⟨he, hu⟩), h.kept.def? hdef⟩
  deposited x hS hx := by
    refine hx.of_uses hw h.kept (fun nx hnx => ⟨_, h.live hnx⟩) (fun v i hdef u => ?_)
      fun a t _ ht hu => h.uses_substitute_iff.2 (Or.inr ⟨fun he => hst (he ▸ ht), hu⟩)
    rw [h.uses_substitute_iff]
    constructor
    · rintro (⟨-, rfl⟩ | ⟨-, hu⟩)
      · exact absurd hx (hz hdef hS)
      · exact hu
    · exact fun hu => Or.inr ⟨fun he => hy (he ▸ hdef) hS hx, hu⟩

theorem Redirects.retains_pointAt (h : m.Redirects m' (pointAt w z)) (hw : WellFormed m)
    (hu : m.Uses w y)
    (hties : w.node ∈ m.nodesOf c → m.HasOp Op.Weighs w.node →
      ∃ e ∈ m.nodesOf c, ∃ j, m.def? z = some (.result e j))
    (hy : m.Outside S y) (hz : m.Outside S z)
    (hst : m.HasOp (· = .blockingAssign) w.node → ¬ m.IsStorage y) : Retains c S N m m' where
  kept := h.kept
  mem x hx _ := Or.inl (h.nodesOf c ▸ hx)
  tied x hS hop := by
    rintro ⟨hx, d, hd, k, v, i, hu', hdef⟩
    simp only [Tied, h.nodesOf]
    refine ⟨hx, ?_⟩
    by_cases he : w = ⟨x, k⟩
    · subst he
      obtain ⟨e, hmem, j, hz⟩ := hties hx hop
      exact ⟨e, hmem, k, z, j, (h.uses_pointAt_iff hu).2 (by simp), h.kept.def? hz⟩
    · exact ⟨d, hd, k, v, i, (h.uses_pointAt_iff hu).2 (by rwa [if_neg (Ne.symm he)]),
        h.kept.def? hdef⟩
  deposited x hS hx := by
    refine hx.of_uses hw h.kept (fun nx hnx => ⟨_, h.live hnx⟩) (fun v i hdef u => ?_)
      fun a t ha ht hu' => ?_
    · rw [h.uses_pointAt_iff hu]
      split
      · next he =>
        subst he
        refine iff_of_false ?_ fun hu' => ?_
        · rintro rfl
          exact hz hdef hS hx
        · obtain rfl := hu.unique hu'
          exact hy hdef hS hx
      · exact Iff.rfl
    · rw [h.uses_pointAt_iff hu, if_neg]
      · exact hu'
      · rintro rfl
        obtain rfl := hu.unique hu'
        exact hst ha ht

/-! ## Settling -/

theorem InlineStep.retains (h : InlineStep id m m') (hs : Sound m) : Retains c S N m m' := by
  cases h with
  | @clone k n nu v copy u type m₁ hn hop hv hu hnu htype hc hs₁ hr hs' =>
    have hdef : m.def? v = some (.result id 0) := hs.result (core_of_live? hn) (by simp [hv])
    have hid : ¬ m.HasOp (· = .blockingAssign) id := by
      rintro h
      rw [h.of_live hn] at hop
      cases hop
    have h₁ : Retains c S N m m₁ := hc.retains hs.toWellFormed hs₁.toWellFormed
      (fun _ hw => absurd (hw.isAlwaysInline.symm.trans hop) Bool.false_ne_true) fun w hw => by
        obtain ⟨k, hk⟩ := exists_uses_of_mem hn hw
        exact .of_uses hk hs.toWellFormed hid
    have heffect : n.op.hasSideEffects = false := by
      cases he : n.op.hasSideEffects with
      | false => rfl
      | true => exact absurd (Op.isAlwaysInline_of_hasSideEffects he) (by simp [hop])
    have hn₁ := hc.live hn
    refine h₁.trans (hr.retains_pointAt hs₁.toWellFormed (hc.uses_iff.2 (Or.inl hu)) (fun hb _ => ?_)
      (Clear.of_op (hc.kept.def? hdef) hn₁ heffect).outside
      (hc.clear_result (i := 0) rfl heffect).outside fun _ => not_isStorage (hc.kept.def? hdef)
        (core_of_live? hn₁) (Op.isDeclaration_of_isAlwaysInline hop)) hs₁.toWellFormed
    obtain ⟨nu', hnu', rfl⟩ := hs₁.mem_nodesOf_iff.1 hb
    obtain rfl := Option.some.inj ((hc.live hnu).symm.trans hnu')
    exact ⟨k, hs₁.mem_nodesOf_iff.2 ⟨_, hc.live?_self, rfl⟩, 0, hc.def?_result (i := 0) rfl⟩
  | @move n nu v u hn hop hv honly hnu hne hm hs' =>
    have hnot : ¬ n.op.Weighs := fun hw => Bool.false_ne_true (hw.isAlwaysInline.symm.trans hop)
    refine hm.retains hs.toWellFormed hs'.toWellFormed hn (fun _ hw => absurd hw hnot)
      (fun _ hw => absurd hw hnot) fun _ x hx _ _ ⟨k, y, i, hy, hdef⟩ => ?_
    obtain ⟨n', hn', hres⟩ := hs.definition hdef
    obtain rfl := Option.some.inj ((core_of_live? hn).symm.trans hn')
    rw [hv] at hres
    obtain rfl := List.mem_singleton.1 (List.mem_of_getElem? hres)
    obtain rfl := (honly _).1 hy
    obtain ⟨nx, hnx, hp⟩ := hs.mem_nodesOf_iff.1 hx
    obtain rfl := Option.some.inj (hnu.symm.trans hnx)
    exact hp

theorem Inlines.retains (h : m.Inlines T m') (hs : Sound m) : Retains c S N m m' := by
  induction h with
  | refl => exact .refl _
  | step _ hstep hrest ih =>
    exact (hstep.retains hs).trans (ih hstep.sound) hstep.sound.toWellFormed

theorem SettlesOperands.retains {ids : List NodeId} (h : SettlesOperands ids m m') (hs : Sound m) :
    Retains c S N m m' := by
  induction h with
  | nil => exact .refl _
  | cons _ h hrest ih =>
    have hs₁ := h.inlines.sound hs
    exact (h.inlines.retains hs).trans (ih hs₁) hs₁.toWellFormed

/-! ## Reads -/

section

variable {old storage : ValueId} {type : TypeId} {loc : Loc} {us : List Use} {read : NodeId}

theorem ReadFor.retains (h : ReadFor old storage type loc w read m m') (hs : Sound m)
    (hold : m.Clear S old) (hnot : ¬ m.IsStorage old) (hst : m.Clear S storage) :
    Retains c S N m m' := by
  obtain ⟨hu, hnu, hc, hs₁, hr, hs'⟩ := h
  rename_i nu value m₁
  have h₁ : Retains c S N m m₁ := hc.retains hs.toWellFormed hs₁.toWellFormed
    (fun _ hw => absurd hw.isAlwaysInline Bool.noConfusion) (List.forall_mem_singleton.2 hst.outside)
  have husable := hs.usable hu
  obtain ⟨d, hd, -⟩ := id husable
  refine h₁.trans (hr.retains_pointAt hs₁.toWellFormed (hc.uses_iff.2 (Or.inl hu)) (fun hb _ => ?_)
    (hold.mono hc.kept husable).outside (hc.clear_result (i := 0) rfl rfl).outside
    fun _ ht => hnot (ht.of_kept hc.kept hs.toWellFormed hd)) hs₁.toWellFormed
  obtain ⟨nu', hnu', rfl⟩ := hs₁.mem_nodesOf_iff.1 hb
  obtain rfl := Option.some.inj ((hc.live hnu).symm.trans hnu')
  exact ⟨read, hs₁.mem_nodesOf_iff.2 ⟨_, hc.live?_self, rfl⟩, 0, hc.def?_result (i := 0) rfl⟩

/-- A value that is read from storage from now on: the result of a node that has no side effects, or none
that are captured, and is no declaration. -/
structure Fleeting (S : NodeId → Prop) (m : Module) (v : ValueId) : Prop where
  usable : m.Usable v
  clear : m.Clear S v
  not_isStorage : ¬ m.IsStorage v

theorem Fleeting.mono (h : m.Fleeting S v) (hk : m.Kept m') (hw : WellFormed m)
    (hv : m'.Usable v) : m'.Fleeting S v := by
  obtain ⟨d, hd, -⟩ := id h.usable
  exact ⟨hv, h.clear.mono hk h.usable, fun ht => h.not_isStorage (ht.of_kept hk hw hd)⟩

theorem ReadsFor.retains (h : ReadsFor old storage type loc us m m') (hs : Sound m)
    (hold : m.Fleeting S old) (husable : m.Usable storage) (hst : m.Clear S storage) :
    Retains c S N m m' := by
  induction h with
  | nil => exact .refl _
  | cons h hrest ih =>
    exact (h.retains hs hold.clear hold.not_isStorage hst).trans
      (ih h.sound (hold.mono h.kept hs.toWellFormed (h.usable hold.usable)) (h.usable husable)
        (hst.mono h.kept husable)) h.sound.toWellFormed

theorem ReadsSettled.retains (h : ReadsSettled old storage type loc us m m') (hs : Sound m)
    (hold : m.Fleeting S old) (husable : m.Usable storage) (hst : m.Clear S storage) :
    Retains c S N m m' := by
  induction h with
  | nil => exact .refl _
  | cons h hsettle hrest ih =>
    have hinline := hsettle.inlines
    have hs₂ := hinline.sound h.sound
    have hk₂ := h.kept.trans hinline.kept
    have h₂ : Retains c S N _ _ := (h.retains hs hold.clear hold.not_isStorage hst).trans
      (hinline.retains h.sound) h.sound.toWellFormed
    exact h₂.trans (ih hs₂ (hold.mono hk₂ hs.toWellFormed (hinline.usable (h.usable hold.usable)))
      (hinline.usable (h.usable husable)) (hst.mono hk₂ husable)) hs₂.toWellFormed

end

/-! ## Temporaries -/

/-- The result of a node that is no declaration, and has no side effects or is not among given ones. -/
theorem Fleeting.of_mem (hs : Sound m) (hn : m.live? id = some n) (hv : v ∈ n.results)
    (hdecl : n.op.isDeclaration = false) (heffect : n.op.hasSideEffects = true → ¬ S id) :
    m.Fleeting S v := by
  obtain ⟨i, hdef⟩ := hs.exists_def hn hv
  refine ⟨⟨_, hdef, fun he => by cases he; exact ⟨n, hn⟩⟩, fun x j hx hS hop => ?_,
    Module.not_isStorage hdef (core_of_live? hn) hdecl⟩
  obtain ⟨rfl, -⟩ : id = x ∧ i = j := by simpa using hdef.symm.trans hx
  exact heffect (hop.of_live hn) hS

theorem Creates.retains_connection (h : m.Creates m' b pos id n types) (hs : Sound m) (hs' : Sound m')
    (hop : n.op.category = .connection) (hops : ∀ v ∈ n.operands, m.Outside S v) :
    Retains c S N m m' := by
  refine h.retains hs.toWellFormed hs'.toWellFormed (fun _ hw => absurd hw (Op.not_weighs ?_ ?_)) hops
  · intro h
    rw [h] at hop
    cases hop
  · simp [Op.isExpression, hop]

/-- Declaring storage that may stay anywhere changes nothing either. -/
theorem Creates.retains_declaration (h : m.Creates m' b pos id n types) (hs : Sound m) (hs' : Sound m')
    (hop : n.op = .wire ∨ n.op = .reg) (hops : n.operands = []) : Retains c S N m m' := by
  refine h.retains hs.toWellFormed hs'.toWellFormed (fun _ hw => absurd hw ?_) (by simp [hops])
  obtain hop | hop := hop <;> rw [hop] <;> exact Op.not_weighs (fun h => by cases h) rfl

end Module

end NetPrep
