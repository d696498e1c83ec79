import Mathlib
import NetPrep.Proofs.Edits

/-!
# Settling what is printed at its uses

An expression that must be printed where it is used is cloned before a user, or moved before its last
one. `Module.Inlines` says that a module comes from another one by such steps.
-/

namespace NetPrep

open Prepare Prep

/-- An operation that must be printed at each of its uses. -/
def Op.isAlwaysInline : Op → Bool
  | .read | .elementStorage | .fieldStorage _ => true
  | _ => false

theorem Op.regionKinds_of_isAlwaysInline {op : Op} (h : op.isAlwaysInline = true) :
    op.regionKinds = [] := by
  cases op <;> first | rfl | cases h

theorem Op.isAlwaysInline_of_isInstance {op : Op} (h : op.isInstance = true) :
    op.isAlwaysInline = false := by
  cases op <;> first | rfl | cases h

theorem Op.isAlwaysInline_of_isCommutative {op : Op} (h : op.isCommutative = true) :
    op.isAlwaysInline = false := by
  cases op <;> first | rfl | cases h

namespace Module

variable {m m' m'' : Module}

/-- A use of a node that must be printed there gets a copy, or the node itself. -/
inductive InlineStep (id : NodeId) (m m' : Module) : Prop
  | clone {copyId : NodeId} {n nu : Node} {v copy : ValueId} {u : Use} {type : TypeId}
      {m₁ : Module} (hn : m.live? id = some n) (hop : n.op.isAlwaysInline = true)
      (hv : n.results = [v]) (hu : m.Uses u v) (hnu : m.live? u.node = some nu)
      (htype : m.type? v = some type)
      (hc : m.Creates m₁ nu.parent (.before u.node) copyId
        { Node.fresh n.op n.operands [copy] nu.parent n.loc with
          name := n.name, twoState := n.twoState } [type])
      (hs₁ : Sound m₁) (hr : m₁.Redirects m' (pointAt u copy)) (hs : Sound m')
  | move {n nu : Node} {v : ValueId} {u : Use} (hn : m.live? id = some n)
      (hop : n.op.isAlwaysInline = true) (hv : n.results = [v])
      (honly : ∀ u', m.Uses u' v ↔ u' = u) (hnu : m.live? u.node = some nu) (hne : u.node ≠ id)
      (hm : m.Moves m' nu.parent (.before u.node) id) (hs : Sound m')

/-- One module comes from another by settling nodes, among given ones, that are printed at their
uses. -/
inductive Inlines (T : NodeId → Prop) : Module → Module → Prop
  | refl (m : Module) : Inlines T m m
  | step {m m₁ m' : Module} {id : NodeId} (hid : T id) (h : InlineStep id m m₁)
      (hrest : Inlines T m₁ m') : Inlines T m m'

variable {T T' : NodeId → Prop} {id : NodeId}

theorem Inlines.trans (h : Inlines T m m') (h' : Inlines T m' m'') : Inlines T m m'' := by
  induction h with
  | refl => exact h'
  | step hid hstep _ ih => exact .step hid hstep (ih h')

theorem Inlines.mono (h : Inlines T m m') (hT : ∀ id, T id → T' id) : Inlines T' m m' := by
  induction h with
  | refl => exact .refl _
  | step hid hstep _ ih => exact .step (hT _ hid) hstep ih

theorem Inlines.single (hid : T id) (h : InlineStep id m m') : Inlines T m m' := .step hid h (.refl _)

theorem InlineStep.edits (h : InlineStep id m m') (hs : Sound m) : Edits m m' := by
  cases h with
  | clone _ _ _ _ _ _ hc hs₁ hr hs' => exact (hc.edits hs₁).trans (hr.edits hs')
  | move hn hop _ _ _ _ hm hs' => exact hm.edits hs hs' hn (Op.regionKinds_of_isAlwaysInline hop)

theorem Inlines.edits (h : Inlines T m m') (hs : Sound m) : Edits m m' := by
  induction h with
  | refl => exact .refl hs
  | step _ hstep _ ih =>
    have h₁ := hstep.edits hs
    exact h₁.trans (ih h₁.sound)

theorem InlineStep.sound (h : InlineStep id m m') : Sound m' := by
  cases h <;> assumption

theorem Inlines.sound (h : Inlines T m m') (hs : Sound m) : Sound m' := by
  induction h with
  | refl => exact hs
  | step _ hstep _ ih => exact ih hstep.sound

theorem InlineStep.kept (h : InlineStep id m m') : m.Kept m' := by
  cases h with
  | clone _ _ _ _ _ _ hc _ hr _ => exact hc.kept.trans hr.kept
  | move _ _ _ _ _ _ hm _ => exact hm.kept

theorem Inlines.kept (h : Inlines T m m') : m.Kept m' := by
  induction h with
  | refl => exact .refl _
  | step _ hstep _ ih => exact hstep.kept.trans ih

end Module

namespace Oracle

variable {m : Module} {id : NodeId} {b : Bool}

theorem isAlwaysInline_eq_ok_iff : systemVerilog.isAlwaysInline m id = .ok b ↔
    ∃ n, m.node? id = some n ∧ n.op.isAlwaysInline = b := by
  simp only [systemVerilog, bind_eq_ok_iff, Module.node_eq_ok_iff]
  refine exists_congr fun n => and_congr_right fun _ => ?_
  cases n.op <;> simp [Op.isAlwaysInline, pure, Except.pure]

end Oracle

namespace Module

variable {m : Module} {id : NodeId} {v : ValueId}

theorem definingNode?_eq_some_iff :
    m.definingNode? v = .ok (some id) ↔ ∃ i, m.def? v = some (.result id i) := by
  simp only [definingNode?, bind_eq_ok_iff, value_eq_ok_iff, def?, Option.map_eq_some_iff]
  constructor
  · rintro ⟨x, hx, h⟩
    cases hd : x.definition with
    | port i => simp [hd, pure, Except.pure] at h
    | result j i =>
      simp only [hd] at h
      cases h
      exact ⟨i, x, hx, hd⟩
  · rintro ⟨i, x, hx, hd⟩
    exact ⟨x, hx, by simp [hd, pure, Except.pure]⟩

theorem definingNode?_eq_none_iff :
    m.definingNode? v = .ok none ↔ ∃ i, m.def? v = some (.port i) := by
  simp only [definingNode?, bind_eq_ok_iff, value_eq_ok_iff, def?, Option.map_eq_some_iff]
  constructor
  · rintro ⟨x, hx, h⟩
    cases hd : x.definition with
    | port i => exact ⟨i, x, hx, hd⟩
    | result j i => simp [hd, pure, Except.pure] at h
  · rintro ⟨i, x, hx, hd⟩
    exact ⟨x, hx, by simp [hd, pure, Except.pure]⟩

end Module

namespace Prep

variable {env : Env} {s s' : State} {id : NodeId} {v : ValueId}

/-- A node of a module that must be printed at its uses. -/
def IsInline (m : Module) (id : NodeId) : Prop :=
  ∃ n, m.core id = some n ∧ n.op.isAlwaysInline = true

theorem IsInline.mono {m m' : Module} (h : IsInline m id) (hk : m.Kept m') : IsInline m' id := by
  obtain ⟨n, hn, hop⟩ := h
  obtain ⟨n', hn', hop', -⟩ := hk.node hn
  exact ⟨n', hn', hop' ▸ hop⟩

/-- What computes a value that is there was such a node before. -/
theorem IsInline.of_def {m m' : Module} {j : NodeId} {w : ValueId} {i : Nat} (hin : IsInline m' j)
    (hs : Sound m) (hk : m.Kept m') (hdef : m.def? w = some (.result j i)) : IsInline m j := by
  obtain ⟨n₀, hn₀, -⟩ := hs.definition hdef
  obtain ⟨n₁, hn₁, hop, -⟩ := hk.node hn₀
  obtain ⟨n₂, hn₂, hop₂⟩ := hin
  obtain rfl := Option.some.inj (hn₁.symm.trans hn₂)
  exact ⟨n₀, hn₀, hop ▸ hop₂⟩

/-- What an operand of a node comes from was so before. -/
theorem IsInline.of_operand {m m' : Module} {n : Node} {j : NodeId} {w : ValueId} {i : Nat}
    (hin : IsInline m' j) (hs : Sound m) (hk : m.Kept m') (hn : m.live? id = some n)
    (hw : w ∈ n.operands) (hdef : m'.def? w = some (.result j i)) :
    IsInline m j ∧ ∃ i, m.def? w = some (.result j i) := by
  obtain ⟨o, huse⟩ := Module.exists_uses_of_mem hn hw
  obtain ⟨d, hd, -⟩ := hs.operand huse
  have hdef₀ : m.def? w = some (.result j i) := by rw [hd, ← hk.def? hd, hdef]
  exact ⟨hin.of_def hs hk hdef₀, i, hdef₀⟩

/-- The nodes among the definitions of operands that must be printed at their uses are found. -/
theorem alwaysInlineAmong_runs (ho : env.oracle = .systemVerilog) {vs : List ValueId}
    {ids : List NodeId} (h : (alwaysInlineAmong vs).Runs env s ids s') : s = s' ∧ ∀ id, id ∈ ids ↔
      IsInline s.module id ∧ ∃ v ∈ vs, ∃ i, s.module.def? v = some (.result id i) := by
  induction vs generalizing ids s' with
  | nil =>
    simp only [alwaysInlineAmong, runs_pure] at h
    obtain ⟨rfl, rfl⟩ := h
    simp
  | cons v vs ih =>
    simp only [alwaysInlineAmong, runs_bind, runs_query] at h
    obtain ⟨rest, s₁, hrest, d, _, ⟨hd, rfl⟩, h⟩ := h
    obtain ⟨rfl, hall⟩ := ih hrest
    simp only [List.exists_mem_cons_iff]
    cases d with
    | none =>
      simp only [runs_pure] at h
      obtain ⟨rfl, rfl⟩ := h
      obtain ⟨i, hport⟩ := Module.definingNode?_eq_none_iff.1 hd
      exact ⟨rfl, fun j => by simp [hall, hport]⟩
    | some id =>
      obtain ⟨i, hdef⟩ := Module.definingNode?_eq_some_iff.1 hd
      have hiff : ∀ j, (∃ i, s.module.def? v = some (.result j i)) ↔ j = id := fun j => by
        simp [hdef, eq_comm]
      simp only [runs_bind, runs_isAlwaysInline, ho, Oracle.isAlwaysInline_eq_ok_iff] at h
      obtain ⟨b, _, ⟨⟨n, hn, hb⟩, rfl⟩, h⟩ := h
      have hinline : IsInline s.module id ↔ b = true := by
        constructor
        · rintro ⟨n', hn', hop⟩
          obtain rfl := Option.some.inj (hn'.symm.trans (Module.core_of_node? hn))
          exact hb.symm.trans hop
        · rintro rfl
          exact ⟨n.core, Module.core_of_node? hn, hb⟩
      cases b with
      | true =>
        simp only [if_true, runs_pure] at h
        obtain ⟨rfl, rfl⟩ := h
        refine ⟨rfl, fun j => ?_⟩
        rw [List.mem_cons, hall, hiff]
        constructor
        · rintro (rfl | ⟨hin, hmem⟩)
          · exact ⟨hinline.2 rfl, Or.inl rfl⟩
          · exact ⟨hin, Or.inr hmem⟩
        · rintro ⟨hin, hmem⟩
          exact hmem.imp_right fun hmem => ⟨hin, hmem⟩
      | false =>
        simp only [Bool.false_eq_true, if_false, runs_pure] at h
        obtain ⟨rfl, rfl⟩ := h
        refine ⟨rfl, fun j => ?_⟩
        rw [hall, hiff]
        refine and_congr_right fun hin => (or_iff_right ?_).symm
        rintro rfl
        exact Bool.false_ne_true (hinline.1 hin)

theorem alwaysInlineOperands_runs (ho : env.oracle = .systemVerilog) {ids : List NodeId}
    (h : (alwaysInlineOperands id).Runs env s ids s') : s = s' ∧ ∃ n, s.module.node? id = some n ∧
      ∀ j, j ∈ ids ↔
        IsInline s.module j ∧ ∃ v ∈ n.operands, ∃ i, s.module.def? v = some (.result j i) := by
  simp only [alwaysInlineOperands, runs_bind, runs_node] at h
  obtain ⟨n, _, ⟨hn, rfl⟩, h⟩ := h
  obtain ⟨rfl, hall⟩ := alwaysInlineAmong_runs ho h
  exact ⟨rfl, n, hn, hall⟩

/-- A node that must be printed at its uses and defines an operand of a given such node. -/
def InnerOf (m : Module) (id j : NodeId) : Prop :=
  IsInline m j ∧ ∃ n, m.live? id = some n ∧ n.op.isAlwaysInline = true ∧
    ∃ v ∈ n.operands, ∃ i, m.def? v = some (.result j i)

/-- What the operands of a node come from is such a node later if it was one before. -/
theorem innerOf_iff_of_kept {m m' : Module} {n : Node} {j : NodeId} (hs : Sound m) (hk : m.Kept m')
    (hn : m.live? id = some n) (hop : n.op.isAlwaysInline = true) :
    (IsInline m' j ∧ ∃ v ∈ n.operands, ∃ i, m'.def? v = some (.result j i)) ↔ InnerOf m id j := by
  constructor
  · rintro ⟨hin, w, hw, i, hdef⟩
    obtain ⟨hin₀, hdef₀⟩ := hin.of_operand hs hk hn hw hdef
    exact ⟨hin₀, n, hn, hop, w, hw, hdef₀⟩
  · rintro ⟨hin, n', hn', -, w, hw, i, hdef⟩
    obtain rfl := Option.some.inj (hn.symm.trans hn')
    exact ⟨hin.mono hk, w, hw, i, hk.def? hdef⟩

/-- A node that is not erased, must be printed at its uses and has one result. -/
def InlineOf (m : Module) (id : NodeId) (v : ValueId) : Prop :=
  ∃ n, m.live? id = some n ∧ n.op.isAlwaysInline = true ∧ n.results = [v]

end Prep

namespace Module

/-- A node that moves before another one comes before it. -/
theorem Moves.precedes_before {m m' : Module} {b : BlockId} {id a : NodeId}
    (h : m.Moves m' b (.before a) id) (hw : WellFormed m) (ha : a ∈ m.nodesOf b) (hne : a ≠ id) :
    Precedes (m'.nodesOf b) id a := by
  have hnot : id ∉ (m.nodesOf b).erase id := (hw.nodup b).not_mem_erase
  rw [h.nodesOf, if_pos rfl]
  exact (Precedes.insertBefore_iff ((hw.nodup b).erase id) ((List.mem_erase_of_ne hne).2 ha) hnot).2
    (Or.inr (Or.inl ⟨rfl, Or.inl rfl⟩))

/-- A node is printed inside itself at most. -/
def Aloof (m : Module) (id : NodeId) : Prop :=
  ∀ ⦃n v u⦄, m.live? id = some n → n.results = [v] → m.Uses u v → u.node = id

/-- A node can leave a worklist: it is aloof, or stands before its users, and what is printed inside it
is listed. -/
def Rests (m : Module) (id : NodeId) (l : List NodeId) : Prop :=
  m.Aloof id ∨ ((∀ j, InnerOf m id j → j ∈ l) ∧
    ∀ ⦃n v u⦄, m.live? id = some n → n.results = [v] → m.Uses u v →
      ∃ b, Precedes (m.nodesOf b) id u.node)

/-- What is said of a module and a worklist stays true while the list is worked off: what is printed
inside the first node is listed, the node or a copy of it is put before a user, and the node leaves. -/
structure Worklist (Q : Module → List NodeId → Prop) : Prop where
  push : ∀ {m id more l}, Q m (id :: l) → (∀ j ∈ more, InnerOf m id j) → Q m (id :: (more ++ l))
  step : ∀ {m m' id l}, Q m (id :: l) → (∀ j, InnerOf m id j → j ∈ l) → InlineStep id m m' →
    Q m' (id :: l)
  drop : ∀ {m id l}, Q m (id :: l) → m.Rests id l → Q m l

/-- A step lists what is printed inside the node. -/
theorem Worklist.put {Q : Module → List NodeId → Prop} {m m' : Module} {id : NodeId}
    {more l : List NodeId} (hwork : Worklist Q) (hQ : Q m (id :: l)) (h : InlineStep id m m')
    (hmore : ∀ j, j ∈ more ↔ InnerOf m id j) : Q m' (id :: (more ++ l)) :=
  hwork.step (hwork.push hQ fun j => (hmore j).1)
    (fun j hj => List.mem_append_left _ ((hmore j).2 hj)) h

/-- While the first node of a worklist is put before its users, more nodes are listed behind it. -/
structure Enlists (id : NodeId) (more : List NodeId) (m m' : Module) : Prop where
  inlines : m.Inlines (· = id) m'
  inline : ∀ j ∈ more, IsInline m' j
  carries : ∀ Q, Worklist Q → ∀ l, Q m (id :: l) → Q m' (id :: (more ++ l))

namespace Enlists

variable {m m₁ m' : Module} {id : NodeId} {more more' : List NodeId}

theorem refl (id : NodeId) (m : Module) : Enlists id [] m m :=
  ⟨.refl m, by simp, fun _ _ _ hQ => hQ⟩

theorem trans (h : Enlists id more m m₁) (h' : Enlists id more' m₁ m') :
    Enlists id (more' ++ more) m m' where
  inlines := h.inlines.trans h'.inlines
  inline j hj := (List.mem_append.1 hj).elim (h'.inline j)
    fun hj => (h.inline j hj).mono h'.inlines.kept
  carries Q hwork l hQ := by
    rw [List.append_assoc]
    exact h'.carries Q hwork _ (h.carries Q hwork l hQ)

/-- What is printed inside the node may be listed at any time. -/
theorem of_inner (hmore : ∀ j ∈ more, InnerOf m id j) : Enlists id more m m :=
  ⟨.refl m, fun j hj => (hmore j hj).1, fun _ hwork _ hQ => hwork.push hQ hmore⟩

theorem of_step (h : InlineStep id m m') (hmore : ∀ j, j ∈ more ↔ InnerOf m id j) :
    Enlists id more m m' :=
  have hinlines : m.Inlines (· = id) m' := .single rfl h
  ⟨hinlines, fun j hj => ((hmore j).1 hj).1.mono hinlines.kept, fun _ hwork _ hQ =>
    hwork.put hQ h hmore⟩

end Enlists

end Module

namespace Prep

variable {env : Env} {s s' : State} {id : NodeId} {v : ValueId}

/-- Every use of a value but one gets a copy of the node that defines it. -/
theorem cloneForUses_runs (ho : env.oracle = .systemVerilog) {fuel : Nat}
    {worklist worklist' : List NodeId} (hs : Sound s.module) (hin : InlineOf s.module id v)
    (h : (cloneForUses id v fuel worklist).Runs env s worklist' s') :
    InlineOf s'.module id v ∧ (∃ x, s'.module.value? v = some x ∧ x.uses.length ≤ 1) ∧
      ∃ more, worklist' = more ++ worklist ∧ Module.Enlists id more s.module s'.module := by
  induction fuel generalizing s worklist with
  | zero => exact absurd h runs_fault
  | succ fuel ih =>
    simp only [cloneForUses, runs_bind, runs_query, Module.value_eq_ok_iff] at h
    obtain ⟨x, _, ⟨hx, rfl⟩, h⟩ := h
    cases huses : x.uses with
    | nil =>
      simp only [huses, runs_pure] at h
      obtain ⟨rfl, rfl⟩ := h
      exact ⟨hin, ⟨x, hx, by simp [huses]⟩, [], rfl, .refl id _⟩
    | cons u us =>
      cases us with
      | nil =>
        simp only [huses, runs_pure] at h
        obtain ⟨rfl, rfl⟩ := h
        exact ⟨hin, ⟨x, hx, by simp [huses]⟩, [], rfl, .refl id _⟩
      | cons u' us =>
        simp only [huses, runs_bind, runs_query, runs_edit, runs_editWith, runs_count] at h
        obtain ⟨copyId, _, ⟨m₁, hclone, rfl⟩, copy, _, ⟨hcopy, rfl⟩, _, _, ⟨m₂, hset, rfl⟩, _, _, rfl,
          more, s₂, hmore, h⟩ := h
        obtain ⟨rfl, na, hna, hmoreIn⟩ := alwaysInlineOperands_runs ho hmore
        obtain ⟨n, hn, hop, hv⟩ := hin
        have hu : s.module.Uses u v := (hs.mem_uses hx).1 (by simp [huses])
        obtain ⟨nu, hnu, hslot⟩ := hu
        have hregions := hs.toNested.regions_eq_nil hn (Op.regionKinds_of_isAlwaysInline hop)
        obtain ⟨copy', type, htype, hc, hs₁⟩ := hs.cloneNode hn hv hregions (hs.in_before hnu)
          (hs.placed hnu) hclone
        obtain rfl : copy' = copy := by
          obtain ⟨nc, hnc, hv'⟩ := result_eq_ok_iff.1 hcopy
          obtain ⟨nd, hnd, -, hcore⟩ := Module.exists_of_live? hc.live?_self
          obtain rfl : nc = nd := by simpa using hnc.symm.trans hnd
          have hres : nc.results = [copy'] := congrArg Node.results hcore
          simpa [hres] using hv'
        have husable : m₁.Usable copy' :=
          ⟨_, hc.def?_result (i := 0) rfl, fun he => by
            cases he
            exact ⟨_, hc.live?_self⟩⟩
        obtain ⟨-, hr, hs₂⟩ := hs₁.setOperand (n := nu) (hc.live hnu) husable hset
        have hstep : s.module.InlineStep id m₂ :=
          .clone hn hop hv ⟨nu, hnu, hslot⟩ hnu htype hc hs₁ hr hs₂
        have hin₂ : InlineOf m₂ id v := ⟨_, hr.live (hc.live hn), hop, hv⟩
        have hinner : ∀ j, j ∈ more ↔ InnerOf s.module id j := by
          obtain ⟨nd, hnd, -, hcore⟩ := Module.exists_of_live? (hr.live hc.live?_self)
          obtain rfl : na = nd := by simpa using hna.symm.trans hnd
          -- The copy has the operands that its source had before one of these was redirected.
          have hops : na.operands = n.operands := by
            rw [show na.operands = na.core.operands from rfl, hcore]
            exact if_neg (hc.ne hnu).symm
          intro j
          rw [hmoreIn, hops]
          exact innerOf_iff_of_kept hs (hc.kept.trans hr.kept) hn hop
        obtain ⟨hid', hfew, more', rfl, hrest⟩ := ih (s := { s with
          module := m₂, stats := { s.stats with duplicated := s.stats.duplicated + 1 } }) hs₂ hin₂ h
        exact ⟨hid', hfew, more' ++ more, by simp,
          (Module.Enlists.of_step hstep hinner).trans hrest⟩

theorem moveNode_self {m m' : Module} {pos : Position} (hpos : pos = .before id ∨ pos = .after id)
    (h : m.moveNode id pos = .ok m') : m' = m := by
  rw [Module.moveNode, if_pos hpos] at h
  exact (Except.ok.inj h).symm

/-- A node that has one user is put before that user, unless it is the user; then it can leave the
worklist, as what is printed inside it is listed. -/
theorem moveBeforeUser_runs (ho : env.oracle = .systemVerilog) {m' : Module} {ops : List NodeId}
    {u : Use} {t : State} (hs : Sound s.module) (hin : InlineOf s.module id v)
    (honly : ∀ u', s.module.Uses u' v ↔ u' = u)
    (hmove : s.module.moveNode id (.before u.node) = .ok m')
    (hops : (alwaysInlineOperands id).Runs env { s with module := m' } ops t) :
    t = { s with module := m' } ∧ Module.Enlists id ops s.module m' ∧
      ∀ l, m'.Rests id (ops ++ l) := by
  obtain ⟨rfl, no, hno, hopsIn⟩ := alwaysInlineOperands_runs ho hops
  obtain ⟨n, hn, hop, hv⟩ := hin
  obtain ⟨nu, hnu, -⟩ := (honly u).2 rfl
  have huser : ∀ {w u'}, n.results = [w] → s.module.Uses u' w → u' = u := fun hw hu' => by
    obtain rfl : v = _ := by simpa using hv.symm.trans hw
    exact (honly _).1 hu'
  have hinner : s.module.Kept m' → (∃ n', m'.live? id = some n' ∧ n'.operands = n.operands) →
      ∀ j, j ∈ ops ↔ InnerOf s.module id j := by
    rintro hk ⟨n', hn', hsame⟩ j
    obtain ⟨nd, hnd, -, hcore⟩ := Module.exists_of_live? hn'
    obtain rfl : no = nd := by simpa using hno.symm.trans hnd
    rw [hopsIn, show no.operands = no.core.operands from rfl, hcore, hsame]
    exact innerOf_iff_of_kept hs hk hn hop
  by_cases hself : u.node = id
  · -- The node uses itself, and stays where it is.
    obtain rfl : m' = s.module := moveNode_self (by simp [hself]) hmove
    refine ⟨rfl, .of_inner fun j => (hinner (.refl _) ⟨n, hn, rfl⟩ j).1, fun l =>
      Or.inl fun n' w u' hn' hw hu' => ?_⟩
    obtain rfl := Option.some.inj (hn.symm.trans hn')
    rw [huser hw hu', hself]
  · obtain ⟨hm, hs'⟩ := hs.moveNode hn (hs.toNested.regions_eq_nil hn
      (Op.regionKinds_of_isAlwaysInline hop)) (hs.in_before hnu) (hs.placed hnu)
      (by simp [hself]) (by simp) hmove
    have hstep : s.module.InlineStep id m' := .move hn hop hv honly hnu hself hm hs'
    replace hinner := hinner hm.kept ⟨_, hm.live hn, rfl⟩
    refine ⟨rfl, .of_step hstep hinner, fun l => Or.inr ⟨fun j hj => ?_,
      fun n' w u' hn' hw hu' => ⟨nu.parent, ?_⟩⟩⟩
    · obtain ⟨hin, n', hn', -, hdef⟩ := hj
      obtain rfl := Option.some.inj ((hm.live hn).symm.trans hn')
      exact List.mem_append_left _ ((hinner j).2
        ((innerOf_iff_of_kept hs hm.kept hn hop).1 ⟨hin, hdef⟩))
    · obtain rfl := Option.some.inj ((hm.live hn).symm.trans hn')
      rw [huser hw (hm.uses_iff.1 hu')]
      exact hm.precedes_before hs.toWellFormed (hs.mem_nodesOf hnu) hself

/-- Settling one node of the worklist. -/
theorem settleInline_runs (ho : env.oracle = .systemVerilog) {worklist worklist' : List NodeId}
    (hs : Sound s.module) (hin : IsInline s.module id)
    (h : (settleInline id worklist).Runs env s worklist' s') :
    ∃ more, worklist' = more ++ worklist ∧ Module.Enlists id more s.module s'.module ∧
      ∀ l, s'.module.Rests id (more ++ l) := by
  simp only [settleInline, runs_bind, runs_node] at h
  obtain ⟨n, _, ⟨hn, rfl⟩, h⟩ := h
  split at h
  · next v he hv =>
    simp only [runs_bind, runs_fuel, runs_query, Module.value_eq_ok_iff] at h
    obtain ⟨_, _, ⟨rfl, rfl⟩, w₁, s₁, hclone, x, _, ⟨hx, rfl⟩, h⟩ := h
    have hlive : s.module.live? id = some n.core := Module.live?_of_node? hn he
    have hop : n.op.isAlwaysInline = true := by
      obtain ⟨n', hn', hop⟩ := hin
      obtain rfl := Option.some.inj (hn'.symm.trans (Module.core_of_node? hn))
      exact hop
    obtain ⟨hin₁, ⟨x', hx', hfew⟩, more, rfl, hmore⟩ :=
      cloneForUses_runs ho hs ⟨_, hlive, hop, hv⟩ hclone
    obtain rfl : x = x' := by simpa using hx.symm.trans hx'
    have hs₁ := hmore.inlines.sound hs
    split at h
    · next huses =>
      obtain ⟨rfl, rfl⟩ := runs_pure.1 h
      refine ⟨more, rfl, hmore, fun l => Or.inl fun n' w u hn' hw hu => ?_⟩
      obtain ⟨n₁, hn₁, -, hv₁⟩ := hin₁
      obtain rfl := Option.some.inj (hn₁.symm.trans hn')
      obtain rfl : v = w := by simpa [hv₁] using hw
      have hmem := (hs₁.mem_uses hx).2 hu
      simp [huses] at hmem
    · next u us huses =>
      obtain rfl : us = [] := by
        rw [huses] at hfew
        simpa using hfew
      simp only [runs_bind, runs_edit, runs_pure] at h
      obtain ⟨_, _, ⟨m₂, hmove, rfl⟩, ops, _, hops, rfl, rfl⟩ := h
      have honly : ∀ u', s₁.module.Uses u' v ↔ u' = u := by
        intro u'
        rw [← hs₁.mem_uses hx, huses, List.mem_singleton]
      obtain ⟨rfl, hlast, hrests⟩ := moveBeforeUser_runs ho hs₁ hin₁ honly hmove hops
      refine ⟨ops ++ more, by simp, hmore.trans hlast, fun l => ?_⟩
      rw [List.append_assoc]
      exact hrests _
  · next hnone =>
    obtain ⟨rfl, rfl⟩ := runs_pure.1 h
    refine ⟨[], rfl, .refl id _, fun l => Or.inl fun n' w u hn' hw _ => ?_⟩
    obtain ⟨nd, hnd, he, rfl⟩ := Module.exists_of_live? hn'
    obtain rfl : nd = n := by simpa using hnd.symm.trans hn
    exact absurd hw (hnone w he)

/-- The nodes of a set, and whatever may come to be printed inside a node. -/
def Settled (m : Module) (R : NodeId → Prop) (j : NodeId) : Prop :=
  R j ∨ ∃ m' k, m.Inlines (fun _ => True) m' ∧ InnerOf m' k j

end Prep

namespace Module

/-- A property that nodes keep while nodes with it are settled, and that what is printed inside them
has too. -/
structure Spreads (P : Module → NodeId → Prop) : Prop where
  step : ∀ {m m' id j}, Sound m → P m id → InlineStep id m m' → P m j → P m' j
  inner : ∀ {m id j}, Sound m → P m id → InnerOf m id j → P m j

/-- One module comes from another by settling nodes with a property. -/
inductive InlinesBy (P : Module → NodeId → Prop) : Module → Module → Prop
  | refl (m : Module) : InlinesBy P m m
  | step {m m₁ m' : Module} {id : NodeId} (hid : P m id) (h : InlineStep id m m₁)
      (hrest : InlinesBy P m₁ m') : InlinesBy P m m'

/-- One module comes from another by settling given nodes one after another, and with each what is printed
inside it. -/
def Settles (R : NodeId → Prop) (m m' : Module) : Prop :=
  ∃ ids, (∀ j, j ∈ ids ↔ R j) ∧ ∀ Q, Worklist Q → ∀ rest, Q m (ids ++ rest) → Q m' rest

variable {P : Module → NodeId → Prop} {R : NodeId → Prop} {m m' m'' : Module} {id j : NodeId}

namespace InlinesBy

theorem trans (h : InlinesBy P m m') (h' : InlinesBy P m' m'') : InlinesBy P m m'' := by
  induction h with
  | refl => exact h'
  | step hid hstep _ ih => exact .step hid hstep (ih h')

end InlinesBy

/-- All that is settled has the properties of the given nodes that spread. -/
theorem Settles.inlinesBy (h : m.Settles R m') (hP : Spreads P) (hs : Sound m)
    (hR : ∀ j, R j → P m j) : InlinesBy P m m' := by
  obtain ⟨ids, hids, hrun⟩ := h
  refine (hrun (fun m₁ l => InlinesBy P m m₁ ∧ Sound m₁ ∧ ∀ j ∈ l, P m₁ j) ⟨?_, ?_, ?_⟩ []
    ⟨.refl _, hs, fun j hj => hR j ((hids j).1 (by simpa using hj))⟩).1
  · rintro m₁ id more l ⟨h₁, hs₁, hl⟩ hmore
    refine ⟨h₁, hs₁, fun j hj => ?_⟩
    rcases List.mem_cons.1 hj with rfl | hj
    · exact hl j List.mem_cons_self
    rcases List.mem_append.1 hj with hj | hj
    · exact hP.inner hs₁ (hl id List.mem_cons_self) (hmore j hj)
    · exact hl j (List.mem_cons_of_mem _ hj)
  · rintro m₁ m₂ id l ⟨h₁, hs₁, hl⟩ - hstep
    have hid := hl id List.mem_cons_self
    exact ⟨h₁.trans (.step hid hstep (.refl _)), hstep.sound,
      fun j hj => hP.step hs₁ hid hstep (hl j hj)⟩
  · rintro m₁ id l ⟨h₁, hs₁, hl⟩ -
    exact ⟨h₁, hs₁, fun j hj => hl j (List.mem_cons_of_mem _ hj)⟩

theorem Settles.inlines (h : m.Settles R m') : m.Inlines (Settled m R) m' := by
  obtain ⟨ids, hids, hrun⟩ := h
  refine (hrun (fun m₁ l => m.Inlines (Settled m R) m₁ ∧ ∀ j ∈ l, Settled m R j) ⟨?_, ?_, ?_⟩ []
    ⟨.refl _, fun j hj => Or.inl ((hids j).1 (by simpa using hj))⟩).1
  · rintro m₁ id more l ⟨h₁, hl⟩ hmore
    refine ⟨h₁, fun j hj => ?_⟩
    rcases List.mem_cons.1 hj with rfl | hj
    · exact hl j List.mem_cons_self
    rcases List.mem_append.1 hj with hj | hj
    · exact Or.inr ⟨m₁, id, h₁.mono fun _ _ => trivial, hmore j hj⟩
    · exact hl j (List.mem_cons_of_mem _ hj)
  · rintro m₁ m₂ id l ⟨h₁, hl⟩ - hstep
    exact ⟨h₁.trans (.single (hl id List.mem_cons_self) hstep), hl⟩
  · rintro m₁ id l ⟨h₁, hl⟩ -
    exact ⟨h₁, fun j hj => hl j (List.mem_cons_of_mem _ hj)⟩

end Module

namespace Prep

variable {env : Env} {s s' : State} {id : NodeId} {u : Unit}

/-- A worklist is worked off from its front. -/
theorem settleAllInline_runs (ho : env.oracle = .systemVerilog) {fuel : Nat} {worklist : List NodeId}
    (hs : Sound s.module) (hwork : ∀ j ∈ worklist, IsInline s.module j)
    (h : (settleAllInline fuel worklist).Runs env s u s') {Q : Module → List NodeId → Prop}
    (hQ : Module.Worklist Q) {rest : List NodeId} (hm : Q s.module (worklist ++ rest)) :
    Q s'.module rest := by
  induction fuel generalizing s worklist with
  | zero =>
    cases worklist with
    | nil =>
      obtain ⟨-, rfl⟩ := runs_pure.1 h
      exact hm
    | cons id worklist => exact absurd h runs_fault
  | succ fuel ih =>
    cases worklist with
    | nil =>
      obtain ⟨-, rfl⟩ := runs_pure.1 h
      exact hm
    | cons id worklist =>
      simp only [settleAllInline, runs_bind] at h
      obtain ⟨w, s₁, hsettle, hrest⟩ := h
      obtain ⟨more, rfl, hmore, hrests⟩ := settleInline_runs ho hs (hwork id (by simp)) hsettle
      refine ih (hmore.inlines.sound hs) (fun j hj => ?_) hrest ?_
      · rcases List.mem_append.1 hj with hj | hj
        · exact hmore.inline j hj
        · exact (hwork j (List.mem_cons_of_mem _ hj)).mono hmore.inlines.kept
      · rw [List.append_assoc]
        exact hQ.drop (hmore.carries Q hQ _ hm) (hrests _)

theorem inlineEverywhere_runs (ho : env.oracle = .systemVerilog) (hs : Sound s.module)
    (hin : IsInline s.module id) (h : (inlineEverywhere id).Runs env s u s') :
    s.module.Settles (· = id) s'.module := by
  simp only [inlineEverywhere, runs_bind, runs_fuel] at h
  obtain ⟨_, _, ⟨rfl, rfl⟩, h⟩ := h
  exact ⟨[id], by simp, fun Q hQ rest => settleAllInline_runs ho hs (by simpa using hin) h hQ⟩

/-- Operands are settled one after another. -/
theorem inlineOperands_forM_runs (ho : env.oracle = .systemVerilog) {vs : List ValueId}
    (hs : Sound s.module) (hvs : ∀ v ∈ vs, ∃ d, s.module.def? v = some d)
    (h : (vs.forM fun v => do
      match ← query (·.definingNode? v) with
      | some operand => if ← isAlwaysInline operand then inlineEverywhere operand
      | none => pure ()).Runs env s u s') :
    s.module.Settles (fun j => IsInline s.module j ∧
      ∃ v ∈ vs, ∃ i, s.module.def? v = some (.result j i)) s'.module := by
  induction vs generalizing s with
  | nil =>
    obtain rfl := runs_forM_nil.1 h
    exact ⟨[], by simp, fun _ _ _ hQ => hQ⟩
  | cons v vs ih =>
    obtain ⟨s₁, h₁, h₂⟩ := runs_forM_cons.1 h
    simp only [runs_bind, runs_query] at h₁
    obtain ⟨d, _, ⟨hd, rfl⟩, h₁⟩ := h₁
    simp only [List.exists_mem_cons_iff]
    cases d with
    | none =>
      obtain ⟨-, rfl⟩ := runs_pure.1 h₁
      obtain ⟨i, hport⟩ := Module.definingNode?_eq_none_iff.1 hd
      obtain ⟨ids, hids, hrun⟩ := ih hs (fun w hw => hvs w (List.mem_cons_of_mem _ hw)) h₂
      exact ⟨ids, fun j => by simp [hids, hport], hrun⟩
    | some j =>
      obtain ⟨i, hdef⟩ := Module.definingNode?_eq_some_iff.1 hd
      have hiff : ∀ k, (∃ i, s.module.def? v = some (.result k i)) ↔ k = j := fun k => by
        simp [hdef, eq_comm]
      simp only [runs_bind, runs_isAlwaysInline, ho, Oracle.isAlwaysInline_eq_ok_iff] at h₁
      obtain ⟨b, _, ⟨⟨nj, hnj, hb⟩, rfl⟩, h₁⟩ := h₁
      cases b with
      | false =>
        obtain ⟨-, rfl⟩ := runs_pure.1 h₁
        obtain ⟨ids, hids, hrun⟩ := ih hs (fun w hw => hvs w (List.mem_cons_of_mem _ hw)) h₂
        refine ⟨ids, fun k => (hids k).trans (and_congr_right fun hin => ?_), hrun⟩
        rw [hiff, or_iff_right]
        rintro rfl
        obtain ⟨n, hn, hop⟩ := hin
        obtain rfl := Option.some.inj (hn.symm.trans (Module.core_of_node? hnj))
        exact Bool.false_ne_true (hb.symm.trans hop)
      | true =>
        have hin : IsInline s.module j := ⟨_, Module.core_of_node? hnj, hb⟩
        obtain ⟨first, hfirst, hrun₁⟩ := inlineEverywhere_runs ho hs hin h₁
        have hinlines := Module.Settles.inlines ⟨first, hfirst, hrun₁⟩
        have hk := hinlines.kept
        have hvs' : ∀ w ∈ vs, ∃ d, s₁.module.def? w = some d := fun w hw => by
          obtain ⟨d, hd⟩ := hvs w (List.mem_cons_of_mem _ hw)
          exact ⟨d, hk.def? hd⟩
        obtain ⟨ids, hids, hrun⟩ := ih (hinlines.sound hs) hvs' h₂
        refine ⟨first ++ ids, fun k => ?_, fun Q hQ rest hm => ?_⟩
        · rw [List.mem_append, hfirst, hids]
          constructor
          · rintro (rfl | ⟨hin₁, w, hw, i', hdef₁⟩)
            · exact ⟨hin, Or.inl ⟨i, hdef⟩⟩
            · obtain ⟨d, hd₀⟩ := hvs w (List.mem_cons_of_mem _ hw)
              obtain rfl := Option.some.inj ((hk.def? hd₀).symm.trans hdef₁)
              exact ⟨hin₁.of_def hs hk hd₀, Or.inr ⟨w, hw, i', hd₀⟩⟩
          · rintro ⟨hin₀, hk₀ | ⟨w, hw, i', hdef₀⟩⟩
            · exact Or.inl ((hiff k).1 hk₀)
            · exact Or.inr ⟨hin₀.mono hk, w, hw, i', hk.def? hdef₀⟩
        · rw [List.append_assoc] at hm
          exact hrun Q hQ rest (hrun₁ Q hQ _ hm)

/-- The operands of a node are settled. -/
theorem inlineOperands_runs (ho : env.oracle = .systemVerilog) {n : Node} (hs : Sound s.module)
    (hn : s.module.live? id = some n) (h : (inlineOperands id).Runs env s u s') :
    s.module.Settles (fun j => IsInline s.module j ∧
      ∃ v ∈ n.operands, ∃ i, s.module.def? v = some (.result j i)) s'.module := by
  simp only [inlineOperands, runs_bind, runs_node] at h
  obtain ⟨n', _, ⟨hn', rfl⟩, h⟩ := h
  obtain ⟨nd, hnd, -, rfl⟩ := Module.exists_of_live? hn
  obtain rfl : nd = n' := by simpa using hnd.symm.trans hn'
  refine inlineOperands_forM_runs ho hs (fun v hv => ?_) h
  obtain ⟨i, hi⟩ := Module.exists_uses_of_mem hn hv
  obtain ⟨d, hd, -⟩ := hs.operand hi
  exact ⟨d, hd⟩

end Prep

end NetPrep
