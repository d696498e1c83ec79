import Mathlib
import NetPrep.Proofs.Advancing
import NetPrep.Proofs.Legalization

/-!
# What a walk moves

Legalizing a direct module moves expressions, variables and assignments, and nothing else. The nodes
after the one that the scan is at keep their order, so that a node that is not moved stays ahead of
the scan or behind it.
-/

namespace NetPrep

open Prepare Prep

namespace Module

variable {o : Options} {m m' m'' : Module} {id target : NodeId} {n : Node} {block : BlockId}

/-! ## One node -/

/-- The nodes that rules for a node may move or erase: the node, if it is an expression or a variable,
and the assignments of an instance. -/
def Moved (m : Module) (id j : NodeId) : Prop :=
  (j = id ∧ m.HasOp (fun op => op.isExpression = true ∨ op = .logic) id) ∨
    (m.HasOp (·.isInstance = true) id ∧ m.HasOp (· = .assign) j)

theorem Rule.advances (h : m.Rule id m') (hd : Direct m) : Advances (m.Moved id) m m' := by
  have hexpr : ∀ {n : Node}, m.live? id = some n → n.op.isExpression = true →
      m.HasOp (fun op => op.isExpression = true ∨ op = .logic) id :=
    fun hn hop => ⟨_, core_of_live? hn, Or.inl hop⟩
  have hdecl : ∀ {n : Node}, m.live? id = some n → n.op.isExpression = true →
      ∀ n', m.live? id = some n' → n'.op.isDeclaration = false := fun hn hop n' hn' => by
    obtain rfl := Option.some.inj (hn.symm.trans hn')
    exact Op.isDeclaration_of_isExpression hop
  cases h with
  | anchorOutputs hn hop h =>
    have hi : m.HasOp (·.isInstance = true) id := ⟨_, core_of_live? hn, hop⟩
    exact (h.advances hd hi).mono hd fun _ _ _ ht => Or.inr ⟨hi, ht⟩
  | anchorInputs hn hop h => exact h.advances hd ⟨_, core_of_live? hn, hop⟩
  | leaveProcess hn hop _ h =>
    exact (h.advances hd).mono hd fun _ _ _ ht => Or.inl ⟨ht, _, core_of_live? hn, Or.inr hop⟩
  | route hn hop h =>
    refine h.advances hd fun v hv => ⟨hd.event hn hop hv, ?_⟩
    obtain ⟨i, hi⟩ := Module.exists_uses_of_mem hn hv
    obtain ⟨d, hdef, -⟩ := hd.operand hi
    exact ⟨d, hdef⟩
  | hoist hn hop _ h =>
    exact (h.advances hd).mono hd fun _ _ _ ht => Or.inl ⟨ht, hexpr hn hop⟩
  | capture hn hop _ h => exact h.advances hd (hdecl hn hop)
  | erase hn hop _ h hs =>
    exact (h.advances hd hs).mono hd fun _ _ _ ht => Or.inl ⟨ht, hexpr hn hop⟩
  | settle hn hop h =>
    exact (h.advances hd).mono hd fun _ _ _ ht =>
      Or.inl ⟨ht, hexpr hn (Op.isExpression_of_isAlwaysInline hop)⟩
  | reuse hn hop _ _ h => exact h.advances hd (hdecl hn hop)
  | spill hn hop _ h => exact h.advances hd (hdecl hn hop)

theorem Moved.of_kept {m m' : Module} {j : NodeId} (h : m'.Moved id j) (hk : m.Kept m')
    {nj : Node} (hn : m.live? id = some n) (hj : m.live? j = some nj) : m.Moved id j :=
  h.imp (fun ⟨he, hop⟩ => ⟨he, hop.of_kept hk hn⟩)
    fun ⟨hi, ha⟩ => ⟨hi.of_kept hk hn, ha.of_kept hk hj⟩

theorem Rules.advances (h : Rules id m m') (hd : Direct m) : Advances (m.Moved id) m m' := by
  induction h with
  | refl => exact .refl hd
  | step h _ ih =>
    have h₁ := h.advances hd
    obtain ⟨n, hn⟩ := h.live
    exact h₁.trans (ih h₁.direct) hd fun j nj hj ht => ht.of_kept h₁.frame.kept hn hj

/-- The rules for an instance leave what comes after it there, and in its order but for assignments
that come closer to it. -/
theorem Rule.precedes_instance (h : m.Rule id m') (hd : Direct m)
    (hinst : m.HasOp (·.isInstance = true) id) {a x : NodeId} {c : BlockId}
    (hx : ¬ m.HasOp (· = .assign) x) (hia : Precedes (m.nodesOf c) id a)
    (hax : Precedes (m.nodesOf c) a x) :
    Precedes (m'.nodesOf c) id a ∧ Precedes (m'.nodesOf c) a x := by
  have hexpr : ∀ {n : Node}, m.live? id = some n → ¬ n.op.isExpression = true := fun hn hop => by
    have hi := hinst.of_live hn
    rw [Op.isInstance_of_isExpression hop] at hi
    cases hi
  cases h with
  | anchorOutputs hn hop h => exact (h.frame hd.toSound hinst).2 hx hia hax
  | anchorInputs hn hop h =>
    have h₁ : Advances (fun _ => False) m m' := h.advances hd hinst
    exact ⟨h₁.precedes hia not_false not_false, h₁.precedes hax not_false not_false⟩
  | leaveProcess hn hop =>
    have hi := hinst.of_live hn
    rw [hop] at hi
    cases hi
  | route hn hop =>
    have hi := hinst.of_live hn
    rw [Op.isInstance_of_isClocked hop] at hi
    cases hi
  | hoist hn hop => exact absurd hop (hexpr hn)
  | capture hn hop => exact absurd hop (hexpr hn)
  | erase hn hop => exact absurd hop (hexpr hn)
  | settle hn hop => exact absurd (Op.isExpression_of_isAlwaysInline hop) (hexpr hn)
  | reuse hn hop => exact absurd hop (hexpr hn)
  | spill hn hop => exact absurd hop (hexpr hn)

theorem Rules.precedes_instance (h : Rules id m m') (hd : Direct m)
    (hinst : m.HasOp (·.isInstance = true) id) {a x : NodeId} {c : BlockId}
    (hx : ¬ m.HasOp (· = .assign) x) (hia : Precedes (m.nodesOf c) id a)
    (hax : Precedes (m.nodesOf c) a x) :
    Precedes (m'.nodesOf c) id a ∧ Precedes (m'.nodesOf c) a x := by
  induction h with
  | refl => exact ⟨hia, hax⟩
  | step h _ ih =>
    have h₁ := h.advances hd
    obtain ⟨hia₁, hax₁⟩ := h.precedes_instance hd hinst hx hia hax
    obtain ⟨nx, hnx, -⟩ := hd.mem_nodesOf_iff.1 hax.mem_right
    exact ih h₁.direct (hinst.mono h₁.frame.kept)
      (fun ht => hx (ht.of_kept h₁.frame.kept hnx)) hia₁ hax₁

/-- What comes after a node keeps its order when rules are applied to the node, but for assignments
that come closer to an instance. -/
theorem Rules.precedes (h : Rules id m m') (hd : Direct m) {a x : NodeId} {c : BlockId}
    (hx : ¬ m.Moved id x) (hia : Precedes (m.nodesOf c) id a) (hax : Precedes (m.nodesOf c) a x) :
    Precedes (m'.nodesOf c) a x := by
  by_cases hinst : m.HasOp (·.isInstance = true) id
  · exact (h.precedes_instance hd hinst (fun ht => hx (Or.inr ⟨hinst, ht⟩)) hia hax).2
  · have hne : ∀ y, Precedes (m.nodesOf c) id y → ¬ m.Moved id y := by
      rintro y hy (⟨rfl, -⟩ | ⟨hi, -⟩)
      · exact (hy.ne (hd.nodup c)) rfl
      · exact hinst hi
    exact (h.advances hd).precedes hax (hne a hia) (hne x (hia.trans (hd.nodup c) hax))

/-- A node that is moved or erased for the sake of others: it is printed at its uses, or a constant. -/
def Loose (m : Module) (id : NodeId) : Prop :=
  m.HasOp (fun op => op.isAlwaysInline = true ∨ op.isConstant = true) id

theorem Loose.isExpression (h : m.Loose id) : m.HasOp (·.isExpression = true) id := by
  obtain ⟨n, hn, hop⟩ := h
  exact ⟨n, hn, hop.elim Op.isExpression_of_isAlwaysInline Op.isExpression_of_isConstant⟩

/-- Replacing a node may move, besides, only such nodes. -/
theorem Displaced.loose {j : NodeId} (h : m.Displaced m' id j) : j = id ∨ m.Loose j := by
  rcases h with hj | ⟨n, hn, hop⟩ | ⟨⟨n, hn, hop⟩, -⟩
  · exact Or.inl hj
  · exact Or.inr ⟨n, hn, Or.inl hop⟩
  · exact Or.inr ⟨n, hn, Or.inr hop⟩

/-- What may become of an expression before it is replaced moves no node. -/
theorem Stores.advances {T : NodeId → Prop} (h : m.Stores id m') (hd : Direct m) :
    Advances T m m' := by
  have hdecl : ∀ {n : Node}, m.live? id = some n → n.op.isExpression = true →
      ∀ n', m.live? id = some n' → n'.op.isDeclaration = false := fun hn hop n' hn' => by
    obtain rfl := Option.some.inj (hn.symm.trans hn')
    exact Op.isDeclaration_of_isExpression hop
  cases h with
  | nothing h => exact h ▸ .refl hd
  | reuse hn hop _ _ h => exact h.advances hd (hdecl hn hop)
  | spill hn hop _ h => exact h.advances hd (hdecl hn hop)

/-! ## Blocks -/

/-- A step of a scan moves or erases nothing but expressions, variables and assignments. -/
theorem ScanStep.advances {visited visited' : IdMap Unit} {next : Option NodeId}
    (h : ScanStep o block id visited visited' next m m') (hd : Direct m) :
    Advances (m.HasOp fun op => op.isExpression = true ∨ op = .logic ∨ op = .assign) m m' := by
  have hmoved : ∀ j, m.Moved id j →
      m.HasOp (fun op => op.isExpression = true ∨ op = .logic ∨ op = .assign) j := by
    rintro j (⟨rfl, n, hn, hop⟩ | ⟨-, n, hn, hop⟩)
    · exact ⟨n, hn, hop.imp_right Or.inl⟩
    · exact ⟨n, hn, Or.inr (Or.inr hop)⟩
  rcases h.handles with ⟨hrules, -⟩ | ⟨target, m₁, -, hst, hrep⟩
  · exact (hrules.advances hd).mono hd fun j _ _ ht => hmoved j ht
  · have hadv : Advances (fun _ => False) m m₁ := hst.advances hd
    refine (hadv.of_none hd).trans (hrep.advances hadv.direct) hd fun j n hj ht => ?_
    have hexpr : m₁.HasOp (·.isExpression = true) j := by
      rcases ht.loose with rfl | hloose
      · obtain ⟨n', hn', hop, -⟩ := hrep.isExpression
        exact ⟨n', core_of_live? hn', hop⟩
      · exact hloose.isExpression
    obtain ⟨n', hn', hop⟩ := hexpr.of_kept hadv.frame.kept hj
    exact ⟨n', hn', Or.inl hop⟩

/-- A node ahead of the scan that is not moved is still ahead after a step. -/
theorem ScanStep.ahead {visited visited' : IdMap Unit} {next : Option NodeId} {x : NodeId}
    (h : ScanStep o block id visited visited' next m m') (hd : Direct m) (hloose : ¬ m.Loose x)
    (hassign : ¬ m.HasOp (· = .assign) x) (hahead : Precedes (m.nodesOf block) id x) :
    ∃ y, next = some y ∧ (y = x ∨ Precedes (m'.nodesOf block) y x) := by
  have hne : id ≠ x := hahead.ne (hd.nodup block)
  rcases h.handles with ⟨hrules, hnext⟩ | ⟨target, m₁, rfl, hst, hrep⟩
  · have hmoved : ¬ m.Moved id x := by
      rintro (⟨rfl, -⟩ | ⟨-, ha⟩)
      · exact hne rfl
      · exact hassign ha
    obtain ⟨l, y, r, hl, hy⟩ := hahead.exists_next
    rcases hy with rfl | hy
    · have hadv := hrules.advances hd
      have hmem := hadv.frame.mem_nodesOf hd.toWellFormed hadv.direct.toWellFormed
        hahead.mem_right hmoved
      exact ⟨y, hnext l y r hl hmem, Or.inl rfl⟩
    · have hid : Precedes (m.nodesOf block) id y := by
        rw [hl]
        exact Precedes.append_iff.2 (Or.inr (Or.inl (Precedes.cons_iff.2 (Or.inl (by simp)))))
      have hprec := hrules.precedes hd hmoved hid hy
      exact ⟨y, hnext l y r hl hprec.mem_left, Or.inr hprec⟩
  · have hadv : Advances (fun _ => False) m m₁ := hst.advances hd
    obtain ⟨nx, hnx, -⟩ := hd.mem_nodesOf_iff.1 hahead.mem_right
    have hx₁ : ¬ m₁.Displaced m' id x := fun ht => ht.loose.elim (fun he => hne he.symm)
      fun ht => hloose (HasOp.of_kept ht hadv.frame.kept hnx)
    exact ⟨target, rfl, Or.inr ((hrep.frame hadv.direct.toSound).2.precedes hx₁
      (hadv.precedes hahead not_false not_false))⟩

theorem Scans.advances {visited : IdMap Unit} {cursor : Option NodeId}
    (h : Scans o block visited cursor m m') (hd : Direct m) :
    Advances (m.HasOp fun op => op.isExpression = true ∨ op = .logic ∨ op = .assign) m m' := by
  induction h with
  | done => exact .refl hd
  | step h _ ih =>
    have h₁ := h.advances hd
    exact h₁.trans (ih h₁.direct) hd fun j n hj ht => ht.of_kept h₁.frame.kept hj

/-- A node of an operation without regions. -/
def IsLeaf (m : Module) (id : NodeId) : Prop := m.HasOp (·.regionKinds = []) id

theorem Scans.advances_leaf {visited : IdMap Unit} {cursor : Option NodeId}
    (h : Scans o block visited cursor m m') (hd : Direct m) : Advances m.IsLeaf m m' := by
  refine (h.advances hd).mono hd ?_
  rintro j - - ⟨n, hn, hop | hop | hop⟩
  · exact ⟨n, hn, Op.regionKinds_of_isExpression hop⟩
  · exact ⟨n, hn, by rw [hop]; rfl⟩
  · exact ⟨n, hn, by rw [hop]; rfl⟩

theorem Orders.advances (h : Orders block m m') (hd : Direct m) : Advances m.IsLeaf m m' := by
  cases h with
  | empty _ _ h => exact h ▸ .refl hd
  | declarations _ _ _ h =>
    exact (h.advances hd).mono hd fun j _ _ ⟨n, hn, hop⟩ => ⟨n, hn, by rw [hop]; rfl⟩
  | definitions _ _ h => exact (h.advances hd).mono hd fun _ _ _ ht => ht.1

theorem IsLeaf.of_kept (h : m'.IsLeaf id) (hk : m.Kept m') (hn : m.live? id = some n) :
    m.IsLeaf id := HasOp.of_kept h hk hn

theorem Legalizes.advances {bs : List BlockId} (h : Legalizes o bs m m') (hd : Direct m) :
    Advances m.IsLeaf m m' := by
  induction h with
  | nil => exact .refl hd
  | @cons block blocks m m₁ m₂ m₃ m' _ _ hscan horder _ ihinner ihrest =>
    have hinner := ihinner hd
    have hscan := hscan.advances_leaf hinner.direct
    have horder := horder.advances hscan.direct
    exact ((hinner.trans hscan hd fun _ _ hj ht => ht.of_kept hinner.frame.kept hj).trans horder hd
      fun _ _ hj ht => ht.of_kept (hinner.frame.kept.trans hscan.frame.kept) hj).trans
      (ihrest horder.direct) hd fun _ _ hj ht => ht.of_kept
        ((hinner.frame.kept.trans hscan.frame.kept).trans horder.frame.kept) hj

end Module

end NetPrep
