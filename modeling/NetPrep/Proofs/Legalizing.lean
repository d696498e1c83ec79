import Mathlib
import NetPrep.Proofs.Anchoring
import NetPrep.Proofs.Hoisting
import NetPrep.Proofs.Ordering
import NetPrep.Proofs.Replacing
import NetPrep.Proofs.Routing

/-!
# Rules for nodes

The rules that are applied to a node of a block, one after another. `Module.Rule` says what one of
them does; legalizing a node applies a few of them, and goes on with its follower or with a node that
has taken its place.
-/

namespace NetPrep

open Prepare Prep

/-- An operation that is printed as an expression or a part of one. -/
def Op.isExpression (op : Op) : Bool := op.category == .expression || op.category == .read

theorem Op.regionKinds_of_isExpression {op : Op} (h : op.isExpression = true) :
    op.regionKinds = [] := by
  cases op <;> first | rfl | cases h

theorem Op.isDeclaration_of_isExpression {op : Op} (h : op.isExpression = true) :
    op.isDeclaration = false := by
  cases op <;> first | rfl | cases h

theorem Op.isExpression_of_isAlwaysInline {op : Op} (h : op.isAlwaysInline = true) :
    op.isExpression = true := by
  cases op <;> first | rfl | cases h

theorem Op.isExpression_of_isConstant {op : Op} (h : op.isConstant = true) :
    op.isExpression = true := by
  cases op <;> first | rfl | cases h

theorem Op.isExpression_of_isCommutative {op : Op} (h : op.isCommutative = true) :
    op.isExpression = true := by
  cases op <;> first | rfl | cases h

theorem Op.isInstance_of_isExpression {op : Op} (h : op.isExpression = true) :
    op.isInstance = false := by
  cases op <;> first | rfl | cases h

theorem Op.isInstance_of_isClocked {op : Op} (h : op.isClocked = true) :
    op.isInstance = false := by
  cases op <;> first | rfl | cases h

theorem Oracle.isExpression_eq_ok_iff {m : Module} {id : NodeId} {b : Bool} :
    systemVerilog.isExpression m id = .ok b ↔
      ∃ n, m.node? id = some n ∧ n.op.isExpression = b := by
  simp only [systemVerilog, bind_eq_ok_iff, Module.node_eq_ok_iff, Op.isExpression]
  exact exists_congr fun n => and_congr_right fun _ => by simp [pure, Except.pure]

namespace Module

/-- A rule that is applied to a node and does not put another node in its place. -/
inductive Rule (id : NodeId) (m m' : Module) : Prop
  | anchorOutputs {n : Node} (hn : m.live? id = some n) (hop : n.op.isInstance = true)
      (h : AnchorsOutputs id n.results m m')
  | anchorInputs {n : Node} (hn : m.live? id = some n) (hop : n.op.isInstance = true)
      (h : AnchorsInputs id 0 n.operands m m')
  | leaveProcess {n : Node} (hn : m.live? id = some n) (hop : n.op = .logic)
      (hk : m.kind? n.parent = some .procedural) (h : m.LeavesProcess id m')
  | route {n : Node} (hn : m.live? id = some n) (hop : n.op.isClocked = true)
      (h : RoutesEvents id n.operands m m')
  | hoist {n : Node} (hn : m.live? id = some n) (hop : n.op.isExpression = true)
      (hk : m.kind? n.parent = some .procedural) (h : m.Hoists id m')
  | capture {n : Node} (hn : m.live? id = some n) (hop : n.op.isExpression = true)
      (hk : m.kind? n.parent = some .procedural) (h : m.Captures id m')
  | erase {n : Node} (hn : m.live? id = some n) (hop : n.op.isExpression = true)
      (hunused : ∀ u, ∀ v ∈ n.results, ¬ m.Uses u v) (h : m.Erases m' id) (hs : Sound m')
  | settle {n : Node} (hn : m.live? id = some n) (hop : n.op.isAlwaysInline = true)
      (h : m.Inlines (Settled m (· = id)) m')
  | reuse {n : Node} (hn : m.live? id = some n) (hop : n.op.isExpression = true)
      (hinline : n.op.isAlwaysInline = false) (hk : m.kind? n.parent = some .graph)
      (h : m.Reuses id m')
  | spill {n : Node} (hn : m.live? id = some n) (hop : n.op.isExpression = true)
      (hinline : n.op.isAlwaysInline = false) (h : m.Spills id false m')

/-- A rule that is applied to a node and puts others in its place, the first of which is given. -/
inductive Replaces (id target : NodeId) (m m' : Module) : Prop
  | balance {n : Node} {ids : List NodeId} (hn : m.live? id = some n)
      (hop : n.op.isCommutative = true) (hlen : 2 < n.operands.length)
      (hids : ids.head? = some target) (h : m.Balances id ids m')
  | subtract {constant : NodeId} {value : Int} (h : m.Subtracts id constant value target m')
  | explode {n : Node} {ids : List NodeId} (hn : m.live? id = some n) (hop : n.op = .structExplode)
      (hids : ids.head? = some target) (h : m.Explodes id ids m')

/-- Taking apart a struct of which no field is taken erases the node. -/
theorem Explodes.erases {m m' : Module} {id : NodeId} {n : Node} (h : m.Explodes id [] m')
    (hn : m.live? id = some n) :
    (∀ u, ∀ v ∈ n.results, ¬ m.Uses u v) ∧ m.Erases m' id ∧ Sound m' := by
  obtain ⟨hn', -, -, -, hextract, hunused, he, hs₂, hsettle⟩ := h
  obtain rfl := Option.some.inj (hn.symm.trans hn')
  generalize hfields : n.results.zip _ = fields at hextract
  cases hextract
  cases hsettle
  exact ⟨hunused, he, hs₂⟩

theorem Rule.erase_of_explodes {m m' : Module} {id : NodeId} {n : Node}
    (hn : m.live? id = some n) (hop : n.op = .structExplode) (h : m.Explodes id [] m') :
    Rule id m m' := by
  obtain ⟨hunused, he, hs'⟩ := h.erases hn
  exact .erase hn (by rw [hop]; rfl) hunused he hs'

/-- Rules are applied to a node one after another. -/
inductive Rules (id : NodeId) : Module → Module → Prop
  | refl (m : Module) : Rules id m m
  | step {m m₁ m' : Module} (h : Rule id m m₁) (hrest : Rules id m₁ m') : Rules id m m'

/-- What may become of an expression before it is replaced: an assignment of it is read at its other
uses, or it is given a temporary. -/
inductive Stores (id : NodeId) (m m' : Module) : Prop
  | nothing (h : m = m')
  | reuse {n : Node} (hn : m.live? id = some n) (hop : n.op.isExpression = true)
      (hinline : n.op.isAlwaysInline = false) (hk : m.kind? n.parent = some .graph)
      (h : m.Reuses id m')
  | spill {n : Node} (hn : m.live? id = some n) (hop : n.op.isExpression = true)
      (hinline : n.op.isAlwaysInline = false) (h : m.Spills id false m')

variable {m m' m'' : Module} {id target : NodeId} {n : Node}

theorem Rules.single (h : Rule id m m') : Rules id m m' := .step h (.refl _)

theorem Rules.trans (h : Rules id m m') (h' : Rules id m' m'') : Rules id m m'' := by
  induction h with
  | refl => exact h'
  | step hrule _ ih => exact .step hrule (ih h')

theorem Rule.live (h : m.Rule id m') : ∃ n, m.live? id = some n := by
  cases h <;> exact ⟨_, by assumption⟩

theorem Stores.rules (h : m.Stores id m') : m.Rules id m' := by
  cases h with
  | nothing h => exact h ▸ .refl m
  | reuse hn hop hinline hk h => exact .single (.reuse hn hop hinline hk h)
  | spill hn hop hinline h => exact .single (.spill hn hop hinline h)

/-- The node itself stays in its place. -/
theorem Stores.live (h : m.Stores id m') (hn : m.live? id = some n)
    (hinline : n.op.isAlwaysInline = false) :
    ∃ n', m'.live? id = some n' ∧ n'.op = n.op ∧ n'.parent = n.parent := by
  cases h with
  | nothing h => exact ⟨n, h ▸ hn, rfl, rfl⟩
  | reuse _ _ _ _ h =>
    obtain ⟨n', hn', hop, -, hp⟩ := h.live hn
    exact ⟨n', hn', hop, hp hinline⟩
  | spill _ _ _ h =>
    obtain ⟨n', hn', hop, -, hp⟩ := h.live hn
    exact ⟨n', hn', hop, hp⟩

/-- What is done to a node leaves the tree of blocks. -/
theorem Rule.edits (h : m.Rule id m') (hs : Sound m) : Edits m m' := by
  cases h with
  | anchorOutputs _ _ h => exact h.edits hs
  | anchorInputs _ _ h => exact h.edits hs
  | leaveProcess hn hop _ h => exact h.edits hs hn (by rw [hop]; rfl)
  | route _ _ h => exact h.edits hs
  | hoist hn hop _ h => exact h.edits hs hn (Op.regionKinds_of_isExpression hop)
  | capture _ _ _ h => exact h.edits
  | erase hn hop _ h hs' => exact h.edits hs hs' hn (Op.regionKinds_of_isExpression hop)
  | settle _ _ h => exact h.edits hs
  | reuse _ _ _ _ h => exact h.edits hs
  | spill _ _ _ h => exact h.edits hs

theorem Rules.edits (h : Rules id m m') (hs : Sound m) : Edits m m' := by
  induction h with
  | refl => exact .refl hs
  | step h _ ih =>
    have h₁ := h.edits hs
    exact h₁.trans (ih h₁.sound)

/-- What takes the place of a node is in its block. -/
theorem Replaces.edits (h : m.Replaces id target m') (hs : Sound m) (hn : m.live? id = some n) :
    Edits m m' ∧ ∃ n', m'.live? target = some n' ∧ n'.parent = n.parent := by
  cases h with
  | balance hn' hop _ hids h =>
    obtain rfl := Option.some.inj (hn.symm.trans hn')
    obtain ⟨he, hall⟩ := h.edits hs hn hop
    exact ⟨he, hall target (List.mem_of_head? hids)⟩
  | subtract h => exact h.edits hn
  | explode hn' hop hids h =>
    obtain rfl := Option.some.inj (hn.symm.trans hn')
    obtain ⟨he, hall⟩ := h.edits hs hn hop
    exact ⟨he, hall target (List.mem_of_head? hids)⟩

theorem Replaces.isExpression (h : m.Replaces id target m') :
    ∃ n, m.live? id = some n ∧ n.op.isExpression = true ∧ n.op.isAlwaysInline = false := by
  cases h with
  | balance hn hop =>
    exact ⟨_, hn, Op.isExpression_of_isCommutative hop, Op.isAlwaysInline_of_isCommutative hop⟩
  | subtract h =>
    obtain ⟨hn, hop, -⟩ := h
    exact ⟨_, hn, by rw [hop]; exact ⟨rfl, rfl⟩⟩
  | explode hn hop => exact ⟨_, hn, by rw [hop]; exact ⟨rfl, rfl⟩⟩

end Module

end NetPrep
