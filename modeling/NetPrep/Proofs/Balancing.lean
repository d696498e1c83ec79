import Mathlib
import NetPrep.Proofs.Breaking
import NetPrep.Proofs.OperandTrees
import NetPrep.Proofs.Rewriting

/-!
# Balancing

A variadic operator gives way to a balanced tree of operators with two operands over its operands. The
root has the name and the uses of the operator, and no other node has either. Then the operands of the
tree are settled: what is printed there is copied and moved, and the tree stays as it is.
-/

namespace NetPrep

open Prepare Prep

/-! ## A tree in place of an operator -/

/-- An operator with operands and a result. -/
structure Variadic where
  id : NodeId
  node : Node
  old : ValueId
  type : TypeId

namespace Variadic

/-- What the nodes of its tree have in common. -/
def shape (V : Variadic) : TreeShape where
  op := V.node.op
  type := V.type
  twoState := V.node.twoState
  anchor := V.id
  loc := V.node.loc

/-- A module has the operator, with more than two operands, none of which is its own result. -/
structure In (V : Variadic) (m : Module) : Prop where
  node : m.live? V.id = some V.node
  commutative : V.node.op.isCommutative = true
  results : V.node.results = [V.old]
  type : m.type? V.old = some V.type
  many : 2 < V.node.operands.length
  other : V.old ∉ V.node.operands

namespace In

variable {V : Variadic} {m : Module} (hV : V.In m)

include hV

theorem isAlwaysInline : V.node.op.isAlwaysInline = false :=
  Op.isAlwaysInline_of_isCommutative hV.commutative

theorem regionKinds : V.node.op.regionKinds = [] :=
  Op.regionKinds_of_isExpression (Op.isExpression_of_isCommutative hV.commutative)

theorem usable_operand (hs : Sound m) {v : ValueId} (hv : v ∈ V.node.operands) : m.Usable v := by
  obtain ⟨i, hu⟩ := Module.exists_uses_of_mem hV.node hv
  exact hs.usable hu

theorem old_lt (hw : WellFormed m) : V.old.index < m.values.size :=
  hw.lt_of_result (Module.core_of_live? hV.node) (by simp [hV.results])

end In

/-- What is printed for the operands is read from declarations. -/
def Reads (V : Variadic) (m : Module) : Prop :=
  ∀ v ∈ V.node.operands, ∀ j n, m.live? j = some n → n.op.isAlwaysInline = true → v ∈ n.results →
    ∀ x ∈ n.operands, ∃ k nk, m.live? k = some nk ∧ nk.op.isDeclaration = true ∧ x ∈ nk.results

namespace Reads

variable {V : Variadic} {m : Module} {v : ValueId} {j k : NodeId} {n : Node} (h : V.Reads m)
  (hw : WellFormed m)

include h hw

/-- Declarations are not printed where they are read. -/
theorem not_pastedIn (hv : v ∈ V.node.operands) (hn : m.live? j = some n)
    (hop : n.op.isAlwaysInline = true) (hmem : v ∈ n.results) :
    ¬ m.PastedIn Label.isAlwaysInline k j := by
  rintro ⟨nk, n', x, ⟨hnk, hpk⟩, ⟨hn', -⟩, hx, hxop⟩
  obtain rfl := Option.some.inj (hn.symm.trans hn')
  obtain ⟨d, nd, hd, hdecl, hxd⟩ := h v hv j n hn hop hmem x hxop
  refine Module.unpasted_of_plain hw hd ?_ hxd k nk hnk hpk hx
  rw [← Bool.not_eq_true]
  intro hinline
  have hnot : nd.op.isDeclaration = false := Op.isDeclaration_of_isAlwaysInline hinline
  rw [hdecl] at hnot
  cases hnot

theorem shallow (hv : v ∈ V.node.operands) : m.Shallow Label.isAlwaysInline v :=
  ⟨1, fun _ _ hn hop hmem _ hk => h.not_pastedIn hw hv hn hop hmem hk⟩

theorem avoids (hV : V.In m) (hv : v ∈ V.node.operands) :
    m.Avoids Label.isAlwaysInline V.old v := by
  intro j n hn hop hmem k nk hchain hk hold
  obtain rfl | ⟨i, -, hij⟩ := hchain.cases_tail
  · obtain rfl := Option.some.inj (hn.symm.trans hk)
    obtain ⟨d, nd, hd, hdecl, hres⟩ := h v hv _ n hn hop hmem _ hold
    -- The operator is no declaration.
    obtain ⟨rfl, rfl⟩ := hw.eq_of_mem_results hd hV.node hres (by simp [hV.results])
    rw [Op.isDeclaration_of_isCommutative hV.commutative] at hdecl
    cases hdecl
  · exact h.not_pastedIn hw hv hn hop hmem hij

end Reads

end Variadic

namespace Module

variable {m m' m₁ m₂ m₃ m₄ : Module} {V : Variadic} {tree : OperandTree} {root v : ValueId}
  {created : List NodeId} {j x : NodeId} {n nj : Node} {u : Use} {g : NodeId → NodeId}
  {o : ValueId → ValueId}

/-- A tree takes the place of an operator: its root has the name of the operator, and the uses of the
operator refer to it. -/
structure Plants (m m' : Module) (V : Variadic) (tree : OperandTree) (root : ValueId)
    (created : List NodeId) : Prop where
  sound : Sound m'
  frame : Frame (· = V.id) m m'
  gone : m'.live? V.id = none
  other : ∀ {j nj}, m.live? j = some nj → j ≠ V.id →
    m'.live? j = some { nj with operands := substitute V.old root j nj.operands }
  live_cases : ∀ {j nj}, m'.live? j = some nj → j ∈ created ∨ ∃ n, m.live? j = some n
  fresh : ∀ j ∈ created, m.nodes.size ≤ j.index
  leaves : tree.leaves = V.node.operands
  bears : m'.Bears V.shape V.node.parent (fun v => v) tree root created
  ordered : created.Pairwise (Precedes (m'.nodesOf V.node.parent))
  name : ∀ j ∈ created, ∀ n, m'.live? j = some n →
    n.name = if root ∈ n.results then V.node.name else none
  rooted : ∃ j ∈ created, ∃ n, m'.live? j = some n ∧ root ∈ n.results
  uses_iff : ∀ {u}, m'.Uses u root ↔ m.Uses u V.old

/-- The edits by which a tree takes the place of an operator. -/
structure Transplants (m m₁ m₂ m₃ m₄ : Module) (V : Variadic) (tree : OperandTree) (root : ValueId)
    (created : List NodeId) (x : NodeId) : Prop where
  balanced : OperandTree.balanced? V.node.operands.length V.node.operands = some tree
  grows : Grows V.shape tree root created m m₁
  defines : ∃ i, m₁.def? root = some (.result x i)
  relabels : m₁.Relabels m₂ x (fun _ => V.node.name) (fun t => t)
  sound₂ : Sound m₂
  redirects : m₂.Redirects m₃ (substitute V.old root)
  sound₃ : Sound m₃
  erases : m₃.Erases m₄ V.id
  sound₄ : Sound m₄

namespace Transplants

variable (h : Transplants m m₁ m₂ m₃ m₄ V tree root created x) (hs : Sound m) (hV : V.In m)

include h

theorem leaves : tree.leaves = V.node.operands := OperandTree.leaves_balanced? h.balanced

theorem kept : m.Kept m₄ :=
  ((h.grows.kept.trans h.relabels.kept).trans h.redirects.kept).trans h.erases.kept

include hV

/-- The root is a new value, and the result of the node that gets the name. -/
theorem root_new : m.values.size ≤ root.index ∧ x ∈ created ∧ m₁.def? root = some (.result x 0) := by
  obtain ⟨left, right, rfl⟩ := OperandTree.exists_branch_of_balanced? h.balanced
    (Nat.lt_of_succ_lt hV.many)
  obtain ⟨hle, y, hy, hdef⟩ := h.grows.exists_def_root
  obtain ⟨i, hdef'⟩ := h.defines
  obtain rfl : y = x := (ValueDef.result.inj (Option.some.inj (hdef.symm.trans hdef'))).1
  exact ⟨hle, hy, hdef⟩

theorem ne_of_mem_created (hj : j ∈ created) : j ≠ V.id := by
  rintro rfl
  exact absurd (lt_of_live? hV.node) (Nat.not_lt.2 (h.grows.fresh_ids _ hj))

/-- A node that was there and stays only has its operands redirected. -/
theorem other (hj : m.live? j = some nj) (hne : j ≠ V.id) :
    m₄.live? j = some { nj with operands := substitute V.old root j nj.operands } := by
  have hx : j ≠ x := by
    rintro rfl
    exact absurd (lt_of_live? hj) (Nat.not_lt.2 (h.grows.fresh_ids _ (h.root_new hV).2.1))
  have h₂ := h.relabels.live (h.grows.live hj)
  rw [if_neg hx, ite_self] at h₂
  exact h.erases.live (h.redirects.live h₂) hne

include hs

theorem leaf_lt (hv : v ∈ tree.leaves) : v.index < m.values.size := by
  obtain ⟨_, hd, -⟩ := hV.usable_operand hs (h.leaves ▸ hv)
  exact WellFormed.lt_of_def? hd

theorem root_ne : root ∉ tree.leaves ∧ root ≠ V.old := by
  have hle := (h.root_new hV).1
  refine ⟨fun hmem => (h.leaf_lt hs hV hmem).not_ge hle, ?_⟩
  rintro rfl
  exact (hV.old_lt hs.toWellFormed).not_ge hle

/-- The operator is no operand of the nodes of the tree. -/
theorem old_not_mem (hj : j ∈ created) (hn : m₁.live? j = some n) : V.old ∉ n.operands := by
  intro hmem
  obtain hleaf | ⟨k, hk, nk, hnk, hres⟩ := (h.grows.bears hV.node).operand_cases hj hn hmem
  · exact hV.other (h.leaves ▸ hleaf)
  · have hold : V.old ∈ V.node.results := by simp [hV.results]
    obtain ⟨i, hdef⟩ := hs.toWellFormed.exists_def hV.node hold
    exact h.ne_of_mem_created hV hk
      ((h.grows.sound hs).toWellFormed.eq_of_def hnk hres (h.grows.kept.def? hdef)).symm

/-- A node of the tree stays as it is made, but for the name of the root. -/
theorem made (hj : j ∈ created) (hn : m₁.live? j = some n) :
    m₄.live? j = some { n with name := if j = x then V.node.name else n.name } := by
  have hops : substitute V.old root j n.operands = n.operands := by
    refine (List.map_congr_left fun w hw => if_neg ?_).trans (List.map_id' _)
    rintro rfl
    exact h.old_not_mem hs hV hj hn hw
  have h₂ := h.relabels.live hn
  have h₃ := h.erases.live (h.redirects.live h₂) (h.ne_of_mem_created hV hj)
  rw [h₃, hops, ite_self]

theorem bears : m₄.Bears V.shape V.node.parent (fun v => v) tree root created := by
  refine (h.grows.bears hV.node).mono fun j hj n lhs rhs value hn hjoins => ?_
  have hkept := (h.relabels.kept.trans h.redirects.kept).trans h.erases.kept
  exact ⟨_, h.made hs hV hj hn, hjoins.op, hjoins.operands, hjoins.results, hjoins.twoState, hjoins.loc,
    hjoins.parent, hkept.type? hjoins.type⟩

theorem frame : Frame (· = V.id) m m₄ := by
  have hw := hs.toWellFormed
  have hs₁ := h.grows.sound hs
  have h₁ : Frame (· = V.id) m m₁ := h.grows.frame hs hV.commutative
  have h₂ := h₁.trans h.relabels.frame hw hs₁.toWellFormed fun _ _ _ ht => ht
  have h₃ := h₂.trans h.redirects.frame hw h.sound₂.toWellFormed fun _ _ _ ht => ht
  exact h₃.trans (h.erases.frame h.sound₃.toWellFormed) hw h.sound₃.toWellFormed fun _ _ _ ht => ht

/-- The uses of the operator are the uses of the root. -/
theorem uses_iff : m₄.Uses u root ↔ m.Uses u V.old := by
  obtain ⟨hleaf, hne⟩ := h.root_ne hs hV
  have hold : m₁.Uses u V.old ↔ m.Uses u V.old :=
    h.grows.uses_iff_of_not_mem (hV.old_lt hs.toWellFormed) (h.leaves ▸ hV.other)
  have hunused : ¬ m₁.Uses u root :=
    h.grows.unused hs (fun w hw => hV.usable_operand hs (h.leaves ▸ hw)) hleaf
  rw [h.erases.uses_iff, h.redirects.uses_substitute_iff, h.relabels.uses_iff, h.relabels.uses_iff, hold]
  constructor
  · rintro ⟨⟨hu, -⟩ | ⟨-, hu⟩, -⟩
    · exact hu
    · exact absurd hu hunused
  · refine fun hu => ⟨Or.inl ⟨hu, rfl⟩, fun he => ?_⟩
    -- The operator is no operand of itself.
    obtain ⟨nu, hnu, hget⟩ := hu
    obtain rfl := Option.some.inj (hV.node.symm.trans (he ▸ hnu))
    exact hV.other (List.mem_of_getElem? hget)

theorem plants : m.Plants m₄ V tree root created where
  sound := h.sound₄
  frame := h.frame hs hV
  gone := by rw [h.erases.live?, if_pos rfl]
  other := h.other hV
  live_cases {j nj} hj := by
    obtain ⟨n₃, hn₃, -⟩ := h.redirects.live_cases (h.erases.live_cases hj).2
    obtain ⟨n₂, hn₂, -⟩ := h.relabels.live_cases hn₃
    exact (h.grows.live_cases hn₂).imp id fun hj => ⟨_, hj⟩
  fresh := h.grows.fresh_ids
  leaves := h.leaves
  bears := h.bears hs hV
  ordered := by
    have hk := h.grows.ordered hs hV.commutative hV.node
    have hlist : m₃.nodesOf V.node.parent = m₁.nodesOf V.node.parent :=
      (h.redirects.nodesOf _).trans (h.relabels.nodesOf _)
    rw [← hlist] at hk
    exact hk.imp_of_mem fun hi hj hp => (h.erases.frame h.sound₃.toWellFormed).precedes hp
      (h.ne_of_mem_created hV hi) (h.ne_of_mem_created hV hj)
  name j hj n hn := by
    obtain ⟨lhs, rhs, value, hn₁⟩ := h.grows.node_ids hV.node j hj
    obtain rfl := Option.some.inj ((h.made hs hV hj hn₁).symm.trans hn)
    have hdef := (h.grows.sound hs).toWellFormed.result (core_of_live? hn₁) (i := 0) (v := value) rfl
    have hroot := (h.root_new hV).2.2
    by_cases hx : j = x
    · subst hx
      obtain ⟨nx, hnx, hget⟩ := (h.grows.sound hs).definition hroot
      obtain rfl := Option.some.inj ((core_of_live? hn₁).symm.trans hnx)
      rw [if_pos rfl, if_pos (List.mem_of_getElem? hget)]
    · have hne : root ∉ [value] := fun hmem => by
        obtain rfl := List.mem_singleton.1 hmem
        exact hx (ValueDef.result.inj (Option.some.inj (hdef.symm.trans hroot))).1
      exact (if_neg hx).trans (if_neg hne).symm
  rooted := by
    obtain ⟨-, hx, hroot⟩ := h.root_new hV
    obtain ⟨nx, hnx, hget⟩ := (h.grows.sound hs).definition hroot
    obtain ⟨n₁, hn₁, -⟩ := h.grows.live_ids x hx
    obtain rfl := Option.some.inj ((core_of_live? hn₁).symm.trans hnx)
    exact ⟨x, hx, _, h.made hs hV hx hn₁, List.mem_of_getElem? hget⟩
  uses_iff := h.uses_iff hs hV

theorem plainly_root : m₄.Plainly Label.isAlwaysInline root := by
  obtain ⟨j, hj, n, hn, hmem⟩ := (h.plants hs hV).rooted
  obtain ⟨n', _, _, _, hn', hjoins⟩ := (h.bears hs hV).exists_joins hj
  obtain rfl := Option.some.inj (hn.symm.trans hn')
  refine ⟨j, n, hn, ?_, hmem⟩
  rw [Label.isAlwaysInline, label, hjoins.op]
  exact hV.isAlwaysInline

end Transplants

end Module

namespace Module

variable {m m' m₁ m₂ m₃ m₄ : Module} {V : Variadic} {tree : OperandTree} {root v : ValueId}
  {created : List NodeId} {j x : NodeId} {n n' nj : Node} {u : Use} {o : ValueId → ValueId}

/-- An operator has given way to a balanced tree over its operands, up to copies of what is printed where
it is used. -/
structure Balanced (m m' : Module) (V : Variadic) (tree : OperandTree) (root : ValueId)
    (created : List NodeId) (o : ValueId → ValueId) : Prop where
  gone : m'.live? V.id = none
  length : created.length + 1 = V.node.operands.length
  nodup : created.Nodup
  fresh : ∀ j ∈ created, m.nodes.size ≤ j.index
  made : ∀ {j n'}, m'.live? j = some n' → m.nodes.size ≤ j.index →
    j ∈ created ∨ n'.op.isAlwaysInline = true
  leaves : tree.leaves = V.node.operands
  depth : tree.depth = Nat.clog 2 V.node.operands.length
  bears : m'.Bears V.shape V.node.parent o tree root created
  ordered : created.Pairwise (Precedes (m'.nodesOf V.node.parent))
  name : ∀ j ∈ created, ∀ n', m'.live? j = some n' →
    n'.name = if root ∈ n'.results then V.node.name else none
  uses : ∀ {u}, m.Uses u V.old → m'.Uses u root
  uses_iff : (∀ v ∈ V.node.operands, m.Avoids Label.isAlwaysInline V.old v) →
    ∀ {u}, m'.Uses u root ↔ m.Uses u V.old

/-- Under an assignment the root is what the operation makes of the operands from left to right. -/
theorem Balanced.eq_foldl (h : m.Balanced m' V tree root created o) {w : Nat}
    {f : BitVec w → BitVec w → BitVec w} {unit : BitVec w} {σ : ValueId → BitVec w}
    (hf : V.node.op.monoid? w = some (f, unit)) (hσ : m'.Computed f σ created)
    (ho : ∀ v, σ v = σ (o v)) :
    ∃ v vs, V.node.operands = v :: vs ∧ σ root = vs.foldl (fun a x => f a (σ x)) (σ v) := by
  obtain ⟨v, vs, hleaves, heval⟩ := OperandTree.eval_eq_foldl (Op.monoid_laws hf).1 σ tree
  exact ⟨v, vs, h.leaves.symm.trans hleaves, (h.bears.value_eq hσ ho).trans heval⟩

namespace Transplants

variable (h : Transplants m m₁ m₂ m₃ m₄ V tree root created x) (hs : Sound m) (hV : V.In m)

include h hs hV

/-- What is printed at its uses stays: neither the operator nor a node of the tree is. -/
theorem spares : m.Spares Label.isAlwaysInline m₄ := by
  have hs₁ := h.grows.sound hs
  have hw₂ := h.sound₂.toWellFormed
  have hop := hV.isAlwaysInline
  have hn₂ := h.relabels.live (h.grows.live hV.node)
  have h₂ := (h.grows.spares hs hop).trans h.relabels.spares
  have hold : m₂.Unpasted Label.isAlwaysInline V.old :=
    unpasted_of_plain hw₂ hn₂ hop (by simp [hV.results])
  have hroot : m₂.Unpasted Label.isAlwaysInline root := by
    obtain ⟨-, hx, hdef⟩ := h.root_new hV
    obtain ⟨nx, hnx, hget⟩ := hs₁.definition hdef
    obtain ⟨n₁, hn₁, hop₁⟩ := h.grows.live_ids x hx
    obtain rfl := Option.some.inj ((core_of_live? hn₁).symm.trans hnx)
    refine unpasted_of_plain hw₂ (h.relabels.live hn₁) ?_ (List.mem_of_getElem? hget)
    exact (congrArg Op.isAlwaysInline hop₁).trans hop
  exact (h₂.trans (h.redirects.spares hw₂ hold hroot)).trans
    (h.erases.spares h.sound₃.toWellFormed (h.redirects.live hn₂) hop)

/-- The uses of what is printed there are as many as before: the tree has those of the operator. -/
theorem length_usesOf (hv : ¬ m.Unpasted Label.isAlwaysInline v) :
    (m₄.usesOf v).length = (m.usesOf v).length := by
  have hw := hs.toWellFormed
  have hs₁ := h.grows.sound hs
  have hw₂ := h.sound₂.toWellFormed
  have hw₃ := h.sound₃.toWellFormed
  have hlt : v.index < m.values.size := Nat.lt_of_not_le fun hle => hv (unpasted_of_le hw hle)
  have hold : v ≠ V.old := by
    rintro rfl
    exact hv (unpasted_of_plain hw hV.node hV.isAlwaysInline (by simp [hV.results]))
  have hroot : v ≠ root := by
    rintro rfl
    exact hlt.not_ge (h.root_new hV).1
  have hn₃ := h.redirects.live (h.relabels.live (h.grows.live hV.node))
  have h₁ := h.grows.length_usesOf hs hlt
  have h₂ := length_usesOf_congr hs₁.toWellFormed hw₂ (v := v) fun q => h.relabels.uses_iff
  have h₃ := h.redirects.length_usesOf hw₂ hw₃ hold hroot
  have h₄ : (m₄.usesOf v).length + V.node.operands.count v = (m₃.usesOf v).length := by
    rw [← count_substitute hold hroot V.id]
    exact h.erases.length_usesOf hw₃ h.sound₄.toWellFormed hn₃ v
  rw [List.count_singleton, if_neg (by simpa using hroot.symm), h.leaves] at h₁
  omega

/-- An operand for which nothing is printed that uses the operator avoids the root. -/
theorem avoids (hv : m.Avoids Label.isAlwaysInline V.old v) :
    m₄.Avoids Label.isAlwaysInline root v := by
  intro j n₄ hj hp hmem k nk hchain hk hroot
  have hspares := h.spares hs hV
  obtain ⟨n, hn, hpn, hres, -⟩ := hspares.node hj hp
  obtain ⟨i, hi⟩ := List.mem_iff_getElem?.1 hroot
  -- Whoever uses the root used the operator.
  obtain ⟨nu, hnu, hget⟩ := (h.uses_iff hs hV (u := ⟨k, i⟩)).1 ⟨nk, hk, hi⟩
  exact hv j n hn hpn (hres ▸ hmem) k nu (hchain.lift id fun _ _ => hspares.pastedIn) hnu
    (List.mem_of_getElem? hget)

theorem isAlwaysInline_of_mem (hj : j ∈ created) (hn : m₄.live? j = some n) :
    n.op.isAlwaysInline = false := by
  obtain ⟨n', _, _, _, hn', hjoins⟩ := (h.bears hs hV).exists_joins hj
  obtain rfl := Option.some.inj (hn.symm.trans hn')
  rw [hjoins.op]
  exact hV.isAlwaysInline

/-- Settling the operands of the tree leaves it a tree. -/
theorem balances (hsettle : SettlesOperands created m₄ m')
    (hcovers : m₄.Covers Label.isAlwaysInline m' g o) : m.Balanced m' V tree root created o := by
  have hplants := h.plants hs hV
  have hw₄ := h.sound₄.toWellFormed
  have hw' := (hsettle.sound h.sound₄).toWellFormed
  have hframe := hsettle.frame h.sound₄
  have hplain : ∀ j ∈ created, ¬ IsInline m₄ j := fun j hj ⟨nc, hnc, hop⟩ => by
    obtain ⟨n, _, _, _, hn, -⟩ := hplants.bears.exists_joins hj
    obtain rfl := Option.some.inj ((core_of_live? hn).symm.trans hnc)
    rw [h.isAlwaysInline_of_mem hs hV hj hn] at hop
    cases hop
  have hroot := h.plainly_root hs hV
  have hordered : created.Pairwise (Precedes (m'.nodesOf V.node.parent)) :=
    hplants.ordered.imp_of_mem fun hi hj hp => hframe.precedes hp (hplain _ hi) (hplain _ hj)
  refine ⟨hframe.gone hplants.gone ((lt_of_live? hV.node).trans_le h.kept.nodes_size), ?_, ?_,
    hplants.fresh, fun {j n'} hj hle => ?_, hplants.leaves, OperandTree.depth_balanced? h.balanced, ?_,
    hordered, fun j hj n' hn' => ?_, fun hu => ?_, fun havoid {u} => ?_⟩
  · rw [hplants.bears.length, hplants.leaves]
  · exact hordered.imp fun hp => hp.ne (hw'.nodup _)
  · refine (hsettle.live_cases hj).imp (fun ⟨n₄, hn₄⟩ => ?_) id
    exact (hplants.live_cases hn₄).resolve_right fun ⟨n, hn⟩ => (lt_of_live? hn).not_ge hle
  · refine hcovers.bears hw₄ hV.isAlwaysInline (fun j hj n n' hn hn' => ?_) hplants.bears
      (hcovers.eq_of_plainly hw' hroot)
    obtain ⟨n₁, hn₁, hparent⟩ := hframe.live hn (hplain j hj)
    obtain rfl := Option.some.inj (hn₁.symm.trans hn')
    exact hparent
  · obtain ⟨n, _, _, _, hn, -⟩ := hplants.bears.exists_joins hj
    obtain ⟨n₁, hn₁, hres, hlabel, -⟩ := hcovers.exists_live hn
    obtain rfl := Option.some.inj (hn₁.symm.trans hn')
    rw [hres]
    exact (congrArg Label.name hlabel).trans (hplants.name j hj n hn)
  · exact hcovers.uses (hplants.uses_iff.2 hu) (hroot.unpasted hw₄)
  · refine (hsettle.uses_iff h.sound₄ hroot fun j hj => ?_).trans hplants.uses_iff
    obtain ⟨n, _, _, _, hn, -⟩ := hplants.bears.exists_joins hj
    refine ⟨n, hn, fun v hv => ?_⟩
    obtain hleaf | ⟨k, hk, nk, hnk, hres⟩ := hplants.bears.operand_cases hj hn hv
    · exact h.avoids hs hV (havoid v (hplants.leaves ▸ hleaf))
    · intro i ni hi hp hmem
      exact absurd hmem (unpasted_of_plain hw₄ hnk (h.isAlwaysInline_of_mem hs hV hk hnk) hres i ni hi hp)

end Transplants

end Module

/-- What balancing comes to before the operands of the tree are settled. -/
theorem Module.Balances.exists_transplants {m m' : Module} {V : Variadic} {created : List NodeId}
    (h : m.Balances V.id created m') (hV : V.In m) : ∃ tree root m₁ m₂ m₃ mid x,
      m.Transplants m₁ m₂ m₃ mid V tree root created x ∧ SettlesOperands created mid m' := by
  obtain @⟨n, tree, old, root, shape, name, rootNode, m₁, m₂, m₃, mid, hn, htree, hold, htype, hop,
    hanchor, hgrow, -, hs₂, hr, hs₃, -, he, hs₄, hsettle, ⟨htwo, hloc⟩, hroot⟩ := h
  obtain rfl := Option.some.inj (hV.node.symm.trans hn)
  obtain rfl : V.old = old := by simpa [hV.results] using hold
  obtain rfl : shape = V.shape := by
    have htype' := Option.some.inj (htype.symm.trans hV.type)
    cases shape
    simp_all [Variadic.shape]
  obtain ⟨left, right, rfl⟩ := OperandTree.exists_branch_of_balanced? htree
    (Nat.lt_of_succ_lt hV.many)
  obtain ⟨-, x, -, hdef⟩ := hgrow.exists_def_root
  exact ⟨_, root, m₁, m₂, m₃, mid, x, ⟨htree, hgrow, ⟨0, hdef⟩, hroot x 0 hdef, hs₂, hr, hs₃, he, hs₄⟩,
    hsettle⟩

namespace Prep

variable {m : Module} {names : NameTable} {stats : Stats} {V : Variadic}

/-- A tree is made if there is room for its nodes. -/
theorem Ends.createTree {β : Type} {p : Label → Bool} {shape : TreeShape} {tree : OperandTree}
    {na : Node} {f : Nat → ValueId × List NodeId → Prep β} {good : β → State → Prop} {short : Prop}
    (hs : Sound m) (ha : m.live? shape.anchor = some na) (hop : shape.op.regionKinds = [])
    (hleaves : ∀ v ∈ tree.leaves, m.Usable v) (hshort : ¬ m.Fits (tree.leaves.length - 1) → short)
    (hf : ∀ v ids m', Module.Grows shape tree v ids m m' → Sound m' →
      m'.nodes.size = m.nodes.size + ids.length →
      Ends p (fun k => f k (v, ids)) ⟨m', names, stats⟩ good short) :
    Ends p (fun k => createTree shape tree >>= f k) ⟨m, names, stats⟩ good short := by
  induction tree generalizing m f with
  | leaf v =>
    simp only [Prep.createTree, pure_bind]
    exact hf v [] m (.leaf v m) hs rfl
  | branch left right ihl ihr =>
    have hlength : ∀ {tree v ids} {m m' : Module}, Module.Grows shape tree v ids m m' →
        m.live? shape.anchor = some na → ids.length + 1 = tree.leaves.length :=
      fun hgrow ha => (hgrow.bears ha).length
    simp only [OperandTree.leaves, List.length_append] at hleaves hshort
    simp only [Prep.createTree, createTreeNode, bind_assoc, pure_bind]
    refine ihl hs ha (fun v hv => hleaves v (List.mem_append_left _ hv))
      (fun hfits => hshort fun hroom => hfits (hroom.of_le (by omega)))
      fun lhs lefts m₁ hl hs₁ hsize₁ => ?_
    have hl' := hlength hl ha
    have ha₁ := hl.live ha
    refine ihr hs₁ ha₁ (fun v hv => hl.usable (hleaves v (List.mem_append_right _ hv)))
      (fun hfits => hshort fun hroom => hfits (hroom.of_le (by omega)))
      fun rhs rights m₂ hr hs₂ hsize₂ => ?_
    have hr' := hlength hr ha₁
    have husable : ∀ v ∈ [lhs, rhs], m₂.Usable v := fun v hv => by
      obtain rfl | rfl := List.mem_pair.1 hv
      · exact hr.usable (hl.usable_value fun w hw => hleaves w (List.mem_append_left _ hw))
      · exact hr.usable_value fun w hw => hl.usable (hleaves w (List.mem_append_right _ hw))
    refine .create hs₂ (hr.live ha₁) hop husable
      (fun hfits => hshort fun hroom => hfits (hroom.of_le (by omega)))
      fun id value m₃ hc hs₃ hsize₃ => ?_
    refine .setTwoState hs₃ hc.live?_self fun m₄ hm hs₄ hsize₄ => ?_
    refine hf value (lefts ++ rights ++ [id]) m₄
      (.branch hl hr (hr.live ha₁) (by simpa using hc.relabel hm) hs₄) hs₄ ?_
    simp only [List.length_append, List.length_singleton]
    omega

/-- Settling the operands of the tree ends. -/
theorem settleTree_ends {m₁ m₂ m₃ m₄ : Module} {tree : OperandTree} {root : ValueId}
    {created : List NodeId} {x : NodeId} {g : Stats → Stats}
    (h : m.Transplants m₁ m₂ m₃ m₄ V tree root created x) (hs : Sound m) (hV : V.In m)
    (hsingle : m.SinglePasted Label.isAlwaysInline)
    (hshallow : ∀ v ∈ V.node.operands, m.Shallow Label.isAlwaysInline v)
    (hsize : m₄.nodes.size = m.nodes.size + created.length) :
    Ends Label.isAlwaysInline (fun _ => do created.forM inlineOperands; count g; return created.head?)
      ⟨m₄, names, stats⟩ (fun _ _ => True)
      ((∀ j, ¬ Relation.TransGen (m.PastedIn Label.isAlwaysInline) j j) →
        ¬ m.Fits (m.copies Label.isAlwaysInline + V.node.operands.length)) := by
  have hplants := h.plants hs hV
  have hspares := h.spares hs hV
  have hw₄ := h.sound₄.toWellFormed
  have hids : ∀ j ∈ created, m₄.ShallowNode Label.isAlwaysInline j := fun j hj => by
    obtain ⟨n, _, _, _, hn, -⟩ := hplants.bears.exists_joins hj
    refine ⟨n, hn, fun v hv => ?_⟩
    obtain hleaf | ⟨k, hk, nk, hnk, hres⟩ := hplants.bears.operand_cases hj hn hv
    · exact hspares.shallow (hshallow v (hplants.leaves ▸ hleaf))
    · exact (Module.unpasted_of_plain hw₄ hnk (h.isAlwaysInline_of_mem hs hV hk hnk) hres).shallow
  refine .bind ((settleOperands_ends h.sound₄ (hspares.singlePasted hsingle) hids).relax
    fun hcrowds hacyclic => ?_) fun _ _ _ => .count (.pure trivial)
  have hlength := hplants.bears.length
  rw [hplants.leaves] at hlength
  rw [← hlength, ← Nat.add_assoc]
  exact hcrowds.not_fits_of_spares hspares hs h.sound₄ h.kept hsize (fun v => h.length_usesOf hs hV)
    hacyclic

/-- Balancing ends, if what is printed for the operands is finite. There is room if there is room for the
tree and for all copies of what is printed at its uses. -/
theorem balance_ends (hs : Sound m) (hV : V.In m) (hsingle : m.SinglePasted Label.isAlwaysInline)
    (hshallow : ∀ v ∈ V.node.operands, m.Shallow Label.isAlwaysInline v) :
    Ends Label.isAlwaysInline (fun _ => balance V.id) ⟨m, names, stats⟩ (fun _ _ => True)
      ((∀ j, ¬ Relation.TransGen (m.PastedIn Label.isAlwaysInline) j j) →
        ¬ m.Fits (m.copies Label.isAlwaysInline + V.node.operands.length)) := by
  obtain ⟨nd, hnd, -, hcore⟩ := Module.exists_of_live? hV.node
  have hfields : nd.op = V.node.op ∧ nd.operands = V.node.operands ∧ nd.results = V.node.results ∧
      nd.name = V.node.name ∧ nd.twoState = V.node.twoState ∧ nd.loc = V.node.loc := by
    rw [← hcore]
    exact ⟨rfl, rfl, rfl, rfl, rfl, rfl⟩
  obtain ⟨hop, hops, hres, hname, htwo, hloc⟩ := hfields
  have hlen := hV.many
  obtain ⟨tree, htree⟩ := OperandTree.exists_balanced? (k := V.node.operands.length)
    (List.ne_nil_of_length_pos (by omega)) (Nat.le_succ _)
  have hleaves := OperandTree.leaves_balanced? htree
  have hreg : V.node.regions = [] := hs.toNested.regions_of_results hV.node hV.results
  simp only [balance]
  refine .step (fun _ _ => runs_node.2 ⟨hnd, rfl⟩) ?_
  simp only [hops, htree, hop, hname, htwo, hloc]
  refine .query (result_eq_ok_iff.2 ⟨nd, hnd, by rw [hres, hV.results]; rfl⟩) ?_
  refine .query (valueType_eq_ok_iff.2 hV.type) ?_
  refine Ends.createTree hs (show m.live? V.shape.anchor = _ from hV.node) hV.regionKinds
    (fun v hv => hV.usable_operand hs (hleaves ▸ hv))
    (fun hfits _ hroom => hfits (hroom.of_le (by rw [hleaves]; omega)))
    fun root created m₁ hgrow hs₁ hsize₁ => ?_
  obtain ⟨left, right, rfl⟩ := OperandTree.exists_branch_of_balanced? htree (by omega)
  obtain ⟨-, x, hx, hdef⟩ := hgrow.exists_def_root
  obtain ⟨nx, hnx, hopx⟩ := hgrow.live_ids x hx
  refine .query (Module.definingNode?_eq_some_iff.2 ⟨0, hdef⟩) ?_
  refine .setName hs₁ hnx fun m₂ hl hs₂ hsize₂ => ?_
  have hn₂ := hl.live (hgrow.live hV.node)
  have hroot₂ : m₂.Usable root := hl.usable (hgrow.usable_value fun v hv => hV.usable_operand hs
    (hleaves ▸ hv))
  refine .replaceUses hs₂ ((hgrow.kept.trans hl.kept).type? hV.type) hroot₂ fun m₃ hr hs₃ hsize₃ => ?_
  have hne : root ≠ V.old := by
    rintro rfl
    exact (hV.old_lt hs.toWellFormed).not_ge hgrow.exists_def_root.1
  refine .eraseNode hs₃ (hr.live hn₂) hreg (fun v hv => ?_) fun m₄ he hs₄ hsize₄ => ?_
  · obtain rfl : v = V.old := by simpa [hV.results] using hv
    exact hr.unused hne
  have h : m.Transplants m₁ m₂ m₃ m₄ V (.branch left right) root created x :=
    ⟨htree, hgrow, ⟨0, hdef⟩, hl, hs₂, hr, hs₃, he, hs₄⟩
  exact settleTree_ends h hs hV hsingle hshallow
    (hsize₄.trans (hsize₃.trans (hsize₂.trans hsize₁)))

/-- An operator with more than two operands gives way to a balanced tree over them: its root has the name
and the uses of the operator, and is the same word under any assignment. It comes to that if what is
printed for the operands is finite, and there is room for the tree and all copies. -/
theorem balance_exact {s : State} (hs : Sound s.module) (hV : V.In s.module) :
    (∀ {env created s'}, env.oracle = .systemVerilog → (balance V.id).Runs env s created s' →
      ∃ tree root ids mid g o, created = ids.head? ∧ s.module.Plants mid V tree root ids ∧
        mid.Covers Label.isAlwaysInline s'.module g o ∧
        s.module.Balanced s'.module V tree root ids o ∧
        ∀ w, ∃ f unit, V.node.op.monoid? w = some (f, unit) ∧ ∀ σ : ValueId → BitVec w,
          s'.module.Computed f σ ids → (∀ v, σ v = σ (o v)) →
          ∃ v vs, V.node.operands = v :: vs ∧ σ root = vs.foldl (fun a x => f a (σ x)) (σ v)) ∧
    (s.module.SinglePasted Label.isAlwaysInline →
      (∀ v ∈ V.node.operands, s.module.Shallow Label.isAlwaysInline v) →
      ∃ bound, (∃ created s', ∀ env : Env, env.oracle = .systemVerilog → bound ≤ env.fuel →
        (balance V.id).Runs env s created s') ∨
        (((∀ j, ¬ Relation.TransGen (s.module.PastedIn Label.isAlwaysInline) j j) →
            ¬ s.module.Fits (s.module.copies Label.isAlwaysInline + V.node.operands.length)) ∧
          ∀ env : Env, env.oracle = .systemVerilog → bound ≤ env.fuel →
            balance V.id env s = .error .overflow)) := by
  refine ⟨fun ho hrun => ?_, fun hsingle hshallow => ?_⟩
  · have hreg := hs.toNested.regions_of_results hV.node hV.results
    obtain ⟨-, hnone, -⟩ | ⟨ids, hids, hbalances⟩ := balance_runs ho hs hV.node hreg hrun
    · have hlen := hV.many
      obtain ⟨tree, htree⟩ := OperandTree.exists_balanced? (k := V.node.operands.length)
        (List.ne_nil_of_length_pos (by omega)) (Nat.le_succ _)
      rw [hnone] at htree
      cases htree
    · obtain ⟨tree, root, m₁, m₂, m₃, mid, x, h, hsettle⟩ := hbalances.exists_transplants hV
      obtain ⟨g, o, hcovers⟩ := hsettle.exists_covers h.sound₄
      have hbalanced := h.balances hs hV hsettle hcovers
      refine ⟨tree, root, ids, mid, g, o, hids, h.plants hs hV, hcovers, hbalanced, fun w => ?_⟩
      obtain ⟨f, unit, hf⟩ := Op.exists_monoid?_of_isCommutative hV.commutative w
      exact ⟨f, unit, hf, fun σ => hbalanced.eq_foldl hf⟩
  · have hends := @balance_ends s.module s.names s.stats V hs hV hsingle hshallow
    obtain ⟨bound, ⟨created, s', -, hruns⟩ | ⟨hshort, herr⟩⟩ := hends
    · exact ⟨bound, Or.inl ⟨created, s', fun env ho hfuel =>
        hruns env bound (ho ▸ Oracle.classifies_systemVerilog) hfuel le_rfl⟩⟩
    · exact ⟨bound, Or.inr ⟨hshort, fun env ho hfuel =>
        herr env bound (ho ▸ Oracle.classifies_systemVerilog) hfuel le_rfl⟩⟩

end Prep

/-- A port and a read of storage are added, each several times, and the read is used besides. -/
def Module.fivefold : Module :=
  .sketch [.int 8, .storage ⟨0⟩] [(.input, 0), (.output, 0)]
    [(.back ⟨0⟩, .reg, [], [1]), (.back ⟨0⟩, .read, [1], [0]), (.back ⟨0⟩, .add, [0, 2, 0, 2, 0], [0]),
      (.back ⟨0⟩, .xor, [3, 2, 3], [0]), (.back ⟨0⟩, .output, [4], [])]

/-- The sum of five operands. -/
def Variadic.fivefold : Variadic where
  id := ⟨2⟩
  node := .fresh .add [⟨0⟩, ⟨2⟩, ⟨0⟩, ⟨2⟩, ⟨0⟩] [⟨3⟩] ⟨0⟩ .unknown
  old := ⟨3⟩
  type := ⟨0⟩

/-- The sum becomes a tree of four nodes and depth three. -/
theorem balance_exact_fivefold : Sound Module.fivefold ∧ Variadic.fivefold.In .fivefold ∧
    ∃ bound, ∀ fuel, bound ≤ fuel → ∃ created s' tree root ids o,
      (balance ⟨2⟩).Runs ⟨.default, .systemVerilog, "top", fuel⟩
        ⟨.fivefold, Module.sketchNames, .zero⟩ created s' ∧
      Module.fivefold.Balanced s'.module .fivefold tree root ids o ∧ ids.length = 4 ∧ tree.depth = 3 ∧
      (∀ {u}, s'.module.Uses u root ↔ Module.fivefold.Uses u ⟨3⟩) ∧
      ∀ σ : ValueId → BitVec 8, s'.module.Computed (· + ·) σ ids → (∀ v, σ v = σ (o v)) →
        σ root = σ ⟨0⟩ + σ ⟨2⟩ + σ ⟨0⟩ + σ ⟨2⟩ + σ ⟨0⟩ := by
  have hs : Sound Module.fivefold := sound_of_isSound (by decide +kernel)
  have hV : Variadic.fivefold.In .fivefold := by constructor <;> decide +kernel
  have hfits : Module.fivefold.Fits (Module.fivefold.copies Label.isAlwaysInline + 5) := by
    unfold Module.Fits
    decide +kernel
  have hw := hs.toWellFormed
  have hreads : Variadic.fivefold.Reads .fivefold := by
    intro v hv j n hn hop hmem x hx
    obtain ⟨i, hdef⟩ := hw.exists_def hn hmem
    obtain rfl | rfl : v = ⟨0⟩ ∨ v = ⟨2⟩ := by
      simp only [Variadic.fivefold, Node.fresh, List.mem_cons, List.not_mem_nil] at hv
      tauto
    · cases (show Module.fivefold.def? ⟨0⟩ = some (.port 0) by decide +kernel).symm.trans hdef
    · cases (show Module.fivefold.def? ⟨2⟩ = some (.result ⟨1⟩ 0) by decide +kernel).symm.trans hdef
      cases (show Module.fivefold.live? ⟨1⟩ = some (.fresh .read [⟨1⟩] [⟨2⟩] ⟨0⟩ .unknown) by
        decide +kernel).symm.trans hn
      obtain rfl := List.mem_singleton.1 hx
      exact ⟨⟨0⟩, .fresh .reg [] [⟨1⟩] ⟨0⟩ .unknown, by decide +kernel, rfl, List.mem_singleton_self _⟩
  obtain ⟨hsingle, hacyclic⟩ := Module.of_pastesForward (m := Module.fivefold) (by decide +kernel)
  obtain ⟨hexact, hends⟩ := balance_exact (s := ⟨.fivefold, Module.sketchNames, .zero⟩) hs hV
  obtain ⟨bound, ⟨created, s', hruns⟩ | ⟨hcrowded, -⟩⟩ := hends hsingle
    fun v hv => hreads.shallow hw hv
  · refine ⟨hs, hV, bound, fun fuel hfuel => ?_⟩
    have hrun := hruns ⟨.default, .systemVerilog, "top", fuel⟩ rfl hfuel
    obtain ⟨tree, root, ids, mid, g, o, -, -, -, hbalanced, hwords⟩ := hexact rfl hrun
    refine ⟨created, s', tree, root, ids, o, hrun, hbalanced, Nat.succ.inj hbalanced.length,
      hbalanced.depth.trans (by decide +kernel),
      hbalanced.uses_iff fun v hv => hreads.avoids hw hV hv, fun σ hσ ho => ?_⟩
    obtain ⟨f, unit, hf, hfold⟩ := hwords 8
    obtain ⟨rfl, rfl⟩ : (· + ·) = f ∧ 0 = unit := by
      simpa [Variadic.fivefold, Node.fresh, Op.monoid?] using hf
    obtain ⟨v, vs, hops, hroot⟩ := hfold σ hσ ho
    cases hops
    exact hroot
  · exact absurd hfits (hcrowded hacyclic)

end NetPrep
