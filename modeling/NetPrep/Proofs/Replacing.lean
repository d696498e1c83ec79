import Mathlib
import NetPrep.Prepare.Legalize
import NetPrep.Proofs.Reusing

/-!
# Replacing expressions

A variadic operator becomes a tree, the addition of a negative constant a subtraction, and taking a
struct apart a selection of each field: what replaces the node is made before it, takes over its
uses, and the node is erased.
-/

namespace NetPrep

open Prepare Prep

namespace Module

variable {m m' : Module}

/-- The operands of nodes are settled, node by node. -/
inductive SettlesOperands : List NodeId → Module → Module → Prop
  | nil (m : Module) : SettlesOperands [] m m
  | cons {id : NodeId} {n : Node} {ids : List NodeId} {m m₁ m' : Module}
      (hn : m.live? id = some n)
      (h : m.Settles (fun j => IsInline m j ∧
        ∃ v ∈ n.operands, ∃ i, m.def? v = some (.result j i)) m₁)
      (hrest : SettlesOperands ids m₁ m') : SettlesOperands (id :: ids) m m'

theorem SettlesOperands.kept {ids : List NodeId} (h : SettlesOperands ids m m') : m.Kept m' := by
  induction h with
  | nil => exact .refl _
  | cons _ h _ ih => exact h.inlines.kept.trans ih

theorem SettlesOperands.sound {ids : List NodeId} (h : SettlesOperands ids m m') (hs : Sound m) :
    Sound m' := by
  induction h with
  | nil => exact hs
  | cons _ h _ ih => exact ih (h.inlines.sound hs)

theorem SettlesOperands.edits {ids : List NodeId} (h : SettlesOperands ids m m') (hs : Sound m) :
    Edits m m' := by
  induction h with
  | nil => exact .refl hs
  | cons _ h _ ih =>
    have h₁ := h.inlines.edits hs
    exact h₁.trans (ih h₁.sound)

/-- The nodes of a tree are made before its anchor. -/
inductive Grows (shape : TreeShape) : OperandTree → ValueId → List NodeId → Module → Module → Prop
  | leaf (v : ValueId) (m : Module) : Grows shape (.leaf v) v [] m m
  | branch {left right : OperandTree} {lhs rhs value : ValueId} {lefts rights : List NodeId}
      {id : NodeId} {na : Node} {m m₁ m₂ m' : Module} (hleft : Grows shape left lhs lefts m m₁)
      (hright : Grows shape right rhs rights m₁ m₂) (ha : m₂.live? shape.anchor = some na)
      (hc : m₂.Creates m' na.parent (.before shape.anchor) id
        { Node.fresh shape.op [lhs, rhs] [value] na.parent shape.loc with
          twoState := shape.twoState } [shape.type])
      (hs : Sound m') :
      Grows shape (.branch left right) value (lefts ++ rights ++ [id]) m m'

theorem Grows.kept {shape : TreeShape} {tree : OperandTree} {v : ValueId} {ids : List NodeId}
    (h : Grows shape tree v ids m m') : m.Kept m' := by
  induction h with
  | leaf => exact .refl _
  | branch _ _ _ hc _ ih₁ ih₂ => exact (ih₁.trans ih₂).trans hc.kept

theorem Grows.sound {shape : TreeShape} {tree : OperandTree} {v : ValueId} {ids : List NodeId}
    (h : Grows shape tree v ids m m') (hs : Sound m) : Sound m' := by
  cases h with
  | leaf => exact hs
  | branch _ _ _ _ hs => exact hs

theorem Grows.edits {shape : TreeShape} {tree : OperandTree} {v : ValueId} {ids : List NodeId}
    (h : Grows shape tree v ids m m') (hs : Sound m) : Edits m m' := by
  induction h with
  | leaf => exact .refl hs
  | branch _ _ _ hc hs' ih₁ ih₂ =>
    have h₁ := ih₁ hs
    exact (h₁.trans (ih₂ h₁.sound)).trans (hc.edits hs')

/-- A node that is there stays as it is while a tree grows. -/
theorem Grows.live {shape : TreeShape} {tree : OperandTree} {v : ValueId} {ids : List NodeId}
    {j : NodeId} {n : Node} (h : Grows shape tree v ids m m') (hj : m.live? j = some n) :
    m'.live? j = some n := by
  induction h with
  | leaf => exact hj
  | branch _ _ _ hc _ ih₁ ih₂ => exact hc.live (ih₂ (ih₁ hj))

theorem Grows.usable {shape : TreeShape} {tree : OperandTree} {v w : ValueId} {ids : List NodeId}
    (h : Grows shape tree v ids m m') (hw : m.Usable w) : m'.Usable w :=
  hw.mono h.kept fun hj => ⟨_, h.live hj⟩

/-- The value of a tree over usable values is usable. -/
theorem Grows.usable_value {shape : TreeShape} {tree : OperandTree} {v : ValueId}
    {ids : List NodeId} (h : Grows shape tree v ids m m') (hv : ∀ w ∈ tree.leaves, m.Usable w) :
    m'.Usable v := by
  cases h with
  | leaf => exact hv _ (by simp [OperandTree.leaves])
  | branch _ _ _ hc _ => exact hc.usable_result (i := 0) rfl

/-- The nodes of a tree are new. -/
theorem Grows.fresh_ids {shape : TreeShape} {tree : OperandTree} {v : ValueId} {ids : List NodeId}
    (h : Grows shape tree v ids m m') : ∀ j ∈ ids, m.nodes.size ≤ j.index := by
  induction h with
  | leaf => simp
  | branch hleft hright _ hc _ ih₁ ih₂ =>
    intro j hj
    have hsize := hleft.kept.nodes_size
    have hsize' := hright.kept.nodes_size
    simp only [List.append_assoc, List.mem_append, List.mem_singleton] at hj
    rcases hj with hj | hj | rfl
    · exact ih₁ j hj
    · exact hsize.trans (ih₂ j hj)
    · rw [hc.fresh]
      exact hsize.trans hsize'

/-- The nodes of a tree are in the block of its anchor. -/
theorem Grows.parent_ids {shape : TreeShape} {tree : OperandTree} {v : ValueId} {ids : List NodeId}
    {na : Node} (h : Grows shape tree v ids m m') (ha : m.live? shape.anchor = some na) :
    ∀ j ∈ ids, ∃ n, m'.live? j = some n ∧ n.op = shape.op ∧ n.parent = na.parent := by
  induction h with
  | leaf => simp
  | branch hleft hright ha' hc _ ih₁ ih₂ =>
    obtain rfl := Option.some.inj ((hright.live (hleft.live ha)).symm.trans ha')
    intro j hj
    simp only [List.append_assoc, List.mem_append, List.mem_singleton] at hj
    rcases hj with hj | hj | rfl
    · obtain ⟨n, hn, hop⟩ := ih₁ ha j hj
      exact ⟨n, hc.live (hright.live hn), hop⟩
    · obtain ⟨n, hn, hop⟩ := ih₂ (hleft.live ha) j hj
      exact ⟨n, hc.live hn, hop⟩
    · exact ⟨_, hc.live?_self, rfl, rfl⟩

/-- The nodes of a tree are there once it has grown. -/
theorem Grows.live_ids {shape : TreeShape} {tree : OperandTree} {v : ValueId} {ids : List NodeId}
    (h : Grows shape tree v ids m m') : ∀ j ∈ ids, ∃ n, m'.live? j = some n ∧ n.op = shape.op := by
  induction h with
  | leaf => simp
  | branch _ hright _ hc _ ih₁ ih₂ =>
    intro j hj
    simp only [List.append_assoc, List.mem_append, List.mem_singleton] at hj
    rcases hj with hj | hj | rfl
    · obtain ⟨n, hn, hop⟩ := ih₁ j hj
      exact ⟨n, hc.live (hright.live hn), hop⟩
    · obtain ⟨n, hn, hop⟩ := ih₂ j hj
      exact ⟨n, hc.live hn, hop⟩
    · exact ⟨_, hc.live?_self, rfl⟩

end Module

/-- The leaves of a balanced tree are its operands. -/
theorem OperandTree.leaves_balanced? {depth : Nat} {vs : List ValueId} {tree : OperandTree}
    (h : balanced? depth vs = some tree) : tree.leaves = vs := by
  induction depth generalizing vs tree with
  | zero =>
    match vs, h with
    | [v], h =>
      cases h
      rfl
  | succ depth ih =>
    match vs, h with
    | [v], h =>
      cases h
      rfl
    | v :: w :: vs, h =>
      simp only [balanced?, Option.bind_eq_bind, Option.bind_eq_some_iff] at h
      obtain ⟨left, hleft, right, hright, htree⟩ := h
      cases htree
      rw [leaves, ih hleft, ih hright, List.take_append_drop]

/-- A balanced tree over more than one operand has a branch. -/
theorem OperandTree.exists_branch_of_balanced? {depth : Nat} {vs : List ValueId}
    {tree : OperandTree} (h : balanced? depth vs = some tree) (hvs : 1 < vs.length) :
    ∃ left right, tree = .branch left right := by
  match depth, vs, h, hvs with
  | 0, v :: w :: vs, h, _ => cases h
  | depth + 1, v :: w :: vs, h, _ =>
    simp only [balanced?, Option.bind_eq_bind, Option.bind_eq_some_iff] at h
    obtain ⟨left, -, right, -, htree⟩ := h
    cases htree
    exact ⟨left, right, rfl⟩

namespace Prep

variable {env : Env} {s s' : State} {id : NodeId} {n : Node}

theorem createTree_runs {shape : TreeShape} {tree : OperandTree} {root : ValueId}
    {created : List NodeId} {na : Node} (hs : Sound s.module)
    (ha : s.module.live? shape.anchor = some na) (hop : shape.op.regionKinds = [])
    (hleaves : ∀ v ∈ tree.leaves, s.module.Usable v)
    (h : (createTree shape tree).Runs env s (root, created) s') :
    Module.Grows shape tree root created s.module s'.module := by
  induction tree generalizing s s' root created with
  | leaf v =>
    simp only [createTree, runs_pure, Prod.mk.injEq] at h
    obtain ⟨⟨rfl, rfl⟩, rfl⟩ := h
    exact .leaf _ _
  | branch left right ihl ihr =>
    simp only [createTree, createTreeNode, runs_bind, runs_edit, runs_pure, Prod.mk.injEq] at h
    obtain ⟨⟨lhs, lefts⟩, s₁, hl, ⟨rhs, rights⟩, s₂, hr, ⟨id, value⟩, _, ⟨⟨id', value'⟩, s₃, hc, _, _,
      ⟨m₄, htwo, rfl⟩, ⟨rfl, rfl⟩, rfl⟩, ⟨rfl, rfl⟩, rfl⟩ := h
    have hleft := ihl hs ha (fun v hv => hleaves v (by simp [OperandTree.leaves, hv])) hl
    have hs₁ := hleft.sound hs
    have hright := ihr hs₁ (hleft.live ha)
      (fun v hv => hleft.usable (hleaves v (by simp [OperandTree.leaves, hv]))) hr
    have hs₂ := hright.sound hs₁
    have ha₂ := hright.live (hleft.live ha)
    have hlhs := hright.usable (hleft.usable_value fun v hv =>
      hleaves v (by simp [OperandTree.leaves, hv]))
    have hrhs := hright.usable_value fun v hv =>
      hleft.usable (hleaves v (by simp [OperandTree.leaves, hv]))
    obtain ⟨hc₃, hs₃⟩ := create_runs hs₂ (hs₂.in_before ha₂) (hs₂.placed ha₂) hop
      (by simpa using ⟨hlhs, hrhs⟩) hc
    obtain ⟨hl₄, hs₄⟩ := hs₃.setTwoState htwo
    exact .branch hleft hright ha₂ (hc₃.relabel hl₄) hs₄

theorem settlesOperands_runs (ho : env.oracle = .systemVerilog) {ids : List NodeId} {r : Unit}
    (hs : Sound s.module) (hids : ∀ j ∈ ids, ∃ n, s.module.live? j = some n)
    (h : (ids.forM inlineOperands).Runs env s r s') :
    Module.SettlesOperands ids s.module s'.module := by
  induction ids generalizing s with
  | nil =>
    obtain rfl := runs_forM_nil.1 h
    exact .nil _
  | cons id ids ih =>
    obtain ⟨s₁, h₁, h₂⟩ := runs_forM_cons.1 h
    obtain ⟨n, hn⟩ := hids id (by simp)
    have hsettles := inlineOperands_runs ho hs hn h₁
    have hinline := hsettles.inlines
    refine .cons hn hsettles (ih (hinline.sound hs) (fun j hj => ?_) h₂)
    obtain ⟨nj, hnj⟩ := hids j (List.mem_cons_of_mem _ hj)
    obtain ⟨nj', hnj', -⟩ := hinline.live hnj
    exact ⟨nj', hnj'⟩

end Prep

namespace Module

/-- A variadic operator becomes a tree. -/
inductive Balances (id : NodeId) (created : List NodeId) (m m' : Module) : Prop
  | mk {n : Node} {tree : OperandTree} {old root : ValueId} {shape : TreeShape}
      {name : Option Name} {rootNode : NodeId} {m₁ m₂ m₃ m₄ : Module} (hn : m.live? id = some n)
      (htree : OperandTree.balanced? n.operands.length n.operands = some tree)
      (hold : n.results[0]? = some old) (htype : m.type? old = some shape.type)
      (hop : shape.op = n.op) (hanchor : shape.anchor = id)
      (hgrow : Grows shape tree root created m m₁)
      (hname : m₁ = m₂ ∨ m₁.Relabels m₂ rootNode (fun _ => name) (fun t => t)) (hs₂ : Sound m₂)
      (hr : m₂.Redirects m₃ (substitute old root)) (hs₃ : Sound m₃)
      (hunused : ∀ u, ∀ v ∈ n.results, ¬ m₃.Uses u v) (he : m₃.Erases m₄ id) (hs₄ : Sound m₄)
      (hsettle : SettlesOperands created m₄ m')
      (hshape : shape.twoState = n.twoState ∧ shape.loc = n.loc)
      (hroot : ∀ j i, m₁.def? root = some (.result j i) →
        m₁.Relabels m₂ j (fun _ => n.name) (fun t => t))

/-- The addition of a negative constant becomes a subtraction. -/
inductive Subtracts (id constant : NodeId) (value : Int) (positive : NodeId) (m m' : Module) : Prop
  | mk {n nc : Node} {lhs rhs old positiveValue difference : ValueId} {type : TypeId} {sub : NodeId}
      {m₁ m₂ m₃ m₄ m₅ : Module} (hn : m.live? id = some n) (hop : n.op = .add)
      (hops : n.operands = [lhs, rhs]) (hrhs : ∃ i, m.def? rhs = some (.result constant i))
      (hc : m.live? constant = some nc) (hcop : nc.op = .constant value) (hneg : value < 0)
      (hold : n.results[0]? = some old) (htype : m.type? old = some type) {width : Nat}
      (hwidth : ∃ w, m.types.bitWidth type = .ok w ∧ w.getD 64 = width)
      (hpos : m.Creates m₁ n.parent (.before id) positive
        (.fresh (.constant (negatedConstant value width)) [] [positiveValue] n.parent n.loc) [type])
      (hs₁ : Sound m₁)
      (hsub : m₁.Creates m₂ n.parent (.before id) sub
        { Node.fresh .sub [lhs, positiveValue] [difference] n.parent n.loc with
          name := n.name, twoState := n.twoState } [type])
      (hs₂ : Sound m₂) (hr : m₂.Redirects m₃ (substitute old difference)) (hs₃ : Sound m₃)
      (hunused : ∀ u, ∀ v ∈ n.results, ¬ m₃.Uses u v) (he : m₃.Erases m₄ id) (hs₄ : Sound m₄)
      (hconst : (m₄ = m₅ ∧ ∃ u, ∃ v ∈ nc.results, m₄.Uses u v) ∨
        ((∀ u, ∀ v ∈ nc.results, ¬ m₄.Uses u v) ∧ m₄.Erases m₅ constant))
      (hs₅ : Sound m₅) (hsettle : SettlesOperands [sub] m₅ m')

/-- Selections of fields are made before a node, and take over the uses of its results. -/
inductive Extracts (id : NodeId) (input : ValueId) (loc : Loc) :
    List (ValueId × Name) → List NodeId → Module → Module → Prop
  | nil (m : Module) : Extracts id input loc [] [] m m
  | cons {result value : ValueId} {field : Name} {rest : List (ValueId × Name)} {extract : NodeId}
      {ids : List NodeId} {na : Node} {type : TypeId} {m m₁ m₂ m' : Module}
      (ha : m.live? id = some na) (htype : m.type? result = some type)
      (hc : m.Creates m₁ na.parent (.before id) extract
        (.fresh (.structExtract field) [input] [value] na.parent loc) [type])
      (hs₁ : Sound m₁) (hr : m₁.Redirects m₂ (substitute result value)) (hs₂ : Sound m₂)
      (hrest : Extracts id input loc rest ids m₂ m') :
      Extracts id input loc ((result, field) :: rest) (extract :: ids) m m'

/-- Taking a struct apart becomes a selection of each field. -/
inductive Explodes (id : NodeId) (created : List NodeId) (m m' : Module) : Prop
  | mk {n : Node} {input : ValueId} {inputs : List ValueId} {type : TypeId}
      {fields : List (Name × TypeId)} {m₁ m₂ : Module} (hn : m.live? id = some n)
      (hops : n.operands = input :: inputs) (htype : m.type? input = some type)
      (hfields : m.types.fields type = .ok fields)
      (hextract : Extracts id input n.loc (n.results.zip (fields.map (·.1))) created m m₁)
      (hunused : ∀ u, ∀ v ∈ n.results, ¬ m₁.Uses u v) (he : m₁.Erases m₂ id) (hs₂ : Sound m₂)
      (hsettle : SettlesOperands created m₂ m')

end Module

namespace Prep

variable {env : Env} {s s' : State} {id : NodeId} {n : Node}

/-- The root of a tree takes the place of a value, whose node goes, and the operands of the nodes of
the tree are settled. -/
theorem plantTree_runs (ho : env.oracle = .systemVerilog) {ids : List NodeId}
    {created : Option NodeId} {old root : ValueId} (hs : Sound s.module)
    (hroot : s.module.Usable root) (hn : s.module.live? id = some n) (hreg : n.regions = [])
    (hids : ∀ j ∈ ids, j ≠ id ∧ ∃ n, s.module.live? j = some n)
    (h : (do
      edit (·.replaceUses old root)
      edit (·.eraseNode id)
      ids.forM inlineOperands
      count fun s => { s with balanced := s.balanced + 1 }
      return ids.head? : Prep (Option NodeId)).Runs env s created s') :
    created = ids.head? ∧ ∃ m₁ m₂, s.module.Redirects m₁ (substitute old root) ∧ Sound m₁ ∧
      (∀ u, ∀ v ∈ n.results, ¬ m₁.Uses u v) ∧ m₁.Erases m₂ id ∧ Sound m₂ ∧
      Module.SettlesOperands ids m₂ s'.module := by
  simp only [runs_bind, runs_edit, runs_count, runs_pure] at h
  obtain ⟨_, _, ⟨m₁, hm₁, rfl⟩, _, _, ⟨m₂, hm₂, rfl⟩, _, s₃, hsettle, _, _, rfl, rfl, rfl⟩ := h
  obtain ⟨hred, hs₁⟩ := hs.replaceUses hroot hm₁
  obtain ⟨hunused, he, hs₂⟩ := hs₁.eraseNode (hred.live hn) hreg hm₂
  have hids₂ : ∀ j ∈ ids, ∃ n, m₂.live? j = some n := fun j hj => by
    obtain ⟨hne, nj, hnj⟩ := hids j hj
    exact ⟨_, he.live (hred.live hnj) hne⟩
  exact ⟨rfl, m₁, m₂, hred, hs₁, hunused, he, hs₂, settlesOperands_runs ho hs₂ hids₂ hsettle⟩

theorem balance_runs (ho : env.oracle = .systemVerilog) {created : Option NodeId}
    (hs : Sound s.module) (hn : s.module.live? id = some n) (hr : n.regions = [])
    (h : (balance id).Runs env s created s') :
    (created = none ∧ OperandTree.balanced? n.operands.length n.operands = none ∧ s = s') ∨
    ∃ ids, created = ids.head? ∧ s.module.Balances id ids s'.module := by
  obtain ⟨nd, hnd, -, rfl⟩ := Module.exists_of_live? hn
  simp only [balance, runs_bind, runs_node] at h
  obtain ⟨nd', _, ⟨hnd', rfl⟩, h⟩ := h
  obtain rfl : nd = nd' := by simpa using hnd.symm.trans hnd'
  split at h
  · next htree =>
    obtain ⟨rfl, rfl⟩ := runs_pure.1 h
    exact Or.inl ⟨rfl, htree, rfl⟩
  · next tree htree =>
    simp only [runs_bind, runs_query, valueType_eq_ok_iff] at h
    obtain ⟨old, _, ⟨hold, rfl⟩, type, _, ⟨htype, rfl⟩, ⟨root, ids⟩, s₁, htreeRuns, rootNode, _,
      ⟨hroot, rfl⟩, h⟩ := h
    have hold' : nd.results[0]? = some old := by
      obtain ⟨nd', hnd', hv⟩ := result_eq_ok_iff.1 hold
      obtain rfl : nd = nd' := by simpa using hnd.symm.trans hnd'
      exact hv
    have hop : nd.op.regionKinds = [] := hs.toNested.regionKinds_eq_nil (n := nd.core) hn hr
    have hleaves : ∀ v ∈ tree.leaves, s.module.Usable v := by
      intro v hv
      rw [OperandTree.leaves_balanced? htree] at hv
      obtain ⟨i, huse⟩ := Module.exists_uses_of_mem hn hv
      exact hs.usable huse
    have hgrow : Module.Grows ⟨nd.op, type, nd.twoState, id, nd.loc⟩ tree root ids s.module s₁.module :=
      createTree_runs hs hn hop hleaves htreeRuns
    have hs₁ := hgrow.sound hs
    have hids : ∀ j ∈ ids, j ≠ id ∧ ∃ n, s₁.module.live? j = some n := fun j hj => by
      refine ⟨?_, (hgrow.live_ids j hj).imp fun _ hn => hn.1⟩
      rintro rfl
      exact absurd (Module.lt_of_live? hn) (Nat.not_lt.2 (hgrow.fresh_ids _ hj))
    have hroot₁ : s₁.module.Usable root := hgrow.usable_value hleaves
    refine Or.inr ⟨ids, ?_⟩
    cases rootNode with
    | none =>
      obtain ⟨rfl, m₃, m₄, hred, hs₃, hunused, he, hs₄, hall⟩ :=
        plantTree_runs ho hs₁ hroot₁ (hgrow.live hn) hr hids h
      refine ⟨rfl, @Module.Balances.mk _ _ _ _ _ _ _ _ _ none id _ _ _ _ hn htree hold' htype rfl rfl hgrow
        (Or.inl rfl) hs₁ hred hs₃ hunused he hs₄ hall ⟨rfl, rfl⟩ fun j i hdef => ?_⟩
      obtain ⟨k, hport⟩ := Module.definingNode?_eq_none_iff.1 hroot
      rw [hport] at hdef
      cases hdef
    | some rootNode =>
      rw [runs_bind] at h
      obtain ⟨_, s₂, hset, h⟩ := h
      obtain ⟨m₂, hm₂, rfl⟩ := runs_edit.1 hset
      obtain ⟨hl, hs₂⟩ := hs₁.setName hm₂
      obtain ⟨rfl, m₃, m₄, hred, hs₃, hunused, he, hs₄, hall⟩ :=
        plantTree_runs ho hs₂ (hl.usable hroot₁) (hl.live (hgrow.live hn)) (by exact hr)
          (fun j hj => (hids j hj).imp_right fun hlive => hlive.elim fun _ hnj => ⟨_, hl.live hnj⟩) h
      obtain ⟨k, hdef₀⟩ := Module.definingNode?_eq_some_iff.1 hroot
      refine ⟨rfl, .mk hn htree hold' htype rfl rfl hgrow (Or.inr hl) hs₂ hred hs₃ hunused he hs₄
        hall ⟨rfl, rfl⟩ fun j i hdef => ?_⟩
      rw [hdef₀] at hdef
      cases hdef
      exact hl

/-- The negative constant that is found defines the right operand of an addition. -/
theorem negativeConstant?_eq_some {m : Module} {constant : NodeId} {value : Int}
    (h : negativeConstant? m id = .ok (some (constant, value))) :
    ∃ nd lhs rhs nc, m.node? id = some nd ∧ nd.op = .add ∧ nd.operands = [lhs, rhs] ∧
      (∃ i, m.def? rhs = some (.result constant i)) ∧ m.node? constant = some nc ∧
      nc.op = .constant value ∧ value < 0 := by
  simp only [negativeConstant?, bind_eq_ok_iff, Module.node_eq_ok_iff] at h
  obtain ⟨nd, hnd, h⟩ := h
  split at h
  · next lhs rhs hop hops =>
    obtain ⟨d, hd, h⟩ := bind_eq_ok_iff.1 h
    cases d with
    | none => cases h
    | some c =>
      simp only [bind_eq_ok_iff, Module.node_eq_ok_iff] at h
      obtain ⟨nc, hnc, h⟩ := h
      split at h
      · next value' hcop =>
        split at h
        · next hneg =>
          cases h
          exact ⟨nd, lhs, rhs, nc, hnd, hop, hops, Module.definingNode?_eq_some_iff.1 hd, hnc, hcop,
            hneg⟩
        · cases h
      · cases h
  · cases h

theorem subtractInstead_runs (ho : env.oracle = .systemVerilog) {constant positive : NodeId}
    {value : Int} (hs : Sound s.module) (hn : s.module.live? id = some n)
    (hneg : negativeConstant? s.module id = .ok (some (constant, value)))
    (h : (subtractInstead id constant value).Runs env s positive s') :
    s.module.Subtracts id constant value positive s'.module := by
  obtain ⟨nd, lhs, rhs, nc, hnd, hop, hops, hrhs, hnc, hcop, hvalue⟩ := negativeConstant?_eq_some hneg
  obtain ⟨nd', hnd', -, rfl⟩ := Module.exists_of_live? hn
  obtain rfl : nd = nd' := by simpa using hnd.symm.trans hnd'
  have huse : s.module.Uses ⟨id, 1⟩ rhs := ⟨_, hn, by simp [Node.core, hops]⟩
  have huse₀ : s.module.Uses ⟨id, 0⟩ lhs := ⟨_, hn, by simp [Node.core, hops]⟩
  -- The constant is used, so it is not erased.
  have hlive : s.module.live? constant = some nc.core := by
    obtain ⟨i, hi⟩ := hrhs
    obtain ⟨d, hd, hdlive⟩ := hs.operand huse
    rw [hi] at hd
    cases hd
    obtain ⟨nc', hnc'⟩ := hdlive rfl
    obtain ⟨x, hx, -, rfl⟩ := Module.exists_of_live? hnc'
    obtain rfl : nc = x := by simpa using hnc.symm.trans hx
    exact hnc'
  simp only [subtractInstead, runs_bind, runs_node, runs_query, runs_edit, valueType_eq_ok_iff] at h
  obtain ⟨nd', _, ⟨hnd', rfl⟩, lhs', _, ⟨hlhs, rfl⟩, old, _, ⟨hold, rfl⟩, type, _, ⟨htype, rfl⟩, w, _,
    ⟨hw, rfl⟩, ⟨positive', positiveValue⟩, s₁, h₁, ⟨sub, difference⟩, s₂, h₂, _, _, ⟨m₃, h₃, rfl⟩, _,
    _, ⟨m₄, h₄, rfl⟩, _, _, ⟨m₅, h₅, rfl⟩, _, _, ⟨m₆, h₆, rfl⟩, unused, _, ⟨hunused, rfl⟩, h⟩ := h
  obtain rfl : nd = nd' := by simpa using hnd.symm.trans hnd'
  obtain rfl : lhs = lhs' := by
    obtain ⟨x, hx, hv⟩ := operand_eq_ok_iff.1 hlhs
    obtain rfl : nd = x := by simpa using hnd.symm.trans hx
    simpa [hops] using hv
  have hold' : nd.results[0]? = some old := by
    obtain ⟨x, hx, hv⟩ := result_eq_ok_iff.1 hold
    obtain rfl : nd = x := by simpa using hnd.symm.trans hx
    exact hv
  have hkinds : nd.op.regionKinds = [] := by rw [hop]; rfl
  have hregions : nd.regions = [] := hs.toNested.regions_eq_nil (n := nd.core) hn hkinds
  obtain ⟨hc₁, hs₁⟩ := create_runs hs (hs.in_before hn) (hs.placed hn) rfl (by simp) h₁
  have hn₁ := hc₁.live hn
  obtain ⟨hc₂, hs₂⟩ := create_runs hs₁ (hs₁.in_before hn₁) (hs₁.placed hn₁) rfl
    (by simpa using ⟨hc₁.usable (hs.usable huse₀), hc₁.usable_result (i := 0) rfl⟩) h₂
  obtain ⟨hl₃, hs₃⟩ := hs₂.setTwoState h₃
  obtain ⟨hl₄, hs₄⟩ := hs₃.setName h₄
  have hc₄ := (hc₂.relabel hl₃).relabel hl₄
  obtain ⟨hr, hs₅⟩ := hs₄.replaceUses (hc₄.usable_result (i := 0) rfl) h₅
  have hn₅ := hr.live (hc₄.live hn₁)
  obtain ⟨hnone, he, hs₆⟩ := hs₅.eraseNode hn₅ hregions h₆
  have hne : constant ≠ id := by
    rintro rfl
    obtain rfl : nd = nc := by simpa using hnd.symm.trans hnc
    rw [hop] at hcop
    cases hcop
  have hnc₆ := he.live (hr.live (hc₄.live (hc₁.live hlive))) hne
  have hsub₆ := he.live (hr.live hc₄.live?_self) (hc₄.ne hn₁).symm
  have hrest : ∀ {m₇ : Module} {t : State}, ((m₆ = m₇ ∧ ∃ u, ∃ v ∈ nc.results, m₆.Uses u v) ∨
      (∀ u, ∀ v ∈ nc.results, ¬ m₆.Uses u v) ∧ m₆.Erases m₇ constant) → Sound m₇ → (∃ n, m₇.live? sub = some n) → t.module = m₇ →
      (do inlineOperands sub
          return positive' : Prep NodeId).Runs env t positive s' →
      s.module.Subtracts id constant value positive s'.module := by
    rintro m₇ t hconst hs₇ hsub₇ rfl h
    simp only [runs_bind, runs_pure] at h
    obtain ⟨_, s₈, hsettle, rfl, rfl⟩ := h
    have hall : t.module.SettlesOperands [sub] s₈.module :=
      settlesOperands_runs (r := ()) ho hs₇ (by simpa using hsub₇)
        (runs_forM_cons.2 ⟨s₈, hsettle, runs_forM_nil.2 rfl⟩)
    exact .mk hn hop hops hrhs hlive hcop hvalue hold' htype ⟨w, hw, rfl⟩ hc₁ hs₁ hc₄ hs₄ hr hs₅
      hnone he hs₆ hconst hs₇ hall
  cases unused with
  | false =>
    simp only [Bool.false_eq_true, if_false] at h
    have hused := hs₆.toWellFormed.exists_uses_of_isUnused (Module.core_of_live? hnc₆) hunused
    exact hrest (Or.inl ⟨rfl, hused⟩) hs₆ ⟨_, hsub₆⟩ rfl h
  | true =>
    simp only [if_true, runs_bind, runs_edit] at h
    obtain ⟨_, _, ⟨m₇, h₇, rfl⟩, h⟩ := h
    have hckinds : nc.op.regionKinds = [] := by rw [hcop]; rfl
    have hcregions : nc.regions = [] := hs.toNested.regions_eq_nil (n := nc.core) hlive hckinds
    obtain ⟨hnone', he', hs₇⟩ := hs₆.eraseNode hnc₆ hcregions h₇
    have hne' : sub ≠ constant := (hc₄.ne (hc₁.live hlive)).symm
    exact hrest (Or.inr ⟨hnone', he'⟩) hs₇ ⟨_, he'.live hsub₆ hne'⟩ rfl (by
      simpa only [runs_bind, runs_pure] using h)

theorem extractFields_runs {input : ValueId} {loc : Loc} {fields : List (ValueId × Name)}
    {created : List NodeId} (hs : Sound s.module) (hn : s.module.live? id = some n)
    (hinput : s.module.Usable input)
    (h : (extractFields id input loc fields).Runs env s created s') :
    s.module.Extracts id input loc fields created s'.module := by
  induction fields generalizing s n created with
  | nil =>
    obtain ⟨rfl, rfl⟩ := runs_pure.1 h
    exact .nil _
  | cons field rest ih =>
    obtain ⟨result, field⟩ := field
    simp only [extractFields, runs_bind, runs_query, runs_edit, runs_pure, valueType_eq_ok_iff] at h
    obtain ⟨type, _, ⟨htype, rfl⟩, ⟨extract, value⟩, s₁, h₁, _, _, ⟨m₂, h₂, rfl⟩, ids, s₃, h₃, rfl,
      rfl⟩ := h
    obtain ⟨hc, hs₁⟩ := create_runs hs (hs.in_before hn) (hs.placed hn) rfl
      (by simpa using hinput) h₁
    obtain ⟨hr, hs₂⟩ := hs₁.replaceUses (hc.usable_result (i := 0) rfl) h₂
    have hrest := ih (s := { s₁ with module := m₂ }) hs₂ (hr.live (hc.live hn))
      (hr.usable (hc.usable hinput)) h₃
    exact .cons hn htype hc hs₁ hr hs₂ hrest

end Prep

namespace Module

variable {m m' : Module} {id : NodeId} {input : ValueId} {loc : Loc}
  {fields : List (ValueId × Name)} {created : List NodeId}

theorem Extracts.kept (h : Extracts id input loc fields created m m') : m.Kept m' := by
  induction h with
  | nil => exact .refl _
  | cons _ _ hc _ hr _ _ ih => exact (hc.kept.trans hr.kept).trans ih

theorem Extracts.sound (h : Extracts id input loc fields created m m') (hs : Sound m) :
    Sound m' := by
  induction h with
  | nil => exact hs
  | cons _ _ _ _ _ hs₂ _ ih => exact ih hs₂

theorem Extracts.edits (h : Extracts id input loc fields created m m') (hs : Sound m) :
    Edits m m' := by
  induction h with
  | nil => exact .refl hs
  | cons _ _ hc hs₁ hr hs₂ _ ih => exact ((hc.edits hs₁).trans (hr.edits hs₂)).trans (ih hs₂)

/-- A node that is there changes its operands at most. -/
theorem Extracts.live {j : NodeId} {n : Node} (h : Extracts id input loc fields created m m')
    (hj : m.live? j = some n) : ∃ ops, m'.live? j = some { n with operands := ops } := by
  induction h generalizing n with
  | nil => exact ⟨_, hj⟩
  | cons _ _ hc _ hr _ _ ih =>
    have hrest := ih (hr.live (hc.live hj))
    exact hrest

/-- The selections are new nodes. -/
theorem Extracts.fresh_ids {j : NodeId} (h : Extracts id input loc fields created m m')
    (hj : j ∈ created) : m.nodes.size ≤ j.index ∧ ∃ n, m'.live? j = some n := by
  induction h with
  | nil => cases hj
  | cons _ _ hc _ hr _ hrest ih =>
    rcases List.mem_cons.1 hj with rfl | hj
    · obtain ⟨ops, hlive⟩ := hrest.live (hr.live hc.live?_self)
      exact ⟨by rw [hc.fresh], _, hlive⟩
    · obtain ⟨hsize, hlive⟩ := ih hj
      exact ⟨(hc.kept.nodes_size.trans hr.kept.nodes_size).trans hsize, hlive⟩

/-! ## The place of a node that is replaced -/

theorem SettlesOperands.live {j : NodeId} {n : Node} {ids : List NodeId}
    (h : SettlesOperands ids m m') (hj : m.live? j = some n) :
    ∃ n', m'.live? j = some n' ∧ n'.op = n.op ∧
      (n.op.isAlwaysInline = false → n'.parent = n.parent) := by
  induction h generalizing n with
  | nil => exact ⟨n, hj, rfl, fun _ => rfl⟩
  | cons _ h _ ih =>
    obtain ⟨n₁, hj₁, hop₁, -, hp₁⟩ := h.inlines.live hj
    obtain ⟨n₂, hj₂, hop₂, hp₂⟩ := ih hj₁
    exact ⟨n₂, hj₂, hop₂.trans hop₁, fun hop => (hp₂ (hop₁ ▸ hop)).trans (hp₁ hop)⟩

/-- Naming a node, if it is named at all, changes nothing else. -/
theorem live_of_named {x j : NodeId} {n : Node} {name : Option Name}
    (h : m = m' ∨ m.Relabels m' x (fun _ => name) (fun t => t)) (hj : m.live? j = some n) :
    ∃ n', m'.live? j = some n' ∧ n'.op = n.op ∧ n'.operands = n.operands ∧
      n'.results = n.results ∧ n'.parent = n.parent := by
  obtain rfl | hl := h
  · exact ⟨n, hj, rfl, rfl, rfl, rfl⟩
  · exact ⟨_, hl.live hj, rfl, rfl, rfl, rfl⟩

theorem Balances.ne_nil (h : m.Balances id created m') {n : Node} (hn : m.live? id = some n)
    (hlen : 1 < n.operands.length) : created ≠ [] := by
  obtain ⟨hn', htree, -, -, -, -, hgrow, -⟩ := h
  obtain rfl := Option.some.inj (hn.symm.trans hn')
  obtain ⟨left, right, rfl⟩ := OperandTree.exists_branch_of_balanced? htree hlen
  cases hgrow
  simp

/-- What takes the place of a variadic operator is in its block. -/
theorem Balances.edits (h : m.Balances id created m') (hs : Sound m) {n : Node}
    (hn : m.live? id = some n) (hop : n.op.isCommutative = true) :
    Edits m m' ∧ ∀ j ∈ created, ∃ n', m'.live? j = some n' ∧ n'.parent = n.parent := by
  obtain @⟨n', tree, old, root, shape, name, rootNode, m₁, m₂, m₃, m₄, hn', -, -, -, hshape, rfl, hgrow,
    hname, hs₂, hr, hs₃, -, he, hs₄, hsettle⟩ := h
  obtain rfl := Option.some.inj (hn.symm.trans hn')
  have h₁ := hgrow.edits hs
  have h₂ : Edits m₁ m₂ := by
    obtain rfl | hl := hname
    · exact .refl h₁.sound
    · exact hl.edits hs₂
  obtain ⟨n₂, hn₂, hop₂, -⟩ := live_of_named hname (hgrow.live hn)
  have hkinds : n₂.op.regionKinds = [] := by
    rw [hop₂]
    cases hop' : n.op <;> rw [hop'] at hop <;> first | rfl | cases hop
  refine ⟨(((h₁.trans h₂).trans (hr.edits hs₃)).trans (he.edits hs₃ hs₄ (hr.live hn₂) hkinds)).trans
    (hsettle.edits hs₄), fun j hj => ?_⟩
  obtain ⟨nj, hnj, hopj, hpj⟩ := hgrow.parent_ids hn j hj
  obtain ⟨nj₂, hnj₂, hopj₂, -, -, hpj₂⟩ := live_of_named hname hnj
  have hne : j ≠ shape.anchor := by
    rintro rfl
    exact absurd (lt_of_live? hn) (Nat.not_lt.2 (hgrow.fresh_ids _ hj))
  obtain ⟨nj', hnj', -, hpj'⟩ := hsettle.live (he.live (hr.live hnj₂) hne)
  refine ⟨nj', hnj', (hpj' ?_).trans (hpj₂.trans hpj)⟩
  show nj₂.op.isAlwaysInline = false
  rw [hopj₂, hopj, hshape]
  exact Op.isAlwaysInline_of_isCommutative hop

theorem Subtracts.edits {constant positive : NodeId} {value : Int}
    (h : m.Subtracts id constant value positive m') {n : Node} (hn : m.live? id = some n) :
    Edits m m' ∧ ∃ n', m'.live? positive = some n' ∧ n'.parent = n.parent := by
  obtain @⟨n', nc, _, _, _, _, _, _, sub, m₁, m₂, m₃, m₄, m₅, hn', hop, -, -, hc, hcop, hneg, -, -, _, -,
    hpos, hs₁, hsub, hs₂, hr, hs₃, -, he, hs₄, hconst, hs₅, hsettle⟩ := h
  obtain rfl := Option.some.inj (hn.symm.trans hn')
  have hne : constant ≠ id := by
    rintro rfl
    obtain rfl := Option.some.inj (hn.symm.trans hc)
    rw [hop] at hcop
    cases hcop
  have h₄ := (((hpos.edits hs₁).trans (hsub.edits hs₂)).trans (hr.edits hs₃)).trans
    (he.edits hs₃ hs₄ (hr.live (hsub.live (hpos.live hn))) (by simp [hop, Op.regionKinds]))
  have hc₄ := he.live (hr.live (hsub.live (hpos.live hc))) hne
  have hpos₄ := he.live (hr.live (hsub.live hpos.live?_self)) (hpos.ne hn).symm
  have h₅ : Edits m₄ m₅ ∧ ∃ np, m₅.live? positive = some np ∧ np.parent = n.parent ∧
      np.op.isAlwaysInline = false := by
    obtain ⟨rfl, -⟩ | ⟨-, he'⟩ := hconst
    · exact ⟨.refl hs₄, _, hpos₄, rfl, rfl⟩
    · exact ⟨he'.edits hs₄ hs₅ hc₄ (by simp [hcop, Op.regionKinds]), _,
        he'.live hpos₄ (hpos.ne hc).symm, rfl, rfl⟩
  obtain ⟨np, hnp, hpp, hopp⟩ := h₅.2
  obtain ⟨n', hn', -, hp'⟩ := hsettle.live hnp
  exact ⟨(h₄.trans h₅.1).trans (hsettle.edits hs₅), n', hn', (hp' hopp).trans hpp⟩

/-- The selections are in the block of the node. -/
theorem Extracts.parent_ids {n : Node} (h : Extracts id input loc fields created m m')
    (hn : m.live? id = some n) : ∀ j ∈ created, ∃ n', m'.live? j = some n' ∧
      n'.parent = n.parent ∧ n'.op.isAlwaysInline = false := by
  induction h generalizing n with
  | nil => simp
  | cons ha _ hc _ hr _ hrest ih =>
    obtain rfl := Option.some.inj (hn.symm.trans ha)
    intro j hj
    rcases List.mem_cons.1 hj with rfl | hj
    · obtain ⟨ops, hlive⟩ := hrest.live (hr.live hc.live?_self)
      exact ⟨_, hlive, rfl, rfl⟩
    · exact ih (hr.live (hc.live hn)) j hj

theorem Explodes.edits (h : m.Explodes id created m') (hs : Sound m) {n : Node}
    (hn : m.live? id = some n) (hop : n.op = .structExplode) :
    Edits m m' ∧ ∀ j ∈ created, ∃ n', m'.live? j = some n' ∧ n'.parent = n.parent := by
  obtain ⟨hn', -, -, -, hextract, -, he, hs₂, hsettle⟩ := h
  obtain rfl := Option.some.inj (hn.symm.trans hn')
  have h₁ := hextract.edits hs
  obtain ⟨ops, hn₁⟩ := hextract.live hn
  refine ⟨(h₁.trans (he.edits h₁.sound hs₂ hn₁ (by simp [hop, Op.regionKinds]))).trans
    (hsettle.edits hs₂), fun j hj => ?_⟩
  obtain ⟨nj, hnj, hpj, hopj⟩ := hextract.parent_ids hn j hj
  have hne : j ≠ id := by
    rintro rfl
    exact absurd (lt_of_live? hn) (Nat.not_lt.2 (hextract.fresh_ids hj).1)
  obtain ⟨n', hn', -, hp'⟩ := hsettle.live (he.live hnj hne)
  exact ⟨n', hn', (hp' hopj).trans hpj⟩

end Module

namespace Prep

variable {env : Env} {s s' : State} {id : NodeId} {n : Node}

theorem explode_runs (ho : env.oracle = .systemVerilog) {created : Option NodeId}
    (hs : Sound s.module) (hn : s.module.live? id = some n) (hop : n.op = .structExplode)
    (h : (explode id).Runs env s created s') :
    (created = none ∧ n.operands = [] ∧ s = s') ∨
    ∃ ids, created = ids.head? ∧ s.module.Explodes id ids s'.module := by
  obtain ⟨nd, hnd, -, rfl⟩ := Module.exists_of_live? hn
  simp only [explode, runs_bind, runs_node] at h
  obtain ⟨nd', _, ⟨hnd', rfl⟩, h⟩ := h
  obtain rfl : nd = nd' := by simpa using hnd.symm.trans hnd'
  split at h
  · next hops =>
    obtain ⟨rfl, rfl⟩ := runs_pure.1 h
    exact Or.inl ⟨rfl, hops, rfl⟩
  · next input inputs hops =>
    simp only [runs_bind, runs_query, runs_edit, runs_pure, bind_eq_ok_iff,
      valueType_eq_ok_iff] at h
    obtain ⟨fields, _, ⟨⟨type, htype, hfields⟩, rfl⟩, ids, s₁, h₁, _, _, ⟨m₂, h₂, rfl⟩, _, s₃,
      hsettle, rfl, rfl⟩ := h
    have huse : s.module.Uses ⟨id, 0⟩ input := ⟨_, hn, by simp [Node.core, hops]⟩
    have hextract := extractFields_runs hs hn (hs.usable huse) h₁
    have hs₁ := hextract.sound hs
    obtain ⟨ops, hn₁⟩ := hextract.live hn
    have hkinds : nd.op.regionKinds = [] := by
      rw [show nd.op = .structExplode from hop]
      rfl
    have hregions : nd.regions = [] := hs.toNested.regions_eq_nil (n := nd.core) hn hkinds
    obtain ⟨hnone, he, hs₂⟩ := hs₁.eraseNode hn₁ hregions h₂
    have hids : ∀ j ∈ ids, ∃ n, m₂.live? j = some n := fun j hj => by
      obtain ⟨hsize, nj, hnj⟩ := hextract.fresh_ids hj
      have hne : j ≠ id := by
        rintro rfl
        exact absurd (Module.lt_of_live? hn) (Nat.not_lt.2 hsize)
      exact ⟨_, he.live hnj hne⟩
    have hall := settlesOperands_runs (s := { s₁ with module := m₂ }) ho hs₂ hids hsettle
    exact Or.inr ⟨ids, rfl, .mk hn hops htype hfields hextract hnone he hs₂ hall⟩

end Prep

end NetPrep
