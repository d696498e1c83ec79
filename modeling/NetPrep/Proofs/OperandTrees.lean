import Mathlib
import NetPrep.Proofs.Advancing
import NetPrep.Proofs.Sparing

/-!
# Trees of operators

A tree over operands is as flat as can be if the operands are split in the middle again and again. An
associative operation makes the same of it as of the operands from left to right. Its nodes are made from
the leaves to the root, each right before the same anchor.
-/

namespace NetPrep

open Prepare Prep

/-! ## Trees over operands -/

namespace OperandTree

variable {α : Type} {f : α → α → α} {value : ValueId → α} {k : Nat} {vs : List ValueId}
  {tree : OperandTree}

/-- How many branches are above a leaf at most. -/
def depth : OperandTree → Nat
  | .leaf _ => 0
  | .branch left right => max left.depth right.depth + 1

/-- What an operation makes of values along a tree. -/
def eval (f : α → α → α) (value : ValueId → α) : OperandTree → α
  | .leaf v => value v
  | .branch left right => f (left.eval f value) (right.eval f value)

theorem exists_balanced? (hvs : vs ≠ []) (h : vs.length ≤ k + 1) :
    ∃ tree, balanced? k vs = some tree := by
  induction k generalizing vs with
  | zero =>
    obtain ⟨v, rfl⟩ := List.length_eq_one_iff.1 (Nat.le_antisymm h (List.length_pos_iff.2 hvs))
    exact ⟨_, rfl⟩
  | succ k ih =>
    obtain _ | ⟨v, _ | ⟨w, vs⟩⟩ := vs
    · exact absurd rfl hvs
    · exact ⟨_, rfl⟩
    · simp only [List.length_cons] at h
      have hleft : (v :: w :: vs).take ((v :: w :: vs).length / 2) ≠ [] :=
        List.ne_nil_of_length_pos (by simp)
      have hright : (v :: w :: vs).drop ((v :: w :: vs).length / 2) ≠ [] :=
        List.ne_nil_of_length_pos (by simp; omega)
      obtain ⟨left, hleft⟩ := ih hleft (by simp; omega)
      obtain ⟨right, hright⟩ := ih hright (by simp; omega)
      exact ⟨.branch left right, by simp only [balanced?, hleft, hright]; rfl⟩

/-- The split leaves half of the operands on each side, or one more on the right. -/
theorem depth_balanced? (h : balanced? k vs = some tree) : tree.depth = Nat.clog 2 vs.length := by
  induction k generalizing vs tree with
  | zero =>
    obtain _ | ⟨v, _ | ⟨w, vs⟩⟩ := vs <;> cases h
    rfl
  | succ k ih =>
    obtain _ | ⟨v, _ | ⟨w, vs⟩⟩ := vs
    · cases h
    · cases h
      rfl
    · simp only [balanced?, Option.bind_eq_bind, Option.bind_eq_some_iff] at h
      obtain ⟨left, hleft, right, hright, htree⟩ := h
      cases htree
      have hle : Nat.clog 2 ((vs.length + 2) / 2) ≤ Nat.clog 2 ((vs.length + 3) / 2) :=
        Nat.clog_mono_right 2 (by omega)
      have hleft := ih hleft
      have hright := ih hright
      simp only [List.length_take, List.length_drop, List.length_cons] at hleft hright
      rw [Nat.min_eq_left (by omega)] at hleft
      rw [show vs.length + 1 + 1 - (vs.length + 1 + 1) / 2 = (vs.length + 3) / 2 by omega] at hright
      rw [depth, hleft, hright, Nat.max_eq_right hle]
      exact (Nat.clog_of_two_le (by omega) (by simp)).symm

/-- An associative operation may take the leaves one by one. -/
theorem op_eval (hf : ∀ a b c, f (f a b) c = f a (f b c)) (tree : OperandTree) (a : α) :
    f a (tree.eval f value) = tree.leaves.foldl (fun x v => f x (value v)) a := by
  induction tree generalizing a with
  | leaf v => rfl
  | branch left right ihl ihr => rw [eval, leaves, List.foldl_append, ← ihl, ← ihr, hf]

/-- So a tree comes to what the operation makes of the leaves from left to right. -/
theorem eval_eq_foldl (hf : ∀ a b c, f (f a b) c = f a (f b c)) (value : ValueId → α)
    (tree : OperandTree) : ∃ v vs, tree.leaves = v :: vs ∧
      tree.eval f value = vs.foldl (fun x w => f x (value w)) (value v) := by
  induction tree with
  | leaf v => exact ⟨v, [], rfl, rfl⟩
  | branch left right ihl =>
    obtain ⟨v, vs, hleaves, heval⟩ := ihl
    refine ⟨v, vs ++ right.leaves, by rw [leaves, hleaves, List.cons_append], ?_⟩
    rw [eval, op_eval hf, heval, List.foldl_append]

end OperandTree

/-! ## Trees in modules -/

namespace Module

variable {m m' : Module} {shape : TreeShape} {tree : OperandTree} {b : BlockId} {n n' na : Node}
  {lhs rhs v w : ValueId} {ids : List NodeId} {j : NodeId} {u : Use} {g : NodeId → NodeId}
  {o : ValueId → ValueId}

/-- A node of a tree: an operator of the form that all nodes have, with two operands. -/
structure Joins (m : Module) (shape : TreeShape) (b : BlockId) (n : Node) (lhs rhs value : ValueId) :
    Prop where
  op : n.op = shape.op
  operands : n.operands = [lhs, rhs]
  results : n.results = [value]
  twoState : n.twoState = shape.twoState
  loc : n.loc = shape.loc
  parent : n.parent = b
  type : m.type? value = some shape.type

/-- Nodes of a module are a tree: they join the values of the trees below them. A leaf is a value that
stands for it. -/
inductive Bears (m : Module) (shape : TreeShape) (b : BlockId) (o : ValueId → ValueId) :
    OperandTree → ValueId → List NodeId → Prop
  | leaf (v : ValueId) : Bears m shape b o (.leaf (o v)) v []
  | branch {left right : OperandTree} {lhs rhs value : ValueId} {lefts rights : List NodeId}
      {id : NodeId} {n : Node} (hleft : Bears m shape b o left lhs lefts)
      (hright : Bears m shape b o right rhs rights) (hn : m.live? id = some n)
      (h : m.Joins shape b n lhs rhs value) :
      Bears m shape b o (.branch left right) value (lefts ++ rights ++ [id])

/-- Under an assignment, nodes with two operands compute an operation of these. -/
def Computed {α : Type} (m : Module) (f : α → α → α) (σ : ValueId → α) (ids : List NodeId) : Prop :=
  ∀ id ∈ ids, ∀ n x y z, m.live? id = some n → n.operands = [x, y] → n.results = [z] →
    σ z = f (σ x) (σ y)

namespace Bears

/-- A tree has a node less than leaves. -/
theorem length (h : m.Bears shape b o tree v ids) : ids.length + 1 = tree.leaves.length := by
  induction h with
  | leaf => rfl
  | branch _ _ _ _ ih₁ ih₂ =>
    simp only [OperandTree.leaves, List.length_append, List.length_singleton]
    omega

theorem exists_joins (h : m.Bears shape b o tree v ids) (hj : j ∈ ids) :
    ∃ n lhs rhs value, m.live? j = some n ∧ m.Joins shape b n lhs rhs value := by
  induction h with
  | leaf => cases hj
  | branch _ _ hn hjoins ih₁ ih₂ =>
    simp only [List.append_assoc, List.mem_append, List.mem_singleton] at hj
    rcases hj with hj | hj | rfl
    · exact ih₁ hj
    · exact ih₂ hj
    · exact ⟨_, _, _, _, hn, hjoins⟩

theorem value_cases (h : m.Bears shape b (fun x => x) tree v ids) :
    v ∈ tree.leaves ∨ ∃ k ∈ ids, ∃ n, m.live? k = some n ∧ v ∈ n.results := by
  cases h with
  | leaf v => exact Or.inl (List.mem_singleton_self v)
  | branch _ _ hn h =>
    exact Or.inr ⟨_, by simp, _, hn, h.results ▸ List.mem_singleton_self _⟩

/-- The operands of a node are leaves and results of other nodes. -/
theorem operand_cases (h : m.Bears shape b (fun x => x) tree v ids) (hj : j ∈ ids)
    (hn : m.live? j = some n) (hw : w ∈ n.operands) :
    w ∈ tree.leaves ∨ ∃ k ∈ ids, ∃ n, m.live? k = some n ∧ w ∈ n.results := by
  induction h with
  | leaf => cases hj
  | @branch left right lhs rhs value lefts rights id n₀ hleft hright hn₀ hjoins ih₁ ih₂ =>
    have hliftl : (w ∈ left.leaves ∨ ∃ k ∈ lefts, ∃ n, m.live? k = some n ∧ w ∈ n.results) →
        w ∈ (OperandTree.branch left right).leaves ∨
          ∃ k ∈ lefts ++ rights ++ [id], ∃ n, m.live? k = some n ∧ w ∈ n.results :=
      Or.imp (List.mem_append_left _) fun ⟨k, hk, hrest⟩ => ⟨k, by simp [hk], hrest⟩
    have hliftr : (w ∈ right.leaves ∨ ∃ k ∈ rights, ∃ n, m.live? k = some n ∧ w ∈ n.results) →
        w ∈ (OperandTree.branch left right).leaves ∨
          ∃ k ∈ lefts ++ rights ++ [id], ∃ n, m.live? k = some n ∧ w ∈ n.results :=
      Or.imp (List.mem_append_right _) fun ⟨k, hk, hrest⟩ => ⟨k, by simp [hk], hrest⟩
    simp only [List.append_assoc, List.mem_append, List.mem_singleton] at hj
    rcases hj with hj | hj | rfl
    · exact hliftl (ih₁ hj)
    · exact hliftr (ih₂ hj)
    · obtain rfl := Option.some.inj (hn.symm.trans hn₀)
      obtain rfl | rfl := List.mem_pair.1 (hjoins.operands ▸ hw)
      · exact hliftl hleft.value_cases
      · exact hliftr hright.value_cases

/-- A tree stays if its nodes do. -/
theorem mono (h : m.Bears shape b o tree v ids)
    (hlive : ∀ j ∈ ids, ∀ {n lhs rhs value}, m.live? j = some n → m.Joins shape b n lhs rhs value →
      ∃ n', m'.live? j = some n' ∧ m'.Joins shape b n' lhs rhs value) :
    m'.Bears shape b o tree v ids := by
  induction h with
  | leaf v => exact .leaf v
  | @branch left right lhs rhs value lefts rights id n _ _ hn h ih₁ ih₂ =>
    obtain ⟨n', hn', h'⟩ := hlive id (by simp) hn h
    exact .branch (ih₁ fun j hj => hlive j (by simp [hj])) (ih₂ fun j hj => hlive j (by simp [hj])) hn' h'

/-- What the nodes of a tree compute is what the operation makes of the leaves along the tree. -/
theorem value_eq {α : Type} {f : α → α → α} {σ : ValueId → α} (h : m.Bears shape b o tree v ids)
    (hσ : m.Computed f σ ids) (ho : ∀ x, σ x = σ (o x)) : σ v = tree.eval f σ := by
  induction h with
  | leaf v => exact ho v
  | branch _ _ hn h ih₁ ih₂ =>
    rw [hσ _ (by simp) _ _ _ _ hn h.operands h.results, OperandTree.eval,
      ih₁ fun j hj => hσ j (by simp [hj]), ih₂ fun j hj => hσ j (by simp [hj])]

end Bears

/-- What stands for a tree whose nodes are not printed at their uses is a tree with the same nodes. -/
theorem Covers.bears (h : m.Covers Label.isAlwaysInline m' g o) (hw : WellFormed m)
    (hop : shape.op.isAlwaysInline = false)
    (hparent : ∀ j ∈ ids, ∀ {n n'}, m.live? j = some n → m'.live? j = some n' → n'.parent = n.parent)
    (hbears : m.Bears shape b (fun x => x) tree w ids) (hv : o v = w) :
    m'.Bears shape b o tree v ids := by
  induction hbears generalizing v with
  | leaf w =>
    subst hv
    exact .leaf v
  | @branch left right lhs rhs value lefts rights id n _ _ hn hjoins ih₁ ih₂ =>
    have hplain : Label.isAlwaysInline (m.label n) = false := by
      rw [Label.isAlwaysInline, label, hjoins.op, hop]
    have hsame : v = value := by
      refine (h.eq_of_unpasted ?_).symm.trans hv
      rw [hv]
      exact unpasted_of_plain hw hn hplain (hjoins.results ▸ List.mem_singleton_self _)
    subst hsame
    obtain ⟨n', hn', hres, hlabel, hops⟩ := h.exists_live hn
    rw [hjoins.operands, List.map_eq_cons_iff] at hops
    obtain ⟨x, ys, hops, hx, hys⟩ := hops
    obtain ⟨y, rfl, hy⟩ := List.map_eq_singleton_iff.1 hys
    have hparent' := (hparent id (by simp) hn hn').trans hjoins.parent
    have htypes := congrArg Label.types hlabel
    simp only [label, hres, hjoins.results, List.map_cons, List.map_nil, List.cons.injEq,
      and_true] at htypes
    exact .branch (ih₁ (fun j hj => hparent j (by simp [hj])) hx)
      (ih₂ (fun j hj => hparent j (by simp [hj])) hy) hn' ⟨(congrArg Label.op hlabel).trans hjoins.op,
        hops, hres.trans hjoins.results, (congrArg Label.twoState hlabel).trans hjoins.twoState,
        (congrArg Label.loc hlabel).trans hjoins.loc, hparent', htypes.trans hjoins.type⟩

end Module

/-! ## Growing a tree -/

namespace Module.Grows

/-- The value of a tree with a branch is the result of a node that is made. -/
theorem exists_def_root {m m' : Module} {shape : TreeShape} {left right : OperandTree} {v : ValueId}
    {ids : List NodeId} (h : Grows shape (.branch left right) v ids m m') :
    m.values.size ≤ v.index ∧ ∃ x ∈ ids, m'.def? v = some (.result x 0) := by
  cases h with
  | @branch _ _ _ _ _ _ _ x _ _ _ _ _ hleft hright _ hc _ =>
    exact ⟨(hleft.kept.trans hright.kept).values_size.trans
      (hc.index_result (List.mem_singleton_self v)), x, by simp, hc.def?_result (i := 0) rfl⟩

variable {m m' : Module} {shape : TreeShape} {tree : OperandTree} {na nj : Node} {v w : ValueId}
  {ids : List NodeId} {j : NodeId} {u : Use} (h : Grows shape tree v ids m m')

include h

/-- The nodes of a tree are made in one form, without a name. -/
theorem node_ids (ha : m.live? shape.anchor = some na) : ∀ j ∈ ids, ∃ lhs rhs value,
    m'.live? j = some { Node.fresh shape.op [lhs, rhs] [value] na.parent shape.loc with
      twoState := shape.twoState } := by
  induction h with
  | leaf => simp
  | branch hleft hright ha' hc _ ih₁ ih₂ =>
    obtain rfl := Option.some.inj ((hright.live (hleft.live ha)).symm.trans ha')
    intro j hj
    simp only [List.append_assoc, List.mem_append, List.mem_singleton] at hj
    rcases hj with hj | hj | rfl
    · obtain ⟨_, _, _, hn⟩ := ih₁ ha j hj
      exact ⟨_, _, _, hc.live (hright.live hn)⟩
    · obtain ⟨_, _, _, hn⟩ := ih₂ (hleft.live ha) j hj
      exact ⟨_, _, _, hc.live hn⟩
    · exact ⟨_, _, _, hc.live?_self⟩

/-- A node is a node of the tree or was there before. -/
theorem live_cases (hj : m'.live? j = some nj) : j ∈ ids ∨ m.live? j = some nj := by
  induction h generalizing nj with
  | leaf => exact Or.inr hj
  | branch _ _ _ hc _ ih₁ ih₂ =>
    simp only [List.append_assoc, List.mem_append, List.mem_singleton]
    obtain ⟨rfl, -⟩ | ⟨-, hj⟩ := hc.live_cases hj
    · exact Or.inl (Or.inr (Or.inr rfl))
    · obtain hj | hj := ih₂ hj
      · exact Or.inl (Or.inr (Or.inl hj))
      · exact (ih₁ hj).imp Or.inl id

theorem bears (ha : m.live? shape.anchor = some na) :
    m'.Bears shape na.parent (fun x => x) tree v ids := by
  induction h with
  | leaf v => exact .leaf v
  | branch hleft hright ha' hc _ ih₁ ih₂ =>
    obtain rfl := Option.some.inj ((hright.live (hleft.live ha)).symm.trans ha')
    have hkept := hright.kept.trans hc.kept
    refine .branch ((ih₁ ha).mono fun j _ _ _ _ _ hj hjoins =>
        ⟨_, hc.live (hright.live hj), { hjoins with type := hkept.type? hjoins.type }⟩)
      ((ih₂ (hleft.live ha)).mono fun j _ _ _ _ _ hj hjoins =>
        ⟨_, hc.live hj, { hjoins with type := hc.kept.type? hjoins.type }⟩)
      hc.live?_self ⟨rfl, rfl, rfl, rfl, rfl, rfl, hc.type?_result (i := 0) rfl⟩

/-- The value of a tree is a leaf or new. -/
theorem value_cases : v ∈ tree.leaves ∨ m.values.size ≤ v.index := by
  cases h with
  | leaf v => exact Or.inl (List.mem_singleton_self v)
  | branch hleft hright _ hc _ =>
    exact Or.inr ((hleft.kept.trans hright.kept).values_size.trans
      (hc.index_result (List.mem_singleton_self v)))

/-- Only the leaves get new uses among the values that were there. -/
theorem uses_iff_of_not_mem (hlt : w.index < m.values.size) (hw : w ∉ tree.leaves) :
    m'.Uses u w ↔ m.Uses u w := by
  induction h with
  | leaf => exact Iff.rfl
  | @branch left right lhs rhs value lefts rights id na m m₁ m₂ m' hleft hright _ hc _ ih₁ ih₂ =>
    rw [OperandTree.leaves, List.mem_append, not_or] at hw
    have hlt₁ := hlt.trans_le hleft.kept.values_size
    have hnew : w ∉ [lhs, rhs] := fun hmem => by
      obtain rfl | rfl := List.mem_pair.1 hmem
      · exact hleft.value_cases.elim hw.1 hlt.not_ge
      · exact hright.value_cases.elim hw.2 hlt₁.not_ge
    rw [hc.uses_iff, or_iff_left fun hget => hnew (List.mem_of_getElem? hget.2), ih₂ hlt₁ hw.2,
      ih₁ hlt hw.1]

/-- Each leaf gets a use, and the value of the tree, if it is no leaf, has none. -/
theorem length_usesOf (hs : Sound m) (hlt : w.index < m.values.size) :
    (m'.usesOf w).length + [v].count w = (m.usesOf w).length + tree.leaves.count w := by
  induction h with
  | leaf => rfl
  | @branch left right lhs rhs value lefts rights id na m m₁ m₂ m' hleft hright _ hc hs' ih₁ ih₂ =>
    have hs₁ := hleft.sound hs
    have hs₂ := hright.sound hs₁
    have h₁ := ih₁ hs hlt
    have h₂ := ih₂ hs₁ (hlt.trans_le hleft.kept.values_size)
    have h₃ : (m'.usesOf w).length = (m₂.usesOf w).length + ([lhs] ++ [rhs]).count w :=
      hc.length_usesOf hs₂.toWellFormed hs'.toWellFormed w
    have hsize := (hleft.kept.trans hright.kept).values_size
    have hne : value ≠ w := by
      rintro rfl
      have hle := hc.index_result (v := value) (List.mem_singleton_self value)
      omega
    rw [OperandTree.leaves, List.count_append, List.count_singleton,
      if_neg (by simpa using hne)]
    rw [List.count_append] at h₃
    omega

/-- Nothing uses the value of a tree with a branch yet. -/
theorem unused (hs : Sound m) (hleaves : ∀ w ∈ tree.leaves, m.Usable w) (hv : v ∉ tree.leaves) :
    ¬ m'.Uses u v := by
  cases h with
  | leaf => exact absurd (List.mem_singleton_self v) hv
  | @branch _ _ lhs rhs _ _ _ _ _ _ _ m₂ _ hleft hright _ hc hs' =>
    rw [OperandTree.leaves] at hleaves
    have hs₁ := hleft.sound hs
    have hs₂ := hright.sound hs₁
    have hle := hc.index_result (List.mem_singleton_self v)
    have hnot : ¬ m₂.Usable v := by
      rintro ⟨_, hd, -⟩
      exact (WellFormed.lt_of_def? hd).not_ge hle
    have husable : ∀ w ∈ [lhs, rhs], m₂.Usable w := fun w hw => by
      obtain rfl | rfl := List.mem_pair.1 hw
      · exact hright.usable (hleft.usable_value fun w hw => hleaves w (List.mem_append_left _ hw))
      · exact hright.usable_value fun w hw => hleft.usable (hleaves w (List.mem_append_right _ hw))
    rw [hc.uses_iff]
    rintro (hu | ⟨-, hget⟩)
    · exact hnot (hs₂.usable hu)
    · exact hnot (husable v (List.mem_of_getElem? hget))

theorem spares (hs : Sound m) (hop : shape.op.isAlwaysInline = false) :
    m.Spares Label.isAlwaysInline m' := by
  induction h with
  | leaf => exact .refl _ _
  | branch hleft hright _ hc _ ih₁ ih₂ =>
    have hs₁ := hleft.sound hs
    exact ((ih₁ hs).trans (ih₂ hs₁)).trans (hc.spares (hright.sound hs₁).toWellFormed hop)

end Module.Grows

end NetPrep
