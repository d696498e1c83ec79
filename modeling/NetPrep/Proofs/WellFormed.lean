import Mathlib
import NetPrep.Proofs.Linked

/-!
# Well-formed modules

What holds of a module that is built by edits: the links realize lists, the use lists name exactly
the operands of the nodes that are not erased, results and definitions agree, and what a node uses is
defined by a node that is not erased. `WellFormed` says this; `Nested` says that the blocks form a
tree under the body.
-/

namespace NetPrep

namespace Module

variable {m m' m'' : Module} {id : NodeId} {n nd : Node} {v : ValueId} {u : Use}

/-- A node that is not erased, without its links. -/
def live? (m : Module) (id : NodeId) : Option Node := (m.core id).filter (!·.erased)

/-- What defines a value. -/
def def? (m : Module) (v : ValueId) : Option ValueDef := (m.value? v).map (·.definition)

/-- The type of a value. -/
def type? (m : Module) (v : ValueId) : Option TypeId := (m.value? v).map (·.type)

/-- An operand of a node that is not erased refers to a value. -/
def Uses (m : Module) (u : Use) (v : ValueId) : Prop :=
  ∃ n, m.live? u.node = some n ∧ n.operands[u.operand]? = some v

theorem live?_eq_some_iff :
    m.live? id = some n ↔ ∃ nd, m.node? id = some nd ∧ nd.erased = false ∧ nd.core = n := by
  unfold live? core
  cases h : m.node? id with
  | none => simp
  | some nd =>
    simp only [Option.map_some, Option.filter_eq_some_iff, Option.some.injEq, Bool.not_eq_true']
    constructor
    · rintro ⟨rfl, he⟩
      exact ⟨nd, rfl, he, rfl⟩
    · rintro ⟨_, rfl, he, rfl⟩
      exact ⟨rfl, he⟩

theorem live?_of_node? (hid : m.node? id = some nd) (he : nd.erased = false) :
    m.live? id = some nd.core := live?_eq_some_iff.2 ⟨nd, hid, he, rfl⟩

theorem live?_eq_none_of_node? (hid : m.node? id = some nd) (he : nd.erased = true) :
    m.live? id = none := by
  simp [live?, core, hid, Node.core, he]

theorem live?_eq_none_of_fresh (h : m.nodes.size ≤ id.index) : m.live? id = none := by
  have hnone : m.node? id = none := by simpa [node?] using h
  simp [live?, core, hnone]

theorem exists_of_live? (h : m.live? id = some n) :
    ∃ nd, m.node? id = some nd ∧ nd.erased = false ∧ nd.core = n := live?_eq_some_iff.1 h

theorem core_of_live? (h : m.live? id = some n) : m.core id = some n := by
  obtain ⟨nd, hid, -, rfl⟩ := exists_of_live? h
  exact core_of_node? hid

theorem lt_of_live? (h : m.live? id = some n) : id.index < m.nodes.size := by
  obtain ⟨nd, hid, -, -⟩ := exists_of_live? h
  exact lt_of_node? hid

theorem erased_of_live? (h : m.live? id = some n) : n.erased = false := by
  obtain ⟨nd, -, he, rfl⟩ := exists_of_live? h
  exact he

theorem exists_uses_of_mem (hn : m.live? id = some n) (hv : v ∈ n.operands) :
    ∃ i, m.Uses ⟨id, i⟩ v := by
  obtain ⟨i, hi⟩ := List.mem_iff_getElem?.1 hv
  exact ⟨i, n, hn, hi⟩

end Module

/-- The use lists name exactly the operands of the nodes that are not erased, each of them once. -/
structure Recorded (m : Module) : Prop where
  uses_nodup : ∀ {v x}, m.value? v = some x → x.uses.Nodup
  mem_uses : ∀ {v x u}, m.value? v = some x → (u ∈ x.uses ↔ m.Uses u v)

/-- What holds of the nodes and values of a module that is built by edits. -/
structure WellFormed (m : Module) : Prop where
  linked : Linked m m.nodesOf none
  uses_nodup : ∀ {v x}, m.value? v = some x → x.uses.Nodup
  mem_uses : ∀ {v x u}, m.value? v = some x → (u ∈ x.uses ↔ m.Uses u v)
  /-- A value that is used is a port or a result of a node that is not erased. -/
  operand : ∀ {u v}, m.Uses u v → ∃ d, m.def? v = some d ∧
    ∀ {id i}, d = .result id i → ∃ n, m.live? id = some n
  result : ∀ {id n i v}, m.core id = some n → n.results[i]? = some v →
    m.def? v = some (.result id i)
  definition : ∀ {v id i}, m.def? v = some (.result id i) →
    ∃ n, m.core id = some n ∧ n.results[i]? = some v

namespace WellFormed

variable {m : Module} {id : NodeId} {n : Node} {b : BlockId}

theorem recorded (h : WellFormed m) : Recorded m := ⟨h.uses_nodup, h.mem_uses⟩

theorem exists_value {u : Use} {v : ValueId} (h : WellFormed m) (hu : m.Uses u v) :
    ∃ value, m.value? v = some value := by
  obtain ⟨d, hd, -⟩ := h.operand hu
  obtain ⟨value, hvalue, -⟩ := Option.map_eq_some_iff.1 hd
  exact ⟨value, hvalue⟩

theorem mem_nodesOf_iff (h : WellFormed m) :
    id ∈ m.nodesOf b ↔ ∃ n, m.live? id = some n ∧ n.parent = b := by
  rw [h.linked.mem_iff]
  constructor
  · rintro ⟨-, nd, hid, he, hp⟩
    exact ⟨nd.core, Module.live?_of_node? hid he, hp⟩
  · rintro ⟨n, hn, hp⟩
    obtain ⟨nd, hid, he, rfl⟩ := Module.exists_of_live? hn
    exact ⟨by simp, nd, hid, he, hp⟩

theorem mem_nodesOf (h : WellFormed m) (hn : m.live? id = some n) : id ∈ m.nodesOf n.parent :=
  h.mem_nodesOf_iff.2 ⟨n, hn, rfl⟩

theorem nodup (h : WellFormed m) (b : BlockId) : (m.nodesOf b).Nodup := h.linked.nodup b

/-- The value of a result says which node it is the result of. -/
theorem exists_def {v : ValueId} (h : WellFormed m) (hn : m.live? id = some n)
    (hv : v ∈ n.results) : ∃ i, m.def? v = some (.result id i) := by
  obtain ⟨i, hi⟩ := List.mem_iff_getElem?.1 hv
  exact ⟨i, h.result (Module.core_of_live? hn) hi⟩

theorem eq_of_def {v : ValueId} {d : NodeId} {i : Nat} (h : WellFormed m)
    (hn : m.live? id = some n) (hv : v ∈ n.results) (hd : m.def? v = some (.result d i)) :
    d = id := by
  obtain ⟨j, hj⟩ := h.exists_def hn hv
  cases hd.symm.trans hj
  rfl

/-- The node that a value comes from is the only one. -/
theorem eq_of_mem_results {id' : NodeId} {n' : Node} {v : ValueId} (h : WellFormed m)
    (hn : m.live? id = some n) (hn' : m.live? id' = some n') (hv : v ∈ n.results)
    (hv' : v ∈ n'.results) : id = id' ∧ n = n' := by
  obtain ⟨i, hd⟩ := h.exists_def hn hv
  obtain rfl := h.eq_of_def hn' hv' hd
  exact ⟨rfl, Option.some.inj (hn.symm.trans hn')⟩

theorem exists_block (h : WellFormed m) (hn : m.live? id = some n) :
    ∃ blk, m.block? n.parent = some blk := by
  obtain ⟨nd, hid, he, rfl⟩ := Module.exists_of_live? hn
  have hhome := h.linked.home hid he
  exact hhome

end WellFormed

/-! ## Nesting -/

/-- A block that is reached from the body through the regions of nodes. -/
inductive Module.Placed (m : Module) : BlockId → Prop
  | body : m.Placed m.body
  | region {id : NodeId} {n : Node} {b : BlockId} (hn : m.live? id = some n) (hb : b ∈ n.regions)
      (hp : m.Placed n.parent) : m.Placed b

/-- The blocks of a module form a tree under the body, as the operations of the nodes say. -/
structure Nested (m : Module) : Prop where
  body : m.blockCore m.body = some (.empty .graph none)
  regions : ∀ {id n}, m.live? id = some n →
    List.Forall₂ (fun b k => m.blockCore b = some (.empty k (some id))) n.regions n.op.regionKinds
  regions_nodup : ∀ {id n}, m.live? id = some n → n.regions.Nodup
  placed : ∀ {id n}, m.live? id = some n → m.Placed n.parent
  /-- A node that owns blocks has no results. -/
  owner : ∀ {id n}, m.live? id = some n → n.regions ≠ [] → n.results = []

namespace Nested

variable {m : Module} {id : NodeId} {n : Node} {b : BlockId}

/-- An operation without regions owns no block. -/
theorem regions_eq_nil (h : Nested m) (hn : m.live? id = some n) (hop : n.op.regionKinds = []) :
    n.regions = [] := by
  have hregions := h.regions hn
  rw [hop] at hregions
  exact List.forall₂_nil_right_iff.1 hregions

theorem regionKinds_eq_nil (h : Nested m) (hn : m.live? id = some n) (hr : n.regions = []) :
    n.op.regionKinds = [] := by
  have hregions := h.regions hn
  rw [hr] at hregions
  exact List.forall₂_nil_left_iff.1 hregions

theorem blockCore_of_mem (h : Nested m) (hn : m.live? id = some n) (hb : b ∈ n.regions) :
    ∃ k, k ∈ n.op.regionKinds ∧ m.blockCore b = some (.empty k (some id)) := by
  have hregions := h.regions hn
  obtain ⟨i, hi, rfl⟩ := List.getElem_of_mem hb
  have hlen := hregions.length_eq
  exact ⟨n.op.regionKinds[i], List.getElem_mem _, hregions.get hi (hlen ▸ hi)⟩

end Nested

end NetPrep
