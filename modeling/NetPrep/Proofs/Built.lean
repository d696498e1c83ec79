import Mathlib
import NetPrep.Proofs.Keys
import NetPrep.Proofs.Outline

/-!
# Modules that are built by edits

What holds of a module after any edits. Nodes may use results of erased nodes, and nodes may lie in
regions of erased nodes, so less holds than of the well-formed modules that preparation starts from:
the links realize lists, the regions of a node are its own, no node lies in its own regions
(`Housed`), and the use lists name exactly the operands of the nodes that are not erased (`Tracked`).
-/

namespace NetPrep

/-- The links of a module realize lists, and its blocks are nested as the regions say. One node may be
in no list. -/
structure Housed (m : Module) (lists : BlockId → List NodeId) (loose : Option NodeId) : Prop where
  linked : Linked m lists loose
  home : ∀ {id n}, m.core id = some n → n.parent.index < m.blocks.size
  owner : ∀ {id n b}, m.core id = some n → b ∈ n.regions →
    ∃ kind, m.blockCore b = some (.empty kind (some id))
  regions_nodup : ∀ {id n}, m.core id = some n → n.regions.Nodup
  regions_length : ∀ {id n}, m.core id = some n → n.regions.length = n.op.regionKinds.length
  acyclic : (m.outlineOf lists).Acyclic

/-- The use lists of a module, and the definitions of its values. -/
structure Tracked (m : Module) : Prop extends Recorded m where
  operand : ∀ {id n v}, m.core id = some n → v ∈ n.operands → v.index < m.values.size
  result : ∀ {id n i v}, m.core id = some n → n.results[i]? = some v →
    m.def? v = some (.result id i)

/-- A module after so many edits. -/
structure Built (count : Nat) (m : Module) : Prop extends Housed m m.nodesOf none, Tracked m where
  keyed : Keyed m m.nodesOf (count * orderStride)
  size : m.nodes.size ≤ count

/-- There is room for more edits than are ever made. -/
theorem Built.roomy {m : Module} {count more : Nat} (h : Built count m)
    (hcount : count + more ≤ 2 ^ 43) : m.Roomy more := by
  have hstride : orderStride = 2 ^ 20 := rfl
  have hlimit : limit64 = 2 ^ 64 := rfl
  have hmul := Nat.mul_le_mul_right orderStride hcount
  constructor
  case key =>
    intro j
    have hle := h.keyed.le j
    rw [Nat.add_mul] at hmul
    omega
  case size =>
    have hsize := Nat.mul_le_mul_right orderStride (Nat.add_le_add_right h.size more)
    omega

namespace Module

variable {m m₁ m' : Module} {id j : NodeId} {n : Node} {b : BlockId} {pos : Position}
  {op : Op} {operands : List ValueId} {types : List TypeId} {loc : Loc} {gap : Gap} {v : ValueId}

theorem outline_slot? {lists : BlockId → List NodeId} (hn : m.core id = some n) :
    (m.outlineOf lists).slot? id = some ⟨n.parent, n.regions, n.erased⟩ := by
  simp [outlineOf, hn]

theorem exists_core_of_slot? {lists : BlockId → List NodeId} {e : Outline.Entry}
    (he : (m.outlineOf lists).slot? id = some e) :
    ∃ n, m.core id = some n ∧ e = ⟨n.parent, n.regions, n.erased⟩ := by
  obtain ⟨n, hn, rfl⟩ := Option.map_eq_some_iff.1 he
  exact ⟨n, hn, rfl⟩

/-- Nothing is under a node without regions. -/
theorem not_under_of_regions_nil (hn : m.core id = some n) (hr : n.regions = []) :
    ¬ m.outline.Under id b := by
  have he : m.outline.slot? id = some ⟨n.parent, n.regions, n.erased⟩ := outline_slot? hn
  rintro ⟨j, e', hj, he', hb⟩
  have hself : j = id := by
    clear he' hb
    induction hj with
    | self => rfl
    | nested _ he' hb' _ ih =>
      subst ih
      obtain rfl := Option.some.inj (he.symm.trans he')
      rw [hr] at hb'
      cases hb'
  subst hself
  obtain rfl := Option.some.inj (he.symm.trans he')
  rw [hr] at hb
  cases hb

theorem exists_core_iff : (∃ n, m.core id = some n) ↔ id.index < m.nodes.size := by
  rw [← exists_node?_iff]
  simp [core]

/-- The blocks that are added next. -/
def nextBlocks (m : Module) (k : Nat) : List BlockId :=
  (List.range k).map fun i => ⟨m.blocks.size + i⟩

theorem mem_nextBlocks {k : Nat} :
    b ∈ m.nextBlocks k ↔ m.blocks.size ≤ b.index ∧ b.index < m.blocks.size + k := by
  simp only [nextBlocks, List.mem_map, List.mem_range]
  constructor
  · rintro ⟨i, hi, rfl⟩
    exact ⟨Nat.le_add_right _ _, Nat.add_lt_add_left hi _⟩
  · rintro ⟨hle, hlt⟩
    exact ⟨b.index - m.blocks.size, by omega, by cases b; simp_all⟩

theorem nodup_nextBlocks (k : Nat) : (m.nextBlocks k).Nodup :=
  List.nodup_range.map fun i j hij => by simpa using hij

/-- The blocks of a module after regions of a node are added. -/
theorem addRegions_eq (m : Module) (id : NodeId) (kinds : List RegionKind) :
    (m.addRegions id kinds).1 = m.nextBlocks kinds.length ∧
    (∃ blocks, (m.addRegions id kinds).2 = { m with blocks }) ∧
    (m.addRegions id kinds).2.blocks.size = m.blocks.size + kinds.length ∧
    ∀ b, (m.addRegions id kinds).2.block? b = if b.index < m.blocks.size then m.block? b else
      (kinds[b.index - m.blocks.size]?).map fun kind => .empty kind (some id) := by
  induction kinds generalizing m with
  | nil =>
    refine ⟨rfl, ⟨_, rfl⟩, rfl, fun b => ?_⟩
    by_cases hb : b.index < m.blocks.size
    · simp [addRegions, hb]
    · simp [addRegions, block?, hb]
  | cons kind kinds ih =>
    obtain ⟨hfst, ⟨blocks, hm⟩, hsize, hget⟩ :=
      ih { m with blocks := m.blocks.push (.empty kind (some id)) }
    refine ⟨?_, ⟨blocks, ?_⟩, ?_, fun b => ?_⟩
    · simp only [addRegions, hfst, nextBlocks, Array.size_push, List.length_cons,
        List.range_succ_eq_map, List.map_cons, List.map_map]
      simp [Function.comp_def, Nat.add_assoc, Nat.add_comm 1]
    · simp [addRegions, hm]
    · simp only [addRegions, hsize, Array.size_push, List.length_cons]
      omega
    · change (addRegions { m with blocks := m.blocks.push (.empty kind (some id)) } id
        kinds).2.block? b = _
      rw [hget b]
      simp only [Array.size_push, block?]
      by_cases hlt : b.index < m.blocks.size
      · rw [if_pos hlt, if_pos (Nat.lt_succ_of_lt hlt), Array.getElem?_push_lt hlt,
          Array.getElem?_eq_getElem hlt]
      · by_cases heq : b.index = m.blocks.size
        · simp [heq]
        · obtain ⟨d, hd⟩ : ∃ d, b.index = m.blocks.size + 1 + d :=
            ⟨b.index - (m.blocks.size + 1), by omega⟩
          have h₁ : b.index - m.blocks.size = d + 1 := by omega
          have h₂ : b.index - (m.blocks.size + 1) = d := by omega
          have h₃ : ¬ b.index < m.blocks.size + 1 := by omega
          rw [if_neg h₃, if_neg hlt, h₁, h₂, List.getElem?_cons_succ]

/-- A node that is created, with its regions. -/
def freshNode (m : Module) (b : BlockId) (op : Op) (operands : List ValueId)
    (types : List TypeId) (loc : Loc) : Node :=
  { Node.fresh op operands (m.nextValues types.length) b loc with
    regions := m.nextBlocks op.regionKinds.length }

/-- Creates a node with its results and regions, and leaves it to be linked. -/
def store (m : Module) (b : BlockId) (op : Op) (operands : List ValueId) (types : List TypeId)
    (loc : Loc) : Except Fault Module := do
  let id : NodeId := ⟨m.nodes.size⟩
  let node := m.freshNode b op operands types loc
  let m := ((m.addResults id 0 types).2.addRegions id op.regionKinds).2
  let m ← m.addUses id 0 operands
  return { m with nodes := m.nodes.push node }

theorem createNode_eq (m : Module) (pos : Position) (op : Op) (operands : List ValueId)
    (types : List TypeId) (loc : Loc) : m.createNode pos op operands types loc =
      m.gapAt pos >>= fun gap => m.store gap.block op operands types loc >>= fun m₁ =>
        m₁.link ⟨m.nodes.size⟩ gap >>= fun m' => .ok (⟨m.nodes.size⟩, m') := by
  have hresults := (m.addResults_eq ⟨m.nodes.size⟩ 0 types).1
  obtain ⟨values, hm⟩ := (m.addResults_eq ⟨m.nodes.size⟩ 0 types).2.1
  have hregions := ((m.addResults ⟨m.nodes.size⟩ 0 types).2.addRegions_eq ⟨m.nodes.size⟩
    op.regionKinds).1
  have hblocks : (m.addResults ⟨m.nodes.size⟩ 0 types).2.nextBlocks op.regionKinds.length =
      m.nextBlocks op.regionKinds.length := by rw [hm]; rfl
  simp only [createNode, store, bind_assoc, pure_bind, hresults, hregions, hblocks]
  rfl

/-- What a module is before the new node is linked. -/
structure Stored (m m₁ : Module) (n : Node) (types : List TypeId) : Prop where
  node? : ∀ j, m₁.node? j = if j = ⟨m.nodes.size⟩ then some n else m.node? j
  block? : ∀ b, m₁.block? b = if b.index < m.blocks.size then m.block? b else
    (n.op.regionKinds[b.index - m.blocks.size]?).map fun kind =>
      .empty kind (some ⟨m.nodes.size⟩)
  value? : ∀ v, m₁.value? v = (if v.index < m.values.size then m.value? v else
    (types[v.index - m.values.size]?).map fun t =>
      ⟨t, .result ⟨m.nodes.size⟩ (v.index - m.values.size), []⟩).map fun x =>
        { x with uses := x.uses ++ usesAmong ⟨m.nodes.size⟩ v 0 n.operands }
  nodes_size : m₁.nodes.size = m.nodes.size + 1
  blocks_size : m₁.blocks.size = m.blocks.size + n.op.regionKinds.length
  values_size : m₁.values.size = m.values.size + types.length

theorem Stored.node?_self (hs : m.Stored m₁ n types) : m₁.node? ⟨m.nodes.size⟩ = some n := by
  rw [hs.node?, if_pos rfl]

/-- A node that is stored without a key raises none. -/
theorem Stored.orderOf_le (hs : m.Stored m₁ n types) (horder : n.order = 0) (j : NodeId) :
    m₁.orderOf j ≤ m.orderOf j := by
  unfold orderOf
  rw [hs.node?]
  split
  · simp [horder]
  · exact le_rfl

theorem store_eq_ok (h : m.store b op operands types loc = .ok m₁) :
    m.Stored m₁ (m.freshNode b op operands types loc) types := by
  simp only [store, bind_eq_ok_iff] at h
  obtain ⟨m₂, h₂, h⟩ := h
  cases h
  obtain ⟨-, ⟨values, hm⟩, hvsize, hvalue⟩ := m.addResults_eq ⟨m.nodes.size⟩ 0 types
  obtain ⟨-, ⟨blocks, hm'⟩, hbsize, hblock⟩ :=
    (m.addResults ⟨m.nodes.size⟩ 0 types).2.addRegions_eq ⟨m.nodes.size⟩ op.regionKinds
  rw [hm] at hbsize hblock hvsize hvalue hm'
  rw [hm, hm'] at h₂
  rw [hm'] at hbsize hblock
  have huses := addUses_eq_ok h₂
  have hsize := huses.size
  have hvalue₂ := huses.value
  obtain ⟨values', rfl⟩ := huses.rest
  refine ⟨fun j => ?_, hblock, fun v => ?_, by simp, hbsize, hsize.trans hvsize⟩
  · obtain ⟨j⟩ := j
    by_cases hj : j = m.nodes.size
    · simp [hj, Module.node?]
    · simp [hj, Module.node?, Array.getElem?_push]
  · refine (hvalue₂ v).trans ?_
    have := hvalue v
    simp only [Nat.zero_add] at this
    rw [← this]
    rfl

theorem exists_store (h : ∀ v ∈ operands, v.index < m.values.size) :
    ∃ m₁, m.store b op operands types loc = .ok m₁ := by
  obtain ⟨-, ⟨values, hm⟩, hvsize, -⟩ := m.addResults_eq ⟨m.nodes.size⟩ 0 types
  obtain ⟨-, ⟨blocks, hm'⟩, -, -⟩ :=
    (m.addResults ⟨m.nodes.size⟩ 0 types).2.addRegions_eq ⟨m.nodes.size⟩ op.regionKinds
  refine exists_bind_ok (exists_addUses fun v hv => ?_) fun _ _ => ⟨_, rfl⟩
  rw [hm', hvsize]
  exact Nat.lt_add_right _ (h v hv)

end Module

/-! ## Places -/

namespace Linked

variable {m m₁ m' : Module} {lists : BlockId → List NodeId} {loose : Option NodeId} {id : NodeId}
  {n : Node} {pos : Position} {gap : Gap} {types : List TypeId}

/-- A node lies in a block that is there, so blocks that are not there hold none. -/
theorem eq_nil_of_le (h : Linked m lists none) {b : BlockId} (hb : m.blocks.size ≤ b.index) :
    lists b = [] := by
  rw [List.eq_nil_iff_forall_not_mem]
  intro x hx
  obtain ⟨nd, hnd, he, rfl⟩ := h.exists_node hx
  obtain ⟨blk, hblk⟩ := h.home hnd he
  exact absurd (Module.lt_of_block? hblk) (Nat.not_lt.2 hb)

/-- An erased anchor stands for the end of its block, for a module as for its outline. -/
theorem resolve_eq (h : Linked m lists loose) (hpos : m.Admits pos)
    (hloose : ∀ a, loose = some a → pos ≠ .before a ∧ pos ≠ .after a) :
    m.gapAt ((m.outlineOf lists).resolve pos) = m.gapAt pos ∧
      ∃ b, (m.outlineOf lists).block? pos = some b ∧
        ((m.outlineOf lists).resolve pos).In lists b := by
  have hanchor : ∀ {anchor : NodeId}, anchor.index < m.nodes.size → ∃ nd,
      m.node? anchor = some nd ∧
      (m.outlineOf lists).slot? anchor = some ⟨nd.parent, nd.regions, nd.erased⟩ := fun hlt => by
    obtain ⟨nd, hnd⟩ := Module.exists_node?_iff.2 hlt
    exact ⟨nd, hnd, Module.outline_slot? (n := nd.core) (Module.core_of_node? hnd)⟩
  cases pos with
  | before anchor =>
    obtain ⟨nd, hnd, hentry⟩ := hanchor hpos
    simp only [Outline.resolve, Outline.block?, hentry]
    cases he : nd.erased with
    | true => exact ⟨by simp [Module.gapAt, Module.node_eq_ok_iff.2 hnd, he, ok_bind], _, rfl, rfl⟩
    | false =>
      exact ⟨rfl, _, rfl, h.mem_iff.2 ⟨fun hl => (hloose _ hl).1 rfl, nd, hnd, he, rfl⟩⟩
  | after anchor =>
    obtain ⟨nd, hnd, hentry⟩ := hanchor hpos
    simp only [Outline.resolve, Outline.block?, hentry]
    cases he : nd.erased with
    | true => exact ⟨by simp [Module.gapAt, Module.node_eq_ok_iff.2 hnd, he, ok_bind], _, rfl, rfl⟩
    | false =>
      exact ⟨rfl, _, rfl, h.mem_iff.2 ⟨fun hl => (hloose _ hl).2 rfl, nd, hnd, he, rfl⟩⟩
  | front b => exact ⟨rfl, b, rfl, rfl⟩
  | back b => exact ⟨rfl, b, rfl, rfl⟩

/-- The gap of a position cuts the list of its block in two where the outline puts a node. -/
theorem gapAt_outline (h : Linked m lists loose) (hpos : m.Admits pos)
    (hloose : ∀ a, loose = some a → pos ≠ .before a ∧ pos ≠ .after a)
    (hgap : m.gapAt pos = .ok gap) (id : NodeId) :
    (m.outlineOf lists).block? pos = some gap.block ∧ ∃ l r, lists gap.block = l ++ r ∧
      gap.prev = l.getLast? ∧ gap.next = r.head? ∧
      ((m.outlineOf lists).resolve pos).insert id (lists gap.block) = l ++ id :: r := by
  obtain ⟨hgap', b, hb, hin⟩ := h.resolve_eq hpos hloose
  obtain ⟨rfl, l, r, hl⟩ := h.gapAt_eq_ok hin (hgap'.trans hgap) id
  exact ⟨hb, l, r, hl⟩

/-- A node that is stored with its regions is loose, and the regions are empty. -/
theorem of_stored (h : Linked m lists none) (hs : m.Stored m₁ n types)
    (hparent : n.parent.index < m.blocks.size) :
    Linked m₁ lists (some ⟨m.nodes.size⟩) := by
  have hfresh : ∀ {b}, (⟨m.nodes.size⟩ : NodeId) ∉ lists b := fun hm =>
    absurd (h.lt_nodes_size hm) (Nat.lt_irrefl _)
  have hold : ∀ {b j}, j ∈ lists b → m₁.node? j = m.node? j := fun hj => by
    rw [hs.node?, if_neg (ne_of_mem_of_not_mem hj hfresh)]
  -- A block that is new is as empty as its list.
  have hnew : ∀ {b blk}, m₁.block? b = some blk → m.block? b = some blk ∨
      (lists b = [] ∧ blk.first = none ∧ blk.last = none ∧ blk.len = 0) := fun {b blk} hb => by
    rw [hs.block?] at hb
    split at hb
    · exact Or.inl hb
    · next hge =>
      obtain ⟨kind, -, rfl⟩ := Option.map_eq_some_iff.1 hb
      exact Or.inr ⟨h.eq_nil_of_le (Nat.not_lt.1 hge), rfl, rfl, rfl⟩
  have hblock : ∀ {b}, b.index < m.blocks.size → ∃ blk, m₁.block? b = some blk := fun hb =>
    Module.exists_block?_iff.2 (by rw [hs.blocks_size]; exact Nat.lt_add_right _ hb)
  refine ⟨?_, ?_, ?_, h.nodup, ?_, ?_, ?_⟩
  · intro b blk hb
    rcases hnew hb with hb | ⟨hl, hfirst, -, -⟩
    · exact h.first hb
    · rw [hl, hfirst]
      rfl
  · intro b blk hb
    rcases hnew hb with hb | ⟨hl, -, hlast, -⟩
    · exact h.last hb
    · rw [hl, hlast]
      rfl
  · intro b blk hb
    rcases hnew hb with hb | ⟨hl, -, -, hlen⟩
    · exact h.len hb
    · rw [hl, hlen]
      rfl
  · intro b j
    by_cases hj : j = ⟨m.nodes.size⟩
    · subst hj
      simp [hfresh]
    · rw [hs.node?, if_neg hj, h.mem_iff]
      simp [Ne.symm hj]
  · intro b l x r nd hl hx
    exact h.link hl (by rwa [hold (b := b) (by simp [hl])] at hx)
  · intro j nd hj he
    rw [hs.node?] at hj
    split at hj
    · obtain rfl := Option.some.inj hj
      exact hblock hparent
    · obtain ⟨blk, hblk⟩ := h.home hj he
      exact hblock (Module.lt_of_block? hblk)

end Linked

end NetPrep
