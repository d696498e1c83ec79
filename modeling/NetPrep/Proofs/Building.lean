import Mathlib
import NetPrep.Proofs.Built

/-!
# Building

Creating, cloning and moving nodes, and redirecting operands, in any module that is built by edits:
none of these edits fails if it is permitted, each does to the outline what it is meant to do, and what
it leaves is built by one more edit.
-/

namespace NetPrep

/-! ## Blocks -/

/-- What a node has to do with the nesting of blocks. -/
def Node.seat (n : Node) : Op × BlockId × List BlockId × Bool :=
  (n.op, n.parent, n.regions, n.erased)

namespace Housed

variable {m m₁ m' : Module} {lists : BlockId → List NodeId} {loose : Option NodeId} {id : NodeId}
  {nd n : Node} {l r : List NodeId} {gap : Gap} {types : List TypeId}

/-- Regions lie among the blocks that are there. -/
theorem lt_of_mem_regions (h : Housed m lists loose) (hn : m.core id = some n) {b : BlockId}
    (hb : b ∈ n.regions) : b.index < m.blocks.size := by
  obtain ⟨kind, hkind⟩ := h.owner hn hb
  obtain ⟨blk, hblk, -⟩ := Option.map_eq_some_iff.1 hkind
  exact Module.lt_of_block? hblk

/-- A block is a region of one node only. -/
theorem owner_unique (h : Housed m lists loose) (hn : m.core id = some n) {j : NodeId} {nj : Node}
    (hj : m.core j = some nj) {b : BlockId} (hb : b ∈ n.regions) (hb' : b ∈ nj.regions) :
    j = id := by
  obtain ⟨kind, hkind⟩ := h.owner hn hb
  obtain ⟨kind', hkind'⟩ := h.owner hj hb'
  have heq : kind' = kind ∧ j = id := by
    simpa [Block.empty] using hkind'.symm.trans hkind
  exact heq.2

/-- Storing a node with new regions leaves it loose. -/
theorem store (h : Housed m lists none) (hs : m.Stored m₁ n types)
    (hparent : n.parent.index < m.blocks.size)
    (hregions : n.regions = m.nextBlocks n.op.regionKinds.length) :
    Housed m₁ lists (some ⟨m.nodes.size⟩) := by
  have hcore : ∀ j, m₁.core j = if j = ⟨m.nodes.size⟩ then some n.core else m.core j := fun j => by
    rw [Module.core, hs.node?]
    split <;> rfl
  have hcases : ∀ {j nj}, m₁.core j = some nj → (j = ⟨m.nodes.size⟩ ∧ nj = n.core) ∨
      (j ≠ ⟨m.nodes.size⟩ ∧ m.core j = some nj) := fun {j nj} hj => by
    rw [hcore] at hj
    split at hj
    · next heq => exact Or.inl ⟨heq, (Option.some.inj hj).symm⟩
    · next hne => exact Or.inr ⟨hne, hj⟩
  refine ⟨h.linked.of_stored hs hparent, ?_, ?_, ?_, ?_, ?_⟩
  · intro j nj hj
    rw [hs.blocks_size]
    rcases hcases hj with ⟨-, rfl⟩ | ⟨-, hj⟩
    · exact Nat.lt_add_right _ hparent
    · exact Nat.lt_add_right _ (h.home hj)
  · intro j nj b hj hb
    rcases hcases hj with ⟨rfl, rfl⟩ | ⟨-, hj⟩
    · rw [show n.core.regions = n.regions from rfl, hregions, Module.mem_nextBlocks] at hb
      have hlt : b.index - m.blocks.size < n.op.regionKinds.length := by omega
      refine ⟨n.op.regionKinds[b.index - m.blocks.size], ?_⟩
      rw [Module.blockCore, hs.block?, if_neg (by omega), List.getElem?_eq_getElem hlt]
      rfl
    · obtain ⟨kind, hkind⟩ := h.owner hj hb
      exact ⟨kind, by
        rw [Module.blockCore, hs.block?, if_pos (h.lt_of_mem_regions hj hb)]
        exact hkind⟩
  · intro j nj hj
    rcases hcases hj with ⟨-, rfl⟩ | ⟨-, hj⟩
    · exact hregions ▸ Module.nodup_nextBlocks _
    · exact h.regions_nodup hj
  · intro j nj hj
    rcases hcases hj with ⟨-, rfl⟩ | ⟨-, hj⟩
    · change n.regions.length = _
      rw [hregions, Module.nextBlocks, List.length_map, List.length_range]
      rfl
    · exact h.regions_length hj
  · refine h.acyclic.add (fun b (hb : ⟨m.nodes.size⟩ ∈ lists b) => ?_) (fun j hj => ?_) rfl
    · exact Nat.lt_irrefl _ (h.linked.lt_nodes_size hb)
    · change (m₁.core j).map _ = (m.core j).map _
      rw [hcore, if_neg hj]

/-- An edit that takes nodes off lists, or leaves them, and leaves the nesting of blocks. -/
theorem congr {lists' : BlockId → List NodeId} {loose' : Option NodeId} (h : Housed m lists loose)
    (hlinked : Linked m' lists' loose') (hlist : ∀ {b k}, k ∈ lists' b → k ∈ lists b)
    (hsize : m'.blocks.size = m.blocks.size) (hblock : ∀ b, m'.blockCore b = m.blockCore b)
    (hcore : ∀ {j n'}, m'.core j = some n' →
      ∃ n, m.core j = some n ∧ n'.op = n.op ∧ n'.parent = n.parent ∧ n'.regions = n.regions) :
    Housed m' lists' loose' := by
  refine ⟨hlinked, ?_, ?_, ?_, ?_, ?_⟩
  · intro j nj hj
    obtain ⟨n, hn, -, hp, -⟩ := hcore hj
    rw [hsize, hp]
    exact h.home hn
  · intro j nj b hj hb
    obtain ⟨n, hn, -, -, hr⟩ := hcore hj
    rw [hblock]
    exact h.owner hn (hr ▸ hb)
  · intro j nj hj
    obtain ⟨n, hn, -, -, hr⟩ := hcore hj
    rw [hr]
    exact h.regions_nodup hn
  · intro j nj hj
    obtain ⟨n, hn, hop, -, hr⟩ := hcore hj
    rw [hop, hr]
    exact h.regions_length hn
  · refine h.acyclic.mono (fun {k e'} he' => ?_) hlist
    obtain ⟨nk, hnk, rfl⟩ := Module.exists_core_of_slot? he'
    obtain ⟨n, hn, -, -, hr⟩ := hcore hnk
    exact ⟨_, Module.outline_slot? hn, hr.symm⟩

theorem erase_eq_update (h : Linked m lists none) (hid : m.node? id = some nd) :
    Function.update lists nd.parent ((lists nd.parent).erase id) = fun b => (lists b).erase id := by
  funext b
  by_cases hb : b = nd.parent
  · rw [hb, Function.update_self]
  · rw [Function.update_of_ne hb, List.erase_of_not_mem fun hm => hb (h.parent_eq hid hm).symm]

/-- Taking a node out of its block leaves it loose. -/
theorem detach (h : Housed m lists none) (hid : m.node? id = some nd) (he : nd.erased = false)
    (hok : m.detach id = .ok m') : Housed m' (fun b => (lists b).erase id) (some id) := by
  have hcore := Module.core_of_detach hid hok
  have hrelinks := (Module.detach_eq_ok hid hok).relinks
  exact h.congr (erase_eq_update h.linked hid ▸ h.linked.remove hid he hok)
    (fun hk => List.mem_of_mem_erase hk) hrelinks.blocks_size hrelinks.blockCore
    fun {j n'} hj => ⟨n', hcore j ▸ hj, rfl, rfl, rfl⟩

/-- Putting a loose node into a gap of a block that is not under it. -/
theorem link (h : Housed m lists (some id)) (hid : m.node? id = some nd) (he : nd.erased = false)
    (hl : lists gap.block = l ++ r) (hp : gap.prev = l.getLast?) (hn : gap.next = r.head?)
    (hblk : gap.block.index < m.blocks.size)
    (hunder : ¬ (m.outlineOf lists).Under id gap.block) (hok : m.link id gap = .ok m') :
    Housed m' (Function.update lists gap.block (l ++ id :: r)) none := by
  have hcore := Module.core_of_link hok
  have hrelinks := (Module.link_eq_ok hok).1
  have hold : ∀ {j nj}, m'.core j = some nj → ∃ n, m.core j = some n ∧
      nj = { n with parent := if id = j then gap.block else n.parent } := fun {j nj} hj => by
    rw [hcore] at hj
    obtain ⟨n, hn, rfl⟩ := Option.map_eq_some_iff.1 hj
    exact ⟨n, hn, rfl⟩
  refine ⟨h.linked.insert hid he hl hp hn (Module.exists_block?_iff.2 hblk) hok, ?_, ?_, ?_, ?_, ?_⟩
  · intro j nj hj
    obtain ⟨n, hn, rfl⟩ := hold hj
    rw [hrelinks.blocks_size]
    dsimp only
    split
    · exact hblk
    · exact h.home hn
  · intro j nj b hj hb
    obtain ⟨n, hn, rfl⟩ := hold hj
    rw [hrelinks.blockCore]
    exact h.owner hn hb
  · intro j nj hj
    obtain ⟨n, hn, rfl⟩ := hold hj
    exact h.regions_nodup (n := n) hn
  · intro j nj hj
    obtain ⟨n, hn, rfl⟩ := hold hj
    exact h.regions_length (n := n) hn
  · refine h.acyclic.put hunder (fun {k e'} he' => ?_) fun {b k} hk => ?_
    · obtain ⟨nk, hnk, rfl⟩ := Module.exists_core_of_slot? he'
      obtain ⟨n, hn, rfl⟩ := hold hnk
      exact ⟨_, Module.outline_slot? hn, rfl⟩
    · change k ∈ Function.update lists gap.block (l ++ id :: r) b at hk
      by_cases hb : b = gap.block
      · subst hb
        rw [Function.update_self] at hk
        change k ∈ lists gap.block ∨ _
        rw [hl]
        simp only [List.mem_append, List.mem_cons] at hk ⊢
        tauto
      · rw [Function.update_of_ne hb] at hk
        exact Or.inl hk

end Housed

/-- Such an edit leaves the outline. -/
theorem Module.outline_congr {m m' : Module} (hnodes : m'.nodes.size = m.nodes.size)
    (hblocks : m'.blocks.size = m.blocks.size) (hlists : m'.nodesOf = m.nodesOf)
    (hcore : ∀ j, (m'.core j).map Node.seat = (m.core j).map Node.seat) :
    m'.outline = m.outline := by
  refine Outline.ext hnodes hblocks (funext fun j => ?_) hlists
  have hseat := congrArg (Option.map fun s => (⟨s.2.1, s.2.2.1, s.2.2.2⟩ : Outline.Entry)) (hcore j)
  rw [Option.map_map, Option.map_map] at hseat
  exact hseat

/-! ## Values -/

/-- What a node has to do with values. -/
def Node.wires (n : Node) : List ValueId × List ValueId × Bool := (n.operands, n.results, n.erased)

namespace Tracked

variable {m m' : Module} {n : Node} {types : List TypeId}

theorem lt_of_uses (h : Tracked m) {u : Use} {v : ValueId} (hu : m.Uses u v) :
    v.index < m.values.size := by
  obtain ⟨nu, hnu, hv⟩ := hu
  exact h.operand (Module.core_of_live? hnu) (List.mem_of_getElem? hv)

/-- An edit that changes neither operands nor results nor values. -/
theorem congr (h : Tracked m) (hvalues : m'.values = m.values)
    (hcore : ∀ j, (m'.core j).map Node.wires = (m.core j).map Node.wires) : Tracked m' := by
  have hold : ∀ {j nj}, m'.core j = some nj → ∃ n, m.core j = some n ∧ n.wires = nj.wires :=
    fun {j nj} hj => by
      have hwires := hcore j
      rw [hj] at hwires
      exact Option.map_eq_some_iff.1 hwires.symm
  have hvalue : ∀ v, m'.value? v = m.value? v := fun v => by simp [Module.value?, hvalues]
  have huses : ∀ {u v}, m'.Uses u v ↔ m.Uses u v := by
    intro u v
    unfold Module.Uses Module.live?
    have hwires := hcore u.node
    cases hn : m.core u.node <;> cases hn' : m'.core u.node <;>
      simp_all [Node.wires, Option.filter_some]
  refine ⟨⟨?_, ?_⟩, ?_, ?_⟩
  · intro v x hx
    exact h.uses_nodup (hvalue v ▸ hx)
  · intro v x u hx
    rw [huses]
    exact h.mem_uses (hvalue v ▸ hx)
  · intro j nj v hj hv
    obtain ⟨n, hn, hwires⟩ := hold hj
    simp only [Node.wires, Prod.mk.injEq] at hwires
    rw [hvalues]
    exact h.operand hn (hwires.1 ▸ hv)
  · intro j nj i v hj hv
    obtain ⟨n, hn, hwires⟩ := hold hj
    simp only [Node.wires, Prod.mk.injEq] at hwires
    rw [Module.def?, hvalue]
    exact h.result hn (hwires.2.1 ▸ hv)

/-- A new node with new results, whose operands are recorded. -/
theorem create (h : Tracked m) (hops : ∀ v ∈ n.operands, v.index < m.values.size)
    (hresults : n.results = m.nextValues types.length) (herased : n.erased = false)
    (hsize : m'.values.size = m.values.size + types.length)
    (hcore : ∀ j, m'.core j = if j = ⟨m.nodes.size⟩ then some n else m.core j)
    (hvalue : ∀ v, m'.value? v = (if v.index < m.values.size then m.value? v else
      (types[v.index - m.values.size]?).map fun t =>
        ⟨t, .result ⟨m.nodes.size⟩ (v.index - m.values.size), []⟩).map fun x =>
          { x with uses := x.uses ++ usesAmong ⟨m.nodes.size⟩ v 0 n.operands }) : Tracked m' := by
  have hlive : m'.live? ⟨m.nodes.size⟩ = some n := by
    rw [Module.live?, hcore, if_pos rfl]
    simp [herased]
  have hother : ∀ {j : NodeId}, j ≠ ⟨m.nodes.size⟩ → m'.live? j = m.live? j := fun hj => by
    rw [Module.live?, hcore, if_neg hj, Module.live?]
  have hcases : ∀ {j nj}, m'.core j = some nj → (j = ⟨m.nodes.size⟩ ∧ nj = n) ∨
      m.core j = some nj := fun {j nj} hj => by
    rw [hcore] at hj
    split at hj
    · next heq => exact Or.inl ⟨heq, (Option.some.inj hj).symm⟩
    · exact Or.inr hj
  refine ⟨(h.toRecorded.create (fun hu => h.lt_of_uses hu) hlive hother hvalue).1, ?_, ?_⟩
  · intro j nj v hj hv
    rw [hsize]
    rcases hcases hj with ⟨-, rfl⟩ | hj
    · exact Nat.lt_add_right _ (hops v hv)
    · exact Nat.lt_add_right _ (h.operand hj hv)
  · intro j nj i v hj hv
    rcases hcases hj with ⟨rfl, rfl⟩ | hj
    · rw [hresults] at hv
      obtain ⟨hi, rfl⟩ := Module.getElem?_nextValues.1 hv
      rw [Module.def?, hvalue, if_neg (by simp)]
      simp [hi]
    · have hd := h.result hj hv
      obtain ⟨x, hx, hxd⟩ := Option.map_eq_some_iff.1 hd
      rw [Module.def?, hvalue, if_pos (Module.lt_of_value? hx), hx]
      simpa using hxd

/-- Redirecting operands to values that are there. -/
theorem rewrites {f : NodeId → List ValueId → List ValueId} {v : ValueId} (h : Tracked m)
    (hr : Recorded m') (hrewrites : m.Rewrites m' f) (hv : v.index < m.values.size)
    (hf : ∀ j ops, ∀ w ∈ f j ops, w = v ∨ w ∈ ops) : Tracked m' := by
  have hold : ∀ {j nj}, m'.core j = some nj → ∃ n, m.core j = some n ∧
      nj = { n with operands := f j n.operands } := fun {j nj} hj => by
    rw [Module.core, hrewrites.node?, Option.map_map] at hj
    obtain ⟨n, hn, rfl⟩ := Option.map_eq_some_iff.1 hj
    exact ⟨n.core, Module.core_of_node? hn, rfl⟩
  refine ⟨hr, ?_, ?_⟩
  · intro j nj w hj hw
    obtain ⟨n, hn, rfl⟩ := hold hj
    rw [hrewrites.values_size]
    rcases hf _ _ w hw with rfl | hw
    · exact hv
    · exact h.operand hn hw
  · intro j nj i w hj hw
    obtain ⟨n, hn, rfl⟩ := hold hj
    obtain ⟨uses, hvalue⟩ := hrewrites.value? w
    rw [Module.def?, hvalue, Option.map_map]
    exact h.result hn hw

end Tracked

/-! ## Creating -/

namespace Built

variable {count : Nat} {m m₁ m' : Module} {id : NodeId} {n : Node} {pos : Position} {op : Op}
  {operands : List ValueId} {types : List TypeId} {loc : Loc} {gap : Gap} {b : BlockId}
  {lists : BlockId → List NodeId}

theorem home_of_node? (h : Built count m) {nd : Node} (hid : m.node? id = some nd) :
    nd.parent.index < m.blocks.size := by
  have hhome := h.home (Module.core_of_node? hid)
  exact hhome

/-- A position that is there lies in a block that is there. -/
theorem lt_of_block? (h : Built count m) (hpos : m.Admits pos) (hb : m.outline.block? pos = some b) :
    b.index < m.blocks.size := by
  have hanchor : ∀ {anchor : NodeId}, (m.outline.slot? anchor).map (·.home) = some b →
      b.index < m.blocks.size := fun ha => by
    obtain ⟨e, he, rfl⟩ := Option.map_eq_some_iff.1 ha
    obtain ⟨n, hn, rfl⟩ := Module.exists_core_of_slot? he
    exact h.home hn
  cases pos with
  | before anchor => exact hanchor hb
  | after anchor => exact hanchor hb
  | front c =>
    obtain rfl : c = b := Option.some.inj hb
    exact hpos
  | back c =>
    obtain rfl : c = b := Option.some.inj hb
    exact hpos

/-- What a module that a node was stored in has room for. -/
theorem room_of_stored (h : Built count m) (hs : m.Stored m₁ n types) (horder : n.order = 0)
    (hcount : count < 2 ^ 43) : m₁.Room :=
  (h.roomy hcount).room hs.nodes_size.le (hs.orderOf_le horder)

theorem keyed_of_stored (h : Built count m) (hs : m.Stored m₁ n types) (horder : n.order = 0) :
    Keyed m₁ m.nodesOf (count * orderStride) := by
  have hold : ∀ {j}, j ≠ ⟨m.nodes.size⟩ → m₁.orderOf j = m.orderOf j := fun hj => by
    rw [Module.orderOf, hs.node?, if_neg hj, Module.orderOf]
  have hmem : ∀ {b j}, j ∈ m.nodesOf b → m₁.orderOf j = m.orderOf j := fun hj => hold fun he => by
    have hlt := h.linked.lt_nodes_size hj
    rw [he] at hlt
    exact Nat.lt_irrefl _ hlt
  refine ⟨fun b => (h.keyed.rising b).imp_of_mem fun hx hy hxy => ?_, fun j => ?_⟩
  · rwa [hmem hx, hmem hy]
  · exact (hs.orderOf_le horder j).trans (h.keyed.le j)

theorem createNode_safe (h : Built count m) (hpos : m.Admits pos)
    (hops : ∀ v ∈ operands, v.index < m.values.size) :
    Safe (count < 2 ^ 43) (m.createNode pos op operands types loc) := by
  rw [Module.createNode_eq]
  refine .bind_ok (Module.exists_gapAt hpos h.home_of_node?) fun gap hgap => ?_
  obtain ⟨hb, l, r, hl, hp, hn, -⟩ := h.linked.gapAt_outline hpos (by simp) hgap ⟨m.nodes.size⟩
  have hblk := h.lt_of_block? hpos hb
  refine .bind_ok (Module.exists_store hops) fun m₁ h₁ => ?_
  have hs := Module.store_eq_ok h₁
  have hfresh := hs.node?_self
  refine .bind ((h.linked.of_stored hs hblk).link_safe hfresh rfl hl hp hn ?_
    fun hcount => h.room_of_stored hs rfl hcount) fun m' _ => .ok _
  rw [hs.blocks_size]
  exact Nat.lt_add_right _ hblk

/-- Creating a node puts it into the list of its block, with empty regions. -/
theorem createNode (h : Built count m) (hpos : m.Admits pos)
    (hops : ∀ v ∈ operands, v.index < m.values.size)
    (hok : m.createNode pos op operands types loc = .ok (id, m')) :
    Built (count + 1) m' ∧ m'.outline = m.outline.create pos op.regionKinds.length ∧
      id.index < m'.nodes.size := by
  rw [Module.createNode_eq] at hok
  simp only [bind_eq_ok_iff] at hok
  obtain ⟨gap, hgap, m₁, h₁, m₂, h₂, hret⟩ := hok
  cases hret
  obtain ⟨hb, l, r, hl, hp, hn, hins⟩ :=
    h.linked.gapAt_outline hpos (by simp) hgap ⟨m.nodes.size⟩
  have hblk := h.lt_of_block? hpos hb
  have hs := Module.store_eq_ok h₁
  have hfresh := hs.node?_self
  have hblk₁ : gap.block.index < m₁.blocks.size := by
    rw [hs.blocks_size]
    exact Nat.lt_add_right _ hblk
  have hstored := h.toHoused.store hs hblk rfl
  obtain ⟨hrelinks, -, -⟩ := Module.link_eq_ok h₂
  have hcore₁ : ∀ j, m₁.core j = if j = ⟨m.nodes.size⟩ then
      some (m.freshNode gap.block op operands types loc) else m.core j := fun j => by
    rw [Module.core, hs.node?]
    split <;> rfl
  have hcore : ∀ j, m'.core j = if j = ⟨m.nodes.size⟩ then
      some (m.freshNode gap.block op operands types loc) else m.core j := fun j => by
    rw [Module.core_of_link h₂, hcore₁]
    by_cases hj : j = ⟨m.nodes.size⟩
    · simp [hj, Module.freshNode, Node.fresh]
    · simp [hj, Ne.symm hj]
  -- Nothing lies in the new regions yet, so the block is not one of them.
  have hunder : ¬ (m₁.outlineOf m.nodesOf).Under ⟨m.nodes.size⟩ gap.block := by
    rintro ⟨j, e, hj, he, hmem⟩
    have hregions : ∀ {e b}, (m₁.outlineOf m.nodesOf).slot? ⟨m.nodes.size⟩ = some e →
        b ∈ e.regions → m.blocks.size ≤ b.index := fun {e b} he hb => by
      obtain ⟨nj, hnj, rfl⟩ := Module.exists_core_of_slot? he
      rw [hcore₁, if_pos rfl] at hnj
      obtain rfl := Option.some.inj hnj
      exact (Module.mem_nextBlocks.1 hb).1
    have hself : j = ⟨m.nodes.size⟩ := by
      clear he hmem
      induction hj with
      | self => rfl
      | nested _ he hb hk ih =>
        subst ih
        have hnil := h.linked.eq_nil_of_le (hregions he hb)
        change _ ∈ m.nodesOf _ at hk
        rw [hnil] at hk
        cases hk
    subst hself
    exact Nat.not_lt.2 (hregions he hmem) hblk
  have hhoused := hstored.link hfresh rfl hl hp hn hblk₁ hunder h₂
  have hlists := hhoused.linked.nodesOf_eq
  have hkeyed := hstored.linked.keyed_link (h.keyed_of_stored hs rfl) hfresh rfl hl hp hn hblk₁
    (by rw [hs.nodes_size, ← Nat.succ_mul]; exact Nat.mul_le_mul_right _ (Nat.succ_le_succ h.size)) h₂
  rw [← Nat.succ_mul] at hkeyed
  have hnsize := hrelinks.nodes_size.trans hs.nodes_size
  have htracked : Tracked m' := h.toTracked.create (n := m.freshNode gap.block op operands types loc)
    hops rfl rfl (by rw [hrelinks.values]; exact hs.values_size) hcore fun v => by
      have hvalue : m'.value? v = m₁.value? v := by simp [Module.value?, hrelinks.values]
      rw [hvalue]
      exact hs.value? v
  refine ⟨⟨hlists.symm ▸ hhoused, htracked, hlists.symm ▸ hkeyed, ?_⟩, ?_, ?_⟩
  · rw [hnsize]
    exact Nat.succ_le_succ h.size
  · rw [Outline.create, Outline.put_eq (o := m.outline) hb]
    refine Outline.ext hnsize (hrelinks.blocks_size.trans hs.blocks_size) ?_ ?_
    · funext j
      change (m'.core j).map _ = Function.update m.outline.slot? ⟨m.nodes.size⟩ _ j
      rw [hcore, Function.update_apply]
      split <;> rfl
    · change m'.nodesOf = Function.update m.nodesOf gap.block _
      rw [hlists, ← hins]
      rfl
  · rw [hnsize]
    exact Nat.lt_succ_self _

theorem succ (h : Built count m) : Built (count + 1) m where
  toHoused := h.toHoused
  toTracked := h.toTracked
  keyed := ⟨h.keyed.rising, fun j => (h.keyed.le j).trans
    (Nat.mul_le_mul_right _ (Nat.le_succ _))⟩
  size := h.size.trans (Nat.le_succ _)

/-! ## Labels and cloning -/

/-- An edit that changes neither lists nor keys nor the nesting of blocks. -/
theorem congr (h : Built count m) (hlinked : Linked m' m.nodesOf none)
    (htracked : Tracked m') (hnodes : m'.nodes.size = m.nodes.size)
    (hblocks : m'.blocks.size = m.blocks.size) (hblock : ∀ b, m'.blockCore b = m.blockCore b)
    (hcore : ∀ j, (m'.core j).map Node.seat = (m.core j).map Node.seat)
    (horder : ∀ j, m'.orderOf j = m.orderOf j) : Built count m' ∧ m'.outline = m.outline := by
  have hlists := hlinked.nodesOf_eq
  have hkeyed : Keyed m' m.nodesOf (count * orderStride) := by
    refine ⟨fun b => ?_, fun j => ?_⟩
    · simpa only [horder] using h.keyed.rising b
    · rw [horder]
      exact h.keyed.le j
  refine ⟨⟨?_, htracked, hlists.symm ▸ hkeyed, hnodes ▸ h.size⟩,
    Module.outline_congr hnodes hblocks hlists hcore⟩
  rw [hlists]
  refine h.toHoused.congr hlinked (fun hk => hk) hblocks hblock fun {j n'} hj => ?_
  have hseat := hcore j
  rw [hj] at hseat
  obtain ⟨n, hn, hseat⟩ := Option.map_eq_some_iff.1 hseat.symm
  simp only [Node.seat, Prod.mk.injEq] at hseat
  exact ⟨n, hn, hseat.1.symm, hseat.2.1.symm, hseat.2.2.1.symm⟩

/-- Naming a node and setting its states. -/
theorem modifyNode (h : Built count m) {f : Node → Node}
    (hf : ∀ n, f n = { n with name := (f n).name, twoState := (f n).twoState })
    (hok : m.modifyNode id f = .ok m') : Built count m' ∧ m'.outline = m.outline := by
  have hrelinks := Module.Relinks.of_modifyNode hok
  obtain ⟨nodes, rfl, hsize, hnode⟩ := Module.modifyNode_eq_ok hok
  have hsame : ∀ {α : Type} (g : Node → α)
      (_ : ∀ n name t, g { n with name := name, twoState := t } = g n) j,
      (({ m with nodes } : Module).node? j).map g = (m.node? j).map g := by
    intro α g hg j
    rw [hnode]
    split
    · rw [Option.map_map]
      refine congrArg (Option.map · (m.node? j)) (funext fun n => ?_)
      rw [Function.comp_apply, hf n]
      exact hg n _ _
    · rfl
  have hcore : ∀ {α : Type} (g : Node → α)
      (_ : ∀ n name t, g { n with name := name, twoState := t } = g n) j,
      (({ m with nodes } : Module).core j).map g = (m.core j).map g := by
    intro α g hg j
    simpa only [Module.core, Option.map_map] using
      hsame (g ∘ Node.core) (fun n name t => hg n.core name t) j
  refine h.congr (h.linked.congr (hsame _ fun _ _ _ => rfl) fun _ => rfl)
    (h.toTracked.congr rfl (hcore _ fun _ _ _ => rfl)) hsize rfl (fun _ => rfl)
    (hcore _ fun _ _ _ => rfl) fun j => ?_
  unfold Module.orderOf
  rw [hsame _ fun _ _ _ => rfl]

theorem lt_of_result (h : Built count m) (hn : m.core id = some n) {v : ValueId}
    (hv : v ∈ n.results) : v.index < m.values.size := by
  obtain ⟨i, hi⟩ := List.mem_iff_getElem?.1 hv
  obtain ⟨x, hx, -⟩ := Option.map_eq_some_iff.1 (h.result hn hi)
  exact Module.lt_of_value? hx

theorem cloneNode_safe (h : Built count m) {source : NodeId} (hsource : source.index < m.nodes.size)
    (hpos : m.Admits pos) : Safe (count < 2 ^ 43) (m.cloneNode source pos) := by
  obtain ⟨n, hn⟩ := Module.exists_node?_iff.2 hsource
  have hcore := Module.core_of_node? hn
  refine .bind_ok ⟨n, Module.node_eq_ok_iff.2 hn⟩ fun n' hn' => ?_
  obtain rfl := Option.some.inj (hn.symm.trans (Module.node_eq_ok_iff.1 hn'))
  refine .bind_ok (exists_mapM fun v hv => ?_) fun types _ => ?_
  · obtain ⟨x, hx⟩ := Module.exists_value?_iff.2 (h.lt_of_result hcore (v := v) hv)
    exact exists_bind_ok ⟨x, Module.value_eq_ok_iff.2 hx⟩ fun _ _ => ⟨_, rfl⟩
  · have hops : ∀ v ∈ n.operands, v.index < m.values.size := fun v hv => h.operand hcore hv
    refine .bind (h.createNode_safe hpos hops) fun ⟨id, m₁⟩ h₁ => ?_
    exact .bind_ok (Module.exists_modifyNode (h.createNode hpos hops h₁).2.2) fun _ _ => .ok _

/-- A clone goes into the list of its block, with as many regions as its source. -/
theorem cloneNode (h : Built count m) {source : NodeId} (hpos : m.Admits pos)
    (hok : m.cloneNode source pos = .ok (id, m')) :
    Built (count + 1) m' ∧ m'.outline =
      m.outline.create pos (((m.outline.slot? source).map (·.regions.length)).getD 0) := by
  simp only [Module.cloneNode, bind_eq_ok_iff, Module.node_eq_ok_iff] at hok
  obtain ⟨n, hn, types, -, ⟨id', m₁⟩, h₁, m₂, h₂, hret⟩ := hok
  cases hret
  have hcore := Module.core_of_node? hn
  obtain ⟨hb₁, ho₁, -⟩ := h.createNode hpos (fun v hv => h.operand hcore (v := v) hv) h₁
  obtain ⟨hb₂, ho₂⟩ := hb₁.modifyNode (fun _ => rfl) h₂
  refine ⟨hb₂, ?_⟩
  rw [ho₂, ho₁, show m.outline.slot? source = _ from Module.outline_slot? hcore]
  rw [Option.map_some, Option.getD_some, h.regions_length hcore]
  rfl

/-! ## Moving -/

/-- What a module is after a node was taken out of its block. -/
theorem detached (h : Built count m) {nd : Node} (hid : m.node? id = some nd)
    (he : nd.erased = false) (hok : m.detach id = .ok m₁) :
    Housed m₁ (fun b => (m.nodesOf b).erase id) (some id) ∧
    Keyed m₁ (fun b => (m.nodesOf b).erase id) (count * orderStride) ∧
    (m₁.outlineOf fun b => (m.nodesOf b).erase id) =
      { m.outline with list := fun b => (m.nodesOf b).erase id } := by
  have hrelinks := (Module.detach_eq_ok hid hok).relinks
  have horder := Linked.orderOf_detach hid hok
  refine ⟨h.toHoused.detach hid he hok, ⟨fun b => ?_, fun j => ?_⟩, ?_⟩
  · simp only [horder]
    exact (h.keyed.rising b).sublist List.erase_sublist
  · rw [horder]
    exact h.keyed.le j
  · refine Outline.ext hrelinks.nodes_size hrelinks.blocks_size (funext fun j => ?_) rfl
    change (m₁.core j).map _ = (m.core j).map _
    rw [Module.core_of_detach hid hok]

/-- Where a node that was taken out of its block goes. -/
theorem detached_gap (h : Built count m) {nd : Node} (hid : m.node? id = some nd)
    (he : nd.erased = false) (hok : m.detach id = .ok m₁) (hpos : m.Admits pos)
    (hbefore : pos ≠ .before id) (hafter : pos ≠ .after id) :
    (∃ gap, m₁.gapAt pos = .ok gap) ∧ ∀ gap, m₁.gapAt pos = .ok gap →
      m.outline.block? pos = some gap.block ∧ gap.block.index < m₁.blocks.size ∧
      ∃ l r, (m.nodesOf gap.block).erase id = l ++ r ∧ gap.prev = l.getLast? ∧
        gap.next = r.head? ∧
        (m.outline.resolve pos).insert id ((m.nodesOf gap.block).erase id) = l ++ id :: r := by
  have hrelinks := (Module.detach_eq_ok hid hok).relinks
  obtain ⟨hhoused, -, hout⟩ := h.detached hid he hok
  have hpos₁ : m₁.Admits pos := by
    unfold Module.Admits at hpos ⊢
    rwa [hrelinks.nodes_size, hrelinks.blocks_size]
  have hhome : ∀ {j n}, m₁.node? j = some n → n.parent.index < m₁.blocks.size := fun hj => by
    have hhome := hhoused.home (Module.core_of_node? hj)
    exact hhome
  refine ⟨Module.exists_gapAt hpos₁ hhome, fun gap hgap => ?_⟩
  obtain ⟨hb, hcut⟩ := hhoused.linked.gapAt_outline hpos₁ (fun a ha => by
    cases ha
    exact ⟨hbefore, hafter⟩) hgap id
  rw [hout] at hb hcut
  have hb : m.outline.block? pos = some gap.block := by
    cases pos <;> exact hb
  have hresolve : ({ m.outline with list := fun b => (m.nodesOf b).erase id } : Outline).resolve
      pos = m.outline.resolve pos := by
    cases pos <;> rfl
  rw [hresolve] at hcut
  exact ⟨hb, hrelinks.blocks_size ▸ h.lt_of_block? hpos hb, hcut⟩

theorem moveNode_safe (h : Built count m) (hn : m.live? id = some n) (hpos : m.Admits pos) :
    Safe (count < 2 ^ 43) (m.moveNode id pos) := by
  obtain ⟨nd, hid, he, rfl⟩ := Module.exists_of_live? hn
  by_cases hself : pos = .before id ∨ pos = .after id
  · unfold Module.moveNode
    rw [if_pos hself]
    exact .ok m
  · obtain ⟨hbefore, hafter⟩ := not_or.1 hself
    rw [Module.moveNode_eq hid he hbefore hafter]
    refine .bind_ok (h.linked.exists_detach hid he) fun m₁ h₁ => ?_
    obtain ⟨hhoused, -, -⟩ := h.detached hid he h₁
    obtain ⟨hgap, hcut⟩ := h.detached_gap hid he h₁ hpos hbefore hafter
    refine .bind_ok hgap fun gap hgap => ?_
    obtain ⟨-, hblk, l, r, hl, hp, hx, -⟩ := hcut gap hgap
    have hid₁ := (Module.detach_eq_ok hid h₁).node id
    rw [hid, Option.map_some] at hid₁
    exact hhoused.linked.link_safe hid₁ he hl hp hx hblk fun hcount => (h.roomy hcount).room
      ((Module.detach_eq_ok hid h₁).relinks.nodes_size.le.trans (Nat.le_succ _))
      fun j => (Linked.orderOf_detach hid h₁ j).le

/-- Moving a node takes it out of its list and puts it into another one. -/
theorem moveNode (h : Built count m) (hn : m.live? id = some n) (hpos : m.Admits pos)
    (hunder : ∀ b, m.outline.block? pos = some b → ¬ m.outline.Under id b)
    (hok : m.moveNode id pos = .ok m') :
    Built (count + 1) m' ∧ m'.outline = m.outline.move id pos := by
  obtain ⟨nd, hid, he, rfl⟩ := Module.exists_of_live? hn
  by_cases hself : pos = .before id ∨ pos = .after id
  · unfold Module.moveNode at hok
    rw [if_pos hself] at hok
    obtain rfl := Except.ok.inj hok
    rw [Outline.move, if_pos hself]
    exact ⟨h.succ, rfl⟩
  · obtain ⟨hbefore, hafter⟩ := not_or.1 hself
    rw [Module.moveNode_eq hid he hbefore hafter] at hok
    simp only [bind_eq_ok_iff] at hok
    obtain ⟨m₁, h₁, gap, hgap, h₂⟩ := hok
    obtain ⟨hhoused, hkeyed, hout⟩ := h.detached hid he h₁
    obtain ⟨hb, hblk, l, r, hl, hp, hx, hins⟩ :=
      (h.detached_gap hid he h₁ hpos hbefore hafter).2 gap hgap
    have hdetach := Module.detach_eq_ok hid h₁
    have hid₁ := hdetach.node id
    rw [hid, Option.map_some] at hid₁
    have hunder₁ : ¬ (m₁.outlineOf fun b => (m.nodesOf b).erase id).Under id gap.block := by
      rw [hout]
      exact fun hu => hunder _ hb (hu.mono (fun he' => ⟨_, he', rfl⟩)
        fun hk => List.mem_of_mem_erase hk)
    have hhoused' := hhoused.link hid₁ he hl hp hx hblk hunder₁ h₂
    have hlists := hhoused'.linked.nodesOf_eq
    have hrelinks := hdetach.relinks.trans (Module.link_eq_ok h₂).1
    have hkeyed' := hhoused.linked.keyed_link hkeyed hid₁ he hl hp hx hblk
      (by
        rw [hdetach.relinks.nodes_size, ← Nat.succ_mul]
        exact Nat.mul_le_mul_right _ (h.size.trans (Nat.le_succ _))) h₂
    rw [← Nat.succ_mul] at hkeyed'
    have hcore : ∀ j, m'.core j = (m.core j).map fun n =>
        { n with parent := if id = j then gap.block else n.parent } := fun j => by
      rw [Module.core_of_link h₂, Module.core_of_detach hid h₁]
    have htracked : Tracked m' := h.toTracked.congr hrelinks.values fun j => by
      rw [hcore, Option.map_map]
      rfl
    refine ⟨⟨hlists.symm ▸ hhoused', htracked, hlists.symm ▸ hkeyed', ?_⟩, ?_⟩
    · rw [hrelinks.nodes_size]
      exact h.size.trans (Nat.le_succ _)
    · have hentry : m.outline.slot? id = some ⟨nd.parent, nd.regions, nd.erased⟩ :=
        Module.outline_slot? (n := nd.core) (Module.core_of_node? hid)
      have hb' : ({ m.outline with list := fun b => (m.outline.list b).erase id } :
          Outline).block? pos = some gap.block := by
        cases pos <;> exact hb
      simp only [Outline.move, if_neg hself, hentry, Outline.put_eq hb']
      refine Outline.ext hrelinks.nodes_size hrelinks.blocks_size (funext fun j => ?_) ?_
      · change (m'.core j).map _ = Function.update m.outline.slot? id _ j
        rw [hcore, Function.update_apply]
        by_cases hj : j = id
        · subst hj
          rw [if_pos rfl, Module.core_of_node? hid]
          simp [Node.core, he]
        · rw [if_neg hj, Option.map_map]
          change _ = (m.core j).map _
          refine congrArg (Option.map · (m.core j)) (funext fun n => ?_)
          simp [Ne.symm hj]
      · change m'.nodesOf = Function.update (fun b => (m.nodesOf b).erase id) gap.block _
        rw [hlists, ← hins]
        congr 1

/-! ## Redirecting operands -/

/-- Redirecting operands has nothing to do with the lists. -/
theorem rewrites {f : NodeId → List ValueId → List ValueId} {v : ValueId} (h : Built count m)
    (hr : Recorded m') (hrewrites : m.Rewrites m' f) (hv : v.index < m.values.size)
    (hf : ∀ j ops, ∀ w ∈ f j ops, w = v ∨ w ∈ ops) :
    Built (count + 1) m' ∧ m'.outline = m.outline := by
  have htracked := h.toTracked.rewrites hr hrewrites hv hf
  have hnode := hrewrites.node?
  have hsize := hrewrites.nodes_size
  obtain ⟨nodes, values, rfl⟩ := hrewrites.rest
  have hlinked : Linked { m with nodes, values } m.nodesOf none :=
    h.linked.congr (fun j => by rw [hnode, Option.map_map]; rfl) fun b => rfl
  obtain ⟨hbuilt, hout⟩ := h.congr hlinked htracked hsize rfl (fun _ => rfl)
    (fun j => by rw [Module.core, hnode, Option.map_map, Option.map_map, Module.core, Option.map_map]; rfl)
    (fun j => by rw [Module.orderOf, hnode, Option.map_map]; rfl)
  exact ⟨hbuilt.succ, hout⟩

variable {i : Nat} {v old new : ValueId}

theorem setOperand_safe (h : Built count m) (hn : m.live? id = some n) (hi : i < n.operands.length)
    (hv : v.index < m.values.size) : ∃ m', m.setOperand id i v = .ok m' := by
  obtain ⟨nd, hid, -, rfl⟩ := Module.exists_of_live? hn
  exact Module.exists_setOperand hid hi
    (h.operand (Module.core_of_node? hid) (List.getElem_mem hi)) hv

theorem setOperand (h : Built count m) (hn : m.live? id = some n) (hv : v.index < m.values.size)
    (hok : m.setOperand id i v = .ok m') :
    Built (count + 1) m' ∧ m'.outline = m.outline := by
  obtain ⟨-, hrewrites, hr, -⟩ := h.toRecorded.setOperand hn hok
  refine h.rewrites hr hrewrites hv fun j ops w hw => ?_
  unfold pointAt at hw
  split at hw
  · exact (List.mem_or_eq_of_mem_set hw).symm
  · exact Or.inr hw

theorem replaceUses_safe (h : Built count m) (hold : old.index < m.values.size)
    (hnew : new.index < m.values.size) : ∃ m', m.replaceUses old new = .ok m' := by
  obtain ⟨x, hx⟩ := Module.exists_value?_iff.2 hold
  refine Module.exists_replaceUses hx (fun u hu => ?_) hnew
  obtain ⟨n, hn, hv⟩ := (h.mem_uses hx).1 hu
  obtain ⟨nd, hnd, -, rfl⟩ := Module.exists_of_live? hn
  exact ⟨nd, hnd, (List.getElem?_eq_some_iff.1 hv).1⟩

theorem replaceUses (h : Built count m) (hnew : new.index < m.values.size)
    (hok : m.replaceUses old new = .ok m') : Built (count + 1) m' ∧ m'.outline = m.outline := by
  obtain ⟨⟨f, hrewrites, hf, -⟩, hr, -⟩ := h.toRecorded.replaceUses hok
  exact h.rewrites hr hrewrites hnew hf

end Built

end NetPrep
