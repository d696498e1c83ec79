import Mathlib
import NetPrep.Proofs.Answers
import NetPrep.Proofs.Refinement

/-!
# The walk over all blocks

The walk keeps the blocks that it has come across but not met yet on a stack. Each block that the body
leads to has one owner, so it comes onto the stack once, and the walk is over when every such block has
been met. The order is that of a recursion: the stack is a row of blocks, and what a block leads to comes
before the rest of the row. What the blocks hold is every node that the body leads to, each of them once.
-/

namespace NetPrep

variable {m : Module} {id j : NodeId} {n nj : Node} {b c block : BlockId}
  {met stack : List BlockId} {fuel : Nat}

theorem mapM_eq_ok_map {α β : Type} {f : α → Except Fault β} {g : α → β} {l : List α}
    (h : ∀ a ∈ l, f a = .ok (g a)) : l.mapM f = .ok (l.map g) := by
  induction l with
  | nil => rfl
  | cons a l ih =>
    rw [List.mapM_cons, h a List.mem_cons_self, ok_bind,
      ih fun b hb => h b (List.mem_cons_of_mem _ hb), ok_bind]
    rfl

/-- What is written into a region is its owner, and nothing owns the body. -/
structure Module.Rooted (m : Module) : Prop where
  body : ∃ k, m.blockCore m.body = some (.empty k none)
  region : ∀ {id n b}, m.live? id = some n → b ∈ n.regions →
    ∃ k, m.blockCore b = some (.empty k (some id))
  regions_nodup : ∀ {id n}, m.live? id = some n → n.regions.Nodup

theorem Nested.rooted (h : Nested m) : m.Rooted where
  body := ⟨.graph, h.body⟩
  region hn hb := (h.blockCore_of_mem hn hb).imp fun _ => And.right
  regions_nodup := h.regions_nodup

/-- A node that is not erased and that the body leads to. -/
def Module.InBody (m : Module) (id : NodeId) : Prop :=
  ∃ n, m.live? id = some n ∧ m.Placed n.parent

theorem Sound.inBody_iff (hs : Sound m) : m.InBody id ↔ ∃ n, m.live? id = some n :=
  exists_congr fun _ => and_iff_left_of_imp fun hn => hs.placed hn

namespace Module.Rooted

/-- A region belongs to one node. -/
theorem owner_eq (h : m.Rooted) (hn : m.live? id = some n) (hb : b ∈ n.regions)
    (hj : m.live? j = some nj) (hb' : b ∈ nj.regions) : id = j := by
  obtain ⟨k, hk⟩ := h.region hn hb
  obtain ⟨k', hk'⟩ := h.region hj hb'
  have heq : k = k' ∧ id = j := by simpa [Block.empty] using hk.symm.trans hk'
  exact heq.2

/-- The body is no region. -/
theorem body_not_mem (h : m.Rooted) (hn : m.live? id = some n) : m.body ∉ n.regions := by
  intro hb
  obtain ⟨k, hk⟩ := h.body
  obtain ⟨k', hk'⟩ := h.region hn hb
  have heq := hk.symm.trans hk'
  simp [Block.empty] at heq

theorem exists_block (h : m.Rooted) (hb : m.Placed b) : ∃ blk, m.block? b = some blk := by
  have hcore : ∃ blk, m.blockCore b = some blk := by
    cases hb with
    | body =>
      obtain ⟨k, hk⟩ := h.body
      exact ⟨_, hk⟩
    | region hn hb _ =>
      obtain ⟨k, hk⟩ := h.region hn hb
      exact ⟨_, hk⟩
  obtain ⟨blk, hblk⟩ := hcore
  obtain ⟨x, hx, -⟩ := Option.map_eq_some_iff.1 hblk
  exact ⟨x, hx⟩

theorem blockNodes_eq (h : m.Rooted) (hw : WellFormed m) (hb : m.Placed b) :
    m.blockNodes b = .ok (m.nodesOf b) := by
  obtain ⟨blk, hblk⟩ := h.exists_block hb
  exact hw.linked.blockNodes_eq hblk

/-- Different blocks that the body leads to are no more than the module has. -/
theorem length_le (h : m.Rooted) {l : List BlockId} (hnodup : l.Nodup)
    (hplaced : ∀ b ∈ l, m.Placed b) : l.length ≤ m.blocks.size := by
  have hsub : l.map (·.index) ⊆ List.range m.blocks.size := fun i hi => by
    obtain ⟨b, hb, rfl⟩ := List.mem_map.1 hi
    obtain ⟨blk, hblk⟩ := h.exists_block (hplaced b hb)
    exact List.mem_range.2 (lt_of_block? hblk)
  have hinj : (l.map (·.index)).Nodup :=
    hnodup.map fun a b hab => by cases a; cases b; simpa using hab
  simpa using (hinj.subperm hsub).length_le

end Module.Rooted

namespace Module

/-! ## One step of the walk -/

/-- How far a walk is: some blocks have been met, others are on the stack. A block that has been come
across was found in a node of a block that has been met. -/
structure Walks (m : Module) (met stack : List BlockId) : Prop where
  nodup : (met ++ stack).Nodup
  body : m.body ∈ met ++ stack
  placed : ∀ b ∈ met ++ stack, m.Placed b
  owner : ∀ {id n b}, m.live? id = some n → b ∈ n.regions → b ∈ met ++ stack → n.parent ∈ met
  regions : ∀ {id n b}, m.live? id = some n → n.parent ∈ met → b ∈ n.regions → b ∈ met ++ stack

/-- The regions of the nodes of a block, in order. -/
def regionsIn (m : Module) (b : BlockId) : List BlockId :=
  (m.nodesOf b).flatMap m.regionsOf

theorem mem_regionsIn_iff (hw : WellFormed m) :
    c ∈ m.regionsIn b ↔ ∃ id n, m.live? id = some n ∧ n.parent = b ∧ c ∈ n.regions := by
  rw [regionsIn, List.mem_flatMap]
  constructor
  · rintro ⟨id, hid, hc⟩
    obtain ⟨n, hn, hp⟩ := hw.mem_nodesOf_iff.1 hid
    exact ⟨id, n, hn, hp, regionsOf_of_live? hn ▸ hc⟩
  · rintro ⟨id, n, hn, rfl, hc⟩
    exact ⟨id, hw.mem_nodesOf hn, (regionsOf_of_live? hn).symm ▸ hc⟩

/-- A region of one node is none of another one. -/
theorem Rooted.nodup_regionsIn (h : m.Rooted) (hw : WellFormed m) (b : BlockId) :
    (m.regionsIn b).Nodup := by
  refine List.nodup_flatMap.2 ⟨fun id hid => ?_, (hw.nodup b).imp_of_mem fun {j k} hj hk hne => ?_⟩
  · obtain ⟨n, hn, -⟩ := hw.mem_nodesOf_iff.1 hid
    rw [regionsOf_of_live? hn]
    exact h.regions_nodup hn
  · obtain ⟨nj, hnj, -⟩ := hw.mem_nodesOf_iff.1 hj
    obtain ⟨nk, hnk, -⟩ := hw.mem_nodesOf_iff.1 hk
    show (m.regionsOf j).Disjoint (m.regionsOf k)
    rw [regionsOf_of_live? hnj, regionsOf_of_live? hnk]
    exact fun c hc hc' => hne (h.owner_eq hnj hc hnk hc')

/-- Nodes put their regions onto the stack one after another, the last ones on top. -/
theorem pushRegions_eq {ids : List NodeId} (hids : ∀ id ∈ ids, ∃ n, m.live? id = some n)
    (stack : List BlockId) :
    ids.foldlM (fun stack id => do return (← m.node id).regions ++ stack) stack =
      .ok (ids.reverse.flatMap m.regionsOf ++ stack) := by
  induction ids generalizing stack with
  | nil => rfl
  | cons id ids ih =>
    obtain ⟨n, hn⟩ := hids id List.mem_cons_self
    obtain ⟨nd, hnd, -, rfl⟩ := exists_of_live? hn
    rw [List.foldlM_cons, node_eq_ok_iff.2 hnd, ok_bind]
    refine (ih (fun j hj => hids j (List.mem_cons_of_mem _ hj)) _).trans ?_
    simp [regionsOf_of_live? hn, Node.core]

/-- A step of the walk: the block on top is met, and its regions take its place. -/
theorem walkBlocks_cons (hw : WellFormed m) {blk : Block} (hblk : m.block? block = some blk) :
    m.walkBlocks (fuel + 1) (block :: stack) =
      m.walkBlocks fuel (m.regionsIn block ++ stack) >>= fun r => .ok (block :: r) := by
  have hids : ∀ id ∈ (m.nodesOf block).reverse, ∃ n, m.live? id = some n := fun id hid =>
    (hw.mem_nodesOf_iff.1 (List.mem_reverse.1 hid)).imp fun _ => And.left
  have hpush := pushRegions_eq hids stack
  rw [List.reverse_reverse] at hpush
  rw [walkBlocks, hw.linked.blockNodesBack_eq hblk, ok_bind, hpush, ok_bind]
  rfl

namespace Walks

theorem start (hr : m.Rooted) : m.Walks [] [m.body] where
  nodup := by simp
  body := by simp
  placed b hb := by
    obtain rfl : b = m.body := by simpa using hb
    exact .body
  owner hn hb hbody := by
    obtain rfl := List.mem_singleton.1 hbody
    exact absurd hb (hr.body_not_mem hn)
  regions _ hmet := absurd hmet List.not_mem_nil

variable (h : m.Walks met (block :: stack))

include h

theorem not_mem : block ∉ met := fun hmet =>
  List.disjoint_of_nodup_append h.nodup hmet List.mem_cons_self

/-- A region of a node of the block on top of the stack has not been come across. -/
theorem fresh (hn : m.live? id = some n) (hp : n.parent = block) (hb : b ∈ n.regions) :
    b ∉ met ++ block :: stack := fun hmem => h.not_mem (hp ▸ h.owner hn hb hmem)

/-- The block on top of the stack is met, and its regions go onto the stack. -/
theorem step (hw : WellFormed m) (hr : m.Rooted) :
    m.Walks (met ++ [block]) (m.regionsIn block ++ stack) := by
  have hperm : ((met ++ [block]) ++ (m.regionsIn block ++ stack)).Perm
      (m.regionsIn block ++ (met ++ block :: stack)) := by
    rw [List.append_assoc, List.singleton_append]
    exact (List.perm_middle.symm.append_left met).trans (List.perm_append_comm_assoc met _ _)
  have hmem : ∀ {c}, c ∈ (met ++ [block]) ++ (m.regionsIn block ++ stack) ↔
      c ∈ m.regionsIn block ∨ c ∈ met ++ block :: stack :=
    fun {c} => hperm.mem_iff.trans List.mem_append
  refine ⟨?_, hmem.2 (Or.inr h.body), fun c hc => ?_, fun {id n c} hn hc hcome => ?_,
    fun {id n c} hn hp hc => hmem.2 ?_⟩
  · refine hperm.nodup_iff.2
      (List.nodup_append'.2 ⟨hr.nodup_regionsIn hw block, h.nodup, fun c hc => ?_⟩)
    obtain ⟨id, n, hn, hp, hc⟩ := (mem_regionsIn_iff hw).1 hc
    exact h.fresh hn hp hc
  · obtain hc | hc := hmem.1 hc
    · obtain ⟨id, n, hn, hp, hc⟩ := (mem_regionsIn_iff hw).1 hc
      exact .region hn hc (hp ▸ h.placed block (by simp))
    · exact h.placed c hc
  · obtain hcome | hcome := hmem.1 hcome
    · obtain ⟨id', n', hn', hp, hc'⟩ := (mem_regionsIn_iff hw).1 hcome
      obtain rfl := hr.owner_eq hn hc hn' hc'
      obtain rfl := Option.some.inj (hn.symm.trans hn')
      simp [hp]
    · exact List.mem_append_left _ (h.owner hn hc hcome)
  · obtain hp | hp := List.mem_append.1 hp
    · exact Or.inr (h.regions hn hp hc)
    · exact Or.inl ((mem_regionsIn_iff hw).2 ⟨id, n, hn, List.mem_singleton.1 hp, hc⟩)

omit h

/-- With nothing on the stack, every block of the tree has been met. -/
theorem mem_iff (h : m.Walks met []) : m.Placed b ↔ b ∈ met := by
  have hmet : met ++ [] = met := List.append_nil met
  refine ⟨fun hb => ?_, fun hb => h.placed b (hmet.symm ▸ hb)⟩
  induction hb with
  | body => exact hmet ▸ h.body
  | region hn hb _ ih => exact hmet ▸ h.regions hn ih hb

/-- There are no more blocks to come across than the module has. -/
theorem length_le (h : m.Walks met stack) (hr : m.Rooted) :
    met.length + stack.length ≤ m.blocks.size := by
  rw [← List.length_append]
  exact hr.length_le h.nodup h.placed

end Walks

/-! ## The whole walk -/

/-- From any point of a walk, the rest of the blocks is met. -/
theorem exists_walkBlocks (hw : WellFormed m) (hr : m.Rooted) (h : m.Walks met stack)
    (hfuel : m.blocks.size ≤ met.length + fuel) :
    ∃ r, m.walkBlocks fuel stack = .ok r ∧ (met ++ r).Nodup ∧ ∀ b, m.Placed b ↔ b ∈ met ++ r := by
  induction fuel generalizing met stack with
  | zero =>
    cases stack with
    | nil => exact ⟨[], rfl, h.nodup, fun b => by rw [List.append_nil]; exact h.mem_iff⟩
    | cons block stack =>
      have hle := h.length_le hr
      simp only [List.length_cons] at hle
      omega
  | succ fuel ih =>
    cases stack with
    | nil => exact ⟨[], rfl, h.nodup, fun b => by rw [List.append_nil]; exact h.mem_iff⟩
    | cons block stack =>
      obtain ⟨blk, hblk⟩ := hr.exists_block (h.placed block (by simp))
      obtain ⟨r, hrun, hnodup, hplaced⟩ := ih (h.step hw hr)
        (by simp only [List.length_append]; simp; omega)
      refine ⟨block :: r, ?_, by simpa using hnodup, by simpa using hplaced⟩
      rw [walkBlocks_cons hw hblk, hrun, ok_bind]

/-- The walk meets every block that the body leads to once. -/
theorem Rooted.exists_blocksPreorder (hr : m.Rooted) (hw : WellFormed m) :
    ∃ blocks, m.blocksPreorder = .ok blocks ∧ blocks.Nodup ∧ ∀ b, m.Placed b ↔ b ∈ blocks := by
  have hfuel : m.blocks.size ≤ ([] : List BlockId).length + m.walkFuel := by
    simp only [walkFuel]
    omega
  simpa [blocksPreorder] using exists_walkBlocks hw hr (.start hr) hfuel

/-- The nodes of some blocks are different nodes. -/
theorem nodup_flatMap_nodesOf (hw : WellFormed m) {blocks : List BlockId} (h : blocks.Nodup) :
    (blocks.flatMap m.nodesOf).Nodup := by
  refine List.nodup_flatMap.2 ⟨fun b _ => hw.nodup b, h.imp fun {b c} hne id hb hc => ?_⟩
  obtain ⟨n, hn, rfl⟩ := hw.mem_nodesOf_iff.1 hb
  obtain ⟨n', hn', hp⟩ := hw.mem_nodesOf_iff.1 hc
  obtain rfl := Option.some.inj (hn.symm.trans hn')
  exact hne hp

/-- The nodes that the body leads to are listed block by block, each of them once. -/
theorem Rooted.exists_liveNodes (hr : m.Rooted) (hw : WellFormed m) {blocks : List BlockId}
    (hblocks : m.blocksPreorder = .ok blocks) (hplaced : ∀ b, m.Placed b ↔ b ∈ blocks) :
    m.liveNodes = .ok (blocks.flatMap m.nodesOf) ∧
      ∀ id, id ∈ blocks.flatMap m.nodesOf ↔ m.InBody id := by
  have hnodes : blocks.mapM m.blockNodes = .ok (blocks.map m.nodesOf) :=
    mapM_eq_ok_map fun b hb => hr.blockNodes_eq hw ((hplaced b).2 hb)
  refine ⟨?_, fun id => ?_⟩
  · rw [liveNodes, hblocks, ok_bind, hnodes]
    rfl
  · rw [List.mem_flatMap]
    constructor
    · rintro ⟨b, hb, hid⟩
      obtain ⟨n, hn, rfl⟩ := hw.mem_nodesOf_iff.1 hid
      exact ⟨n, hn, (hplaced _).2 hb⟩
    · rintro ⟨n, hn, hp⟩
      exact ⟨n.parent, (hplaced _).1 hp, hw.mem_nodesOf hn⟩

/-- The nodes that are not erased are listed, each of them once. -/
theorem exists_liveNodes (hs : Sound m) :
    ∃ ids, m.liveNodes = .ok ids ∧ ids.Nodup ∧ ∀ id, id ∈ ids ↔ ∃ n, m.live? id = some n := by
  have hw := hs.toWellFormed
  have hr := hs.toNested.rooted
  obtain ⟨blocks, hblocks, hnodup, hplaced⟩ := hr.exists_blocksPreorder hw
  obtain ⟨hlive, hmem⟩ := hr.exists_liveNodes hw hblocks hplaced
  exact ⟨_, hlive, nodup_flatMap_nodesOf hw hnodup, fun id => (hmem id).trans hs.inBody_iff⟩

end Module

end NetPrep
