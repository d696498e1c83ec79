import Mathlib
import NetPrep.Proofs.Building

/-!
# Erasing nodes with regions

Erasing a node collects what is nested in its regions with a stack. The walk meets each node below the
node once, since no node lies in its own regions; then the uses of these nodes are forgotten, their
regions emptied, and all of them marked as erased.
-/

namespace NetPrep

/-! ## The walk -/

/-- How far the walk has come: nodes met and nodes on the stack, each once and all below the root, and
with a node that was met everything directly in its regions. -/
structure Visits (m : Module) (id : NodeId) (met stack : List NodeId) : Prop where
  nodup : (met ++ stack).Nodup
  below : ∀ j ∈ met ++ stack, m.outline.Below id j
  root : id ∈ met ++ stack
  closed : ∀ {j n b k}, j ∈ met → m.core j = some n → b ∈ n.regions → k ∈ m.nodesOf b →
    k ∈ met ++ stack
  /-- Every node but the root was found in a region of a node that was met. -/
  found : ∀ {j}, j ∈ met ++ stack → j = id ∨
    ∃ p n b, p ∈ met ∧ m.core p = some n ∧ b ∈ n.regions ∧ j ∈ m.nodesOf b

namespace Visits

variable {m : Module} {id x : NodeId} {n : Node} {met stack : List NodeId} {fuel : Nat}

theorem start (m : Module) (id : NodeId) : Visits m id [] [id] where
  nodup := by simp
  below j hj := by
    obtain rfl : j = id := by simpa using hj
    exact .self
  root := by simp
  closed hj := by cases hj
  found hj := Or.inl (by simpa using hj)

/-- The nodes directly in the regions of a node, as they come onto the stack. -/
def children (m : Module) (n : Node) : List NodeId :=
  n.regions.reverse.flatMap fun b => (m.nodesOf b).reverse

theorem mem_children {k : NodeId} :
    k ∈ children m n ↔ ∃ b ∈ n.regions, k ∈ m.nodesOf b := by
  simp [children]

theorem nodup_children (h : Housed m m.nodesOf none) (hx : m.core x = some n) :
    (children m n).Nodup := by
  refine List.nodup_flatMap.2 ⟨fun b _ => List.nodup_reverse.2 (h.linked.nodup b), ?_⟩
  refine (List.nodup_reverse.2 (h.regions_nodup hx)).imp fun {b c} hbc => ?_
  -- A node lies in one block only.
  rw [Function.onFun_apply, List.disjoint_left]
  intro k hb hc
  obtain ⟨nd, hk, -, hp⟩ := h.linked.exists_node (List.mem_reverse.1 hb)
  exact hbc (hp ▸ h.linked.parent_eq hk (List.mem_reverse.1 hc))

/-- A step of the walk: a node of the stack is met. -/
theorem step (h : Housed m m.nodesOf none) (hid : ∃ b, id ∈ m.nodesOf b)
    (hv : Visits m id met (x :: stack)) (hx : m.core x = some n) :
    Visits m id (x :: met) (children m n ++ stack) := by
  have hxbelow : m.outline.Below id x := hv.below x (by simp)
  have hentry : m.outline.slot? x = _ := Module.outline_slot? hx
  have hxmet : x ∉ met := fun hm => (List.nodup_append.1 hv.nodup).2.2 x hm x (by simp) rfl
  -- What lies in the regions of the node was not found before: not as the root, which lies in no
  -- block under it, and not in the regions of another node.
  have hnew : ∀ k ∈ children m n, k ∉ met ++ x :: stack := by
    intro k hk hold
    obtain ⟨b, hb, hkb⟩ := mem_children.1 hk
    rcases hv.found hold with rfl | ⟨p, np, c, hp, hnp, hc, hkc⟩
    · exact h.acyclic hkb ⟨x, _, hxbelow, hentry, hb⟩
    · obtain ⟨nd, hkd, -, rfl⟩ := h.linked.exists_node hkb
      obtain rfl := h.linked.parent_eq hkd hkc
      exact hxmet (h.owner_unique hx hnp hb hc ▸ hp)
  have hmem : ∀ {j}, j ∈ (x :: met) ++ (children m n ++ stack) ↔
      j ∈ children m n ∨ j ∈ met ++ x :: stack := by
    intro j
    simp only [List.mem_append, List.mem_cons]
    tauto
  refine ⟨?_, fun j hj => ?_, ?_, ?_, ?_⟩
  · have hperm : ((x :: met) ++ (children m n ++ stack)).Perm
        (children m n ++ (met ++ x :: stack)) := by
      rw [← List.append_assoc, ← List.append_assoc]
      refine (List.perm_append_comm.append_right stack).trans ?_
      rw [List.append_assoc, List.append_assoc]
      exact (List.perm_middle.symm.append_left _)
    refine hperm.nodup_iff.2 (List.nodup_append.2 ⟨nodup_children h hx, hv.nodup, ?_⟩)
    rintro k hk _ hk' rfl
    exact hnew k hk hk'
  · rcases hmem.1 hj with hj | hj
    · obtain ⟨b, hb, hjb⟩ := mem_children.1 hj
      exact .nested hxbelow hentry hb hjb
    · exact hv.below j hj
  · exact hmem.2 (Or.inr hv.root)
  · intro j nj b k hj hnj hb hk
    refine hmem.2 ?_
    rcases List.mem_cons.1 hj with rfl | hj
    · obtain rfl := Option.some.inj (hx.symm.trans hnj)
      exact Or.inl (mem_children.2 ⟨b, hb, hk⟩)
    · exact Or.inr (hv.closed hj hnj hb hk)
  · intro j hj
    rcases hmem.1 hj with hj | hj
    · obtain ⟨b, hb, hjb⟩ := mem_children.1 hj
      exact Or.inr ⟨x, n, b, by simp, hx, hb, hjb⟩
    · refine (hv.found hj).imp_right ?_
      rintro ⟨p, np, b, hp, hrest⟩
      exact ⟨p, np, b, List.mem_cons_of_mem _ hp, hrest⟩

/-- All nodes of the walk are there. -/
theorem lt (h : Housed m m.nodesOf none) (hid : ∃ b, id ∈ m.nodesOf b)
    (hv : Visits m id met stack) {j : NodeId} (hj : j ∈ met ++ stack) :
    j.index < m.nodes.size := by
  rcases (hv.below j hj).eq_or_under with rfl | ⟨b, -, hjb⟩
  · obtain ⟨b, hb⟩ := hid
    exact h.linked.lt_nodes_size hb
  · exact h.linked.lt_nodes_size hjb

/-- Where the walk has ended, exactly the nodes below the root were met. -/
theorem mem_iff (hv : Visits m id met []) {j : NodeId} :
    j ∈ met ↔ m.outline.Below id j := by
  have hnil := List.append_nil met
  constructor
  · exact fun hj => hv.below j (by simpa using hj)
  · intro hj
    induction hj with
    | self => simpa using hv.root
    | nested _ he hb hk ih =>
      obtain ⟨n, hn, rfl⟩ := Module.exists_core_of_slot? he
      simpa using hv.closed ih hn hb hk

/-- The walk meets everything below the root before its steps run out. -/
theorem nestedNodes (h : Housed m m.nodesOf none) (hid : ∃ b, id ∈ m.nodesOf b)
    (hv : Visits m id met stack) (hfuel : m.nodes.size ≤ met.length + fuel) :
    ∃ doomed, m.nestedNodes fuel met stack = .ok doomed ∧ Visits m id doomed [] := by
  induction fuel generalizing met stack with
  | zero =>
    have hlen := length_le_of_nodup hv.nodup fun j hj => hv.lt h hid hj
    cases stack with
    | nil => exact ⟨met, rfl, hv⟩
    | cons x stack =>
      simp only [List.length_append, List.length_cons] at hlen
      omega
  | succ fuel ih =>
    cases stack with
    | nil => exact ⟨met, rfl, hv⟩
    | cons x stack =>
      obtain ⟨n, hn⟩ := Module.exists_node?_iff.2 (hv.lt h hid (j := x) (by simp))
      have hcore := Module.core_of_node? hn
      have hpush : ∀ regions : List BlockId, (∀ b ∈ regions, b.index < m.blocks.size) →
          ∀ stack, regions.foldlM (fun stack region => do
            return (← m.blockNodes region).reverse ++ stack) stack =
          (.ok ((regions.reverse.flatMap fun b => (m.nodesOf b).reverse) ++ stack) :
            Except Fault (List NodeId)) := by
        intro regions hregions
        induction regions with
        | nil => exact fun stack => rfl
        | cons b regions ihr =>
          intro stack
          obtain ⟨blk, hblk⟩ := Module.exists_block?_iff.2 (hregions b (by simp))
          rw [List.foldlM_cons, h.linked.blockNodes_eq hblk, ok_bind]
          change List.foldlM _ ((m.nodesOf b).reverse ++ stack) regions = _
          rw [ihr fun c hc => hregions c (List.mem_cons_of_mem _ hc)]
          simp
      obtain ⟨doomed, hok, hdone⟩ := ih (hv.step h hid hcore)
        (by simp only [List.length_cons]; omega)
      refine ⟨doomed, ?_, hdone⟩
      rw [Module.nestedNodes, Module.node_eq_ok_iff.2 hn, ok_bind,
        hpush n.regions (fun b hb => h.lt_of_mem_regions hcore (b := b) hb), ok_bind]
      exact hok

end Visits

/-! ## What is dropped and marked -/

open Classical in
/-- The operands of some nodes are forgotten, and the regions of these nodes emptied. -/
structure Module.Drops (m m' : Module) (ids : List NodeId) : Prop where
  rest : ∃ values blocks, m' = { m with values, blocks }
  values_size : m'.values.size = m.values.size
  blocks_size : m'.blocks.size = m.blocks.size
  value? : ∃ f : ValueId → List Use → List Use,
    (∀ w, m'.value? w = (m.value? w).map fun x => { x with uses := f w x.uses }) ∧
    ∀ w l, l.Nodup → (f w l).Nodup ∧ ∀ u, u ∈ f w l ↔ u ∈ l ∧
      ∀ j ∈ ids, ∀ n, m.core j = some n → u ∉ usesAmong j w 0 n.operands
  block? : ∀ b, m'.block? b = if ∃ j ∈ ids, ∃ n, m.core j = some n ∧ b ∈ n.regions
    then (m.block? b).map Block.core else m.block? b

namespace Module

variable {m m₁ m' : Module} {id : NodeId} {nd : Node} {ids : List NodeId}

theorem clearBlocks_eq_ok {regions : List BlockId}
    (h : regions.foldlM (fun m region =>
      m.modifyBlock region ({ · with first := none, last := none, len := 0 })) m = .ok m') :
    ∃ blocks, m' = { m with blocks } ∧ blocks.size = m.blocks.size ∧
      ∀ b, m'.block? b = if b ∈ regions then (m.block? b).map Block.core else m.block? b := by
  induction regions generalizing m with
  | nil =>
    cases h
    exact ⟨_, rfl, rfl, fun b => by simp⟩
  | cons r regions ih =>
    rw [List.foldlM_cons, bind_eq_ok_iff] at h
    obtain ⟨m₁, h₁, h⟩ := h
    obtain ⟨blocks, rfl, hsize, hget⟩ := modifyBlock_eq_ok h₁
    obtain ⟨blocks', rfl, hsize', hget'⟩ := ih h
    refine ⟨blocks', rfl, hsize'.trans hsize, fun b => ?_⟩
    rw [hget', hget]
    by_cases hr : r = b
    · subst hr
      cases m.block? r <;> simp [Block.core]
    · simp [hr, Ne.symm hr]

theorem exists_clearBlocks {regions : List BlockId} (h : ∀ b ∈ regions, b.index < m.blocks.size) :
    ∃ m', regions.foldlM (fun m region =>
      m.modifyBlock region ({ · with first := none, last := none, len := 0 })) m = .ok m' := by
  induction regions generalizing m with
  | nil => exact ⟨m, rfl⟩
  | cons r regions ih =>
    rw [List.foldlM_cons]
    refine exists_bind_ok (exists_modifyBlock (h r (by simp))) fun m₁ h₁ => ih fun b hb => ?_
    obtain ⟨blocks, rfl, hsize, -⟩ := modifyBlock_eq_ok h₁
    exact hsize ▸ h b (List.mem_cons_of_mem _ hb)

theorem dropContents_eq_ok (h : m.dropContents id = .ok m') : m.Drops m' [id] := by
  simp only [dropContents, bind_eq_ok_iff, node_eq_ok_iff] at h
  obtain ⟨nd, hid, m₁, h₁, h₂⟩ := h
  obtain ⟨f, hf, hmem⟩ := removeUses_eq_ok h₁
  have hsize := hf.size
  have hvalue := hf.value
  obtain ⟨values, rfl⟩ := hf.rest
  obtain ⟨blocks, rfl, hbsize, hblock⟩ := clearBlocks_eq_ok h₂
  have hcore := core_of_node? hid
  refine ⟨⟨values, blocks, rfl⟩, hsize, hbsize, ⟨f, hvalue, fun w l hl => ?_⟩, fun b => ?_⟩
  · refine ⟨(hmem w l hl).1, fun u => ?_⟩
    rw [(hmem w l hl).2]
    refine and_congr_right fun _ => ?_
    simp [hcore, Node.core]
  · rw [hblock b]
    simp [hcore, Node.core, block?]

theorem Drops.cons (h : m.Drops m₁ [id]) (h' : m₁.Drops m' ids) : m.Drops m' (id :: ids) := by
  have hcore : ∀ j, m₁.core j = m.core j := fun j => by
    obtain ⟨values, blocks, rfl⟩ := h.rest
    rfl
  obtain ⟨f, hf, hmem⟩ := h.value?
  obtain ⟨g, hg, hmem'⟩ := h'.value?
  refine ⟨?_, h'.values_size.trans h.values_size, h'.blocks_size.trans h.blocks_size,
    ⟨fun w l => g w (f w l), fun w => ?_, fun w l hl => ?_⟩, fun b => ?_⟩
  · obtain ⟨values, blocks, rfl⟩ := h.rest
    obtain ⟨values', blocks', rfl⟩ := h'.rest
    exact ⟨values', blocks', rfl⟩
  · rw [hg, hf, Option.map_map]
    rfl
  · obtain ⟨hnd, hu⟩ := hmem w l hl
    obtain ⟨hnd', hu'⟩ := hmem' w (f w l) hnd
    refine ⟨hnd', fun u => ?_⟩
    rw [hu', hu]
    simp only [hcore, List.forall_mem_cons, List.not_mem_nil, false_implies, implies_true, and_true,
      and_assoc]
  · rw [h'.block? b, h.block? b]
    simp only [hcore, List.exists_mem_cons_iff, List.not_mem_nil, false_and, exists_false, or_false]
    by_cases h₁ : ∃ n, m.core id = some n ∧ b ∈ n.regions
    · rw [if_pos h₁, if_pos (Or.inl h₁)]
      split
      · cases m.block? b <;> rfl
      · rfl
    · rw [if_neg h₁]
      simp only [h₁, false_or]

theorem drops_of_foldlM (h : ids.foldlM dropContents m = .ok m') : m.Drops m' ids := by
  induction ids generalizing m with
  | nil =>
    cases h
    refine ⟨⟨_, _, rfl⟩, rfl, rfl, ⟨fun _ l => l, fun w => ?_, fun w l hl => ⟨hl, by simp⟩⟩, by simp⟩
    cases m'.value? w <;> rfl
  | cons id ids ih =>
    rw [List.foldlM_cons, bind_eq_ok_iff] at h
    obtain ⟨m₁, h₁, h⟩ := h
    exact (dropContents_eq_ok h₁).cons (ih h)

/-- Contents can be dropped if operands and regions are there. -/
theorem exists_drops (h : ∀ j ∈ ids, ∃ n, m.core j = some n ∧
      (∀ v ∈ n.operands, v.index < m.values.size) ∧ ∀ b ∈ n.regions, b.index < m.blocks.size) :
    ∃ m', ids.foldlM dropContents m = .ok m' := by
  induction ids generalizing m with
  | nil => exact ⟨m, rfl⟩
  | cons id ids ih =>
    rw [List.foldlM_cons]
    have hdrop : ∃ m', m.dropContents id = .ok m' := by
      obtain ⟨n, hn, hops, hregions⟩ := h id (by simp)
      obtain ⟨nd, hid, rfl⟩ := Option.map_eq_some_iff.1 hn
      refine exists_bind_ok ⟨nd, node_eq_ok_iff.2 hid⟩ fun nd' hid' => ?_
      obtain rfl := Option.some.inj (hid.symm.trans (node_eq_ok_iff.1 hid'))
      refine exists_bind_ok (exists_removeUses hops) fun m₁ h₁ => ?_
      obtain ⟨f, hf, -⟩ := removeUses_eq_ok h₁
      obtain ⟨values, rfl⟩ := hf.rest
      exact exists_clearBlocks hregions
    refine exists_bind_ok hdrop fun m₁ h₁ => ih fun j hj => ?_
    obtain ⟨n, hn, hops, hregions⟩ := h j (List.mem_cons_of_mem _ hj)
    have hdrops := dropContents_eq_ok h₁
    refine ⟨n, ?_, ?_, ?_⟩
    · obtain ⟨values, blocks, rfl⟩ := hdrops.rest
      exact hn
    · rwa [hdrops.values_size]
    · rwa [hdrops.blocks_size]

theorem markErased_eq_ok
    (h : ids.foldlM (fun m n => m.modifyNode n ({ · with erased := true })) m = .ok m') :
    ∃ nodes, m' = { m with nodes } ∧ nodes.size = m.nodes.size ∧
      ∀ j, m'.node? j = if j ∈ ids then (m.node? j).map ({ · with erased := true })
        else m.node? j := by
  induction ids generalizing m with
  | nil =>
    cases h
    exact ⟨_, rfl, rfl, fun j => by simp⟩
  | cons id ids ih =>
    rw [List.foldlM_cons, bind_eq_ok_iff] at h
    obtain ⟨m₁, h₁, h⟩ := h
    obtain ⟨nodes, rfl, hsize, hget⟩ := modifyNode_eq_ok h₁
    obtain ⟨nodes', rfl, hsize', hget'⟩ := ih h
    refine ⟨nodes', rfl, hsize'.trans hsize, fun j => ?_⟩
    rw [hget', hget]
    by_cases hj : id = j
    · subst hj
      cases m.node? id <;> simp
    · simp [hj, Ne.symm hj]

theorem exists_markErased (h : ∀ j ∈ ids, j.index < m.nodes.size) :
    ∃ m', ids.foldlM (fun m n => m.modifyNode n ({ · with erased := true })) m = .ok m' := by
  induction ids generalizing m with
  | nil => exact ⟨m, rfl⟩
  | cons id ids ih =>
    rw [List.foldlM_cons]
    refine exists_bind_ok (exists_modifyNode (h id (by simp))) fun m₁ h₁ => ih fun j hj => ?_
    rw [(Relinks.of_modifyNode h₁).nodes_size]
    exact h j (List.mem_cons_of_mem _ hj)

end Module

/-! ## Erasing -/

open Classical in
/-- What erasing a node does: everything below it is marked, the blocks under it are emptied, and what
these nodes use is taken off the use lists. -/
structure Module.Clears (m m' : Module) (id : NodeId) : Prop where
  linked : Linked m' (fun b => if m.outline.Under id b then [] else (m.nodesOf b).erase id) none
  core : ∀ j, m'.core j = (m.core j).map fun n =>
    { n with erased := n.erased || decide (m.outline.Below id j) }
  orderOf : ∀ j, m'.orderOf j = m.orderOf j
  blockCore : ∀ b, m'.blockCore b = m.blockCore b
  nodes_size : m'.nodes.size = m.nodes.size
  blocks_size : m'.blocks.size = m.blocks.size
  values_size : m'.values.size = m.values.size
  value? : ∃ f : ValueId → List Use → List Use,
    (∀ w, m'.value? w = (m.value? w).map fun x => { x with uses := f w x.uses }) ∧
    ∀ w l, l.Nodup → (f w l).Nodup ∧ ∀ u, u ∈ f w l ↔ u ∈ l ∧
      ∀ j, m.outline.Below id j → ∀ n, m.core j = some n → u ∉ usesAmong j w 0 n.operands

theorem Module.eraseNode_eq {m : Module} {id : NodeId} {nd : Node} {doomed : List NodeId}
    (hid : m.node? id = some nd) (he : nd.erased = false) (hunused : m.isUnused id = .ok true)
    (hwalk : m.nestedNodes m.walkFuel [] [id] = .ok doomed) :
    m.eraseNode id = doomed.foldlM dropContents m >>= fun m₁ => m₁.detach id >>= fun m₂ =>
      doomed.foldlM (fun m n => m.modifyNode n ({ · with erased := true })) m₂ := by
  simp only [eraseNode, node_eq_ok_iff.2 hid, hunused, hwalk, he, ok_bind]
  rfl

namespace Built

variable {count : Nat} {m m₁ m₂ m' : Module} {id : NodeId} {nd n : Node} {doomed : List NodeId}

/-- The contents of what is below a node can be dropped. -/
theorem exists_drops (h : Built count m) (hlt : ∀ j ∈ doomed, j.index < m.nodes.size) :
    ∃ m', doomed.foldlM Module.dropContents m = .ok m' := by
  refine Module.exists_drops fun j hj => ?_
  obtain ⟨n, hn⟩ := Module.exists_core_iff.2 (hlt j hj)
  exact ⟨n, hn, fun v hv => h.operand hn hv, fun b hb => h.lt_of_mem_regions hn hb⟩

theorem block?_of_drops (hdrops : m.Drops m₁ doomed) (hmem : ∀ {j}, j ∈ doomed ↔ m.outline.Below id j)
    (b : BlockId) : (m.outline.Under id b → m₁.block? b = (m.block? b).map Block.core) ∧
      (¬ m.outline.Under id b → m₁.block? b = m.block? b) := by
  have hiff : (∃ j ∈ doomed, ∃ n, m.core j = some n ∧ b ∈ n.regions) ↔ m.outline.Under id b := by
    constructor
    · rintro ⟨j, hj, n, hn, hb⟩
      exact ⟨j, _, hmem.1 hj, Module.outline_slot? hn, hb⟩
    · rintro ⟨j, e, hj, he, hb⟩
      obtain ⟨n, hn, rfl⟩ := Module.exists_core_of_slot? he
      exact ⟨j, hmem.2 hj, n, hn, hb⟩
  rw [hdrops.block? b]
  exact ⟨fun hu => if_pos (hiff.2 hu), fun hu => if_neg fun hex => hu (hiff.1 hex)⟩

/-- Dropping contents, taking the node out of its block and marking does what erasing is to do. -/
theorem clears (h : Built count m) (hid : m.node? id = some nd) (he : nd.erased = false)
    (hmem : ∀ {j}, j ∈ doomed ↔ m.outline.Below id j) (h₁ : doomed.foldlM Module.dropContents m = .ok m₁)
    (h₂ : m₁.detach id = .ok m₂)
    (h₃ : doomed.foldlM (fun m n => m.modifyNode n ({ · with erased := true })) m₂ = .ok m') :
    m.Clears m' id := by
  classical
  have hdrops := Module.drops_of_foldlM h₁
  have hblock₁ := fun b => block?_of_drops hdrops hmem b
  obtain ⟨f, hf, hfmem⟩ := hdrops.value?
  have hvsize := hdrops.values_size
  have hbsize := hdrops.blocks_size
  have hnode₁ : ∀ j, m₁.node? j = m.node? j := fun j => by
    obtain ⟨values, blocks, rfl⟩ := hdrops.rest
    rfl
  have hnsize₁ : m₁.nodes.size = m.nodes.size := by
    obtain ⟨values, blocks, rfl⟩ := hdrops.rest
    rfl
  have hid₁ : m₁.node? id = some nd := (hnode₁ id).trans hid
  have hdetach := Module.detach_eq_ok hid₁ h₂
  obtain ⟨nodes, rfl, hnsize, hnode⟩ := Module.markErased_eq_ok h₃
  -- The node could be taken out of its block at once, too, with the same links left behind.
  obtain ⟨m₀, h₀⟩ := h.linked.exists_detach hid he
  have hdetach₀ := Module.detach_eq_ok hid h₀
  have hlinked₀ := (h.toHoused.detach hid he h₀).linked
  have hnode₂ : ∀ j, m₂.node? j = m₀.node? j := fun j => by
    rw [hdetach.node, hdetach₀.node, hnode₁]
  have hhome : ¬ m.outline.Under id nd.parent := h.acyclic (h.linked.mem hid he)
  have hblock₂ : ∀ b, m₂.block? b =
      if m.outline.Under id b then (m₀.block? b).map Block.core else m₀.block? b := by
    intro b
    rw [hdetach.block, hdetach₀.block]
    by_cases hu : m.outline.Under id b
    · have hb : nd.parent ≠ b := fun heq => hhome (heq ▸ hu)
      rw [if_pos hu, (hblock₁ b).1 hu]
      simp only [hb, and_false, if_false, Option.map_map]
      rfl
    · rw [if_neg hu, (hblock₁ b).2 hu]
  have hlinked : Linked { m₂ with nodes } _ none := hlinked₀.clear (D := m.outline.Below id)
    (C := m.outline.Under id) .self (fun hb hx => hb.below (List.mem_of_mem_erase hx))
    (fun {b x} hx hxb => by
      obtain ⟨hne, hxb⟩ := (h.linked.nodup b).mem_erase_iff.1 hxb
      obtain ⟨c, hc, hxc⟩ := hx.eq_or_under.resolve_left hne
      obtain ⟨nx, hnx, -, rfl⟩ := h.linked.exists_node hxb
      exact h.linked.parent_eq hnx hxc ▸ hc)
    (fun j => by rw [hnode, hnode₂]; simp only [hmem]) hblock₂
  have hcore₂ : ∀ j, m₂.core j = m.core j := fun j => by
    rw [Module.core_of_detach hid₁ h₂, Module.core, hnode₁, Module.core]
  refine ⟨hlinked, fun j => ?_, fun j => ?_, fun b => ?_, ?_, ?_, ?_, f, fun w => ?_, fun w l hl => ?_⟩
  · have hcore : ({ m₂ with nodes } : Module).core j =
        if j ∈ doomed then (m₂.core j).map ({ · with erased := true }) else m₂.core j := by
      rw [Module.core, hnode, Module.core]
      split
      · rw [Option.map_map, Option.map_map]
        rfl
      · rfl
    rw [hcore, hcore₂]
    by_cases hj : m.outline.Below id j
    · simp [hmem, hj]
    · simp [hmem, hj]
  · rw [Module.orderOf, hnode, ← Linked.orderOf_detach hid h₀ j, Module.orderOf, hnode₂]
    split
    · rw [Option.map_map]
      rfl
    · rfl
  · change m₂.blockCore b = _
    rw [hdetach.relinks.blockCore, Module.blockCore, Module.blockCore]
    by_cases hu : m.outline.Under id b
    · rw [(hblock₁ b).1 hu, Option.map_map]
      rfl
    · rw [(hblock₁ b).2 hu]
  · exact hnsize.trans (hdetach.relinks.nodes_size.trans hnsize₁)
  · exact hdetach.relinks.blocks_size.trans hbsize
  · change m₂.values.size = _
    rw [hdetach.relinks.values, hvsize]
  · rw [← hf w, Module.value?, Module.value?]
    exact congrArg (fun values : Array Value => values[w.index]?) hdetach.relinks.values
  · simpa only [hmem] using hfmem w l hl

/-- A node whose results are unused can be erased. -/
theorem exists_eraseNode (h : Built count m) (hid : m.node? id = some nd) (he : nd.erased = false)
    (hunused : ∀ v ∈ nd.results, ∀ u, ¬ m.Uses u v) :
    ∃ m', m.eraseNode id = .ok m' ∧ m.Clears m' id := by
  have hmemid : ∃ b, id ∈ m.nodesOf b := ⟨_, h.linked.mem hid he⟩
  have hfuel : m.nodes.size ≤ ([] : List NodeId).length + m.walkFuel := by
    unfold Module.walkFuel
    omega
  obtain ⟨doomed, hwalk, hvisits⟩ := (Visits.start m id).nestedNodes h.toHoused hmemid hfuel
  have hlt : ∀ j ∈ doomed, j.index < m.nodes.size := fun j hj =>
    hvisits.lt h.toHoused hmemid (List.mem_append_left _ hj)
  rw [Module.eraseNode_eq hid he (h.toRecorded.isUnused_eq hid
    (fun _ hv => h.lt_of_result (Module.core_of_node? hid) hv) hunused) hwalk]
  obtain ⟨m₁, h₁⟩ := h.exists_drops hlt
  have hdrops := Module.drops_of_foldlM h₁
  obtain ⟨hprev, hnext, blk, hblk, hlen⟩ := h.linked.detachable hid he
  have hdetach : ∃ m₂, m₁.detach id = .ok m₂ := by
    have hblk₁ : m₁.block? nd.parent = some blk :=
      ((block?_of_drops hdrops hvisits.mem_iff _).2 (h.acyclic (h.linked.mem hid he))).trans hblk
    obtain ⟨values, blocks, rfl⟩ := hdrops.rest
    exact Module.exists_detach hid hprev hnext hblk₁ hlen
  obtain ⟨m₂, h₂⟩ := hdetach
  have hmark : ∃ m', doomed.foldlM (fun m n => m.modifyNode n ({ · with erased := true })) m₂ =
      .ok m' := by
    have hid₁ : m₁.node? id = some nd := by
      obtain ⟨values, blocks, rfl⟩ := hdrops.rest
      exact hid
    refine Module.exists_markErased fun j hj => ?_
    rw [(Module.detach_eq_ok hid₁ h₂).relinks.nodes_size]
    obtain ⟨values, blocks, rfl⟩ := hdrops.rest
    exact hlt j hj
  obtain ⟨m', h₃⟩ := hmark
  exact ⟨m', by rw [h₁, ok_bind, h₂, ok_bind, h₃], h.clears hid he hvisits.mem_iff h₁ h₂ h₃⟩

/-- What is left when a node is erased. -/
theorem of_clears (h : Built count m) (hc : m.Clears m' id) (hn : m.live? id = some n) :
    Built count m' ∧ m'.outline = m.outline.erase id := by
  classical
  have hlists := hc.linked.nodesOf_eq
  have hold : ∀ {j nj}, m'.core j = some nj → ∃ n, m.core j = some n ∧
      nj = { n with erased := n.erased || decide (m.outline.Below id j) } := fun {j nj} hj => by
    rw [hc.core] at hj
    obtain ⟨n, hn, rfl⟩ := Option.map_eq_some_iff.1 hj
    exact ⟨n, hn, rfl⟩
  have hsub : ∀ b, ((if m.outline.Under id b then [] else (m.nodesOf b).erase id) : List NodeId).Sublist
      (m.nodesOf b) := fun b => by
    split
    · exact List.nil_sublist _
    · exact List.erase_sublist
  have hhoused := h.toHoused.congr hc.linked (fun hk => (hsub _).subset hk) hc.blocks_size hc.blockCore
    fun {j nj} hj => by
      obtain ⟨n, hn, rfl⟩ := hold hj
      exact ⟨n, hn, rfl, rfl, rfl⟩
  have hkeyed : Keyed m' (fun b => if m.outline.Under id b then [] else (m.nodesOf b).erase id)
      (count * orderStride) := by
    refine ⟨fun b => ?_, fun j => ?_⟩
    · simp only [hc.orderOf]
      exact (h.keyed.rising b).sublist (hsub b)
    · rw [hc.orderOf]
      exact h.keyed.le j
  obtain ⟨f, hf, hfmem⟩ := hc.value?
  have hlive : ∀ j, m'.live? j = if m.outline.Below id j then none else m.live? j := fun j => by
    rw [Module.live?, hc.core, Module.live?]
    by_cases hj : m.outline.Below id j
    · cases m.core j <;> simp [hj]
    · cases m.core j <;> simp [hj]
  obtain ⟨hrecorded, -⟩ := h.toRecorded.drop (D := m.outline.Below id) hlive hf hfmem
  have htracked : Tracked m' := by
    refine ⟨hrecorded, ?_, ?_⟩
    · intro j nj v hj hv
      obtain ⟨n, hn, rfl⟩ := hold hj
      rw [hc.values_size]
      exact h.operand hn hv
    · intro j nj i v hj hv
      obtain ⟨n, hn, rfl⟩ := hold hj
      rw [Module.def?, hf, Option.map_map]
      exact h.result hn hv
  refine ⟨⟨hlists.symm ▸ hhoused, htracked, hlists.symm ▸ hkeyed, hc.nodes_size ▸ h.size⟩, ?_⟩
  have hentry : m.outline.slot? id = some ⟨n.parent, n.regions, n.erased⟩ :=
    Module.outline_slot? (Module.core_of_live? hn)
  have hnot : ¬ ((m.outline.slot? id).any (·.erased) = true) := by
    rw [hentry]
    simp [Module.erased_of_live? hn]
  rw [Outline.erase, if_neg hnot]
  refine Outline.ext hc.nodes_size hc.blocks_size (funext fun j => ?_) hlists
  change (m'.core j).map _ = ((m.core j).map _).map _
  rw [hc.core, Option.map_map, Option.map_map]
  rfl

/-- Erasing an erased node again does nothing. -/
theorem eraseNode_of_erased (hid : m.node? id = some nd) (he : nd.erased = true) :
    m.eraseNode id = .ok m ∧ m.outline.erase id = m.outline := by
  have hentry : m.outline.slot? id = some ⟨nd.parent, nd.regions, nd.erased⟩ :=
    Module.outline_slot? (n := nd.core) (Module.core_of_node? hid)
  constructor
  · rw [Module.eraseNode, Module.node_eq_ok_iff.2 hid, ok_bind, he, if_pos rfl]
    rfl
  · rw [Outline.erase, hentry, if_pos (by simpa using he)]

/-- Erasing a node empties its regions and takes it out of its list. -/
theorem eraseNode (h : Built count m) (hn : m.core id = some n)
    (hunused : n.erased = false → ∀ v ∈ n.results, ∀ u, ¬ m.Uses u v) :
    ∃ m', m.eraseNode id = .ok m' ∧ Built (count + 1) m' ∧ m'.outline = m.outline.erase id := by
  obtain ⟨nd, hid, rfl⟩ := Option.map_eq_some_iff.1 hn
  cases he : nd.erased with
  | true =>
    obtain ⟨hok, hout⟩ := eraseNode_of_erased hid he
    exact ⟨m, hok, h.succ, hout.symm⟩
  | false =>
    obtain ⟨m', hok, hc⟩ := h.exists_eraseNode hid he (hunused he)
    obtain ⟨hb, hout⟩ := h.of_clears hc (Module.live?_of_node? hid he)
    exact ⟨m', hok, hb.succ, hout⟩

end Built

end NetPrep
