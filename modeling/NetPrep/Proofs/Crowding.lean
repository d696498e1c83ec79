import Mathlib
import NetPrep.Proofs.Limits

/-!
# Room before a node

A node that is put before another one gets a key between those of its neighbours, or the keys of the
block are spread out anew. So all that there must be room for are as many keys as there are nodes.
-/

namespace NetPrep

/-- The keys of a block with all nodes of a module, and some more, can be spread out. -/
def Module.Fits (m : Module) (more : Nat) : Prop := (m.nodes.size + more) * orderStride < limit64

theorem Module.Fits.zero {m : Module} (h : m.Fits 1) : m.Fits 0 :=
  lt_of_le_of_lt (Nat.mul_le_mul_right _ (Nat.le_succ _)) h

namespace Linked

variable {m : Module} {lists : BlockId → List NodeId} {l r : List NodeId} {id next : NodeId}
  {nd : Node} {gap : Gap} {room : Prop}

theorem assignOrder_before_safe (h : Linked m lists none)
    (hl : lists gap.block = l ++ id :: next :: r) (hp : gap.prev = l.getLast?)
    (hn : gap.next = some next) (hroom : room → m.Fits 0) : Safe room (m.assignOrder id gap) := by
  obtain ⟨hprev, hnext⟩ := h.gap_lt hl hp hn
  have hid : id ∈ lists gap.block := by simp [hl]
  obtain ⟨nd, hnd, he, hparent⟩ := h.exists_node hid
  rw [assignOrder_between hprev hn (hnext next hn)]
  split
  · exact h.renumber_safe (Module.exists_block?_iff.1 (hparent ▸ h.home hnd he)) hroom
  · exact .of_ok (Module.exists_modifyNode (h.lt_nodes_size hid))

/-- A loose node can be put before another one if there is room for the keys. -/
theorem link_before_safe (h : Linked m lists (some id)) (hid : m.node? id = some nd)
    (he : nd.erased = false) (hl : lists gap.block = l ++ next :: r) (hp : gap.prev = l.getLast?)
    (hn : gap.next = some next) (hblk : gap.block.index < m.blocks.size)
    (hroom : room → m.Fits 0) : Safe room (m.link id gap) := by
  obtain ⟨blk, hblk⟩ := Module.exists_block?_iff.2 hblk
  rw [Module.link_eq]
  refine .bind (Module.attach_safe (Module.lt_of_node? hid) (fun p hgp => ?_) (fun x hgx => ?_)
    hblk fun hr => ?_) fun m₁ h₁ => ?_
  · refine h.lt_nodes_size (b := gap.block) ?_
    rw [hl]
    exact List.mem_append_left _ (List.mem_of_getLast? (hp ▸ hgp))
  · refine h.lt_nodes_size (b := gap.block) ?_
    rw [hl, ← Option.some.inj (hn.symm.trans hgx)]
    exact List.mem_append_right _ List.mem_cons_self
  · have hlen := h.length_le gap.block
    have hfits : (m.nodes.size + 0) * orderStride < limit64 := hroom hr
    rw [h.len hblk]
    unfold orderStride limit64 at *
    omega
  · have hlinked := h.attach hid he hl hp hn ⟨blk, hblk⟩ h₁
    refine hlinked.assignOrder_before_safe (Function.update_self ..) hp hn fun hr => ?_
    unfold Module.Fits
    rw [(Module.attach_eq_ok h₁).1.nodes_size]
    exact hroom hr

end Linked

namespace Module

variable {m : Module} {user : NodeId} {gap : Gap}

theorem next_of_gapAt {nd : Node} (hnd : m.node? user = some nd) (he : nd.erased = false)
    (h : m.gapAt (.before user) = .ok gap) : gap.next = some user := by
  simp only [gapAt, node_eq_ok_iff.2 hnd, ok_bind, he, Bool.false_eq_true, if_false] at h
  exact (Except.ok.inj h) ▸ rfl

end Module

namespace WellFormed

variable {m m' : Module} {id source user : NodeId} {n nu : Node} {op : Op} {operands : List ValueId}
  {types : List TypeId} {loc : Loc} {room : Prop}

theorem createNode_before_safe (hw : WellFormed m) (hu : m.live? user = some nu)
    (huse : ∀ v ∈ operands, m.Usable v) (hroom : room → m.Fits 1) :
    Safe room (m.createNode (.before user) op operands types loc) := by
  have hpos : Position.In m.nodesOf nu.parent (.before user) := hw.mem_nodesOf hu
  have hb := hw.exists_block hu
  rw [Module.createNode_eq]
  refine .bind_ok (hw.linked.exists_gapAt hpos hb) fun gap hgap => ?_
  obtain ⟨nd, hnd, he, -⟩ := Module.exists_of_live? hu
  have hnext := Module.next_of_gapAt hnd he hgap
  obtain ⟨hblock, l, r, hl, hp, hr, -⟩ := hw.linked.gapAt_eq_ok hpos hgap ⟨m.nodes.size⟩
  obtain ⟨r, rfl⟩ := List.head?_eq_some_iff.1 (hr.symm.trans hnext)
  have hblk := Module.exists_block?_iff.1 hb
  rw [← hblock] at hl hblk
  refine .bind_ok (Module.exists_store fun v hv => lt_of_usable (huse v hv)) fun m₁ h₁ => ?_
  have hs := Module.store_eq_ok h₁
  refine .bind ((hw.linked.of_stored hs hblk).link_before_safe hs.node?_self rfl hl hp hnext ?_
    fun hr => ?_) fun m' _ => .ok _
  · rw [hs.blocks_size]
    exact Nat.lt_add_right _ hblk
  · unfold Module.Fits
    rw [hs.nodes_size]
    exact hroom hr

theorem cloneNode_before_safe (hw : WellFormed m) (hn : m.live? source = some n)
    (hr : n.op.regionKinds = []) (hu : m.live? user = some nu) (hroom : room → m.Fits 1) :
    Safe room (m.cloneNode source (.before user)) := by
  obtain ⟨nd, hid, -, rfl⟩ := Module.exists_of_live? hn
  refine .bind_ok ⟨nd, Module.node_eq_ok_iff.2 hid⟩ fun nd' hnd' => ?_
  obtain rfl := Option.some.inj (hid.symm.trans (Module.node_eq_ok_iff.1 hnd'))
  refine .bind_ok (exists_mapM fun v hv => ?_) fun types _ => ?_
  · have hlt := hw.lt_of_result (Module.core_of_live? hn) (v := v) hv
    obtain ⟨x, hx⟩ := Module.exists_value?_iff.2 hlt
    exact exists_bind_ok ⟨x, Module.value_eq_ok_iff.2 hx⟩ fun _ _ => ⟨_, rfl⟩
  · have huse : ∀ v ∈ nd.operands, m.Usable v := fun v hv => hw.usable_operand hn hv
    refine .bind (hw.createNode_before_safe hu huse hroom) fun ⟨copy, m₁⟩ h₁ => ?_
    have hpos : Position.In m.nodesOf nu.parent (.before user) := hw.mem_nodesOf hu
    have hlive := (hw.createNode hpos (hw.exists_block hu) hr huse h₁).1.live?_self
    exact .bind_ok (Module.exists_modifyNode (Module.lt_of_live? hlive)) fun _ _ => .ok _

theorem moveNode_before_safe (hw : WellFormed m) (hn : m.live? id = some n)
    (hu : m.live? user = some nu) (hroom : room → m.Fits 0) :
    Safe room (m.moveNode id (.before user)) := by
  by_cases hself : user = id
  · rw [Module.moveNode, if_pos (Or.inl (hself ▸ rfl))]
    exact .ok m
  · have hbefore : Position.before user ≠ .before id := fun he => hself (Position.before.inj he)
    have hafter : Position.before user ≠ .after id := fun he => by cases he
    have hpos : Position.In m.nodesOf nu.parent (.before user) := hw.mem_nodesOf hu
    obtain ⟨nd, hid, he, rfl⟩ := Module.exists_of_live? hn
    obtain ⟨ndu, hndu, heu, -⟩ := Module.exists_of_live? hu
    rw [Module.moveNode_eq hid he hbefore hafter]
    refine .bind_ok (hw.linked.exists_detach hid he) fun m₁ h₁ => ?_
    have hdetach := Module.detach_eq_ok hid h₁
    have hlinked₁ := hw.linked.remove hid he h₁
    have hpos₁ := hw.in_update_erase (n := nd.core) hn hpos hbefore hafter
    have hb₁ : ∃ blk, m₁.block? nu.parent = some blk := by
      obtain ⟨blk, hblk⟩ := hw.exists_block hu
      exact ⟨_, by rw [hdetach.block, hblk]; rfl⟩
    refine .bind_ok (hlinked₁.exists_gapAt hpos₁ hb₁) fun gap hgap => ?_
    have hndu₁ := hdetach.node user
    rw [hndu, Option.map_some] at hndu₁
    have hnext := Module.next_of_gapAt hndu₁ heu hgap
    obtain ⟨hblock, l, r, hl, hp, hr, -⟩ := hlinked₁.gapAt_eq_ok hpos₁ hgap id
    obtain ⟨r, rfl⟩ := List.head?_eq_some_iff.1 (hr.symm.trans hnext)
    have hblk := Module.exists_block?_iff.1 hb₁
    rw [← hblock] at hl hblk
    have hid₁ := hdetach.node id
    rw [hid, Option.map_some] at hid₁
    refine hlinked₁.link_before_safe hid₁ he hl hp hnext hblk fun hr => ?_
    unfold Module.Fits
    rw [hdetach.relinks.nodes_size]
    exact hroom hr

end WellFormed

/-! ## How many nodes there are afterwards -/

namespace Module

variable {m m' : Module} {id source : NodeId} {pos : Position} {op : Op} {operands : List ValueId}
  {types : List TypeId} {loc : Loc} {v : ValueId} {i : Nat}

theorem nodes_size_of_createNode (h : m.createNode pos op operands types loc = .ok (id, m')) :
    m'.nodes.size = m.nodes.size + 1 := by
  rw [createNode_eq] at h
  simp only [bind_eq_ok_iff] at h
  obtain ⟨gap, -, m₁, h₁, m₂, h₂, h⟩ := h
  cases h
  rw [(link_eq_ok h₂).1.nodes_size, (store_eq_ok h₁).nodes_size]

theorem nodes_size_of_cloneNode (h : m.cloneNode source pos = .ok (id, m')) :
    m'.nodes.size = m.nodes.size + 1 := by
  simp only [cloneNode, bind_eq_ok_iff] at h
  obtain ⟨n, -, types, -, ⟨id', m₁⟩, h₁, m₂, h₂, h⟩ := h
  cases h
  rw [(Relinks.of_modifyNode h₂).nodes_size, nodes_size_of_createNode h₁]

theorem nodes_size_of_moveNode (h : m.moveNode id pos = .ok m') :
    m'.nodes.size = m.nodes.size := by
  unfold moveNode at h
  split at h
  · cases h
    rfl
  · simp only [bind_eq_ok_iff] at h
    obtain ⟨n, hn, h⟩ := h
    split at h
    · cases h
    · simp only [bind_eq_ok_iff] at h
      obtain ⟨m₁, h₁, gap, -, h₂⟩ := h
      rw [(link_eq_ok h₂).1.nodes_size,
        (detach_eq_ok (node_eq_ok_iff.1 hn) h₁).relinks.nodes_size]

theorem nodes_size_of_setOperand (h : m.setOperand id i v = .ok m') :
    m'.nodes.size = m.nodes.size := by
  simp only [setOperand, bind_eq_ok_iff] at h
  obtain ⟨old, -, h⟩ := h
  split at h
  · cases h
    rfl
  · simp only [bind_eq_ok_iff] at h
    obtain ⟨m₁, h₁, m₂, h₂, h₃⟩ := h
    obtain ⟨values, rfl⟩ := (removeUse_eq_ok h₁).rest
    obtain ⟨values', rfl⟩ := (addUse_eq_ok h₂).rest
    exact (Relinks.of_modifyNode h₃).nodes_size

end Module

end NetPrep
