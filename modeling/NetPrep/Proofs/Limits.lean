import Mathlib
import NetPrep.Proofs.Subtree

/-!
# Limits

A fault is a misuse of a module, or a sign that a machine is too small: a number leaves its range, or
a budget of steps runs out. A computation that stops with faults of the second kind only is `Tame`.
Every edit of a sound module that preparation makes is.
-/

namespace NetPrep

/-- A fault for want of room or of steps. -/
def Fault.IsLimit (f : Fault) : Prop := f = .overflow ∨ f = .outOfFuel

/-- A computation gives a result, or stops for want of room or of steps. -/
def Tame {α : Type} (x : Except Fault α) : Prop := ∀ f, x = .error f → f.IsLimit

namespace Tame

variable {α β : Type} {x : Except Fault α} {f : α → Except Fault β}

theorem ok (a : α) : Tame (.ok a : Except Fault α) := fun _ h => by cases h

theorem of_ok (h : ∃ a, x = .ok a) : Tame x := by
  obtain ⟨a, rfl⟩ := h
  exact ok a

theorem of_safe {p : Prop} (h : Safe p x) : Tame x := by
  obtain ⟨a, rfl⟩ | ⟨rfl, -⟩ := h
  · exact ok a
  · rintro f ⟨⟩
    exact Or.inl rfl

theorem outOfFuel : Tame (.error .outOfFuel : Except Fault α) := by
  rintro f ⟨⟩
  exact Or.inr rfl

theorem bind (hx : Tame x) (hf : ∀ a, x = .ok a → Tame (f a)) : Tame (x >>= f) := by
  intro e h
  obtain h | ⟨a, ha, h⟩ := bind_eq_error_iff.1 h
  · exact hx e h
  · exact hf a ha e h

/-- A step that comes last. -/
theorem last (h : Tame (x >>= Pure.pure)) : Tame x := by rwa [bind_pure] at h

/-- A step whose result is known comes first. -/
theorem bind_eq {a : α} (hx : x = .ok a) (hf : Tame (f a)) : Tame (x >>= f) := by
  rw [hx, ok_bind]
  exact hf

theorem below (limit n : Nat) : Tame (below limit n) := of_safe (.below (fun h : False => h.elim))

end Tame

namespace Linked

variable {m : Module} {lists : BlockId → List NodeId} {loose : Option NodeId} {pos : Position}
  {b : BlockId}

/-- A position in the list of a block that is there stands for a gap. -/
theorem exists_gapAt (h : Linked m lists loose) (hpos : pos.In lists b)
    (hb : ∃ blk, m.block? b = some blk) : ∃ gap, m.gapAt pos = .ok gap := by
  have hanchor : ∀ {anchor}, anchor ∈ lists b → ∃ n, m.node anchor = .ok n ∧ n.erased = false :=
    fun ha => by
      obtain ⟨n, hn, he, -⟩ := h.exists_node ha
      exact ⟨n, Module.node_eq_ok_iff.2 hn, he⟩
  obtain ⟨blk, hblk⟩ := hb
  cases pos with
  | before anchor =>
    obtain ⟨n, hn, he⟩ := hanchor hpos
    exact ⟨⟨n.parent, n.prev, some anchor⟩, by simp [Module.gapAt, hn, he, ok_bind, pure, Except.pure]⟩
  | after anchor =>
    obtain ⟨n, hn, he⟩ := hanchor hpos
    exact ⟨⟨n.parent, some anchor, n.next⟩, by simp [Module.gapAt, hn, he, ok_bind, pure, Except.pure]⟩
  | front c =>
    obtain rfl : c = b := hpos
    exact exists_bind_ok ⟨blk, Module.block_eq_ok_iff.2 hblk⟩ fun _ _ => ⟨_, rfl⟩
  | back c =>
    obtain rfl : c = b := hpos
    exact exists_bind_ok ⟨blk, Module.block_eq_ok_iff.2 hblk⟩ fun _ _ => ⟨_, rfl⟩

end Linked

namespace WellFormed

variable {m m' : Module} {id : NodeId} {n : Node} {b : BlockId} {pos : Position} {op : Op}
  {operands : List ValueId} {types : List TypeId} {loc : Loc} {v old new : ValueId} {i k : Nat}
  {room : Prop}

theorem lt_of_usable (h : m.Usable v) : v.index < m.values.size := by
  obtain ⟨d, hd, -⟩ := h
  exact lt_of_def? hd

theorem lt_of_result (hw : WellFormed m) (hn : m.core id = some n) (hv : v ∈ n.results) :
    v.index < m.values.size := by
  obtain ⟨i, hi⟩ := List.mem_iff_getElem?.1 hv
  exact lt_of_def? (hw.result hn hi)

theorem usable_operand (hw : WellFormed m) (hn : m.live? id = some n) (hv : v ∈ n.operands) :
    m.Usable v := by
  obtain ⟨i, hi⟩ := Module.exists_uses_of_mem hn hv
  exact hw.usable hi

theorem usable_of_mem_results (hw : WellFormed m) (hn : m.live? id = some n) (hv : v ∈ n.results) :
    m.Usable v := by
  obtain ⟨i, hdef⟩ := hw.exists_def hn hv
  refine ⟨_, hdef, fun he => ?_⟩
  cases he
  exact ⟨n, hn⟩

theorem createNode_safe (hw : WellFormed m) (hpos : pos.In m.nodesOf b)
    (hb : ∃ blk, m.block? b = some blk) (huse : ∀ v ∈ operands, m.Usable v)
    (hroom : room → m.Roomy 1) : Safe room (m.createNode pos op operands types loc) := by
  rw [Module.createNode_eq]
  refine .bind_ok (hw.linked.exists_gapAt hpos hb) fun gap hgap => ?_
  obtain ⟨rfl, l, r, hl, hp, hn, -⟩ := hw.linked.gapAt_eq_ok hpos hgap ⟨m.nodes.size⟩
  have hblk := Module.exists_block?_iff.1 hb
  refine .bind_ok (Module.exists_store fun v hv => lt_of_usable (huse v hv)) fun m₁ h₁ => ?_
  have hs := Module.store_eq_ok h₁
  refine .bind ((hw.linked.of_stored hs hblk).link_safe hs.node?_self rfl hl hp hn ?_ fun hr => ?_)
    fun m' _ => .ok _
  · rw [hs.blocks_size]
    exact Nat.lt_add_right _ hblk
  · exact (hroom hr).room hs.nodes_size.le fun j => hs.orderOf_le rfl j

/-- Creating a node uses up the room for one edit. -/
theorem roomy_createNode (hw : WellFormed m) (hpos : pos.In m.nodesOf b)
    (hb : ∃ blk, m.block? b = some blk) (hroom : m.Roomy (k + 1))
    (h : m.createNode pos op operands types loc = .ok (id, m')) : m'.Roomy k := by
  rw [Module.createNode_eq] at h
  simp only [bind_eq_ok_iff] at h
  obtain ⟨gap, hgap, m₁, h₁, m₂, h₂, hret⟩ := h
  cases hret
  obtain ⟨rfl, l, r, hl, hp, hn, -⟩ := hw.linked.gapAt_eq_ok hpos hgap ⟨m.nodes.size⟩
  have hblk := Module.exists_block?_iff.1 hb
  have hs := Module.store_eq_ok h₁
  refine hroom.step ((Module.link_eq_ok h₂).1.nodes_size.trans hs.nodes_size).le fun bound hle hsize j => ?_
  refine (hw.linked.of_stored hs hblk).orderOf_link_le hs.node?_self rfl hl hp hn ?_
    (fun i => (hs.orderOf_le rfl i).trans (hle i)) ?_ h₂ j
  · rw [hs.blocks_size]
    exact Nat.lt_add_right _ hblk
  · rw [hs.nodes_size, Nat.succ_mul]
    exact Nat.add_le_add_right hsize _

theorem exists_createNode (hw : WellFormed m) (hpos : pos.In m.nodesOf b)
    (hb : ∃ blk, m.block? b = some blk) (huse : ∀ v ∈ operands, m.Usable v)
    (hroom : m.Roomy (k + 1)) :
    ∃ id m', m.createNode pos op operands types loc = .ok (id, m') ∧ m'.Roomy k := by
  have hsafe : Safe True (m.createNode pos op operands types loc) :=
    hw.createNode_safe hpos hb huse fun _ => hroom.of_le (Nat.le_add_left 1 k)
  obtain ⟨⟨id, m'⟩, h⟩ := hsafe.exists_ok trivial
  exact ⟨id, m', h, hw.roomy_createNode hpos hb hroom h⟩

theorem createNode_tame (hw : WellFormed m) (hpos : pos.In m.nodesOf b)
    (hb : ∃ blk, m.block? b = some blk) (huse : ∀ v ∈ operands, m.Usable v) :
    Tame (m.createNode pos op operands types loc) :=
  .of_safe (hw.createNode_safe hpos hb huse False.elim)

theorem cloneNode_tame (hw : WellFormed m) (hn : m.live? id = some n) (hpos : pos.In m.nodesOf b)
    (hb : ∃ blk, m.block? b = some blk) (hop : n.op.regionKinds = []) :
    Tame (m.cloneNode id pos) := by
  obtain ⟨nd, hid, -, rfl⟩ := Module.exists_of_live? hn
  refine .bind_eq (Module.node_eq_ok_iff.2 hid) ?_
  refine .bind (.of_ok (exists_mapM fun v hv => ?_)) fun types _ => ?_
  · have hlt := hw.lt_of_result (Module.core_of_live? hn) (v := v) hv
    obtain ⟨x, hx⟩ := Module.exists_value?_iff.2 hlt
    exact exists_bind_ok ⟨x, Module.value_eq_ok_iff.2 hx⟩ fun _ _ => ⟨_, rfl⟩
  · have huse : ∀ v ∈ nd.operands, m.Usable v := fun v hv => hw.usable_operand hn hv
    refine .bind (hw.createNode_tame hpos hb huse) fun ⟨copy, m₁⟩ h₁ => ?_
    have hlive := (hw.createNode hpos hb hop huse h₁).1.live?_self
    exact .bind (.of_ok (Module.exists_modifyNode (Module.lt_of_live? hlive))) fun _ _ => .ok _

theorem moveNode_safe (hw : WellFormed m) (hn : m.live? id = some n) (hpos : pos.In m.nodesOf b)
    (hb : ∃ blk, m.block? b = some blk) (hroom : room → m.Roomy 1) :
    Safe room (m.moveNode id pos) := by
  by_cases hself : pos = .before id ∨ pos = .after id
  · rw [Module.moveNode, if_pos hself]
    exact .ok m
  · obtain ⟨hbefore, hafter⟩ := not_or.1 hself
    obtain ⟨nd, hid, he, rfl⟩ := Module.exists_of_live? hn
    rw [Module.moveNode_eq hid he hbefore hafter]
    refine .bind_ok (hw.linked.exists_detach hid he) fun m₁ h₁ => ?_
    have hdetach := Module.detach_eq_ok hid h₁
    have hlinked₁ := hw.linked.remove hid he h₁
    have hpos₁ := hw.in_update_erase (n := nd.core) hn hpos hbefore hafter
    have hb₁ : ∃ blk, m₁.block? b = some blk := by
      obtain ⟨blk, hblk⟩ := hb
      exact ⟨_, by rw [hdetach.block, hblk]; rfl⟩
    refine .bind_ok (hlinked₁.exists_gapAt hpos₁ hb₁) fun gap hgap => ?_
    obtain ⟨rfl, l, r, hl, hp, hx, -⟩ := hlinked₁.gapAt_eq_ok hpos₁ hgap id
    have hid₁ := hdetach.node id
    rw [hid, Option.map_some] at hid₁
    refine hlinked₁.link_safe hid₁ he hl hp hx (Module.exists_block?_iff.1 hb₁) fun hr => ?_
    refine (hroom hr).room (hdetach.relinks.nodes_size.le.trans (Nat.le_succ _)) fun j => ?_
    exact (Linked.orderOf_detach hid h₁ j).le

theorem moveNode_tame (hw : WellFormed m) (hn : m.live? id = some n) (hpos : pos.In m.nodesOf b)
    (hb : ∃ blk, m.block? b = some blk) : Tame (m.moveNode id pos) :=
  .of_safe (hw.moveNode_safe hn hpos hb False.elim)

/-- A node without regions whose results are unused can be erased. -/
theorem exists_eraseNode (hw : WellFormed m) (hn : m.live? id = some n) (hr : n.regions = [])
    (hunused : ∀ v ∈ n.results, ∀ u, ¬ m.Uses u v) : ∃ m', m.eraseNode id = .ok m' := by
  obtain ⟨nd, hid, he, rfl⟩ := Module.exists_of_live? hn
  replace hr : nd.regions = [] := hr
  have hcore := Module.core_of_node? hid
  rw [Module.eraseNode_eq hid he
    (hw.recorded.isUnused_eq hid (fun v hv => hw.lt_of_result hcore hv) hunused)
    (Module.nestedNodes_of_regions_nil hid hr m.walkFuel_pos)]
  have hops : ∀ v ∈ nd.operands, v.index < m.values.size := fun v hv =>
    lt_of_usable (hw.usable_operand hn hv)
  obtain ⟨m₁, h₁⟩ : ∃ m₁, [id].foldlM Module.dropContents m = .ok m₁ := Module.exists_drops fun j hj => by
    obtain rfl := List.mem_singleton.1 hj
    exact ⟨nd.core, hcore, hops, by simp [Node.core, hr]⟩
  have hdrops := Module.drops_of_foldlM h₁
  have hlinked₁ : Linked m₁ m.nodesOf none := hw.linked.congr (fun j => by
      obtain ⟨values, blocks, rfl⟩ := hdrops.rest
      rfl) fun b => by
    rw [hdrops.block?, if_neg]
    rintro ⟨j, hj, nj, hnj, hmem⟩
    obtain rfl := List.mem_singleton.1 hj
    obtain rfl := Option.some.inj (hcore.symm.trans hnj)
    exact absurd (hr ▸ hmem) List.not_mem_nil
  have hid₁ : m₁.node? id = some nd := by
    obtain ⟨values, blocks, rfl⟩ := hdrops.rest
    exact hid
  obtain ⟨m₂, h₂⟩ := hlinked₁.exists_detach hid₁ he
  rw [h₁, ok_bind, h₂, ok_bind]
  refine Module.exists_markErased fun j hj => ?_
  obtain rfl := List.mem_singleton.1 hj
  rw [(Module.detach_eq_ok hid₁ h₂).relinks.nodes_size]
  exact Module.lt_of_node? hid₁

theorem exists_setOperand (hw : WellFormed m) (hu : m.Uses ⟨id, i⟩ old) (hv : m.Usable v) :
    ∃ m', m.setOperand id i v = .ok m' := by
  have hu' := hu
  obtain ⟨n, hn, hold⟩ := hu'
  obtain ⟨nd, hid, -, rfl⟩ := Module.exists_of_live? hn
  obtain ⟨hlt, rfl⟩ := List.getElem?_eq_some_iff.1 hold
  exact Module.exists_setOperand hid hlt (lt_of_usable (hw.usable hu)) (lt_of_usable hv)

theorem exists_replaceUses (hw : WellFormed m) (hold : old.index < m.values.size)
    (hnew : m.Usable new) : ∃ m', m.replaceUses old new = .ok m' := by
  obtain ⟨x, hx⟩ := Module.exists_value?_iff.2 hold
  refine Module.exists_replaceUses hx (fun u hu => ?_) (lt_of_usable hnew)
  obtain ⟨n, hn, hget⟩ := (hw.mem_uses hx).1 hu
  obtain ⟨nd, hnd, -, rfl⟩ := Module.exists_of_live? hn
  exact ⟨nd, hnd, (List.getElem?_eq_some_iff.1 hget).1⟩

end WellFormed

/-- Creating a node leaves the table of types. -/
theorem Module.types_of_createNode {m m' : Module} {id : NodeId} {pos : Position} {op : Op}
    {operands : List ValueId} {types : List TypeId} {loc : Loc}
    (h : m.createNode pos op operands types loc = .ok (id, m')) : m'.types = m.types := by
  simp only [createNode_eq, store, bind_eq_ok_iff] at h
  obtain ⟨gap, -, m₁, ⟨m₂, h₂, h₁⟩, m₃, h₃, h⟩ := h
  cases h
  cases h₁
  obtain ⟨-, ⟨values, hm⟩, -, -⟩ := m.addResults_eq ⟨m.nodes.size⟩ 0 types
  obtain ⟨-, ⟨blocks, hm'⟩, -, -⟩ :=
    (m.addResults ⟨m.nodes.size⟩ 0 types).2.addRegions_eq ⟨m.nodes.size⟩ op.regionKinds
  rw [hm'] at h₂
  obtain ⟨values', rfl⟩ := (addUses_eq_ok h₂).rest
  rw [(link_eq_ok h₃).1.types]
  rw [hm]

theorem Module.types_of_cloneNode {m m' : Module} {source id : NodeId} {pos : Position}
    (h : m.cloneNode source pos = .ok (id, m')) : m'.types = m.types := by
  simp only [cloneNode, bind_eq_ok_iff] at h
  obtain ⟨n, -, types, -, ⟨copy, m₁⟩, h₁, m₂, h₂, h⟩ := h
  cases h
  obtain ⟨nodes, rfl, -, -⟩ := modifyNode_eq_ok h₂
  show m₁.types = m.types
  exact types_of_createNode h₁

end NetPrep
