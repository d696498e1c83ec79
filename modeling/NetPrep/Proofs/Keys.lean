import Mathlib
import NetPrep.Proofs.Safety

/-!
# Order keys

The order keys of a block rise along its list, and each edit raises the bound on them by one stride at
most. So keys only overflow after very many edits, and comparing two of them tells which node comes
first.
-/

namespace NetPrep

/-- The order key of a node; zero if there is no such node. -/
def Module.orderOf (m : Module) (id : NodeId) : Nat := ((m.node? id).map (·.order)).getD 0

theorem Module.orderOf_eq {m : Module} {id : NodeId} {n : Node} (h : m.node? id = some n) :
    m.orderOf id = n.order := by
  simp [orderOf, h]

/-- The order key of the node before a gap; zero if there is none. -/
def Gap.low (m : Module) (gap : Gap) : Nat := (gap.prev.map m.orderOf).getD 0

/-- The order keys rise along each list, and none exceeds a bound. -/
structure Keyed (m : Module) (lists : BlockId → List NodeId) (bound : Nat) : Prop where
  rising : ∀ b, (lists b).Pairwise fun x y => m.orderOf x < m.orderOf y
  le : ∀ j, m.orderOf j ≤ bound

/-- What there must be room for when a node gets a place. -/
structure Module.Room (m : Module) : Prop where
  key : ∀ j, m.orderOf j + orderStride < limit64
  renumber : m.nodes.size * orderStride < limit64
  len : m.nodes.size + 1 < limit64

theorem Module.Room.low {m : Module} (h : m.Room) (gap : Gap) : gap.low m + orderStride < limit64 := by
  have hlow : gap.low m = 0 ∨ ∃ p, gap.low m = m.orderOf p := by
    unfold Gap.low
    cases gap.prev with
    | none => exact Or.inl rfl
    | some p => exact Or.inr ⟨p, rfl⟩
  rcases hlow with hlow | ⟨p, hlow⟩
  · rw [hlow]
    simp [orderStride, limit64]
  · rw [hlow]
    exact h.key p

/-- A module has room for some edits: each makes one node at most, and raises the keys by a stride at
most. -/
structure Module.Roomy (m : Module) (more : Nat) : Prop where
  key : ∀ j, m.orderOf j + more * orderStride < limit64
  size : (m.nodes.size + more) * orderStride < limit64

namespace Module.Roomy

variable {m m' m₁ : Module} {k more : Nat}

/-- The nodes of a module show whether it has room. -/
theorem of_nodes (hkey : ∀ n ∈ m.nodes.toList, n.order + more * orderStride < limit64)
    (hsize : (m.nodes.size + more) * orderStride < limit64) : m.Roomy more := by
  refine ⟨fun j => ?_, hsize⟩
  cases hn : m.node? j with
  | none =>
    rw [Module.orderOf, hn, Option.map_none, Option.getD_none, Nat.zero_add]
    exact lt_of_le_of_lt (Nat.mul_le_mul_right _ (Nat.le_add_left _ _)) hsize
  | some n =>
    rw [Module.orderOf_eq hn]
    exact hkey n (Array.mem_toList_iff.2 (Array.mem_of_getElem? hn))

theorem of_le (h : m.Roomy more) (hk : k ≤ more) : m.Roomy k := by
  have hmul := Nat.mul_le_mul_right orderStride hk
  have hsize := h.size
  rw [Nat.add_mul] at hsize
  refine ⟨fun j => ?_, ?_⟩
  · have hkey := h.key j
    omega
  · rw [Nat.add_mul]
    omega

/-- There is room in a module that is like one with room, but may have the next node already. -/
theorem room (h : m.Roomy 1) (hsize : m₁.nodes.size ≤ m.nodes.size + 1)
    (hkey : ∀ j, m₁.orderOf j ≤ m.orderOf j) : m₁.Room := by
  have hlimit := h.size
  have hstride : 2 ≤ orderStride := by decide
  have hlen := Nat.mul_le_mul_left (m.nodes.size + 1) hstride
  refine ⟨fun j => ?_, lt_of_le_of_lt (Nat.mul_le_mul_right orderStride hsize) hlimit, by omega⟩
  have hj := h.key j
  have hle := hkey j
  omega

/-- An edit leaves room if it makes no more than one node and raises the keys by a stride at most. -/
theorem step (h : m.Roomy (k + 1)) (hsize : m'.nodes.size ≤ m.nodes.size + 1)
    (hkey : ∀ bound, (∀ j, m.orderOf j ≤ bound) → m.nodes.size * orderStride ≤ bound →
      ∀ j, m'.orderOf j ≤ bound + orderStride) : m'.Roomy k := by
  have hbound := h.size
  rw [← Nat.add_assoc, Nat.add_mul, Nat.add_mul, Nat.one_mul] at hbound
  have hle : ∀ j, m.orderOf j ≤ limit64 - 1 - (k * orderStride + orderStride) := fun j => by
    have hj := h.key j
    rw [Nat.succ_mul] at hj
    omega
  refine ⟨fun j => ?_, ?_⟩
  · have hj := hkey _ hle (by omega) j
    have hlt := h.key j
    rw [Nat.succ_mul] at hlt
    omega
  · refine lt_of_le_of_lt (Nat.mul_le_mul_right _ ?_) h.size
    omega

/-- An edit that leaves the keys leaves the room. -/
theorem congr (h : m.Roomy k) (hsize : m'.nodes.size = m.nodes.size)
    (hkey : ∀ j, m'.orderOf j = m.orderOf j) : m'.Roomy k where
  key j := hkey j ▸ h.key j
  size := hsize ▸ h.size

end Module.Roomy

namespace Module

variable {m m' : Module} {id j : NodeId} {order : Nat}

theorem orderOf_modifyNode (h : m.modifyNode id ({ · with order }) = .ok m') :
    m'.orderOf j = if id = j then order else m.orderOf j := by
  have hlt : id.index < m.nodes.size := by
    by_contra hge
    simp [modifyNode, hge] at h
  obtain ⟨n, hn⟩ := exists_node?_iff.2 hlt
  obtain ⟨nodes, rfl, -, hnode⟩ := modifyNode_eq_ok h
  unfold orderOf
  rw [hnode]
  split
  · next hij => simp [← hij, hn]
  · rfl

end Module

/-- There are no more different nodes than identifiers for them. -/
theorem length_le_of_nodup {l : List NodeId} {k : Nat} (hnd : l.Nodup) (hlt : ∀ x ∈ l, x.index < k) :
    l.length ≤ k := by
  have hmap : (l.map NodeId.index).Nodup :=
    hnd.map fun x y hxy => by cases x; cases y; simpa using hxy
  have hsub : l.map NodeId.index ⊆ List.range k := by
    intro i hi
    obtain ⟨x, hx, rfl⟩ := List.mem_map.1 hi
    exact List.mem_range.2 (hlt x hx)
  simpa using (hmap.subperm hsub).length_le

namespace Linked

variable {m m' : Module} {lists : BlockId → List NodeId} {b : BlockId} {l r : List NodeId}
  {id : NodeId} {nd : Node} {fuel order bound : Nat} {room : Prop} {gap : Gap}

theorem lt_nodes_size {loose : Option NodeId} (h : Linked m lists loose) (hid : id ∈ lists b) :
    id.index < m.nodes.size := by
  obtain ⟨nd, hnd, -⟩ := h.exists_node hid
  exact Module.lt_of_node? hnd

/-- A block holds each node once, so it is no longer than the store of nodes. -/
theorem length_le {loose : Option NodeId} (h : Linked m lists loose) (b : BlockId) :
    (lists b).length ≤ m.nodes.size :=
  length_le_of_nodup (h.nodup b) fun _ hx => h.lt_nodes_size hx

/-! ## Renumbering -/

/-- The rest of a block can be renumbered. -/
theorem renumberFrom_safe (h : Linked m lists none) (hb : lists b = l ++ r)
    (hfuel : r.length ≤ fuel) (hroom : room → order + r.length * orderStride < limit64) :
    Safe room (m.renumberFrom fuel order r.head?) := by
  induction r generalizing m l fuel order with
  | nil =>
    cases fuel <;> exact .ok m
  | cons x r ih =>
    obtain ⟨fuel, rfl⟩ : ∃ k, fuel = k + 1 := ⟨fuel - 1, by simp at hfuel; omega⟩
    simp only [List.length_cons] at hfuel hroom
    obtain ⟨nd, hx, -⟩ := h.exists_node (show x ∈ lists b by simp [hb])
    refine .bind (.below fun hr => ?_) fun key hkey => ?_
    · have := hroom hr
      rw [Nat.succ_mul] at this
      omega
    obtain ⟨-, rfl⟩ := below_eq_ok_iff.1 hkey
    refine .bind_ok (Module.exists_modifyNode (Module.lt_of_node? hx)) fun m₁ h₁ => ?_
    have hlinked := h.reorders (.of_modifyNode h₁)
    obtain ⟨nd₁, hx₁, -⟩ := hlinked.exists_node (show x ∈ lists b by simp [hb])
    refine .bind_ok ⟨nd₁, Module.node_eq_ok_iff.2 hx₁⟩ fun nd₂ hx₂ => ?_
    obtain rfl := Option.some.inj (hx₁.symm.trans (Module.node_eq_ok_iff.1 hx₂))
    rw [(hlinked.link hb hx₁).2]
    refine ih hlinked (l := l ++ [x]) (by simp [hb]) (by omega) fun hr => ?_
    have := hroom hr
    rw [Nat.succ_mul] at this
    omega

/-- Renumbering the rest of a block gives it rising keys above the start, one stride apart. -/
theorem renumberFrom_keys (h : Linked m lists none) (hb : lists b = l ++ r)
    (hok : m.renumberFrom fuel order r.head? = .ok m') :
    (∀ j, j ∉ r → m'.orderOf j = m.orderOf j) ∧
    r.Pairwise (fun x y => m'.orderOf x < m'.orderOf y) ∧
    ∀ j ∈ r, order < m'.orderOf j ∧ m'.orderOf j ≤ order + r.length * orderStride := by
  induction r generalizing m l fuel order with
  | nil =>
    have heq : m' = m := by cases fuel <;> exact (Except.ok.inj hok).symm
    subst heq
    simp
  | cons x r ih =>
    cases fuel with
    | zero => cases hok
    | succ fuel =>
      simp only [List.head?_cons, Module.renumberFrom, bind_eq_ok_iff] at hok
      obtain ⟨key, hkey, m₁, h₁, nd₁, hx₁, hok⟩ := hok
      obtain ⟨-, rfl⟩ := below_eq_ok_iff.1 hkey
      have hlinked := h.reorders (.of_modifyNode h₁)
      rw [(hlinked.link hb (Module.node_eq_ok_iff.1 hx₁)).2] at hok
      obtain ⟨hout, hrise, hin⟩ := ih hlinked (l := l ++ [x]) (by simp [hb]) hok
      have hxr : x ∉ r := by
        have hnd := hb ▸ h.nodup b
        exact (List.nodup_cons.1 (List.nodup_append.1 hnd).2.1).1
      have hx : m'.orderOf x = order + orderStride := by
        rw [hout x hxr, Module.orderOf_modifyNode h₁, if_pos rfl]
      have hpos : 0 < orderStride := by decide
      refine ⟨fun j hj => ?_, List.pairwise_cons.2 ⟨fun y hy => ?_, hrise⟩, fun j hj => ?_⟩
      · obtain ⟨hjx, hjr⟩ := not_or.1 (mt List.mem_cons.2 hj)
        rw [hout j hjr, Module.orderOf_modifyNode h₁, if_neg (Ne.symm hjx)]
      · rw [hx]
        exact (hin y hy).1
      · rw [List.length_cons, Nat.succ_mul]
        rcases List.mem_cons.1 hj with rfl | hj
        · rw [hx]
          omega
        · have := hin j hj
          omega

theorem renumber_safe (h : Linked m lists none) (hblk : b.index < m.blocks.size)
    (hroom : room → m.nodes.size * orderStride < limit64) : Safe room (m.renumber b) := by
  obtain ⟨blk, hblk⟩ := Module.exists_block?_iff.2 hblk
  refine .bind_ok ⟨blk, Module.block_eq_ok_iff.2 hblk⟩ fun blk' hblk' => ?_
  obtain rfl := Option.some.inj (hblk.symm.trans (Module.block_eq_ok_iff.1 hblk'))
  rw [h.first hblk]
  have hlen := h.length_le b
  refine h.renumberFrom_safe (l := []) rfl (by omega) fun hr => ?_
  have hmul := Nat.mul_le_mul_right orderStride hlen
  have hlt := hroom hr
  omega

theorem renumber_keys (h : Linked m lists none) (hok : m.renumber b = .ok m') :
    (∀ j, j ∉ lists b → m'.orderOf j = m.orderOf j) ∧
    (lists b).Pairwise (fun x y => m'.orderOf x < m'.orderOf y) ∧
    ∀ j ∈ lists b, m'.orderOf j ≤ m.nodes.size * orderStride := by
  simp only [Module.renumber, bind_eq_ok_iff, Module.block_eq_ok_iff] at hok
  obtain ⟨blk, hblk, hok⟩ := hok
  rw [h.first hblk] at hok
  obtain ⟨hout, hrise, hin⟩ := h.renumberFrom_keys (l := []) rfl hok
  refine ⟨hout, hrise, fun j hj => ?_⟩
  have hmul := Nat.mul_le_mul_right orderStride (h.length_le b)
  have := (hin j hj).2
  omega

/-! ## The key of a node that is put in -/

/-- The neighbours of a gap are in the block. -/
theorem gap_lt (h : Linked m lists none) (hl : lists gap.block = l ++ id :: r)
    (hp : gap.prev = l.getLast?) (hn : gap.next = r.head?) :
    (∀ p, gap.prev = some p → p.index < m.nodes.size) ∧
    ∀ n, gap.next = some n → n.index < m.nodes.size := by
  refine ⟨fun p he => h.lt_nodes_size (b := gap.block) ?_,
    fun n he => h.lt_nodes_size (b := gap.block) ?_⟩
  · rw [hl]
    exact List.mem_append_left _ (List.mem_of_getLast? (hp ▸ he))
  · rw [hl]
    exact List.mem_append_right _ (List.mem_cons_of_mem _ (List.mem_of_head? (hn ▸ he)))

/-- At the end of a block the new key is a stride above the last one. -/
theorem assignOrder_last (hprev : ∀ p, gap.prev = some p → p.index < m.nodes.size)
    (hnext : gap.next = none) : m.assignOrder id gap =
      below limit64 (gap.low m + orderStride) >>= fun order =>
        m.modifyNode id ({ · with order }) := by
  cases hp : gap.prev with
  | none =>
    have hlow : gap.low m = 0 := by simp [Gap.low, hp]
    rw [hlow]
    simp only [Module.assignOrder, hnext, hp, pure_bind]
  | some p =>
    obtain ⟨n, hn⟩ := Module.exists_node?_iff.2 (hprev p hp)
    have hlow : gap.low m = n.order := by simp [Gap.low, hp, Module.orderOf_eq hn]
    rw [hlow]
    simp only [Module.assignOrder, hnext, hp, Module.node_eq_ok_iff.2 hn, ok_bind, pure_bind]

/-- Between two nodes the new key is half way, or the block is renumbered. -/
theorem assignOrder_between (hprev : ∀ p, gap.prev = some p → p.index < m.nodes.size)
    {next : NodeId} (hnext : gap.next = some next) (hlt : next.index < m.nodes.size) :
    m.assignOrder id gap =
      if m.orderOf next - gap.low m < 2 then m.renumber gap.block
      else m.modifyNode id
        ({ · with order := gap.low m + (m.orderOf next - gap.low m) / 2 }) := by
  obtain ⟨nx, hnx⟩ := Module.exists_node?_iff.2 hlt
  rw [Module.orderOf_eq hnx]
  cases hp : gap.prev with
  | none =>
    have hlow : gap.low m = 0 := by simp [Gap.low, hp]
    rw [hlow]
    simp only [Module.assignOrder, hnext, hp, Module.node_eq_ok_iff.2 hnx, ok_bind, pure_bind]
  | some p =>
    obtain ⟨n, hn⟩ := Module.exists_node?_iff.2 (hprev p hp)
    have hlow : gap.low m = n.order := by simp [Gap.low, hp, Module.orderOf_eq hn]
    rw [hlow]
    simp only [Module.assignOrder, hnext, hp, Module.node_eq_ok_iff.2 hnx,
      Module.node_eq_ok_iff.2 hn, ok_bind, pure_bind]

theorem assignOrder_safe (h : Linked m lists none) (hl : lists gap.block = l ++ id :: r)
    (hp : gap.prev = l.getLast?) (hn : gap.next = r.head?) (hroom : room → m.Room) :
    Safe room (m.assignOrder id gap) := by
  obtain ⟨hprev, hnext⟩ := h.gap_lt hl hp hn
  have hid : id ∈ lists gap.block := by simp [hl]
  have hblk : gap.block.index < m.blocks.size := by
    obtain ⟨nd, hnd, he, hparent⟩ := h.exists_node hid
    exact Module.exists_block?_iff.1 (hparent ▸ h.home hnd he)
  cases hgn : gap.next with
  | none =>
    rw [assignOrder_last hprev hgn]
    exact .bind (.below fun hr => (hroom hr).low gap) fun key _ =>
      .of_ok (Module.exists_modifyNode (h.lt_nodes_size hid))
  | some next =>
    rw [assignOrder_between hprev hgn (hnext next hgn)]
    split
    · exact h.renumber_safe hblk fun hr => (hroom hr).renumber
    · exact .of_ok (Module.exists_modifyNode (h.lt_nodes_size hid))

/-- The keys of a list rise once a node between two parts of it has got a key between theirs. -/
theorem rising_insert (hnd : (l ++ id :: r).Nodup)
    (hrise : (l ++ r).Pairwise fun x y => m.orderOf x < m.orderOf y)
    (hother : ∀ j, j ≠ id → m'.orderOf j = m.orderOf j)
    (hl : ∀ x ∈ l, m.orderOf x < m'.orderOf id) (hr : ∀ y ∈ r, m'.orderOf id < m.orderOf y) :
    (l ++ id :: r).Pairwise fun x y => m'.orderOf x < m'.orderOf y := by
  obtain ⟨-, hndr, hdis⟩ := List.nodup_append.1 hnd
  have hidl : ∀ x ∈ l, x ≠ id := fun x hx he => hdis x hx id (by simp) he
  have hidr : ∀ y ∈ r, y ≠ id := fun y hy he => (List.nodup_cons.1 hndr).1 (he ▸ hy)
  obtain ⟨hpl, hpr, hplr⟩ := List.pairwise_append.1 hrise
  refine List.pairwise_append.2 ⟨?_, List.pairwise_cons.2 ⟨?_, ?_⟩, ?_⟩
  · exact hpl.imp_of_mem fun hx hy h => by
      rwa [hother _ (hidl _ hx), hother _ (hidl _ hy)]
  · intro y hy
    rw [hother y (hidr y hy)]
    exact hr y hy
  · exact hpr.imp_of_mem fun hx hy h => by
      rwa [hother _ (hidr _ hx), hother _ (hidr _ hy)]
  · intro x hx y hy
    rw [hother x (hidl x hx)]
    rcases List.mem_cons.1 hy with rfl | hy
    · exact hl x hx
    · rw [hother y (hidr y hy)]
      exact hplr x hx y hy

/-- No key of a list exceeds the key of its last node. -/
theorem le_low (hrise : l.Pairwise fun x y => m.orderOf x < m.orderOf y)
    (hp : gap.prev = l.getLast?) {x : NodeId} (hx : x ∈ l) : m.orderOf x ≤ gap.low m := by
  obtain ⟨l', y, rfl⟩ := List.eq_nil_or_concat l |>.resolve_left (List.ne_nil_of_mem hx)
  have hlow : gap.low m = m.orderOf y := by simp [Gap.low, hp]
  rw [hlow]
  rw [List.concat_eq_append] at hrise hx
  rcases List.mem_append.1 hx with hx | hx
  · exact Nat.le_of_lt ((List.pairwise_append.1 hrise).2.2 x hx y (by simp))
  · exact le_of_eq (by rw [List.mem_singleton.1 hx])

theorem low_le (hle : ∀ j, m.orderOf j ≤ bound) : gap.low m ≤ bound := by
  unfold Gap.low
  cases gap.prev with
  | none => exact Nat.zero_le _
  | some p => exact hle p

/-- Giving a key to a node that was attached raises the bound on the keys by a stride at most. -/
theorem orderOf_assignOrder_le (h : Linked m lists none) (hl : lists gap.block = l ++ id :: r)
    (hp : gap.prev = l.getLast?) (hn : gap.next = r.head?) (hle : ∀ j, m.orderOf j ≤ bound)
    (hsize : m.nodes.size * orderStride ≤ bound + orderStride)
    (hok : m.assignOrder id gap = .ok m') (j : NodeId) : m'.orderOf j ≤ bound + orderStride := by
  obtain ⟨hprev, hnext⟩ := h.gap_lt hl hp hn
  have hlow : gap.low m ≤ bound := low_le hle
  have hold : m.orderOf j ≤ bound + orderStride := (hle j).trans (Nat.le_add_right _ _)
  have hone : ∀ key, m.modifyNode id ({ · with order := key }) = .ok m' →
      key ≤ bound + orderStride → m'.orderOf j ≤ bound + orderStride := by
    intro key hkey hbound
    rw [Module.orderOf_modifyNode hkey]
    split
    · exact hbound
    · exact hold
  cases hgn : gap.next with
  | none =>
    rw [assignOrder_last hprev hgn, bind_eq_ok_iff] at hok
    obtain ⟨key, hkey, hok⟩ := hok
    obtain ⟨-, rfl⟩ := below_eq_ok_iff.1 hkey
    exact hone _ hok (by omega)
  | some next =>
    have hhigh := hle next
    rw [assignOrder_between hprev hgn (hnext next hgn)] at hok
    split at hok
    · obtain ⟨hsame, -, hmax⟩ := h.renumber_keys hok
      by_cases hj : j ∈ lists gap.block
      · exact (hmax j hj).trans hsize
      · exact hsame j hj ▸ hold
    · exact hone _ hok (by omega)

/-- A node that was attached gets a key between those of its neighbours, or the block gets new keys. -/
theorem keyed_assignOrder (h : Linked m lists none) (hl : lists gap.block = l ++ id :: r)
    (hp : gap.prev = l.getLast?) (hn : gap.next = r.head?)
    (hrise : ∀ b, (Function.update lists gap.block (l ++ r) b).Pairwise
      fun x y => m.orderOf x < m.orderOf y)
    (hle : ∀ j, m.orderOf j ≤ bound) (hsize : m.nodes.size * orderStride ≤ bound + orderStride)
    (hok : m.assignOrder id gap = .ok m') : Keyed m' lists (bound + orderStride) := by
  refine ⟨fun b => ?_, h.orderOf_assignOrder_le hl hp hn hle hsize hok⟩
  obtain ⟨hprev, hnext⟩ := h.gap_lt hl hp hn
  have hnd : (l ++ id :: r).Nodup := hl ▸ h.nodup gap.block
  have hid : id ∈ lists gap.block := by simp [hl]
  have hstride : 0 < orderStride := by decide
  have hlr : (l ++ r).Pairwise fun x y => m.orderOf x < m.orderOf y := by
    simpa using hrise gap.block
  obtain ⟨hpl, hpr, -⟩ := List.pairwise_append.1 hlr
  have hrest : ∀ {b}, b ≠ gap.block →
      (lists b).Pairwise fun x y => m.orderOf x < m.orderOf y := fun {b} hb => by
    simpa [Function.update_of_ne hb] using hrise b
  have hout : ∀ {b x}, b ≠ gap.block → x ∈ lists b → x ∉ lists gap.block := fun hb hx hx' => by
    obtain ⟨nd, hnd, -, hparent⟩ := h.exists_node hx
    exact hb (hparent ▸ h.parent_eq hnd hx')
  -- Either one node gets a key, or the whole block does.
  have hone : ∀ key, m.modifyNode id ({ · with order := key }) = .ok m' →
      (∀ x ∈ l, m.orderOf x < key) → (∀ y ∈ r, key < m.orderOf y) →
      (lists b).Pairwise fun x y => m'.orderOf x < m'.orderOf y := by
    intro key hkey hlow hhigh
    have hself : m'.orderOf id = key := by rw [Module.orderOf_modifyNode hkey, if_pos rfl]
    have hother : ∀ j, j ≠ id → m'.orderOf j = m.orderOf j := fun j hj => by
      rw [Module.orderOf_modifyNode hkey, if_neg (Ne.symm hj)]
    by_cases hb : b = gap.block
    · rw [hb, hl]
      exact rising_insert hnd hlr hother (hself ▸ hlow) (hself ▸ hhigh)
    · refine (hrest hb).imp_of_mem fun hx hy hxy => ?_
      rw [hother _ (ne_of_mem_of_not_mem hid (hout hb hx)).symm,
        hother _ (ne_of_mem_of_not_mem hid (hout hb hy)).symm]
      exact hxy
  cases hgn : gap.next with
  | none =>
    obtain rfl : r = [] := List.head?_eq_none_iff.1 (hn ▸ hgn)
    rw [assignOrder_last hprev hgn, bind_eq_ok_iff] at hok
    obtain ⟨key, hkey, hok⟩ := hok
    obtain ⟨-, rfl⟩ := below_eq_ok_iff.1 hkey
    refine hone _ hok (fun x hx => ?_) (by simp)
    have := le_low hpl hp hx
    omega
  | some next =>
    rw [assignOrder_between hprev hgn (hnext next hgn)] at hok
    split at hok
    · obtain ⟨hsame, hnew, -⟩ := h.renumber_keys hok
      by_cases hb : b = gap.block
      · exact hb ▸ hnew
      · refine (hrest hb).imp_of_mem fun hx hy hxy => ?_
        rwa [hsame _ (hout hb hx), hsame _ (hout hb hy)]
    · next hroom =>
      refine hone _ hok (fun x hx => ?_) fun y hy => ?_
      · have := le_low hpl hp hx
        omega
      · -- The next node has the least key of those behind the gap.
        obtain ⟨r', rfl⟩ : ∃ r', r = next :: r' := by
          cases r with
          | nil => simp [hn] at hgn
          | cons z r' => exact ⟨r', by simpa [hn] using hgn⟩
        have hmin : m.orderOf next ≤ m.orderOf y := by
          rcases List.mem_cons.1 hy with rfl | hy
          · exact le_rfl
          · exact Nat.le_of_lt ((List.pairwise_cons.1 hpr).1 y hy)
        omega

/-! ## Putting a node into a gap -/

theorem orderOf_attach (hok : m.attach id gap = .ok m') (j : NodeId) :
    m'.orderOf j = m.orderOf j := by
  obtain ⟨-, hnode, -⟩ := Module.attach_eq_ok hok
  simp [Module.orderOf, hnode, Function.comp_def]

/-- A loose node can be put into a gap. -/
theorem link_safe (h : Linked m lists (some id)) (hid : m.node? id = some nd)
    (he : nd.erased = false) (hl : lists gap.block = l ++ r) (hp : gap.prev = l.getLast?)
    (hn : gap.next = r.head?) (hblk : gap.block.index < m.blocks.size) (hroom : room → m.Room) :
    Safe room (m.link id gap) := by
  obtain ⟨blk, hblk⟩ := Module.exists_block?_iff.2 hblk
  rw [Module.link_eq]
  refine .bind (Module.attach_safe (Module.lt_of_node? hid) (fun p hgp => ?_) (fun x hgx => ?_)
    hblk fun hr => ?_) fun m₁ h₁ => ?_
  · refine h.lt_nodes_size (b := gap.block) ?_
    rw [hl]
    exact List.mem_append_left _ (List.mem_of_getLast? (hp ▸ hgp))
  · refine h.lt_nodes_size (b := gap.block) ?_
    rw [hl]
    exact List.mem_append_right _ (List.mem_of_head? (hn ▸ hgx))
  · rw [h.len hblk]
    have := h.length_le gap.block
    have := (hroom hr).len
    omega
  · have hlinked := h.attach hid he hl hp hn ⟨blk, hblk⟩ h₁
    have hsize := (Module.attach_eq_ok h₁).1.nodes_size
    refine hlinked.assignOrder_safe (by simp) hp hn fun hr => ⟨fun j => ?_, ?_, ?_⟩
    · rw [orderOf_attach h₁]
      exact (hroom hr).key j
    · rw [hsize]
      exact (hroom hr).renumber
    · rw [hsize]
      exact (hroom hr).len

/-- Putting a loose node into a gap raises the bound on the keys by a stride at most. -/
theorem orderOf_link_le (h : Linked m lists (some id)) (hid : m.node? id = some nd)
    (he : nd.erased = false) (hl : lists gap.block = l ++ r) (hp : gap.prev = l.getLast?)
    (hn : gap.next = r.head?) (hblk : gap.block.index < m.blocks.size)
    (hle : ∀ j, m.orderOf j ≤ bound) (hsize : m.nodes.size * orderStride ≤ bound + orderStride)
    (hok : m.link id gap = .ok m') (j : NodeId) : m'.orderOf j ≤ bound + orderStride := by
  rw [Module.link_eq, bind_eq_ok_iff] at hok
  obtain ⟨m₁, h₁, h₂⟩ := hok
  have hlinked := h.attach hid he hl hp hn (Module.exists_block?_iff.2 hblk) h₁
  refine hlinked.orderOf_assignOrder_le (by simp) hp hn (fun i => ?_) ?_ h₂ j
  · rw [orderOf_attach h₁]
    exact hle i
  · rwa [(Module.attach_eq_ok h₁).1.nodes_size]

/-- Putting a loose node into a gap keeps the keys rising. -/
theorem keyed_link (h : Linked m lists (some id)) (hk : Keyed m lists bound)
    (hid : m.node? id = some nd) (he : nd.erased = false) (hl : lists gap.block = l ++ r)
    (hp : gap.prev = l.getLast?) (hn : gap.next = r.head?)
    (hblk : gap.block.index < m.blocks.size)
    (hsize : m.nodes.size * orderStride ≤ bound + orderStride) (hok : m.link id gap = .ok m') :
    Keyed m' (Function.update lists gap.block (l ++ id :: r)) (bound + orderStride) := by
  rw [Module.link_eq, bind_eq_ok_iff] at hok
  obtain ⟨m₁, h₁, h₂⟩ := hok
  have hlinked := h.attach hid he hl hp hn (Module.exists_block?_iff.2 hblk) h₁
  refine hlinked.keyed_assignOrder (by simp) hp hn (fun b => ?_) (fun j => ?_) ?_ h₂
  · simp only [orderOf_attach h₁]
    rw [Function.update_idem, ← hl, Function.update_eq_self]
    exact hk.rising b
  · rw [orderOf_attach h₁]
    exact hk.le j
  · rwa [(Module.attach_eq_ok h₁).1.nodes_size]

/-- What taking a node out of its block relies on. -/
theorem detachable (h : Linked m lists none) (hid : m.node? id = some nd) (he : nd.erased = false) :
    (∀ p, nd.prev = some p → p.index < m.nodes.size) ∧
    (∀ x, nd.next = some x → x.index < m.nodes.size) ∧
    ∃ blk, m.block? nd.parent = some blk ∧ 0 < blk.len := by
  obtain ⟨l, r, hl⟩ := List.append_of_mem (h.mem hid he)
  obtain ⟨hprev, hnext⟩ := h.link hl hid
  obtain ⟨blk, hblk⟩ := h.home hid he
  refine ⟨fun p hp => h.lt_nodes_size (b := nd.parent) ?_,
    fun x hx => h.lt_nodes_size (b := nd.parent) ?_, blk, hblk, ?_⟩
  · rw [hl]
    exact List.mem_append_left _ (List.mem_of_getLast? (hprev ▸ hp))
  · rw [hl]
    exact List.mem_append_right _ (List.mem_cons_of_mem _ (List.mem_of_head? (hnext ▸ hx)))
  · rw [h.len hblk, hl]
    simp

/-- A node can be taken out of its block. -/
theorem exists_detach (h : Linked m lists none) (hid : m.node? id = some nd)
    (he : nd.erased = false) : ∃ m', m.detach id = .ok m' := by
  obtain ⟨hprev, hnext, blk, hblk, hlen⟩ := h.detachable hid he
  exact Module.exists_detach hid hprev hnext hblk hlen

theorem orderOf_detach (hid : m.node? id = some nd) (hok : m.detach id = .ok m') (j : NodeId) :
    m'.orderOf j = m.orderOf j := by
  simp [Module.orderOf, (Module.detach_eq_ok hid hok).node, Function.comp_def]

end Linked

end NetPrep
