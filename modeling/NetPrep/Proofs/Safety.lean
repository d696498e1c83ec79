import Mathlib
import NetPrep.Proofs.Redirect

/-!
# Edits that do not fail

A fault is a misuse of a module, or a counter that leaves its range. A computation is `Safe` if it
cannot misuse the module: it gives a result, unless it overflows for want of room. Here this is shown
of the small edits that the others are put together from.
-/

namespace NetPrep

/-- A computation gives a result, or overflows for want of room. -/
def Safe {α : Type} (room : Prop) (x : Except Fault α) : Prop :=
  (∃ a, x = .ok a) ∨ (x = .error .overflow ∧ ¬ room)

namespace Safe

variable {α β : Type} {room : Prop} {x : Except Fault α} {f : α → Except Fault β}

theorem of_ok (h : ∃ a, x = .ok a) : Safe room x := Or.inl h

theorem ok (a : α) : Safe room (.ok a) := Or.inl ⟨a, rfl⟩

theorem bind (hx : Safe room x) (hf : ∀ a, x = .ok a → Safe room (f a)) : Safe room (x >>= f) := by
  rcases hx with ⟨a, rfl⟩ | ⟨rfl, hroom⟩
  · exact hf a rfl
  · exact Or.inr ⟨rfl, hroom⟩

/-- A step that always gives a result comes first. -/
theorem bind_ok (hx : ∃ a, x = .ok a) (hf : ∀ a, x = .ok a → Safe room (f a)) :
    Safe room (x >>= f) := (of_ok hx).bind hf

theorem exists_ok (h : Safe room x) (hroom : room) : ∃ a, x = .ok a :=
  h.resolve_right fun he => he.2 hroom

theorem below {limit n : Nat} (h : room → n < limit) : Safe room (below limit n) := by
  unfold NetPrep.below
  split
  · exact ok n
  · next hlt => exact Or.inr ⟨rfl, fun hroom => hlt (h hroom)⟩

end Safe

/-- The proof is no `rfl`, so that rewriting does not have the kernel compare the two computations. -/
theorem ok_bind {α β : Type} (a : α) (f : α → Except Fault β) :
    (.ok a : Except Fault α) >>= f = f a := by
  simp only [Bind.bind, Except.bind]

theorem exists_bind_ok {α β : Type} {x : Except Fault α} {f : α → Except Fault β}
    (hx : ∃ a, x = .ok a) (hf : ∀ a, x = .ok a → ∃ b, f a = .ok b) : ∃ b, x >>= f = .ok b := by
  obtain ⟨a, rfl⟩ := hx
  exact hf a rfl

theorem exists_mapM {α β : Type} {f : α → Except Fault β} {l : List α}
    (h : ∀ a ∈ l, ∃ b, f a = .ok b) : ∃ r, l.mapM f = .ok r := by
  induction l with
  | nil => exact ⟨[], rfl⟩
  | cons a l ih =>
    rw [List.mapM_cons]
    refine exists_bind_ok (h a (by simp)) fun _ _ => ?_
    exact exists_bind_ok (ih fun a ha => h a (List.mem_cons_of_mem _ ha)) fun _ _ => ⟨_, rfl⟩

namespace Module

variable {m m' : Module} {id : NodeId} {nd : Node} {b : BlockId} {v : ValueId} {i : Nat}
  {prev next node : Option NodeId} {gap : Gap} {room : Prop}

theorem exists_node?_iff : (∃ n, m.node? id = some n) ↔ id.index < m.nodes.size := by
  simp [node?, Array.getElem?_eq_some_iff]

theorem exists_value?_iff : (∃ x, m.value? v = some x) ↔ v.index < m.values.size := by
  simp [value?, Array.getElem?_eq_some_iff]

theorem exists_block?_iff : (∃ x, m.block? b = some x) ↔ b.index < m.blocks.size := by
  simp [block?, Array.getElem?_eq_some_iff]

theorem exists_modifyNode {f : Node → Node} (h : id.index < m.nodes.size) :
    ∃ m', m.modifyNode id f = .ok m' := by
  simp [modifyNode, h]

theorem exists_modifyBlock {f : Block → Block} (h : b.index < m.blocks.size) :
    ∃ m', m.modifyBlock b f = .ok m' := by
  simp [modifyBlock, h]

theorem exists_modifyValue {f : Value → Value} (h : v.index < m.values.size) :
    ∃ m', m.modifyValue v f = .ok m' := by
  simp [modifyValue, h]

/-! ## Links -/

theorem exists_linkAfter (hprev : ∀ p, prev = some p → p.index < m.nodes.size)
    (hb : b.index < m.blocks.size) : ∃ m', m.linkAfter b prev node = .ok m' := by
  unfold linkAfter
  cases prev with
  | none => exact exists_modifyBlock hb
  | some p => exact exists_modifyNode (hprev p rfl)

theorem exists_linkBefore (hnext : ∀ n, next = some n → n.index < m.nodes.size)
    (hb : b.index < m.blocks.size) : ∃ m', m.linkBefore b next node = .ok m' := by
  unfold linkBefore
  cases next with
  | none => exact exists_modifyBlock hb
  | some n => exact exists_modifyNode (hnext n rfl)

/-- A node can be taken out of its block if its neighbours are there and the block is not empty. -/
theorem exists_detach (hid : m.node? id = some nd)
    (hprev : ∀ p, nd.prev = some p → p.index < m.nodes.size)
    (hnext : ∀ n, nd.next = some n → n.index < m.nodes.size)
    {blk : Block} (hblk : m.block? nd.parent = some blk) (hlen : 0 < blk.len) :
    ∃ m', m.detach id = .ok m' := by
  have hb : nd.parent.index < m.blocks.size := lt_of_block? hblk
  refine exists_bind_ok ⟨nd, by simpa using hid⟩ fun n hn => ?_
  obtain rfl : n = nd := by simpa [hid] using (node_eq_ok_iff.1 hn).symm
  refine exists_bind_ok (exists_linkAfter hprev hb) fun m₁ h₁ => ?_
  have h₁ := linkAfter_eq_ok h₁
  refine exists_bind_ok (exists_linkBefore (fun x hx => h₁.relinks.nodes_size ▸ hnext x hx)
    (h₁.relinks.blocks_size ▸ hb)) fun m₂ h₂ => ?_
  have h₂ := h₁.trans (linkBefore_eq_ok h₂)
  refine exists_bind_ok (exists_modifyNode (h₂.relinks.nodes_size ▸ lt_of_node? hid))
    fun m₃ h₃ => ?_
  have h₃ := h₂.trans (LinksTo.of_modifyNode (f := fun _ => none) (g := fun _ => none) h₃)
  have hblk₃ := h₃.block n.parent
  rw [hblk, Option.map_some] at hblk₃
  refine exists_bind_ok ⟨_, block_eq_ok_iff.2 hblk₃⟩ fun blk₃ hblk₃' => ?_
  obtain rfl := Option.some.inj (hblk₃.symm.trans (block_eq_ok_iff.1 hblk₃'))
  refine exists_bind_ok ⟨blk.len - 1, ?_⟩ fun len _ =>
    exists_modifyBlock (h₃.relinks.blocks_size ▸ hb)
  unfold difference
  rw [if_pos (show 1 ≤ blk.len from hlen)]

/-- A node can be attached to a gap between nodes that are there. -/
theorem attach_safe (hid : id.index < m.nodes.size)
    (hprev : ∀ p, gap.prev = some p → p.index < m.nodes.size)
    (hnext : ∀ n, gap.next = some n → n.index < m.nodes.size)
    {blk : Block} (hblk : m.block? gap.block = some blk) (hlen : room → blk.len + 1 < limit64) :
    Safe room (m.attach id gap) := by
  have hb : gap.block.index < m.blocks.size := lt_of_block? hblk
  refine .bind_ok (exists_linkAfter hprev hb) fun m₁ h₁ => ?_
  have h₁ := linkAfter_eq_ok h₁
  refine .bind_ok (exists_linkBefore (fun x hx => h₁.relinks.nodes_size ▸ hnext x hx)
    (h₁.relinks.blocks_size ▸ hb)) fun m₂ h₂ => ?_
  have h₂ := h₁.trans (linkBefore_eq_ok h₂)
  have hblk₂ := h₂.block gap.block
  rw [hblk, Option.map_some] at hblk₂
  refine .bind_ok ⟨_, block_eq_ok_iff.2 hblk₂⟩ fun blk₂ hblk₂' => ?_
  obtain rfl := Option.some.inj (hblk₂.symm.trans (block_eq_ok_iff.1 hblk₂'))
  refine .bind (.below hlen) fun len _ => ?_
  refine .bind_ok (exists_modifyBlock (h₂.relinks.blocks_size ▸ hb)) fun m₃ h₃ => .of_ok ?_
  have h₃ := h₂.relinks.trans (Relinks.of_modifyBlock (f := fun x => { x with len })
    (fun _ => rfl) h₃)
  exact exists_modifyNode (h₃.nodes_size ▸ hid)

/-- A position whose anchor is there, erased or not, or whose block is there. -/
def Admits (m : Module) : Position → Prop
  | .before anchor | .after anchor => anchor.index < m.nodes.size
  | .front b | .back b => b.index < m.blocks.size

instance decidableAdmits (m : Module) : (pos : Position) → Decidable (m.Admits pos)
  | .before anchor | .after anchor => inferInstanceAs (Decidable (anchor.index < m.nodes.size))
  | .front b | .back b => inferInstanceAs (Decidable (b.index < m.blocks.size))

theorem exists_gapAt {pos : Position} (hpos : m.Admits pos)
    (hhome : ∀ {j n}, m.node? j = some n → n.parent.index < m.blocks.size) :
    ∃ gap, m.gapAt pos = .ok gap := by
  have hanchor : ∀ {anchor : NodeId} {g₁ : Node → Block → Gap} {g₂ : Node → Gap},
      anchor.index < m.nodes.size → ∃ gap, (do
        let n ← m.node anchor
        if n.erased then return g₁ n (← m.block n.parent) else return g₂ n :
        Except Fault Gap) = .ok gap := by
    intro anchor g₁ g₂ hlt
    obtain ⟨n, hn⟩ := exists_node?_iff.2 hlt
    refine exists_bind_ok ⟨n, node_eq_ok_iff.2 hn⟩ fun n' hn' => ?_
    cases n'.erased with
    | false => exact ⟨_, rfl⟩
    | true =>
      obtain ⟨blk, hblk⟩ := exists_block?_iff.2 (hhome (node_eq_ok_iff.1 hn'))
      exact exists_bind_ok ⟨blk, block_eq_ok_iff.2 hblk⟩ fun _ _ => ⟨_, rfl⟩
  have hend : ∀ {b : BlockId} {g : Block → Gap}, b.index < m.blocks.size →
      ∃ gap, (do return g (← m.block b) : Except Fault Gap) = .ok gap := by
    intro b g hlt
    obtain ⟨blk, hblk⟩ := exists_block?_iff.2 hlt
    exact exists_bind_ok ⟨blk, block_eq_ok_iff.2 hblk⟩ fun _ _ => ⟨_, rfl⟩
  cases pos with
  | before anchor => exact hanchor hpos
  | after anchor => exact hanchor hpos
  | front b => exact hend hpos
  | back b => exact hend hpos

theorem moveNode_eq {pos : Position} (hid : m.node? id = some nd) (he : nd.erased = false)
    (hbefore : pos ≠ .before id) (hafter : pos ≠ .after id) :
    m.moveNode id pos = m.detach id >>= fun m₁ => m₁.gapAt pos >>= fun gap => m₁.link id gap := by
  have hsame : ¬ (pos = .before id ∨ pos = .after id) := by simp [hbefore, hafter]
  simp only [moveNode, hsame, if_false, node_eq_ok_iff.2 hid, he, ok_bind]
  rfl

/-! ## Uses -/

theorem exists_addUses {vs : List ValueId} (h : ∀ v ∈ vs, v.index < m.values.size) :
    ∃ m', m.addUses id i vs = .ok m' := by
  induction vs generalizing m i with
  | nil => exact ⟨m, rfl⟩
  | cons v vs ih =>
    refine exists_bind_ok (exists_modifyValue (h v (by simp))) fun m₁ h₁ => ih fun w hw => ?_
    rw [(addUse_eq_ok h₁).size]
    exact h w (List.mem_cons_of_mem _ hw)

theorem exists_removeUses {vs : List ValueId} (h : ∀ v ∈ vs, v.index < m.values.size) :
    ∃ m', m.removeUses id i vs = .ok m' := by
  induction vs generalizing m i with
  | nil => exact ⟨m, rfl⟩
  | cons v vs ih =>
    refine exists_bind_ok (exists_modifyValue (h v (by simp))) fun m₁ h₁ => ih fun w hw => ?_
    rw [(removeUse_eq_ok h₁).size]
    exact h w (List.mem_cons_of_mem _ hw)

theorem exists_operand (hid : m.node? id = some nd) (hi : i < nd.operands.length) :
    m.operand id i = .ok nd.operands[i] := by
  have hnode : m.node id = .ok nd := node_eq_ok_iff.2 hid
  simp [operand, hnode, hi, bind, Except.bind, pure, Except.pure]

/-- An operand that is there can be pointed at a value that is there. -/
theorem exists_setOperand (hid : m.node? id = some nd) (hi : i < nd.operands.length)
    (hold : nd.operands[i].index < m.values.size) (hv : v.index < m.values.size) :
    ∃ m', m.setOperand id i v = .ok m' := by
  refine exists_bind_ok ⟨_, exists_operand hid hi⟩ fun old hold' => ?_
  obtain rfl := Except.ok.inj ((exists_operand hid hi).symm.trans hold')
  split
  · exact ⟨m, rfl⟩
  · refine exists_bind_ok (exists_modifyValue hold) fun m₁ h₁ => ?_
    have h₁ := removeUse_eq_ok h₁
    refine exists_bind_ok (exists_modifyValue (h₁.size ▸ hv)) fun m₂ h₂ => ?_
    have h₂ := h₁.trans (addUse_eq_ok h₂)
    exact exists_modifyNode (exists_node?_iff.1 ⟨nd, (h₂.node? id).trans hid⟩)

theorem exists_retarget {uses : List Use}
    (h : ∀ u ∈ uses, ∃ n, m.node? u.node = some n ∧ u.operand < n.operands.length) :
    ∃ m', m.retarget v uses = .ok m' := by
  induction uses generalizing m with
  | nil => exact ⟨m, rfl⟩
  | cons u uses ih =>
    obtain ⟨n, hn, hlt⟩ := h u (by simp)
    refine exists_bind_ok ⟨_, exists_operand hn hlt⟩ fun _ _ => ?_
    refine exists_bind_ok (exists_modifyNode (lt_of_node? hn)) fun m₁ h₁ => ih fun w hw => ?_
    obtain ⟨nodes, rfl, -, hnode⟩ := modifyNode_eq_ok h₁
    obtain ⟨nw, hnw, hltw⟩ := h w (List.mem_cons_of_mem _ hw)
    by_cases huw : u.node = w.node
    · exact ⟨{ nw with operands := nw.operands.set u.operand v },
        by rw [hnode, if_pos huw, hnw]; rfl, by simpa using hltw⟩
    · exact ⟨nw, by rw [hnode, if_neg huw, hnw], hltw⟩

/-- Uses that name operands of nodes that are there can be redirected. -/
theorem exists_replaceUses {old new : ValueId} {x : Value} (hold : m.value? old = some x)
    (huses : ∀ u ∈ x.uses, ∃ n, m.node? u.node = some n ∧ u.operand < n.operands.length)
    (hnew : new.index < m.values.size) : ∃ m', m.replaceUses old new = .ok m' := by
  unfold replaceUses
  split
  · exact ⟨m, rfl⟩
  · refine exists_bind_ok ⟨x, value_eq_ok_iff.2 hold⟩ fun x' hx' => ?_
    obtain rfl := Option.some.inj (hold.symm.trans (value_eq_ok_iff.1 hx'))
    refine exists_bind_ok (exists_modifyValue (lt_of_value? hold)) fun m₁ h₁ => ?_
    obtain ⟨values, rfl, hsize, -⟩ := modifyValue_eq_ok h₁
    refine exists_bind_ok (exists_retarget huses) fun m₂ h₂ => ?_
    obtain ⟨⟨nodes, rfl, -⟩, -⟩ := retarget_eq_ok h₂
    exact exists_modifyValue (hsize ▸ hnew)

/-- The uses of a node can be listed if its results are there. -/
theorem exists_nodeUses (hid : m.node? id = some nd)
    (hresults : ∀ v ∈ nd.results, v.index < m.values.size) : ∃ uses, m.nodeUses id = .ok uses := by
  refine exists_bind_ok ⟨nd, node_eq_ok_iff.2 hid⟩ fun nd' hid' => ?_
  obtain rfl := Option.some.inj (hid.symm.trans (node_eq_ok_iff.1 hid'))
  refine exists_bind_ok (exists_mapM fun v hv => ?_) fun _ _ => ⟨_, rfl⟩
  obtain ⟨x, hx⟩ := exists_value?_iff.2 (hresults v hv)
  exact exists_bind_ok ⟨x, value_eq_ok_iff.2 hx⟩ fun _ _ => ⟨_, rfl⟩

end Module

/-- A node is found unused if no operand refers to its results. -/
theorem Recorded.isUnused_eq {m : Module} {id : NodeId} {nd : Node} (hr : Recorded m)
    (hid : m.node? id = some nd) (hresults : ∀ v ∈ nd.results, v.index < m.values.size)
    (hunused : ∀ v ∈ nd.results, ∀ u, ¬ m.Uses u v) : m.isUnused id = .ok true := by
  obtain ⟨uses, huses⟩ := Module.exists_nodeUses hid hresults
  obtain rfl : uses = [] := by
    rw [List.eq_nil_iff_forall_not_mem]
    intro u hu
    obtain ⟨v, hv, huse⟩ := (hr.mem_nodeUses_iff hid huses).1 hu
    exact hunused v hv u huse
  rw [Module.isUnused, huses, ok_bind]
  rfl

end NetPrep
