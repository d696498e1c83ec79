import Mathlib
import NetPrep.Proofs.Subtree

/-!
# Numbers of 32 bits

An edit with numbers of 32 bits does what the same edit does with numbers that do not run out, as long
as the nodes, values and blocks of the module and the operands of its nodes can be told apart by them.
-/

namespace NetPrep

theorem bind_eq_bind {α β : Type} {x : Except Fault α} {f g : α → Except Fault β}
    (h : ∀ a, x = .ok a → f a = g a) : x >>= f = x >>= g := by
  cases x with
  | error e => rfl
  | ok a => exact h a rfl

namespace Module

variable {m m' : Module} {id : NodeId} {n : Node} {i : Nat} {pos : Position} {op : Op} {loc : Loc}
  {operands vs : List ValueId} {types : List TypeId} {v old new : ValueId} {number : Nat → Nat}

/-! ## Narrow edits

The edits take the function that numbers what they record. `low32` is the identity below the limit, so
an edit that stays below it is the same with `low32` as without; the lemmas on the number of any function
say what is recorded beyond. -/

/-- What is recorded of operands is the numbers of their positions. -/
theorem addUses_number_eq_ok (h : m.addUses id i vs number = .ok m') :
    EditsUses m m' fun w l =>
      l ++ (usesAmong id w i vs).map fun u => ⟨u.node, number u.operand⟩ := by
  induction vs generalizing m i with
  | nil =>
    cases h
    simpa [usesAmong] using EditsUses.refl _
  | cons v vs ih =>
    simp only [addUses, bind_eq_ok_iff] at h
    obtain ⟨m₁, h₁, h₂⟩ := h
    have hall := (addUse_eq_ok h₁).trans (ih h₂)
    refine ⟨hall.rest, hall.size, fun w => ?_⟩
    rw [hall.value w]
    by_cases hv : v = w <;> simp [usesAmong, hv]

/-- A new node without results and regions records its operands by the numbers of their positions. -/
theorem createNode_number_eq_ok (hop : op.regionKinds = [])
    (hnumber : number m.nodes.size = m.nodes.size)
    (h : m.createNode pos op operands [] loc number = .ok (id, m')) :
    (∃ n, m'.live? ⟨m.nodes.size⟩ = some n ∧ n.operands = operands) ∧
      ∀ w, m'.value? w = (m.value? w).map fun x => { x with
        uses := x.uses ++ (usesAmong ⟨m.nodes.size⟩ w 0 operands).map
          (fun u => ⟨u.node, number u.operand⟩) } := by
  simp only [createNode, hop, hnumber, bind_eq_ok_iff] at h
  obtain ⟨gap, -, m₁, huses, m₂, hlink, hret⟩ := h
  cases hret
  have hadd := addUses_number_eq_ok huses
  have hnew : ∀ n, Module.node? { m₁ with nodes := m₁.nodes.push n } ⟨m.nodes.size⟩ = some n := by
    obtain ⟨values, rfl⟩ := hadd.rest
    exact fun n => Array.getElem?_push_size
  -- Linking the node in changes neither its operands nor any use.
  obtain ⟨hrelinks, hnode, -⟩ := link_eq_ok hlink
  refine ⟨?_, fun w => ?_⟩
  · obtain ⟨order, hself⟩ := hnode ⟨m.nodes.size⟩
    rw [hnew, Option.map_some] at hself
    exact ⟨_, live?_of_node? hself rfl, rfl⟩
  · rw [value?, hrelinks.values]
    exact hadd.value w

theorem addUses_low32 (hi : i + vs.length ≤ limit32) :
    m.addUses id i vs low32 = m.addUses id i vs := by
  induction vs generalizing m i with
  | nil => rfl
  | cons v vs ih =>
    rw [List.length_cons] at hi
    rw [addUses, addUses, low32_of_lt (by omega)]
    exact bind_eq_bind fun m₁ _ => ih (by omega)

theorem removeUses_low32 (hi : i + vs.length ≤ limit32) :
    m.removeUses id i vs low32 = m.removeUses id i vs := by
  induction vs generalizing m i with
  | nil => rfl
  | cons v vs ih =>
    rw [List.length_cons] at hi
    rw [removeUses, removeUses, low32_of_lt (by omega)]
    exact bind_eq_bind fun m₁ _ => ih (by omega)

theorem addResults_low32 (hi : i + types.length ≤ limit32)
    (hsize : m.values.size + types.length ≤ limit32) :
    m.addResults id i types low32 = m.addResults id i types := by
  induction types generalizing m i with
  | nil => rfl
  | cons type types ih =>
    rw [List.length_cons] at hi hsize
    rw [addResults, addResults, low32_of_lt (by omega), low32_of_lt (by omega)]
    rw [ih (by omega) (by rw [Array.size_push]; omega)]

theorem addRegions_low32 {kinds : List RegionKind}
    (hsize : m.blocks.size + kinds.length ≤ limit32) :
    m.addRegions id kinds low32 = m.addRegions id kinds := by
  induction kinds generalizing m with
  | nil => rfl
  | cons kind kinds ih =>
    rw [List.length_cons] at hsize
    rw [addRegions, addRegions, low32_of_lt (by omega), ih (by rw [Array.size_push]; omega)]

theorem createNode_low32 (h : m.HasNumbers op operands.length types.length) :
    m.createNode pos op operands types loc low32 = m.createNode pos op operands types loc := by
  obtain ⟨-, ⟨values, hm⟩, -⟩ := m.addResults_eq ⟨m.nodes.size⟩ 0 types
  have hresults : m.addResults ⟨m.nodes.size⟩ 0 types low32 = m.addResults ⟨m.nodes.size⟩ 0 types :=
    addResults_low32 (by have := h.values; omega) h.values
  have hregions : (m.addResults ⟨m.nodes.size⟩ 0 types).2.addRegions ⟨m.nodes.size⟩ op.regionKinds
      low32 = _ := addRegions_low32 (by rw [hm]; exact h.blocks)
  have huses : ∀ m : Module, ∀ id, m.addUses id 0 operands low32 = m.addUses id 0 operands :=
    fun _ _ => addUses_low32 (by rw [Nat.zero_add]; exact h.operands)
  simp only [createNode, low32_of_lt h.node, hresults, hregions, huses]

theorem cloneNode_low32
    (h : ∀ n, m.core id = some n → m.HasNumbers n.op n.operands.length n.results.length) :
    m.cloneNode id pos low32 = m.cloneNode id pos := by
  refine bind_eq_bind fun n hn => bind_eq_bind fun types htypes => ?_
  -- The copy gets a result for each type, so as many as the node has.
  have hlength := (forall₂_of_mapM htypes).length_eq
  rw [createNode_low32 (hlength ▸ h n.core (core_of_node? (node_eq_ok_iff.1 hn)))]

theorem setOperand_low32 (hi : i < limit32) :
    m.setOperand id i v low32 = m.setOperand id i v := by
  simp only [setOperand, low32_of_lt hi]

/-- No node has more operands than 32 bits can number. -/
def Brief (m : Module) : Prop := ∀ ⦃id n⦄, m.core id = some n → n.operands.length ≤ limit32

/-- Nodes keep the number of their operands, and new ones are brief. -/
theorem Brief.of_core (h : m.Brief) (hcore : ∀ {j n'}, m'.core j = some n' →
    n'.operands.length ≤ limit32 ∨ ∃ n, m.core j = some n ∧ n'.operands.length = n.operands.length) :
    m'.Brief := by
  intro j n' hj
  obtain hle | ⟨n, hn, hlength⟩ := hcore hj
  · exact hle
  · exact hlength ▸ h hn

theorem foldlM_dropContents_low32 (h : m.Brief) (ids : List NodeId) :
    ids.foldlM (·.dropContents · low32) m = ids.foldlM (·.dropContents ·) m := by
  induction ids generalizing m with
  | nil => rfl
  | cons id ids ih =>
    have hdrop : m.dropContents id low32 = m.dropContents id := by
      refine bind_eq_bind fun nd hid => ?_
      have hlength := h (core_of_node? (node_eq_ok_iff.1 hid))
      rw [removeUses_low32 (by rw [Nat.zero_add]; exact hlength)]
    rw [List.foldlM_cons, List.foldlM_cons, hdrop]
    refine bind_eq_bind fun m₁ h₁ => ih ?_
    -- The uses are dropped, the operands stay.
    obtain ⟨values, blocks, rfl⟩ := (dropContents_eq_ok h₁).rest
    exact h

theorem eraseNode_low32 (h : m.Brief) : m.eraseNode id low32 = m.eraseNode id := by
  simp only [eraseNode, foldlM_dropContents_low32 h]

/-! ## Edits keep nodes brief

Operands are numbered when a node is created and again when it is erased. That the second numbering
finds what the first has recorded takes an invariant: no edit gives a node more operands than it was
created with. -/

namespace Brief

variable {count : Nat}

theorem createNode (h : m.Brief) (hlength : operands.length ≤ limit32)
    (hok : m.createNode pos op operands types loc = .ok (id, m')) : m'.Brief := by
  rw [createNode_eq] at hok
  simp only [bind_eq_ok_iff] at hok
  obtain ⟨gap, -, m₁, h₁, m₂, h₂, hret⟩ := hok
  cases hret
  refine h.of_core fun {j n'} hj => ?_
  rw [core_of_link h₂] at hj
  obtain ⟨n, hn, rfl⟩ := Option.map_eq_some_iff.1 hj
  rw [core, (store_eq_ok h₁).node?] at hn
  split at hn
  · cases hn
    exact Or.inl hlength
  · exact Or.inr ⟨n, hn, rfl⟩

theorem cloneNode (h : m.Brief) {source : NodeId} (hok : m.cloneNode source pos = .ok (id, m')) :
    m'.Brief := by
  simp only [Module.cloneNode, bind_eq_ok_iff, node_eq_ok_iff] at hok
  obtain ⟨n, hn, types, -, ⟨id', m₁⟩, h₁, m₂, h₂, hret⟩ := hok
  cases hret
  -- Behind the creation, only the name and the mark of the copy are set.
  obtain ⟨nodes, rfl, -, hnode⟩ := modifyNode_eq_ok h₂
  refine (h.createNode (h (core_of_node? hn)) h₁).of_core fun {j n'} hj => Or.inr ?_
  rw [core, hnode] at hj
  obtain ⟨nd, hnd, rfl⟩ := Option.map_eq_some_iff.1 hj
  split at hnd
  · obtain ⟨nd', hnd', rfl⟩ := Option.map_eq_some_iff.1 hnd
    exact ⟨nd'.core, core_of_node? hnd', rfl⟩
  · exact ⟨nd.core, core_of_node? hnd, rfl⟩

theorem moveNode (h : m.Brief) (hn : m.live? id = some n) (hok : m.moveNode id pos = .ok m') :
    m'.Brief := by
  obtain ⟨nd, hid, he, rfl⟩ := exists_of_live? hn
  by_cases hself : pos = .before id ∨ pos = .after id
  · rw [Module.moveNode, if_pos hself] at hok
    obtain rfl := Except.ok.inj hok
    exact h
  · obtain ⟨hbefore, hafter⟩ := not_or.1 hself
    rw [moveNode_eq hid he hbefore hafter] at hok
    simp only [bind_eq_ok_iff] at hok
    obtain ⟨m₁, h₁, gap, -, h₂⟩ := hok
    refine h.of_core fun {j n'} hj => Or.inr ?_
    rw [core_of_link h₂, core_of_detach hid h₁] at hj
    obtain ⟨nj, hnj, rfl⟩ := Option.map_eq_some_iff.1 hj
    exact ⟨nj, hnj, rfl⟩

theorem clears (h : m.Brief) (hc : m.Clears m' id) : m'.Brief := h.of_core fun {j n'} hj => by
  rw [hc.core] at hj
  obtain ⟨n, hn, rfl⟩ := Option.map_eq_some_iff.1 hj
  exact Or.inr ⟨n, hn, rfl⟩

/-- Operands are redirected one for one. -/
theorem rewrites {f : NodeId → List ValueId → List ValueId} (h : m.Brief) (hr : m.Rewrites m' f)
    (hf : ∀ j operands, (f j operands).length = operands.length) : m'.Brief :=
  h.of_core fun {j n'} hj => by
    rw [core, hr.node?, Option.map_map] at hj
    obtain ⟨nd, hnd, rfl⟩ := Option.map_eq_some_iff.1 hj
    exact Or.inr ⟨nd.core, core_of_node? hnd, hf j nd.operands⟩

theorem setOperand (h : m.Brief) (hn : m.live? id = some n) (hok : m.setOperand id i v = .ok m') :
    m'.Brief := by
  obtain ⟨-, -, hr, -⟩ := setOperand_eq_ok hn hok
  refine h.rewrites hr fun j operands => ?_
  unfold pointAt
  split
  · exact List.length_set
  · rfl

theorem replaceUses (h : m.Brief) (hok : m.replaceUses old new = .ok m') : m'.Brief := by
  obtain ⟨-, rfl⟩ | ⟨-, x, -, hr, -⟩ := replaceUses_eq_ok hok
  · exact h
  · exact h.rewrites hr fun j operands => length_setUses

theorem eraseNode (h : m.Brief) (hm : Built count m) (hn : m.core id = some n)
    (hunused : n.erased = false → ∀ v ∈ n.results, ∀ u, ¬ m.Uses u v)
    (hok : m.eraseNode id = .ok m') : m'.Brief := by
  obtain ⟨nd, hid, rfl⟩ := Option.map_eq_some_iff.1 hn
  cases he : nd.erased with
  | true =>
    obtain rfl := Except.ok.inj ((Built.eraseNode_of_erased hid he).1.symm.trans hok)
    exact h
  | false =>
    obtain ⟨m₁, hok₁, hclears⟩ := hm.exists_eraseNode hid he (hunused he)
    obtain rfl := Except.ok.inj (hok₁.symm.trans hok)
    exact h.clears hclears

end Brief

end Module

/-! ## Edits with numbers that do not run out -/

/-- Carries out an edit, with numbers that do not run out. -/
def Edit.applyWide (m : Module) : Edit → Except Fault Module
  | .create pos op operands types loc => do return (← m.createNode pos op operands types loc).2
  | .clone source pos => do return (← m.cloneNode source pos).2
  | .move id pos => m.moveNode id pos
  | .erase id => m.eraseNode id
  | .setOperand id index v => m.setOperand id index v
  | .replaceUses old new => m.replaceUses old new

namespace Edit

variable {count : Nat} {m m' : Module} {e : Edit}

theorem apply_eq_applyWide (hb : m.Brief) (he : e.Permitted m) (hnum : e.Numbered m) :
    e.apply m = e.applyWide m := by
  cases e with
  | create pos op operands types loc => rw [apply, applyWide, Module.createNode_low32 hnum]
  | clone source pos => rw [apply, applyWide, Module.cloneNode_low32 hnum]
  | erase id => rw [apply, applyWide, Module.eraseNode_low32 hb]
  | setOperand id index v =>
    obtain ⟨⟨n, hn, hi⟩, -⟩ := he
    exact Module.setOperand_low32 (hi.trans_le (hb (Module.core_of_live? hn)))
  | move id pos | replaceUses old new => rfl

theorem brief_applyWide (hm : Built count m) (hb : m.Brief) (he : e.Permitted m) (hnum : e.Numbered m)
    (hok : e.applyWide m = .ok m') : m'.Brief := by
  cases e with
  | create pos op operands types loc =>
    simp only [applyWide, bind_eq_ok_iff] at hok
    obtain ⟨⟨id, m₁⟩, h₁, hret⟩ := hok
    cases hret
    exact hb.createNode hnum.operands h₁
  | clone source pos =>
    simp only [applyWide, bind_eq_ok_iff] at hok
    obtain ⟨⟨id, m₁⟩, h₁, hret⟩ := hok
    cases hret
    exact hb.cloneNode h₁
  | move id pos =>
    obtain ⟨⟨n, hn⟩, -⟩ := he
    exact hb.moveNode hn hok
  | erase id =>
    obtain ⟨n, hn, hunused⟩ := he
    exact hb.eraseNode hm hn hunused hok
  | setOperand id index v =>
    obtain ⟨⟨n, hn, -⟩, -⟩ := he
    exact hb.setOperand hn hok
  | replaceUses old new => exact hb.replaceUses hok

end Edit

end NetPrep
