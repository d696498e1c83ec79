import Mathlib
import NetPrep.Proofs.Narrow

/-!
# Edits refine edits of plain lists

Whatever permitted edits a module without nodes goes through, its blocks hold the lists that the same
edits of an outline give, read from either end, and the order keys tell which node comes first. The use
lists name the operands of the nodes that are not erased, each once. Both hold as long as the numbers
last by which entries and operands are referred to: behind the last of them, a node is taken for another
one, and an operand for another operand.
-/

namespace NetPrep

/-! ## Reading a block -/

namespace Linked

variable {m : Module} {lists : BlockId → List NodeId}

/-- A walk backwards from the end of a part of a list meets that part. -/
theorem takeBack_eq (h : Linked m lists none) {b : BlockId} {l r : List NodeId}
    (hb : lists b = l ++ r) (front : Option NodeId) :
    BlockCursor.takeBack m l.length ⟨front, l.getLast?, l.length⟩ = .ok l.reverse := by
  induction l using List.reverseRecOn generalizing r with
  | nil => rfl
  | append_singleton l x ih =>
    have hb' : lists b = l ++ x :: r := by simpa using hb
    obtain ⟨nd, hx, -, -⟩ := h.exists_node (show x ∈ lists b by simp [hb'])
    obtain ⟨hprev, -⟩ := h.link hb' hx
    have hrest := ih hb'
    have hnode : m.node x = .ok nd := by simpa using hx
    simp only [List.length_append, List.length_cons, List.length_nil, List.getLast?_append,
      List.getLast?_singleton, Option.some_or, BlockCursor.takeBack, BlockCursor.nextBack?, hnode]
    change (BlockCursor.takeBack m l.length ⟨front, nd.prev, l.length⟩).bind _ = _
    rw [hprev, hrest, List.reverse_append]
    rfl

theorem blockNodesBack_eq (h : Linked m lists none) {b : BlockId} {blk : Block}
    (hb : m.block? b = some blk) : m.blockNodesBack b = .ok (lists b).reverse := by
  have hblock : m.block b = .ok blk := by simpa using hb
  have htake := h.takeBack_eq (b := b) (r := []) (List.append_nil _).symm blk.first
  unfold Module.blockNodesBack Module.cursor
  rw [hblock]
  simpa [h.last hb, h.len hb, bind, Except.bind, pure, Except.pure] using htake

end Linked

/-- A block holds a list: read along the links from both ends, and compared by the order keys. -/
structure Module.Holds (m : Module) (b : BlockId) (blk : Block) (l : List NodeId) : Prop where
  first : blk.first = l.head?
  last : blk.last = l.getLast?
  len : blk.len = l.length
  nodup : l.Nodup
  mem_iff : ∀ {id}, id ∈ l ↔ ∃ n, m.node? id = some n ∧ n.erased = false ∧ n.parent = b
  link : ∀ {l₁ x l₂ n}, l = l₁ ++ x :: l₂ → m.node? x = some n →
    n.prev = l₁.getLast? ∧ n.next = l₂.head?
  forward : m.blockNodes b = .ok l
  backward : m.blockNodesBack b = .ok l.reverse
  rising : l.Pairwise fun x y => m.orderOf x < m.orderOf y
  isBefore : ∀ {x y}, x ∈ l → y ∈ l → m.isBefore x y = .ok (decide (l.idxOf x < l.idxOf y))

/-- Where keys rise along a list, they tell the order in it. -/
theorem lt_iff_idxOf_lt {l : List NodeId} {key : NodeId → Nat} {x y : NodeId}
    (hrise : l.Pairwise fun x y => key x < key y) (hx : x ∈ l) (hy : y ∈ l) :
    key x < key y ↔ l.idxOf x < l.idxOf y := by
  have hlt : ∀ {x y}, x ∈ l → y ∈ l → l.idxOf x < l.idxOf y → key x < key y := fun hx hy h => by
    have := List.pairwise_iff_getElem.1 hrise _ _ (List.idxOf_lt_length_iff.2 hx)
      (List.idxOf_lt_length_iff.2 hy) h
    simpa using this
  refine ⟨fun h => ?_, hlt hx hy⟩
  by_contra hge
  rcases Nat.lt_or_eq_of_le (Nat.not_lt.1 hge) with h' | h'
  · exact Nat.lt_asymm h (hlt hy hx h')
  · obtain rfl := (List.idxOf_inj hy).1 h'
    exact Nat.lt_irrefl _ h

namespace Built

variable {count : Nat} {m m' : Module} {e : Edit} {es : List Edit}

theorem holds (h : Built count m) {b : BlockId} {blk : Block} (hb : m.block? b = some blk) :
    m.Holds b blk (m.nodesOf b) where
  first := h.linked.first hb
  last := h.linked.last hb
  len := h.linked.len hb
  nodup := h.linked.nodup b
  mem_iff {id} := by simpa using h.linked.mem_iff (b := b) (n := id)
  link := h.linked.link
  forward := h.linked.blockNodes_eq hb
  backward := h.linked.blockNodesBack_eq hb
  rising := h.keyed.rising b
  isBefore {x y} hx hy := by
    obtain ⟨nx, hnx, -, hpx⟩ := h.linked.exists_node hx
    obtain ⟨ny, hny, -, hpy⟩ := h.linked.exists_node hy
    have hiff := lt_iff_idxOf_lt (h.keyed.rising b) hx hy
    rw [Module.orderOf_eq hnx, Module.orderOf_eq hny] at hiff
    rw [Module.isBefore, Module.node_eq_ok_iff.2 hnx, ok_bind, Module.node_eq_ok_iff.2 hny, ok_bind,
      if_pos (hpx.trans hpy.symm)]
    simp only [hiff]
    rfl

/-! ## Edits -/

/-- A permitted edit does not misuse the module. -/
theorem applyWide_safe (h : Built count m) (he : e.Permitted m) :
    Safe (count < 2 ^ 43) (e.applyWide m) := by
  cases e with
  | create pos op operands types loc => exact (h.createNode_safe he.1 he.2).bind fun _ _ => .ok _
  | clone source pos => exact (h.cloneNode_safe he.1 he.2).bind fun _ _ => .ok _
  | move id pos =>
    obtain ⟨⟨n, hn⟩, hpos, -⟩ := he
    exact h.moveNode_safe hn hpos
  | erase id =>
    obtain ⟨n, hn, hunused⟩ := he
    obtain ⟨m', hok, -⟩ := h.eraseNode hn hunused
    exact .of_ok ⟨m', hok⟩
  | setOperand id index v =>
    obtain ⟨⟨n, hn, hi⟩, hv⟩ := he
    exact .of_ok (h.setOperand_safe hn hi hv)
  | replaceUses old new => exact .of_ok (h.replaceUses_safe he.1 he.2)

/-- A permitted edit does to the outline what it is meant to do. -/
theorem applyWide (h : Built count m) (he : e.Permitted m) (hok : e.applyWide m = .ok m') :
    Built (count + 1) m' ∧ m'.outline = m.outline.apply e := by
  cases e with
  | create pos op operands types loc =>
    simp only [Edit.applyWide, bind_eq_ok_iff] at hok
    obtain ⟨⟨id, m₁⟩, h₁, hret⟩ := hok
    cases hret
    obtain ⟨hb, ho, -⟩ := h.createNode he.1 he.2 h₁
    exact ⟨hb, ho⟩
  | clone source pos =>
    simp only [Edit.applyWide, bind_eq_ok_iff] at hok
    obtain ⟨⟨id, m₁⟩, h₁, hret⟩ := hok
    cases hret
    exact h.cloneNode he.2 h₁
  | move id pos =>
    obtain ⟨⟨n, hn⟩, hpos, hunder⟩ := he
    exact h.moveNode hn hpos hunder hok
  | erase id =>
    obtain ⟨n, hn, hunused⟩ := he
    obtain ⟨m₁, hok₁, hb, ho⟩ := h.eraseNode hn hunused
    obtain rfl : m₁ = m' := Except.ok.inj (hok₁.symm.trans hok)
    exact ⟨hb, ho⟩
  | setOperand id index v =>
    obtain ⟨⟨n, hn, -⟩, hv⟩ := he
    exact h.setOperand hn hv hok
  | replaceUses old new => exact h.replaceUses he.2 hok

/-- Neither do edits one after the other, while their numbers last. -/
theorem applyAll_safe (h : Built count m) (hb : m.Brief) (hes : m.Permits es)
    (hnum : m.Numbers es) : Safe (count + es.length ≤ 2 ^ 43) (m.applyAll es) := by
  induction hes generalizing count with
  | nil m => exact .ok m
  | cons he _ ih =>
    cases hnum with | cons hn hnum => ?_
    have hwide := Edit.apply_eq_applyWide hb he hn
    have hroom : ∀ {k : Nat}, count + (k + 1) ≤ 2 ^ 43 → count < 2 ^ 43 := fun hk => by omega
    rw [Module.applyAll]
    refine .bind ?_ fun m₁ h₁ => ?_
    · rw [hwide]
      exact (h.applyWide_safe he).imp_right fun herr => ⟨herr.1, fun hr => herr.2 (hroom hr)⟩
    rw [List.length_cons, Nat.add_comm _ 1, ← Nat.add_assoc]
    have h₁' := hwide.symm.trans h₁
    exact ih m₁ h₁ (h.applyWide he h₁').1 (Edit.brief_applyWide h hb he hn h₁') (hnum m₁ h₁)

theorem applyAll (h : Built count m) (hb : m.Brief) (hes : m.Permits es) (hnum : m.Numbers es)
    (hok : m.applyAll es = .ok m') :
    Built (count + es.length) m' ∧ m'.outline = m.outline.applyAll es := by
  induction hes generalizing count with
  | nil m =>
    cases hok
    exact ⟨h, rfl⟩
  | cons he _ ih =>
    cases hnum with | cons hn hnum => ?_
    rw [Module.applyAll, bind_eq_ok_iff] at hok
    obtain ⟨m₁, h₁, hok⟩ := hok
    have h₁' := (Edit.apply_eq_applyWide hb he hn).symm.trans h₁
    obtain ⟨hm₁, ho₁⟩ := h.applyWide he h₁'
    obtain ⟨hm, ho⟩ :=
      ih m₁ h₁ hm₁ (Edit.brief_applyWide h hb he hn h₁') (hnum m₁ h₁) hok
    rw [List.length_cons, Nat.add_comm _ 1, ← Nat.add_assoc, Outline.applyAll, ← ho₁]
    exact ⟨hm, ho⟩

end Built

/-! ## From a module without nodes -/

namespace Module.Blank

variable {m : Module} {es : List Edit}

theorem nodes_eq (h : m.Blank) : m.nodes = #[] := by
  induction h with
  | empty => rfl
  | addInput _ _ _ ih | addOutput _ _ _ ih | internType _ _ ih => exact ih

theorem block?_eq_some (h : m.Blank) {b : BlockId} {blk : Block} (hb : m.block? b = some blk) :
    blk = .empty .graph none := by
  have hblocks : m.blocks = #[.empty .graph none] := by
    induction h with
    | empty => rfl
    | addInput _ _ _ ih | addOutput _ _ _ ih | internType _ _ ih => exact ih hb
  rw [Module.block?, hblocks] at hb
  exact List.mem_singleton.1 (Array.mem_def.1 (Array.mem_of_getElem? hb))

theorem uses_eq_nil (h : m.Blank) {v : ValueId} {x : Value} (hx : m.value? v = some x) :
    x.uses = [] := by
  induction h with
  | empty => simp [Module.value?, Module.empty] at hx
  | @addInput m _ _ _ ih =>
    simp only [Module.value?, Module.addInput, Array.getElem?_push] at hx
    split at hx
    · obtain rfl := Option.some.inj hx
      rfl
    · exact ih hx
  | addOutput _ _ _ ih | internType _ _ ih => exact ih hx

/-- A module without nodes is built by no edits. -/
theorem built (h : m.Blank) : Built 0 m := by
  have hnode : ∀ id, m.node? id = none := fun id => by simp [Module.node?, h.nodes_eq]
  have hcore : ∀ id, m.core id = none := fun id => by simp [Module.core, hnode]
  have huses : ∀ u v, ¬ m.Uses u v := fun u v hu => by
    obtain ⟨n, hn, -⟩ := hu
    simp [Module.live?, hcore] at hn
  have hlinked : Linked m (fun _ => []) none := by
    refine ⟨fun hb => ?_, fun hb => ?_, fun hb => ?_, fun b => List.nodup_nil, ?_, ?_, ?_⟩
    · simp [h.block?_eq_some hb, Block.empty]
    · simp [h.block?_eq_some hb, Block.empty]
    · simp [h.block?_eq_some hb, Block.empty]
    · simp [hnode]
    · simp
    · simp [hnode]
  refine ⟨⟨hlinked.nodesOf_eq.symm ▸ hlinked, ?_, ?_, ?_, ?_, ?_⟩, ⟨⟨?_, ?_⟩, ?_, ?_⟩, ?_, ?_⟩
  · simp [hcore]
  · simp [hcore]
  · simp [hcore]
  · simp [hcore]
  · intro j b hj
    rw [hlinked.nodesOf_eq] at hj
    cases hj
  · intro v x hx
    rw [h.uses_eq_nil hx]
    exact List.nodup_nil
  · intro v x u hx
    simp [h.uses_eq_nil hx, huses]
  · simp [hcore]
  · simp [hcore]
  · rw [hlinked.nodesOf_eq]
    exact ⟨fun b => List.Pairwise.nil, fun j => by simp [Module.orderOf, hnode]⟩
  · simp [h.nodes_eq]

theorem brief (h : m.Blank) : m.Brief := fun id n hn => by
  simp [Module.core, Module.node?, h.nodes_eq] at hn

/-- The lists of a module refine plain lists: fewer than 2^43 permitted edits do not fail while their
numbers last, and leave in every block the list that the same edits of the outline give. -/
theorem applyAll_refines (h : m.Blank) (hes : m.Permits es) (hnum : m.Numbers es)
    (hlen : es.length < 2 ^ 43) :
    ∃ m', m.applyAll es = .ok m' ∧ m'.outline = m.outline.applyAll es ∧
      (∀ id n, m'.node? id = some n → n.order < 2 ^ 64) ∧
      ∀ b blk, m'.block? b = some blk → m'.Holds b blk ((m.outline.applyAll es).list b) := by
  obtain ⟨m', hok⟩ := (h.built.applyAll_safe h.brief hes hnum).exists_ok (by omega)
  obtain ⟨hb, ho⟩ := h.built.applyAll h.brief hes hnum hok
  refine ⟨m', hok, ho, fun id n hn => ?_, fun b blk hblk => ho ▸ hb.holds hblk⟩
  have hle := hb.keyed.le id
  rw [Module.orderOf_eq hn, Nat.zero_add, show orderStride = 2 ^ 20 from rfl] at hle
  omega

theorem applyAll_refines_swap : ∃ es, (Module.empty ⟨0⟩ .unknown).Blank ∧
    (Module.empty ⟨0⟩ .unknown).Permits es ∧ (Module.empty ⟨0⟩ .unknown).Numbers es ∧
    es.length < 2 ^ 43 ∧
    es = [.create (.back ⟨0⟩) .wire [] [⟨0⟩] .unknown, .create (.back ⟨0⟩) .output [] [] .unknown,
      .move ⟨1⟩ (.before ⟨0⟩), .clone ⟨0⟩ (.after ⟨1⟩), .erase ⟨1⟩] ∧
    ∃ m', (Module.empty ⟨0⟩ .unknown).applyAll es = .ok m' ∧ ∀ b blk, m'.block? b = some blk →
      m'.Holds b blk (((Module.empty ⟨0⟩ .unknown).outline.applyAll es).list b) := by
  have hblank : (Module.empty ⟨0⟩ .unknown).Blank := .empty _ _
  have hes : (Module.empty ⟨0⟩ .unknown).Permits [.create (.back ⟨0⟩) .wire [] [⟨0⟩] .unknown,
      .create (.back ⟨0⟩) .output [] [] .unknown, .move ⟨1⟩ (.before ⟨0⟩), .clone ⟨0⟩ (.after ⟨1⟩),
      .erase ⟨1⟩] :=
    .step ⟨by decide, by simp⟩ rfl <|
    .step ⟨by decide, by simp⟩ rfl <|
    .step ⟨⟨_, rfl⟩, by decide, fun _ _ => not_under_of_regions_nil (n := _) rfl rfl⟩ rfl <|
    .step ⟨by decide, by decide⟩ rfl <|
    .cons ⟨_, rfl, fun _ v hv => by cases hv⟩ fun m' _ => .nil m'
  have hnum : (Module.empty ⟨0⟩ .unknown).Numbers [.create (.back ⟨0⟩) .wire [] [⟨0⟩] .unknown,
      .create (.back ⟨0⟩) .output [] [] .unknown, .move ⟨1⟩ (.before ⟨0⟩), .clone ⟨0⟩ (.after ⟨1⟩),
      .erase ⟨1⟩] :=
    .step ⟨by decide, by decide, by decide, by decide⟩ rfl <|
    .step ⟨by decide, by decide, by decide, by decide⟩ rfl <|
    .step trivial rfl <|
    .step (fun n hn => by
      cases hn
      exact ⟨by decide, by decide, by decide, by decide⟩) rfl <|
    .cons trivial fun m' _ => .nil m'
  obtain ⟨m', hok, -, -, hholds⟩ := applyAll_refines hblank hes hnum (by decide)
  exact ⟨_, hblank, hes, hnum, by decide, rfl, m', hok, hholds⟩

end Module.Blank

/-! ## Where the numbers run out -/

/-- Adds a node that refers to nothing, at the end of the body. -/
def Edit.filler : Edit := .create (.back ⟨0⟩) .output [] [] .unknown

/-- A module that so many such edits have filled. -/
structure Module.Filled (count : Nat) (m : Module) : Prop where
  built : Built count m
  brief : m.Brief
  nodes : m.nodes.size = count
  values : m.values.size = 0
  blocks : m.blocks.size = 1
  list : m.nodesOf ⟨0⟩ = (List.range count).map NodeId.mk

namespace Module.Filled

variable {count more : Nat} {m m' : Module}

theorem start : Filled 0 (.empty ⟨0⟩ .unknown) where
  built := (Blank.empty _ _).built
  brief := (Blank.empty _ _).brief
  nodes := rfl
  values := rfl
  blocks := rfl
  list := rfl

theorem permitted (h : m.Filled count) : Edit.filler.Permitted m := by
  refine ⟨?_, by simp⟩
  show 0 < m.blocks.size
  rw [h.blocks]
  exact Nat.one_pos

/-- While the numbers last, the module is filled further. -/
theorem step (h : m.Filled count) (hcount : count < 2 ^ 32) (hok : Edit.filler.apply m = .ok m') :
    m'.Filled (count + 1) := by
  have hnum : Edit.filler.Numbered m :=
    ⟨by rw [h.nodes]; exact hcount, by rw [h.values]; exact Nat.zero_le _,
      by rw [h.blocks]; decide, Nat.zero_le _⟩
  rw [Edit.apply_eq_applyWide h.brief h.permitted hnum] at hok
  obtain ⟨hbuilt, hout⟩ := h.built.applyWide h.permitted hok
  have hcreate : m.outline.apply Edit.filler = m.outline.create (.back ⟨0⟩) 0 := rfl
  rw [hcreate] at hout
  refine ⟨hbuilt, Edit.brief_applyWide h.built h.brief h.permitted hnum hok, ?_, ?_, ?_, ?_⟩
  · exact (congrArg Outline.nodes hout).trans (congrArg (· + 1) h.nodes)
  · simp only [Edit.filler, Edit.applyWide, createNode_eq, bind_eq_ok_iff] at hok
    obtain ⟨⟨id, m₃⟩, ⟨gap, -, m₁, h₁, m₂, h₂, hret⟩, hok⟩ := hok
    cases hret
    cases hok
    rw [(link_eq_ok h₂).1.values, (store_eq_ok h₁).values_size, h.values]
    rfl
  · exact (congrArg Outline.blocks hout).trans h.blocks
  · have hlist := congrFun (congrArg Outline.list hout) ⟨0⟩
    refine (hlist.trans Outline.list_create_back).trans ?_
    show m.nodesOf ⟨0⟩ ++ [⟨m.nodes.size⟩] = _
    rw [h.list, h.nodes, List.range_succ, List.map_append]
    rfl

theorem permits (h : m.Filled count) (hcount : count + more ≤ 2 ^ 32 + 1) :
    m.Permits (List.replicate more Edit.filler) := by
  induction more generalizing count m with
  | zero => exact .nil m
  | succ more ih =>
    refine .cons h.permitted fun m' hok => ?_
    cases more with
    | zero => exact .nil m'
    | succ more => exact ih (h.step (by omega) hok) (by omega)

/-- Once more than the numbers last: all but the last edit fill the module. -/
theorem exists_full (h : m.Filled count) (hcount : count + more = 2 ^ 32)
    (hok : m.applyAll (List.replicate (more + 1) Edit.filler) = .ok m') :
    ∃ m₁ : Module, m₁.Filled (2 ^ 32) ∧ Edit.filler.apply m₁ = .ok m' := by
  induction more generalizing count m with
  | zero =>
    rw [List.replicate_succ, List.replicate_zero, applyAll, bind_eq_ok_iff] at hok
    obtain ⟨m₁, h₁, hret⟩ := hok
    cases hret
    exact ⟨m, hcount ▸ h, h₁⟩
  | succ more ih =>
    rw [List.replicate_succ, applyAll, bind_eq_ok_iff] at hok
    obtain ⟨m₁, h₁, hok⟩ := hok
    exact ih (h.step (by omega) h₁) (by omega) hok

/-- The node behind all numbered ones is taken for the first node. -/
theorem block?_overrun (h : m.Filled (2 ^ 32)) (hok : Edit.filler.apply m = .ok m') :
    ∃ blk, m'.block? ⟨0⟩ = some blk ∧ blk.first = some ⟨0⟩ ∧ blk.last = some ⟨0⟩ ∧
      blk.len = 2 ^ 32 + 1 := by
  obtain ⟨blk, hblk⟩ := exists_block?_iff.2 (show (⟨0⟩ : BlockId).index < m.blocks.size by
    rw [h.blocks]
    exact Nat.one_pos)
  have hholds := h.built.holds hblk
  have hfirst : blk.first = some ⟨0⟩ := by
    rw [hholds.first, h.list, List.head?_map, List.head?_range]
    rfl
  have hlast : blk.last = some ⟨2 ^ 32 - 1⟩ := by
    rw [hholds.last, h.list, List.getLast?_map, List.getLast?_range]
    rfl
  have hlen : blk.len = 2 ^ 32 := by
    rw [hholds.len, h.list, List.length_map, List.length_range]
  simp only [Edit.filler, Edit.apply, createNode, gapAt, bind_eq_ok_iff, block_eq_ok_iff] at hok
  obtain ⟨⟨id, m₁⟩, ⟨gap, ⟨blk', hblk', hgap⟩, m₂, huses, m₃, hlink, hret⟩, hok⟩ := hok
  cases hok
  cases hret
  cases hgap
  obtain rfl := Option.some.inj (hblk.symm.trans hblk')
  -- The module has no values and gets no blocks, so nothing but the node is added.
  obtain rfl : m = m₂ := Except.ok.inj huses
  have hid : low32 m.nodes.size = 0 := by rw [h.nodes]; rfl
  have hblock := (link_eq_ok hlink).2.2 ⟨0⟩
  refine ⟨_, hblock.trans (congrArg _ hblk), ?_, ?_, ?_⟩
  · simpa [hlast] using hfirst
  · simp [hid]
  · simp [hlen]

end Module.Filled

namespace Module.Blank

variable {m : Module} {es : List Edit}

theorem not_refines_past_numbers : (Module.empty ⟨0⟩ .unknown).Blank ∧
    (Module.empty ⟨0⟩ .unknown).Permits (List.replicate (2 ^ 32 + 1) Edit.filler) ∧
    (List.replicate (2 ^ 32 + 1) Edit.filler).length < 2 ^ 43 ∧
    ¬ ∃ m', (Module.empty ⟨0⟩ .unknown).applyAll (List.replicate (2 ^ 32 + 1) Edit.filler) = .ok m' ∧
      ∀ b blk, m'.block? b = some blk → ∃ l, m'.Holds b blk l := by
  refine ⟨.empty _ _, Module.Filled.start.permits (by omega), ?_, ?_⟩
  · rw [List.length_replicate]
    decide
  · rintro ⟨m', hok, hholds⟩
    obtain ⟨m₁, hfull, hlast⟩ := Module.Filled.start.exists_full (Nat.zero_add _) hok
    obtain ⟨blk, hblk, hfirst, hend, hlen⟩ := hfull.block?_overrun hlast
    obtain ⟨l, hl⟩ := hholds _ _ hblk
    -- A list without repetition with one node at both ends has no other node.
    rw [hl.first] at hfirst
    rw [hl.last] at hend
    rw [hl.len] at hlen
    obtain ⟨l', rfl⟩ := List.head?_eq_some_iff.1 hfirst
    obtain rfl | hne := eq_or_ne l' []
    · simp at hlen
    · rw [List.getLast?_cons_of_ne_nil hne] at hend
      exact (List.nodup_cons.1 hl.nodup).1 (List.mem_of_getLast? hend)

/-- Use lists and operands do not drift apart: after permitted edits, an operand of a node that is not
erased is named once by the use list of its value and by no other, and nothing else is named. Where the
numbers last, only counters can overflow, and only after very many edits. -/
theorem applyAll_tracks (h : m.Blank) (hes : m.Permits es) (hnum : m.Numbers es) :
    (∃ m', m.applyAll es = .ok m' ∧
      (∀ v u, (m'.Uses u v → ((m'.value? v).elim [] (·.uses)).count u = 1) ∧
        (¬ m'.Uses u v → ((m'.value? v).elim [] (·.uses)).count u = 0)) ∧
      ∀ id n k v, m'.node? id = some n → n.results[k]? = some v →
        m'.def? v = some (.result id k)) ∨
    (m.applyAll es = .error .overflow ∧ 2 ^ 43 ≤ es.length) := by
  refine (h.built.applyAll_safe h.brief hes hnum).imp (fun ⟨m', hok⟩ => ?_) fun ⟨herr, hroom⟩ =>
    ⟨herr, by omega⟩
  obtain ⟨hb, -⟩ := h.built.applyAll h.brief hes hnum hok
  refine ⟨m', hok, fun v u => ⟨fun hu => ?_, fun hu => ?_⟩, fun id n k v hn hv =>
    hb.result (n := n.core) (Module.core_of_node? hn) hv⟩
  · obtain ⟨x, hx⟩ := Module.exists_value?_iff.2 (hb.lt_of_uses hu)
    rw [hx, Option.elim_some]
    exact List.count_eq_one_of_mem (hb.uses_nodup hx) ((hb.mem_uses hx).2 hu)
  · rw [List.count_eq_zero]
    cases hx : m'.value? v with
    | none => exact List.not_mem_nil
    | some x => exact fun hmem => hu ((hb.mem_uses hx).1 hmem)

theorem applyAll_tracks_assign : ∃ m es, m = ((Module.empty ⟨0⟩ .unknown).addInput ⟨1⟩ ⟨0⟩ low32).2 ∧
    m.Blank ∧ m.Permits es ∧ m.Numbers es ∧ es.length < 2 ^ 43 ∧
    es = [.create (.back ⟨0⟩) .wire [] [⟨0⟩] .unknown,
      .create (.back ⟨0⟩) .assign [⟨1⟩, ⟨0⟩] [] .unknown, .setOperand ⟨1⟩ 1 ⟨1⟩,
      .replaceUses ⟨1⟩ ⟨0⟩, .erase ⟨1⟩] ∧
    ∃ m', m.applyAll es = .ok m' ∧ ∀ v u,
      (m'.Uses u v → ((m'.value? v).elim [] (·.uses)).count u = 1) ∧
      (¬ m'.Uses u v → ((m'.value? v).elim [] (·.uses)).count u = 0) := by
  have hblank : ((Module.empty ⟨0⟩ .unknown).addInput ⟨1⟩ ⟨0⟩ low32).2.Blank := .addInput (.empty _ _) _ _
  have hes : ((Module.empty ⟨0⟩ .unknown).addInput ⟨1⟩ ⟨0⟩ low32).2.Permits
      [.create (.back ⟨0⟩) .wire [] [⟨0⟩] .unknown,
      .create (.back ⟨0⟩) .assign [⟨1⟩, ⟨0⟩] [] .unknown, .setOperand ⟨1⟩ 1 ⟨1⟩,
      .replaceUses ⟨1⟩ ⟨0⟩, .erase ⟨1⟩] :=
    .step ⟨by decide, by simp⟩ rfl <|
    .step ⟨by decide, by decide⟩ rfl <|
    .step ⟨⟨_, rfl, by decide⟩, by decide⟩ rfl <|
    .step ⟨by decide, by decide⟩ rfl <|
    .cons ⟨_, rfl, fun _ v hv => by cases hv⟩ fun m' _ => .nil m'
  have hnum : ((Module.empty ⟨0⟩ .unknown).addInput ⟨1⟩ ⟨0⟩ low32).2.Numbers
      [.create (.back ⟨0⟩) .wire [] [⟨0⟩] .unknown,
      .create (.back ⟨0⟩) .assign [⟨1⟩, ⟨0⟩] [] .unknown, .setOperand ⟨1⟩ 1 ⟨1⟩,
      .replaceUses ⟨1⟩ ⟨0⟩, .erase ⟨1⟩] :=
    .step ⟨by decide, by decide, by decide, by decide⟩ rfl <|
    .step ⟨by decide, by decide, by decide, by decide⟩ rfl <|
    .step trivial rfl <|
    .step trivial rfl <|
    .cons trivial fun m' _ => .nil m'
  obtain ⟨m', hok, huses, -⟩ := (applyAll_tracks hblank hes hnum).resolve_right fun h =>
    absurd h.2 (by decide)
  exact ⟨_, _, rfl, hblank, hes, hnum, by decide, rfl, m', hok, huses⟩

end Module.Blank

/-- The uses of a value by operands that are all the same. -/
theorem usesAmong_replicate (id : NodeId) (v : ValueId) (i n : Nat) :
    usesAmong id v i (List.replicate n v) = (List.range' i n).map (Use.mk id) := by
  induction n generalizing i with
  | zero => rfl
  | succ n ih => rw [List.replicate_succ, usesAmong, if_pos rfl, ih, List.range'_succ, List.map_cons]

/-- A node that refers to the first value once more than operands can be numbered. -/
def Edit.crowd : Edit :=
  .create (.back ⟨0⟩) .output (List.replicate (2 ^ 32 + 1) ⟨0⟩) [] .unknown

theorem Module.Blank.not_tracks_past_numbers :
    ∃ m, m = ((Module.empty ⟨0⟩ .unknown).addInput ⟨1⟩ ⟨0⟩ low32).2 ∧ m.Blank ∧ m.Permits [.crowd] ∧
    ¬ ∃ m', m.applyAll [.crowd] = .ok m' ∧
      ∀ v u, (m'.Uses u v → ((m'.value? v).elim [] (·.uses)).count u = 1) ∧
        (¬ m'.Uses u v → ((m'.value? v).elim [] (·.uses)).count u = 0) := by
  let m := ((Module.empty ⟨0⟩ .unknown).addInput ⟨1⟩ ⟨0⟩ low32).2
  have hnodes : m.nodes.size = 0 := rfl
  refine ⟨m, rfl, .addInput (.empty _ _) _ _, .cons ⟨?_, fun v hv => ?_⟩ fun m' _ => .nil m', ?_⟩
  · decide
  · rw [List.eq_of_mem_replicate hv]
    decide
  rintro ⟨m', hok, htracks⟩
  simp only [Module.applyAll, Edit.crowd, Edit.apply, bind_eq_ok_iff] at hok
  obtain ⟨m₁, ⟨⟨id, m₂⟩, hcreate, hm₁⟩, hm'⟩ := hok
  cases hm'
  cases hm₁
  obtain ⟨⟨n, hn, hoperands⟩, hvalue⟩ := Module.createNode_number_eq_ok rfl rfl hcreate
  have huse : m₂.Uses ⟨⟨0⟩, 0⟩ ⟨0⟩ := by
    refine ⟨n, hn, ?_⟩
    rw [hoperands]
    exact List.getElem?_replicate_of_lt (Nat.succ_pos _)
  have hcount := (htracks ⟨0⟩ ⟨⟨0⟩, 0⟩).1 huse
  -- Operand 2^32 is recorded under the number of operand 0.
  have huses : (m₂.value? ⟨0⟩).elim [] (·.uses) =
      (List.range' 0 (2 ^ 32)).map (fun k => (⟨⟨0⟩, low32 k⟩ : Use)) ++ [⟨⟨0⟩, 0⟩] := by
    have hfirst : m.value? ⟨0⟩ = some ⟨⟨0⟩, .port 0, []⟩ := rfl
    have hwrap : low32 (2 ^ 32) = 0 := rfl
    rw [hvalue, hfirst, Option.map_some, Option.elim_some, hnodes, List.nil_append,
      usesAmong_replicate, List.map_map, List.range'_concat, List.map_append, List.map_singleton,
      Nat.zero_add, Nat.one_mul, Function.comp_def]
    dsimp only
    rw [hwrap]
  rw [huses, List.count_append, List.count_singleton_self] at hcount
  have hmem : (⟨⟨0⟩, 0⟩ : Use) ∈ (List.range' 0 (2 ^ 32)).map fun k => (⟨⟨0⟩, low32 k⟩ : Use) :=
    List.mem_map.2 ⟨0, List.mem_range'_1.2 ⟨Nat.le_refl 0, by omega⟩, rfl⟩
  have hpos := List.count_pos_iff.2 hmem
  omega

end NetPrep
