import Mathlib
import NetPrep.Proofs.Order
import NetPrep.Proofs.View

/-!
# Blocks as lists

The links of a module say which nodes a block holds, and in what order. `Linked` states that they
agree with a list for each block. Taking a node out of its block and putting it into a gap change
one of these lists, and nothing else but links and order keys.
-/

namespace NetPrep

/-! ## Neighbours in a list -/

/-- Linked elements between two outer neighbours: each has the one before it and the one behind it as
its neighbours. -/
def Chained {α : Type} (prev next : α → Option α) : Option α → List α → Option α → Prop
  | _, [], _ => True
  | p, x :: l, q => prev x = p ∧ next x = l.head?.or q ∧ Chained prev next (some x) l q

namespace Chained

variable {α : Type} {prev next prev' next' : α → Option α} {p p' q q' : Option α} {l r : List α}
  {x : α}

theorem getLast?_cons_or (x : α) (l : List α) (p : Option α) :
    (x :: l).getLast?.or p = l.getLast?.or (some x) := by
  rw [List.getLast?_cons]
  cases l.getLast? <;> rfl

theorem append_iff : Chained prev next p (l ++ r) q ↔
    Chained prev next p l (r.head?.or q) ∧ Chained prev next (l.getLast?.or p) r q := by
  induction l generalizing p with
  | nil => simp [Chained]
  | cons y l ih =>
    simp only [List.cons_append, Chained, ih, getLast?_cons_or, List.head?_append, Option.or_assoc,
      and_assoc]

theorem neighbours (h : Chained prev next none (l ++ x :: r) none) :
    prev x = l.getLast? ∧ next x = r.head? := by
  obtain ⟨-, h₁, h₂, -⟩ := append_iff.1 h
  exact ⟨by simpa using h₁, by simpa using h₂⟩

theorem of_neighbours (h : ∀ l₁ x l₂, l = l₁ ++ x :: l₂ →
    prev x = l₁.getLast?.or p ∧ next x = l₂.head?.or q) : Chained prev next p l q := by
  induction l generalizing p with
  | nil => trivial
  | cons y l ih =>
    obtain ⟨h₁, h₂⟩ := h [] y l rfl
    refine ⟨by simpa using h₁, h₂, ih fun l₁ x l₂ hl => ?_⟩
    rw [← getLast?_cons_or]
    exact h (y :: l₁) x l₂ (by rw [hl, List.cons_append])

theorem congr (h : Chained prev next p l q) (hp : ∀ y ∈ l, prev' y = prev y)
    (hn : ∀ y ∈ l, next' y = next y) : Chained prev' next' p l q := by
  induction l generalizing p with
  | nil => trivial
  | cons y l ih =>
    obtain ⟨h₁, h₂, h⟩ := h
    obtain ⟨hp₁, hp⟩ := List.forall_mem_cons.1 hp
    obtain ⟨hn₁, hn⟩ := List.forall_mem_cons.1 hn
    exact ⟨hp₁.trans h₁, hn₁.trans h₂, ih h hp hn⟩

variable [DecidableEq α]

/-- The last element gets another neighbour behind it. -/
theorem setLast (h : Chained prev next p l q) (hnodup : l.Nodup) (hp : ∀ y ∈ l, prev' y = prev y)
    (hn : ∀ y ∈ l, next' y = if l.getLast? = some y then q' else next y) :
    Chained prev' next' p l q' := by
  induction l generalizing p with
  | nil => trivial
  | cons y l ih =>
    obtain ⟨h₁, h₂, h⟩ := h
    obtain ⟨hp₁, hp⟩ := List.forall_mem_cons.1 hp
    obtain ⟨hn₁, hn⟩ := List.forall_mem_cons.1 hn
    obtain ⟨hy, hnodup⟩ := List.nodup_cons.1 hnodup
    cases l with
    | nil => exact ⟨hp₁.trans h₁, by simpa using hn₁, trivial⟩
    | cons z l =>
      rw [List.getLast?_cons_cons] at hn₁ hn
      rw [if_neg fun he => hy (List.mem_of_getLast? he)] at hn₁
      exact ⟨hp₁.trans h₁, hn₁.trans h₂, ih h hnodup hp hn⟩

/-- The first element gets another neighbour before it. -/
theorem setHead (h : Chained prev next p l q) (hnodup : l.Nodup)
    (hp : ∀ y ∈ l, prev' y = if l.head? = some y then p' else prev y)
    (hn : ∀ y ∈ l, next' y = next y) : Chained prev' next' p' l q := by
  cases l with
  | nil => trivial
  | cons y l =>
    obtain ⟨-, h₂, h⟩ := h
    obtain ⟨hp₁, hp⟩ := List.forall_mem_cons.1 hp
    obtain ⟨hn₁, hn⟩ := List.forall_mem_cons.1 hn
    obtain ⟨hy, -⟩ := List.nodup_cons.1 hnodup
    refine ⟨by simpa using hp₁, hn₁.trans h₂, h.congr (fun z hz => ?_) hn⟩
    rw [hp z hz, if_neg]
    rintro ⟨⟩
    exact hy hz

end Chained

/-! ## Lists for the links -/

/-- What a node has to do with the links of its block. -/
def Node.links (n : Node) : Option NodeId × Option NodeId × BlockId × Bool :=
  (n.prev, n.next, n.parent, n.erased)

/-- A block has the ends and the length of a list. -/
structure Block.Agrees (blk : Block) (l : List NodeId) : Prop where
  first : blk.first = l.head?
  last : blk.last = l.getLast?
  len : blk.len = l.length

/-- The links of a module realize a list for each block. Every node that is not erased is in the
list of its parent, except for one that may be loose. -/
structure Linked (m : Module) (lists : BlockId → List NodeId) (loose : Option NodeId) : Prop where
  first : ∀ {b blk}, m.block? b = some blk → blk.first = (lists b).head?
  last : ∀ {b blk}, m.block? b = some blk → blk.last = (lists b).getLast?
  len : ∀ {b blk}, m.block? b = some blk → blk.len = (lists b).length
  nodup : ∀ b, (lists b).Nodup
  mem_iff : ∀ {b n}, n ∈ lists b ↔
    loose ≠ some n ∧ ∃ nd, m.node? n = some nd ∧ nd.erased = false ∧ nd.parent = b
  link : ∀ {b l x r nd}, lists b = l ++ x :: r → m.node? x = some nd →
    nd.prev = l.getLast? ∧ nd.next = r.head?
  home : ∀ {n nd}, m.node? n = some nd → nd.erased = false → ∃ blk, m.block? nd.parent = some blk

/-- The node before another one in its block. -/
def Module.prevOf (m : Module) (id : NodeId) : Option NodeId := (m.node? id).bind (·.prev)

/-- The node behind another one in its block. -/
def Module.nextOf (m : Module) (id : NodeId) : Option NodeId := (m.node? id).bind (·.next)

/-- Two modules that differ in their nodes and in the ends of their blocks only. -/
structure Module.Relinks (m m' : Module) : Prop where
  name : m'.name = m.name
  ports : m'.ports = m.ports
  types : m'.types = m.types
  values : m'.values = m.values
  body : m'.body = m.body
  nodes_size : m'.nodes.size = m.nodes.size
  blocks_size : m'.blocks.size = m.blocks.size
  blockCore : ∀ b, m'.blockCore b = m.blockCore b

namespace Module.Relinks

variable {m m' m'' : Module}

theorem refl (m : Module) : Relinks m m := ⟨rfl, rfl, rfl, rfl, rfl, rfl, rfl, fun _ => rfl⟩

theorem trans (h : Relinks m m') (h' : Relinks m' m'') : Relinks m m'' where
  name := h'.name.trans h.name
  ports := h'.ports.trans h.ports
  types := h'.types.trans h.types
  values := h'.values.trans h.values
  body := h'.body.trans h.body
  nodes_size := h'.nodes_size.trans h.nodes_size
  blocks_size := h'.blocks_size.trans h.blocks_size
  blockCore b := (h'.blockCore b).trans (h.blockCore b)

/-- Changing a node in place. -/
theorem of_modifyNode {id : NodeId} {f : Node → Node} (h : m.modifyNode id f = .ok m') :
    Relinks m m' := by
  obtain ⟨nodes, rfl, hsize, -⟩ := modifyNode_eq_ok h
  exact ⟨rfl, rfl, rfl, rfl, rfl, hsize, rfl, fun _ => rfl⟩

/-- Changing the ends of a block. -/
theorem of_modifyBlock {b : BlockId} {f : Block → Block} (hf : ∀ x, (f x).core = x.core)
    (h : m.modifyBlock b f = .ok m') : Relinks m m' := by
  obtain ⟨blocks, rfl, hsize, hget⟩ := modifyBlock_eq_ok h
  refine ⟨rfl, rfl, rfl, rfl, rfl, rfl, hsize, fun c => ?_⟩
  unfold Module.blockCore
  rw [hget c]
  split
  · cases m.block? c <;> simp [hf]
  · rfl

end Module.Relinks

namespace Module

variable {m m' m'' : Module} {b : BlockId} {prev next node : Option NodeId} {id : NodeId}

/-- What an edit of links does to the neighbours of every node and to the ends of every block. -/
structure LinksTo (m m' : Module) (P N : NodeId → Option NodeId → Option NodeId)
    (F L : BlockId → Option NodeId → Option NodeId) (S : BlockId → Nat → Nat) : Prop where
  relinks : Relinks m m'
  node : ∀ j, m'.node? j = (m.node? j).map fun n =>
    { n with prev := P j n.prev, next := N j n.next }
  block : ∀ c, m'.block? c = (m.block? c).map fun x =>
    { x with first := F c x.first, last := L c x.last, len := S c x.len }

theorem LinksTo.trans {P N P' N' : NodeId → Option NodeId → Option NodeId}
    {F L F' L' : BlockId → Option NodeId → Option NodeId} {S S' : BlockId → Nat → Nat}
    (h : LinksTo m m' P N F L S) (h' : LinksTo m' m'' P' N' F' L' S') :
    LinksTo m m'' (fun j p => P' j (P j p)) (fun j n => N' j (N j n)) (fun c x => F' c (F c x))
      (fun c x => L' c (L c x)) (fun c k => S' c (S c k)) where
  relinks := h.relinks.trans h'.relinks
  node j := by simp [h'.node, h.node, Function.comp_def]
  block c := by simp [h'.block, h.block, Function.comp_def]

/-- Changing the neighbours of one node. -/
theorem LinksTo.of_modifyNode {f g : Option NodeId → Option NodeId}
    (h : m.modifyNode id (fun n => { n with prev := f n.prev, next := g n.next }) = .ok m') :
    LinksTo m m' (fun j p => if id = j then f p else p) (fun j n => if id = j then g n else n)
      (fun _ x => x) (fun _ x => x) (fun _ k => k) where
  relinks := .of_modifyNode h
  node j := by
    obtain ⟨nodes, rfl, -, hget⟩ := modifyNode_eq_ok h
    rw [hget j]
    split <;> simp
  block c := by
    obtain ⟨nodes, rfl, -, -⟩ := modifyNode_eq_ok h
    simp [block?]

/-- Changing the ends of one block. -/
theorem LinksTo.of_modifyBlock {f g : Option NodeId → Option NodeId} {s : Nat → Nat}
    (h : m.modifyBlock b (fun x => { x with first := f x.first, last := g x.last, len := s x.len })
      = .ok m') :
    LinksTo m m' (fun _ p => p) (fun _ n => n) (fun c x => if b = c then f x else x)
      (fun c x => if b = c then g x else x) (fun c k => if b = c then s k else k) where
  relinks := .of_modifyBlock
    (f := fun x => { x with first := f x.first, last := g x.last, len := s x.len })
    (fun _ => rfl) h
  node j := by
    obtain ⟨blocks, rfl, -, -⟩ := modifyBlock_eq_ok h
    simp [node?]
  block c := by
    obtain ⟨blocks, rfl, -, hget⟩ := modifyBlock_eq_ok h
    rw [hget c]
    split <;> simp

theorem linkAfter_eq_ok (h : m.linkAfter b prev node = .ok m') :
    LinksTo m m' (fun _ p => p) (fun j n => if prev = some j then node else n)
      (fun c x => if prev = none ∧ b = c then node else x) (fun _ x => x) (fun _ k => k) := by
  unfold linkAfter at h
  cases prev with
  | none =>
    have h' := LinksTo.of_modifyBlock (f := fun _ => node) (g := fun x => x) (s := fun k => k) h
    simpa using h'
  | some p =>
    have h' := LinksTo.of_modifyNode (f := fun p => p) (g := fun _ => node) h
    simpa using h'

theorem linkBefore_eq_ok (h : m.linkBefore b next node = .ok m') :
    LinksTo m m' (fun j p => if next = some j then node else p) (fun _ n => n)
      (fun _ x => x) (fun c x => if next = none ∧ b = c then node else x) (fun _ k => k) := by
  unfold linkBefore at h
  cases next with
  | none =>
    have h' := LinksTo.of_modifyBlock (f := fun x => x) (g := fun _ => node) (s := fun k => k) h
    simpa using h'
  | some n =>
    have h' := LinksTo.of_modifyNode (f := fun _ => node) (g := fun n => n) h
    simpa using h'

/-- Taking a node out of its block changes its neighbours, theirs, and the ends of the block. -/
theorem detach_eq_ok {nd : Node} (hid : m.node? id = some nd) (h : m.detach id = .ok m') :
    LinksTo m m'
      (fun j p => if id = j then none else if nd.next = some j then nd.prev else p)
      (fun j n => if id = j then none else if nd.prev = some j then nd.next else n)
      (fun c x => if nd.prev = none ∧ nd.parent = c then nd.next else x)
      (fun c x => if nd.next = none ∧ nd.parent = c then nd.prev else x)
      (fun c k => if nd.parent = c then k - 1 else k) := by
  simp only [detach, bind_eq_ok_iff, node_eq_ok_iff, block_eq_ok_iff] at h
  obtain ⟨n, hn, m₁, h₁, m₂, h₂, m₃, h₃, blk, hblk, len, hlen, h₄⟩ := h
  obtain rfl : nd = n := by simpa [hid] using hn
  have h₁ := linkAfter_eq_ok h₁
  have h₂ := linkBefore_eq_ok h₂
  have h₃ := LinksTo.of_modifyNode (f := fun _ => none) (g := fun _ => none) h₃
  have h₄ := LinksTo.of_modifyBlock (f := fun x => x) (g := fun x => x) (s := fun _ => len) h₄
  have hall := ((h₁.trans h₂).trans h₃).trans h₄
  refine ⟨hall.relinks, fun j => ?_, fun c => ?_⟩
  · simpa using hall.node j
  · rw [hall.block c]
    by_cases hc : nd.parent = c
    · have hlen' : len = blk.len - 1 := by
        unfold difference at hlen
        split at hlen <;> cases hlen
        rfl
      have hold := ((h₁.trans h₂).trans h₃).block nd.parent
      rw [hblk] at hold
      obtain ⟨x, hx, hblk'⟩ := Option.map_eq_some_iff.1 hold.symm
      subst hc hblk'
      simp [hx, hlen']
    · simp [hc]

/-- What an edit of order keys leaves. -/
structure Reorders (m m' : Module) : Prop where
  relinks : Relinks m m'
  node : ∀ j, ∃ order : Node → Nat, m'.node? j = (m.node? j).map fun n => { n with order := order n }
  block : ∀ c, m'.block? c = m.block? c

theorem Reorders.refl (m : Module) : Reorders m m where
  relinks := .refl m
  node j := ⟨Node.order, by cases m.node? j <;> rfl⟩
  block _ := rfl

theorem Reorders.trans (h : Reorders m m') (h' : Reorders m' m'') :
    Reorders m m'' where
  relinks := h.relinks.trans h'.relinks
  node j := by
    obtain ⟨f, hf⟩ := h.node j
    obtain ⟨g, hg⟩ := h'.node j
    refine ⟨fun n => g { n with order := f n }, ?_⟩
    rw [hg, hf]
    simp [Function.comp_def]
  block c := (h'.block c).trans (h.block c)

theorem Reorders.of_modifyNode {order : Nat} (h : m.modifyNode id ({ · with order }) = .ok m') :
    Reorders m m' where
  relinks := .of_modifyNode h
  node j := by
    obtain ⟨nodes, rfl, -, hget⟩ := modifyNode_eq_ok h
    refine ⟨fun n => if id = j then order else n.order, ?_⟩
    rw [hget j]
    split
    · rfl
    · cases m.node? j <;> rfl
  block c := by
    obtain ⟨nodes, rfl, -, -⟩ := modifyNode_eq_ok h
    rfl

theorem renumberFrom_eq_ok {fuel order : Nat} {cursor : Option NodeId}
    (h : m.renumberFrom fuel order cursor = .ok m') : Reorders m m' := by
  induction fuel generalizing m order cursor with
  | zero =>
    cases cursor with
    | none =>
      cases h
      exact .refl _
    | some id => cases h
  | succ fuel ih =>
    cases cursor with
    | none =>
      cases h
      exact .refl _
    | some id =>
      simp only [renumberFrom, bind_eq_ok_iff] at h
      obtain ⟨order, -, m₁, h₁, n, -, h₂⟩ := h
      exact (Reorders.of_modifyNode h₁).trans (ih h₂)

theorem assignOrder_eq_ok {gap : Gap} (h : m.assignOrder id gap = .ok m') : Reorders m m' := by
  -- Whatever the key of the node before is, one node or the whole block gets new keys.
  have halfway : ∀ {low : Nat} {n : Node}, (if n.order - low < 2 then m.renumber gap.block
      else m.modifyNode id ({ · with order := low + (n.order - low) / 2 })) = .ok m' →
      Reorders m m' := by
    intro low n h
    split at h
    · simp only [renumber, bind_eq_ok_iff] at h
      obtain ⟨b, -, h⟩ := h
      exact renumberFrom_eq_ok h
    · exact .of_modifyNode h
  cases hprev : gap.prev with
  | none =>
    cases hnext : gap.next with
    | none =>
      simp only [assignOrder, hprev, hnext, bind_eq_ok_iff] at h
      obtain ⟨low, -, order, -, h⟩ := h
      exact .of_modifyNode h
    | some next =>
      simp only [assignOrder, hprev, hnext, bind_eq_ok_iff] at h
      obtain ⟨low, -, n, -, h⟩ := h
      exact halfway h
  | some prev =>
    cases hnext : gap.next with
    | none =>
      simp only [assignOrder, hprev, hnext, bind_eq_ok_iff] at h
      obtain ⟨p, -, low, -, order, -, h⟩ := h
      exact .of_modifyNode h
    | some next =>
      simp only [assignOrder, hprev, hnext, bind_eq_ok_iff] at h
      obtain ⟨p, -, low, -, n, -, h⟩ := h
      exact halfway h

/-- Puts a detached node into a gap, and leaves its order key to be assigned. -/
def attach (m : Module) (id : NodeId) (gap : Gap) : Except Fault Module := do
  let m ← m.linkAfter gap.block gap.prev (some id)
  let m ← m.linkBefore gap.block gap.next (some id)
  let len ← below limit64 ((← m.block gap.block).len + 1)
  let m ← m.modifyBlock gap.block ({ · with len })
  m.modifyNode id ({ · with parent := gap.block, prev := gap.prev, next := gap.next })

theorem link_eq (m : Module) (id : NodeId) (gap : Gap) :
    m.link id gap = m.attach id gap >>= fun m => m.assignOrder id gap := by
  simp only [link, attach, bind_assoc]

/-- Attaching a node changes its place, the neighbours on both sides of the gap, and the ends of the
block. -/
theorem attach_eq_ok {gap : Gap} (h : m.attach id gap = .ok m') :
    Relinks m m' ∧
    (∀ j, m'.node? j = (m.node? j).map fun n => { n with
      parent := if id = j then gap.block else n.parent
      prev := if id = j then gap.prev else if gap.next = some j then some id else n.prev
      next := if id = j then gap.next else if gap.prev = some j then some id else n.next }) ∧
    ∀ c, m'.block? c = (m.block? c).map fun x => { x with
      first := if gap.prev = none ∧ gap.block = c then some id else x.first
      last := if gap.next = none ∧ gap.block = c then some id else x.last
      len := if gap.block = c then x.len + 1 else x.len } := by
  simp only [attach, bind_eq_ok_iff, block_eq_ok_iff, below_eq_ok_iff] at h
  obtain ⟨m₁, h₁, m₂, h₂, blk, hblk, len, ⟨-, rfl⟩, m₃, h₃, h₄⟩ := h
  have h₁ := linkAfter_eq_ok h₁
  have h₂ := linkBefore_eq_ok h₂
  have h₃ := LinksTo.of_modifyBlock (f := fun x => x) (g := fun x => x)
    (s := fun _ => blk.len + 1) h₃
  have hends := (h₁.trans h₂).trans h₃
  have hmove := Relinks.of_modifyNode h₄
  obtain ⟨nodes, rfl, -, hget⟩ := modifyNode_eq_ok h₄
  refine ⟨hends.relinks.trans hmove, fun j => ?_, fun c => ?_⟩
  · rw [hget j, hends.node j]
    by_cases hij : id = j
    · simp [hij, Function.comp_def]
    · simp [hij]
  · change m₃.block? c = _
    rw [hends.block c]
    by_cases hbc : gap.block = c
    · have hold := (h₁.trans h₂).block gap.block
      rw [hblk] at hold
      obtain ⟨x, hx, hblk'⟩ := Option.map_eq_some_iff.1 hold.symm
      subst hbc hblk'
      simp [hx]
    · simp [hbc]

/-- Putting a detached node into a gap changes its place, the neighbours on both sides of the gap,
and the ends of the block, and may change order keys. -/
theorem link_eq_ok {gap : Gap} (h : m.link id gap = .ok m') :
    Relinks m m' ∧
    (∀ j, ∃ order : Node → Nat, m'.node? j = (m.node? j).map fun n => { n with
      parent := if id = j then gap.block else n.parent
      prev := if id = j then gap.prev else if gap.next = some j then some id else n.prev
      next := if id = j then gap.next else if gap.prev = some j then some id else n.next
      order := order n }) ∧
    ∀ c, m'.block? c = (m.block? c).map fun x => { x with
      first := if gap.prev = none ∧ gap.block = c then some id else x.first
      last := if gap.next = none ∧ gap.block = c then some id else x.last
      len := if gap.block = c then x.len + 1 else x.len } := by
  rw [link_eq, bind_eq_ok_iff] at h
  obtain ⟨m₁, h₁, h₂⟩ := h
  obtain ⟨hrelinks, hnode, hblock⟩ := attach_eq_ok h₁
  have horder := assignOrder_eq_ok h₂
  refine ⟨hrelinks.trans horder.relinks, fun j => ?_, fun c => by rw [horder.block c, hblock c]⟩
  obtain ⟨order, hj⟩ := horder.node j
  refine ⟨fun n => order { n with
    parent := if id = j then gap.block else n.parent
    prev := if id = j then gap.prev else if gap.next = some j then some id else n.prev
    next := if id = j then gap.next else if gap.prev = some j then some id else n.next }, ?_⟩
  rw [hj, hnode j, Option.map_map]
  rfl

end Module

namespace Linked

variable {m m' : Module} {lists : BlockId → List NodeId} {loose : Option NodeId} {id : NodeId}
  {nd : Node}

/-- A module with the same links realizes the same lists. -/
theorem congr (h : Linked m lists loose)
    (hnode : ∀ j, (m'.node? j).map Node.links = (m.node? j).map Node.links)
    (hblock : ∀ b, m'.block? b = m.block? b) : Linked m' lists loose := by
  have hold : ∀ {j n'}, m'.node? j = some n' → ∃ n, m.node? j = some n ∧ n.links = n'.links := by
    intro j n' hj
    have hlinks := hnode j
    rw [hj] at hlinks
    exact Option.map_eq_some_iff.1 hlinks.symm
  have hnew : ∀ {j n}, m.node? j = some n → ∃ n', m'.node? j = some n' ∧ n'.links = n.links := by
    intro j n hj
    have hlinks := hnode j
    rw [hj] at hlinks
    exact Option.map_eq_some_iff.1 hlinks
  refine ⟨?_, ?_, ?_, h.nodup, ?_, ?_, ?_⟩
  · intro b blk hb
    exact h.first (hblock b ▸ hb)
  · intro b blk hb
    exact h.last (hblock b ▸ hb)
  · intro b blk hb
    exact h.len (hblock b ▸ hb)
  · intro b j
    rw [h.mem_iff]
    refine and_congr_right fun _ => ⟨?_, ?_⟩
    · rintro ⟨n, hn, he, hp⟩
      obtain ⟨n', hn', hlinks⟩ := hnew hn
      simp only [Node.links, Prod.mk.injEq] at hlinks
      exact ⟨n', hn', hlinks.2.2.2.trans he, hlinks.2.2.1.trans hp⟩
    · rintro ⟨n', hn', he, hp⟩
      obtain ⟨n, hn, hlinks⟩ := hold hn'
      simp only [Node.links, Prod.mk.injEq] at hlinks
      exact ⟨n, hn, hlinks.2.2.2.trans he, hlinks.2.2.1.trans hp⟩
  · intro b l x r n' hl hx
    obtain ⟨n, hn, hlinks⟩ := hold hx
    simp only [Node.links, Prod.mk.injEq] at hlinks
    obtain ⟨hprev, hnext⟩ := h.link hl hn
    exact ⟨hlinks.1 ▸ hprev, hlinks.2.1 ▸ hnext⟩
  · intro j n' hj he
    obtain ⟨n, hn, hlinks⟩ := hold hj
    simp only [Node.links, Prod.mk.injEq] at hlinks
    rw [hblock, ← hlinks.2.2.1]
    exact h.home hn (hlinks.2.2.2.trans he)

/-- Order keys have no part in the links. -/
theorem reorders (h : Linked m lists loose) (ho : m.Reorders m') : Linked m' lists loose :=
  h.congr (fun j => by
    obtain ⟨order, hj⟩ := ho.node j
    rw [hj, Option.map_map]
    rfl) ho.block

theorem mem (h : Linked m lists none) (hid : m.node? id = some nd) (he : nd.erased = false) :
    id ∈ lists nd.parent :=
  h.mem_iff.2 ⟨by simp, nd, hid, he, rfl⟩

/-- A node is in one list only. -/
theorem parent_eq (h : Linked m lists loose) {b : BlockId} (hid : m.node? id = some nd)
    (hmem : id ∈ lists b) : nd.parent = b := by
  obtain ⟨-, nd', hid', -, hp⟩ := h.mem_iff.1 hmem
  obtain rfl : nd = nd' := by simpa [hid] using hid'
  exact hp

theorem exists_node (h : Linked m lists loose) {b : BlockId} (hmem : id ∈ lists b) :
    ∃ nd, m.node? id = some nd ∧ nd.erased = false ∧ nd.parent = b :=
  (h.mem_iff.1 hmem).2

/-- A node in the list of another block is no neighbour of a node. -/
theorem not_neighbour (h : Linked m lists none) (hid : m.node? id = some nd)
    (he : nd.erased = false) {c : BlockId} {x : NodeId} (hx : x ∈ lists c) (hc : c ≠ nd.parent) :
    nd.prev ≠ some x ∧ nd.next ≠ some x ∧ id ≠ x := by
  obtain ⟨l, r, hl⟩ := List.append_of_mem (h.mem hid he)
  obtain ⟨hprev, hnext⟩ := h.link hl hid
  have hx' : x ∉ l ++ id :: r := fun hm => by
    obtain ⟨nd', hnd', -, rfl⟩ := h.exists_node hx
    exact hc (h.parent_eq hnd' (hl ▸ hm))
  refine ⟨fun hp => hx' ?_, fun hn => hx' ?_, fun hi => hx' (by simp [hi])⟩
  · exact List.mem_append_left _ (List.mem_of_getLast? (hprev ▸ hp))
  · exact List.mem_append_right _ (List.mem_cons_of_mem _ (List.mem_of_head? (hnext ▸ hn)))

/-- Lists that the ends of the blocks and the neighbours of the nodes agree with. -/
theorem of_chained (hagrees : ∀ {b blk}, m.block? b = some blk → blk.Agrees (lists b))
    (hnodup : ∀ b, (lists b).Nodup)
    (hmem : ∀ {b n}, n ∈ lists b ↔
      loose ≠ some n ∧ ∃ nd, m.node? n = some nd ∧ nd.erased = false ∧ nd.parent = b)
    (hchained : ∀ b, Chained m.prevOf m.nextOf none (lists b) none)
    (hhome : ∀ {n nd}, m.node? n = some nd → nd.erased = false →
      ∃ blk, m.block? nd.parent = some blk) : Linked m lists loose where
  first hb := (hagrees hb).first
  last hb := (hagrees hb).last
  len hb := (hagrees hb).len
  nodup := hnodup
  mem_iff := hmem
  link {b l x r nd} hl hx := by
    have hneighbours := (hl ▸ hchained b).neighbours
    simpa [Module.prevOf, Module.nextOf, hx] using hneighbours
  home := hhome

theorem chained (h : Linked m lists loose) (b : BlockId) :
    Chained m.prevOf m.nextOf none (lists b) none :=
  .of_neighbours fun l₁ x l₂ hl => by
    obtain ⟨nd, hx, -⟩ := h.exists_node (show x ∈ lists b by simp [hl])
    simpa [Module.prevOf, Module.nextOf, hx] using h.link hl hx

section

variable {l r : List NodeId} {b : BlockId}

theorem agrees (h : Linked m lists loose) {blk : Block} (hb : m.block? b = some blk) :
    blk.Agrees (lists b) := ⟨h.first hb, h.last hb, h.len hb⟩

theorem agrees_detach (h : Linked m lists none) (hid : m.node? id = some nd)
    (hl : lists nd.parent = l ++ id :: r) (hd : m.detach id = .ok m') {blk : Block}
    (hb : m'.block? b = some blk) : blk.Agrees (Function.update lists nd.parent (l ++ r) b) := by
  obtain ⟨hprev, hnext⟩ := h.link hl hid
  rw [(Module.detach_eq_ok hid hd).block] at hb
  obtain ⟨x, hx, rfl⟩ := Option.map_eq_some_iff.1 hb
  obtain ⟨hfirst, hlast, hlen⟩ := h.agrees hx
  by_cases hbp : b = nd.parent
  · subst hbp
    rw [hl] at hfirst hlast hlen
    constructor
    · cases l <;> simp [hprev, hnext, hfirst]
    · cases r <;> simp [hprev, hnext, hlast]
    · simp [hlen]
  · constructor <;> simp [Ne.symm hbp, Function.update_of_ne hbp, hfirst, hlast, hlen]

/-- The nodes next to one that is taken out become neighbours of each other. -/
theorem chained_detach (h : Linked m lists none) (hid : m.node? id = some nd)
    (he : nd.erased = false) (hl : lists nd.parent = l ++ id :: r) (hd : m.detach id = .ok m')
    (b : BlockId) :
    Chained m'.prevOf m'.nextOf none (Function.update lists nd.parent (l ++ r) b) none := by
  obtain ⟨hprev, hnext⟩ := h.link hl hid
  have hnode := (Module.detach_eq_ok hid hd).node
  by_cases hbp : b = nd.parent
  · subst hbp
    rw [Function.update_self]
    have hnd : (l ++ id :: r).Nodup := hl ▸ h.nodup nd.parent
    obtain ⟨hndl, hndr, hdis⟩ := List.nodup_append.1 hnd
    obtain ⟨hidr, hndr⟩ := List.nodup_cons.1 hndr
    have hidl : id ∉ l := fun hm => hdis id hm id List.mem_cons_self rfl
    have hold := h.chained nd.parent
    rw [hl] at hold
    obtain ⟨hleft, -, -, hright⟩ := Chained.append_iff.1 hold
    have hat : ∀ y ∈ l ++ id :: r, ∃ n, m.node? y = some n := fun y hy =>
      (h.exists_node (hl ▸ hy)).imp fun _ h => h.1
    refine Chained.append_iff.2 ⟨hleft.setLast hndl (fun y hy => ?_) fun y hy => ?_,
      hright.setHead hndr (fun y hy => ?_) fun y hy => ?_⟩ <;>
      obtain ⟨n, hn⟩ := hat y (by simp [hy])
    · have hout : r.head? ≠ some y := fun he =>
        hdis y hy y (List.mem_cons_of_mem _ (List.mem_of_head? he)) rfl
      have hne : id ≠ y := fun he => hidl (he ▸ hy)
      simp [Module.prevOf, hnode, hn, hne, hnext, hout]
    · have hne : id ≠ y := fun he => hidl (he ▸ hy)
      simp [Module.nextOf, hnode, hn, hne, hprev, hnext]
    · have hne : id ≠ y := fun he => hidr (he ▸ hy)
      simp [Module.prevOf, hnode, hn, hne, hprev, hnext]
    · have hout : l.getLast? ≠ some y := fun he =>
        hdis y (List.mem_of_getLast? he) y (List.mem_cons_of_mem _ hy) rfl
      have hne : id ≠ y := fun he => hidr (he ▸ hy)
      simp [Module.nextOf, hnode, hn, hne, hprev, hout]
  · rw [Function.update_of_ne hbp]
    refine (h.chained b).congr (fun y hy => ?_) fun y hy => ?_ <;>
      obtain ⟨h₁, h₂, h₃⟩ := h.not_neighbour hid he hy hbp <;>
      obtain ⟨n, hn, -⟩ := h.exists_node hy <;>
      simp [Module.prevOf, Module.nextOf, hnode, hn, h₁, h₂, h₃]

end

/-- Taking a node out of its block takes it out of the list. -/
theorem remove (h : Linked m lists none) (hid : m.node? id = some nd) (he : nd.erased = false)
    (hd : m.detach id = .ok m') :
    Linked m' (Function.update lists nd.parent ((lists nd.parent).erase id)) (some id) := by
  obtain ⟨l, r, hl⟩ := List.append_of_mem (h.mem hid he)
  have hnd : (l ++ id :: r).Nodup := hl ▸ h.nodup nd.parent
  obtain ⟨-, hndr, hdis⟩ := List.nodup_append.1 hnd
  obtain ⟨hidr, -⟩ := List.nodup_cons.1 hndr
  have hidl : id ∉ l := fun hm => hdis id hm id List.mem_cons_self rfl
  have herase : (lists nd.parent).erase id = l ++ r := by
    rw [hl, List.erase_append_right _ hidl, List.erase_cons_head]
  obtain ⟨-, hnode, hblock⟩ := Module.detach_eq_ok hid hd
  rw [herase]
  refine .of_chained (h.agrees_detach hid hl hd) ?_ ?_ (h.chained_detach hid he hl hd) ?_
  · intro b
    by_cases hbp : b = nd.parent
    · subst hbp
      rw [Function.update_self]
      exact hnd.sublist (List.Sublist.append_left (List.sublist_cons_self _ _) _)
    · rw [Function.update_of_ne hbp]
      exact h.nodup b
  · intro b n
    have hkeep : (∃ x, m'.node? n = some x ∧ x.erased = false ∧ x.parent = b) ↔
        ∃ x, m.node? n = some x ∧ x.erased = false ∧ x.parent = b := by
      rw [hnode]
      cases m.node? n <;> simp
    have hmem : n ∈ lists b ↔ _ := h.mem_iff
    rw [hkeep]
    simp only [ne_eq, reduceCtorEq, not_false_eq_true, true_and] at hmem
    rw [← hmem]
    by_cases hbp : b = nd.parent
    · subst hbp
      rw [Function.update_self, hl]
      simp only [List.mem_append, List.mem_cons]
      constructor
      · rintro (hn | hn)
        · exact ⟨fun hi => hidl (Option.some.inj hi ▸ hn), Or.inl hn⟩
        · exact ⟨fun hi => hidr (Option.some.inj hi ▸ hn), Or.inr (Or.inr hn)⟩
      · rintro ⟨hi, hn | hn | hn⟩
        · exact Or.inl hn
        · exact absurd (congrArg some hn.symm) hi
        · exact Or.inr hn
    · rw [Function.update_of_ne hbp]
      constructor
      · exact fun hm => ⟨fun hi => (h.not_neighbour hid he hm hbp).2.2 (Option.some.inj hi), hm⟩
      · exact fun hm => hm.2
  · intro n nd' hn hne
    rw [hnode] at hn
    obtain ⟨x, hx, rfl⟩ := Option.map_eq_some_iff.1 hn
    obtain ⟨blk, hblk⟩ := h.home hx hne
    exact ⟨_, by rw [hblock, hblk]; rfl⟩

section

variable {gap : Gap} {l r : List NodeId} {b : BlockId} (h : Linked m lists (some id))
  (hl : lists gap.block = l ++ r) (hp : gap.prev = l.getLast?) (hn : gap.next = r.head?)
  (hd : m.attach id gap = .ok m')

include h in
theorem ne_of_mem {y : NodeId} (hy : y ∈ lists b) : id ≠ y := by
  rintro rfl
  exact (h.mem_iff.1 hy).1 rfl

include h hl hp hn hd

theorem agrees_attach {blk : Block} (hb : m'.block? b = some blk) :
    blk.Agrees (Function.update lists gap.block (l ++ id :: r) b) := by
  obtain ⟨-, -, hblock⟩ := Module.attach_eq_ok hd
  rw [hblock] at hb
  obtain ⟨x, hx, rfl⟩ := Option.map_eq_some_iff.1 hb
  obtain ⟨hfirst, hlast, hlen⟩ := h.agrees hx
  by_cases hbp : b = gap.block
  · subst hbp
    rw [hl] at hfirst hlast hlen
    constructor
    · cases l <;> simp [hp, hfirst]
    · cases r <;> simp [hn, hlast]
    · simp [hlen, Nat.add_assoc]
  · constructor <;> simp [Ne.symm hbp, Function.update_of_ne hbp, hfirst, hlast, hlen]

/-- The nodes on both sides of a gap become neighbours of the one that is put there. -/
theorem chained_attach (hid : m.node? id = some nd) (b : BlockId) :
    Chained m'.prevOf m'.nextOf none (Function.update lists gap.block (l ++ id :: r) b) none := by
  obtain ⟨-, hnode, -⟩ := Module.attach_eq_ok hd
  by_cases hbp : b = gap.block
  · subst hbp
    rw [Function.update_self]
    obtain ⟨hndl, hndr, hdis⟩ := List.nodup_append.1 (hl ▸ h.nodup gap.block)
    have hold := h.chained gap.block
    rw [hl] at hold
    obtain ⟨hleft, hright⟩ := Chained.append_iff.1 hold
    have hat : ∀ y ∈ l ++ r, id ≠ y ∧ ∃ n, m.node? y = some n := fun y hy =>
      ⟨h.ne_of_mem (hl ▸ hy), (h.exists_node (hl ▸ hy)).imp fun _ h => h.1⟩
    refine Chained.append_iff.2 ⟨hleft.setLast hndl (fun y hy => ?_) fun y hy => ?_, ?_, ?_,
      hright.setHead hndr (fun y hy => ?_) fun y hy => ?_⟩
    · obtain ⟨hne, n, hy'⟩ := hat y (by simp [hy])
      have hout : r.head? ≠ some y := fun he => hdis y hy y (List.mem_of_head? he) rfl
      simp [Module.prevOf, hnode, hy', hne, hn, hout]
    · obtain ⟨hne, n, hy'⟩ := hat y (by simp [hy])
      simp [Module.nextOf, hnode, hy', hne, hp]
    · simp [Module.prevOf, hnode, hid, hp]
    · simp [Module.nextOf, hnode, hid, hn]
    · obtain ⟨hne, n, hy'⟩ := hat y (by simp [hy])
      simp [Module.prevOf, hnode, hy', hne, hn]
    · obtain ⟨hne, n, hy'⟩ := hat y (by simp [hy])
      have hout : l.getLast? ≠ some y := fun he => hdis y (List.mem_of_getLast? he) y hy rfl
      simp [Module.nextOf, hnode, hy', hne, hp, hout]
  · rw [Function.update_of_ne hbp]
    have hout : ∀ y ∈ lists b, y ∉ l ++ r := fun y hy hm => by
      obtain ⟨n, hy', -, rfl⟩ := h.exists_node hy
      exact hbp (h.parent_eq hy' (hl ▸ hm))
    refine (h.chained b).congr (fun y hy => ?_) fun y hy => ?_ <;>
      obtain ⟨n, hy', -⟩ := h.exists_node hy
    · have hnext : gap.next ≠ some y := fun he =>
        hout y hy (List.mem_append_right _ (List.mem_of_head? (hn ▸ he)))
      simp [Module.prevOf, hnode, hy', h.ne_of_mem hy, hnext]
    · have hprev : gap.prev ≠ some y := fun he =>
        hout y hy (List.mem_append_left _ (List.mem_of_getLast? (hp ▸ he)))
      simp [Module.nextOf, hnode, hy', h.ne_of_mem hy, hprev]

end

/-- Putting a loose node into a gap puts it into the list. -/
theorem attach {gap : Gap} {l r : List NodeId} (h : Linked m lists (some id))
    (hid : m.node? id = some nd) (he : nd.erased = false) (hl : lists gap.block = l ++ r)
    (hp : gap.prev = l.getLast?) (hn : gap.next = r.head?)
    (hblk : ∃ blk, m.block? gap.block = some blk) (hd : m.attach id gap = .ok m') :
    Linked m' (Function.update lists gap.block (l ++ id :: r)) none := by
  obtain ⟨-, hnode, hblock⟩ := Module.attach_eq_ok hd
  refine .of_chained (h.agrees_attach hl hp hn hd) ?_ ?_ (h.chained_attach hl hp hn hd hid) ?_
  · intro b
    by_cases hbp : b = gap.block
    · subst hbp
      rw [Function.update_self, List.nodup_middle]
      exact List.nodup_cons.2 ⟨fun hm => h.ne_of_mem (hl ▸ hm) rfl, hl ▸ h.nodup gap.block⟩
    · rw [Function.update_of_ne hbp]
      exact h.nodup b
  · intro b n
    have hmem : n ∈ lists b ↔ _ := h.mem_iff
    simp only [ne_eq, reduceCtorEq, not_false_eq_true, true_and]
    rw [hnode]
    by_cases hin : id = n
    · subst hin
      by_cases hbp : b = gap.block
      · subst hbp
        simp [hid, he]
      · have hnot : id ∉ lists b := fun hm => h.ne_of_mem hm rfl
        rw [Function.update_of_ne hbp]
        simp [hid, hnot, Ne.symm hbp]
    · have hkeep : n ∈ Function.update lists gap.block (l ++ id :: r) b ↔ n ∈ lists b := by
        by_cases hbp : b = gap.block
        · subst hbp
          simp [hl, Ne.symm hin]
        · rw [Function.update_of_ne hbp]
      rw [hkeep, hmem]
      cases m.node? n <;> simp [hin]
  · intro n nd' hn' hne
    rw [hnode] at hn'
    obtain ⟨x, hx, rfl⟩ := Option.map_eq_some_iff.1 hn'
    by_cases hin : id = n
    · obtain ⟨blk, hblk⟩ := hblk
      exact ⟨_, by simp only [hin, if_true]; rw [hblock, hblk]; rfl⟩
    · obtain ⟨blk, hblk⟩ := h.home hx hne
      exact ⟨_, by simp only [hin, if_false]; rw [hblock, hblk]; rfl⟩

/-- So does putting it there with an order key. -/
theorem insert {gap : Gap} {l r : List NodeId} (h : Linked m lists (some id))
    (hid : m.node? id = some nd) (he : nd.erased = false) (hl : lists gap.block = l ++ r)
    (hp : gap.prev = l.getLast?) (hn : gap.next = r.head?)
    (hblk : ∃ blk, m.block? gap.block = some blk) (hd : m.link id gap = .ok m') :
    Linked m' (Function.update lists gap.block (l ++ id :: r)) none := by
  rw [Module.link_eq, bind_eq_ok_iff] at hd
  obtain ⟨m₁, h₁, h₂⟩ := hd
  exact (h.attach hid he hl hp hn hblk h₁).reorders (Module.assignOrder_eq_ok h₂)

/-- A walk from a node of a list meets the rest of the list. -/
theorem take_eq (h : Linked m lists none) {b : BlockId} {l r : List NodeId} (hb : lists b = l ++ r)
    (back : Option NodeId) :
    BlockCursor.take m r.length ⟨r.head?, back, r.length⟩ = .ok r := by
  induction r generalizing l with
  | nil => rfl
  | cons x r ih =>
    obtain ⟨nd, hx, -, -⟩ := h.exists_node (show x ∈ lists b by simp [hb])
    obtain ⟨-, hnext⟩ := h.link hb hx
    have hrest := ih (l := l ++ [x]) (by simp [hb])
    have hnode : m.node x = .ok nd := by simpa using hx
    simp only [List.length_cons, List.head?_cons, BlockCursor.take, BlockCursor.next?, hnode]
    change (BlockCursor.take m r.length ⟨nd.next, back, r.length⟩).bind _ = _
    rw [hnext, hrest]
    rfl

theorem blockNodes_eq (h : Linked m lists none) {b : BlockId} {blk : Block}
    (hb : m.block? b = some blk) : m.blockNodes b = .ok (lists b) := by
  have hblock : m.block b = .ok blk := by simpa using hb
  have htake := h.take_eq (b := b) (l := []) rfl blk.last
  unfold Module.blockNodes Module.cursor
  rw [hblock]
  simpa [h.first hb, h.len hb, bind, Except.bind, pure, Except.pure] using htake

end Linked

/-- The nodes of a block in order; none if there is no such block. -/
def Module.nodesOf (m : Module) (b : BlockId) : List NodeId := (m.blockNodes b).toOption.getD []

theorem Linked.nodesOf_eq {m : Module} {lists : BlockId → List NodeId} (h : Linked m lists none) :
    m.nodesOf = lists := by
  funext b
  cases hb : m.block? b with
  | some blk =>
    rw [Module.nodesOf, h.blockNodes_eq hb]
    rfl
  | none =>
    have hnone : lists b = [] := by
      rw [List.eq_nil_iff_forall_not_mem]
      intro x hx
      obtain ⟨nd, hnd, hne, rfl⟩ := h.exists_node hx
      obtain ⟨blk, hblk⟩ := h.home hnd hne
      simp [hb] at hblk
    have herr : m.block b = .error (.noBlock b) := by
      unfold Module.block
      unfold Module.block? at hb
      rw [hb]
    rw [hnone, Module.nodesOf, Module.blockNodes, Module.cursor, herr]
    rfl

end NetPrep
