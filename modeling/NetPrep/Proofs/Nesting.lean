import Mathlib
import NetPrep.Proofs.Steps

/-!
# Nodes around nodes

Which node a node sits in, directly or at any depth, and what the walks outwards find: the node around
it that sits in a given block, the process around it, and the scope of declarations beside it.
-/

namespace NetPrep

namespace Module

variable {m m' m'' : Module} {a j id p : NodeId} {n na : Node} {b c : BlockId}

/-- How the nodes of a block are executed. -/
def kind? (m : Module) (b : BlockId) : Option RegionKind := (m.blockCore b).map (·.kind)

theorem Kept.kind? (h : m.Kept m') (b : BlockId) : m'.kind? b = m.kind? b := by
  rw [Module.kind?, h.blockCore, Module.kind?]

theorem kind?_of_block? {b : BlockId} {blk : Block} (h : m.block? b = some blk) :
    m.kind? b = some blk.kind := by
  simp [kind?, blockCore, h, Block.core]

/-- A node sits in a region of another one. -/
def OwnedBy (m : Module) (j a : NodeId) : Prop :=
  ∃ n na, m.live? j = some n ∧ m.live? a = some na ∧ n.parent ∈ na.regions

/-- A node that is another one or around it. -/
inductive Around (m : Module) (a : NodeId) : NodeId → Prop
  | self {n : Node} (hn : m.live? a = some n) : m.Around a a
  | up {j k : NodeId} (h : m.OwnedBy j k) (hrest : m.Around a k) : m.Around a j

/-- A node that is another one or around it and stands in a graph block, with nothing but procedural
blocks in between. -/
inductive Outermost (m : Module) (p : NodeId) : NodeId → Prop
  | self {n : Node} (hn : m.live? p = some n) (hk : m.kind? n.parent = some .graph) :
      m.Outermost p p
  | up {j k : NodeId} {n : Node} (hn : m.live? j = some n)
      (hk : m.kind? n.parent = some .procedural) (h : m.OwnedBy j k)
      (hrest : m.Outermost p k) : m.Outermost p j

/-- The process around a node. -/
def ProcessOf (m : Module) (id p : NodeId) : Prop := ∃ up, m.OwnedBy id up ∧ m.Outermost p up

theorem Around.live (h : m.Around a j) : ∃ n, m.live? a = some n := by
  induction h with
  | self hn => exact ⟨_, hn⟩
  | up _ _ ih => exact ih

theorem Around.trans (h : m.Around a j) (h' : m.Around p a) : m.Around p j := by
  induction h with
  | self => exact h'
  | up ho _ ih => exact .up ho ih

theorem OwnedBy.live (h : m.OwnedBy j a) : ∃ na, m.live? a = some na := by
  obtain ⟨_, na, _, hna, _⟩ := h
  exact ⟨na, hna⟩

theorem OwnedBy.regions (h : m.OwnedBy j a) : ∃ na, m.live? a = some na ∧ na.regions ≠ [] := by
  obtain ⟨_, na, _, hna, hmem⟩ := h
  exact ⟨na, hna, List.ne_nil_of_mem hmem⟩

theorem Around.of_ownedBy (h : m.OwnedBy j a) : m.Around a j := by
  obtain ⟨na, hna⟩ := h.live
  exact .up h (.self hna)

theorem Outermost.around (h : m.Outermost p j) : m.Around p j := by
  induction h with
  | self hn _ => exact .self hn
  | up _ _ ho _ ih => exact .up ho ih

theorem Outermost.graph (h : m.Outermost p j) :
    ∃ n, m.live? p = some n ∧ m.kind? n.parent = some .graph := by
  induction h with
  | self hn hk => exact ⟨_, hn, hk⟩
  | up _ _ _ _ ih => exact ih

end Module

namespace Sound

variable {m : Module} {a j id p up : NodeId} {n na : Node} {b : BlockId}

/-- The owner of a block of the tree has the block among its regions. -/
theorem exists_owner (hs : Sound m) (hb : m.Placed b) {blk : Block}
    (hblk : m.blockCore b = some blk) (ho : blk.parent = some a) :
    ∃ na, m.live? a = some na ∧ b ∈ na.regions := by
  cases hb with
  | body =>
    rw [hs.body] at hblk
    cases hblk
    cases ho
  | region hn hb _ =>
    obtain ⟨k, -, hblk'⟩ := hs.toNested.blockCore_of_mem hn hb
    rw [hblk'] at hblk
    cases hblk
    cases ho
    exact ⟨_, hn, hb⟩

/-- A block without an owner is the body, a graph block. -/
theorem graph_of_no_owner (hs : Sound m) (hb : m.Placed b) {blk : Block}
    (hblk : m.blockCore b = some blk) (ho : blk.parent = none) :
    b = m.body ∧ m.kind? b = some .graph := by
  cases hb with
  | body =>
    rw [hs.body] at hblk
    cases hblk
    exact ⟨rfl, by simp [Module.kind?, hs.body, Block.empty]⟩
  | region hn hb _ =>
    obtain ⟨k, -, hblk'⟩ := hs.toNested.blockCore_of_mem hn hb
    rw [hblk'] at hblk
    cases hblk
    cases ho

theorem ownedBy_of_parentNode? (hs : Sound m) (hn : m.live? id = some n)
    (h : m.parentNode? id = .ok (some a)) : m.OwnedBy id a := by
  obtain ⟨nd, hnd, -, rfl⟩ := Module.exists_of_live? hn
  simp only [Module.parentNode?, bind_eq_ok_iff, Module.node_eq_ok_iff,
    Module.block_eq_ok_iff] at h
  obtain ⟨nd', hnd', blk, hblk, hret⟩ := h
  obtain rfl : nd = nd' := by simpa using hnd.symm.trans hnd'
  have hcore : m.blockCore nd.parent = some blk.core := by simp [Module.blockCore, hblk]
  obtain ⟨na, hna, hmem⟩ := hs.exists_owner (hs.placed hn) hcore (Except.ok.inj hret)
  exact ⟨_, na, hn, hna, hmem⟩

theorem graph_of_parentNode?_none (hs : Sound m) (hn : m.live? id = some n)
    (h : m.parentNode? id = .ok none) : n.parent = m.body ∧ m.kind? n.parent = some .graph := by
  obtain ⟨nd, hnd, -, rfl⟩ := Module.exists_of_live? hn
  simp only [Module.parentNode?, bind_eq_ok_iff, Module.node_eq_ok_iff,
    Module.block_eq_ok_iff] at h
  obtain ⟨nd', hnd', blk, hblk, hret⟩ := h
  obtain rfl : nd = nd' := by simpa using hnd.symm.trans hnd'
  have hcore : m.blockCore nd.parent = some blk.core := by simp [Module.blockCore, hblk]
  exact hs.graph_of_no_owner (hs.placed hn) hcore (Except.ok.inj hret)

/-- A block has one owner. -/
theorem ownedBy_unique {a' : NodeId} (hs : Sound m) (h : m.OwnedBy j a) (h' : m.OwnedBy j a') :
    a = a' := by
  obtain ⟨n, na, hn, hna, hmem⟩ := h
  obtain ⟨n', na', hn', hna', hmem'⟩ := h'
  obtain rfl := Option.some.inj (hn.symm.trans hn')
  obtain ⟨k, -, hblk⟩ := hs.toNested.blockCore_of_mem hna hmem
  obtain ⟨k', -, hblk'⟩ := hs.toNested.blockCore_of_mem hna' hmem'
  rw [hblk] at hblk'
  cases hblk'
  rfl

/-- No node is around its owner: the blocks form a tree. -/
theorem not_around_owner (hs : Sound m) (h : m.OwnedBy j a) : ¬ m.Around j a := by
  obtain ⟨n, hn⟩ : ∃ n, m.live? j = some n := by
    obtain ⟨n, _, hn, -⟩ := h
    exact ⟨n, hn⟩
  -- Induction on the way from the block of the node to the body.
  have hplaced := hs.placed hn
  generalize hb : n.parent = b at hplaced
  induction hplaced generalizing j a n with
  | body =>
    obtain ⟨n', na, hn', hna, hmem⟩ := h
    obtain rfl := Option.some.inj (hn.symm.trans hn')
    obtain ⟨k, -, hblk⟩ := hs.toNested.blockCore_of_mem hna hmem
    rw [hb, hs.body] at hblk
    cases hblk
  | @region id nid b hnid hmem _ ih =>
    have ho : m.OwnedBy j id := ⟨n, nid, hn, hnid, hb ▸ hmem⟩
    obtain rfl := hs.ownedBy_unique ho h
    intro haround
    cases haround with
    | self => exact ih h nid hnid rfl (.self hnid)
    | up ho' hrest => exact ih ho' nid hnid rfl (hrest.trans (.of_ownedBy h))

theorem inProcedural_eq_ok (hn : m.live? id = some n) {r : Bool}
    (h : m.inProcedural id = .ok r) :
    ∃ k, m.kind? n.parent = some k ∧ (r = true ↔ k = .procedural) := by
  obtain ⟨nd, hnd, -, rfl⟩ := Module.exists_of_live? hn
  simp only [Module.inProcedural, bind_eq_ok_iff, Module.node_eq_ok_iff,
    Module.block_eq_ok_iff] at h
  obtain ⟨nd', hnd', blk, hblk, hret⟩ := h
  obtain rfl : nd = nd' := by simpa using hnd.symm.trans hnd'
  refine ⟨blk.kind, Module.kind?_of_block? hblk, ?_⟩
  rw [← Except.ok.inj hret]
  simp [Block.isProcedural]

theorem outermostWithin_eq_ok (hs : Sound m) {fuel : Nat} (hn : m.live? j = some n)
    (h : m.outermostWithin fuel j = .ok p) : m.Outermost p j := by
  induction fuel generalizing j n with
  | zero => cases h
  | succ fuel ih =>
    rw [Module.outermostWithin, bind_eq_ok_iff] at h
    obtain ⟨r, hr, h⟩ := h
    obtain ⟨k, hk, hrk⟩ := inProcedural_eq_ok hn hr
    cases r with
    | false =>
      cases h
      have hk' : k = .graph := by
        cases k with
        | graph => rfl
        | procedural => simp at hrk
      exact .self hn (hk' ▸ hk)
    | true =>
      obtain rfl := hrk.1 rfl
      simp only [if_true, bind_eq_ok_iff] at h
      obtain ⟨up, hup, h⟩ := h
      cases up with
      | none =>
        rw [(hs.graph_of_parentNode?_none hn hup).2] at hk
        cases hk
      | some up =>
        have ho := hs.ownedBy_of_parentNode? hn hup
        obtain ⟨nup, hnup⟩ := ho.live
        exact .up hn hk ho (ih hnup h)

/-- The process around a node that is found. -/
theorem enclosingProcess?_eq_ok (hs : Sound m) (hn : m.live? id = some n)
    (h : m.enclosingProcess? id = .ok (some p)) : m.ProcessOf id p := by
  rw [Module.enclosingProcess?, bind_eq_ok_iff] at h
  obtain ⟨up, hup, h⟩ := h
  cases up with
  | none => cases h
  | some up =>
    simp only [bind_eq_ok_iff] at h
    obtain ⟨p', hp', h⟩ := h
    cases h
    have ho := hs.ownedBy_of_parentNode? hn hup
    obtain ⟨nup, hnup⟩ := ho.live
    exact ⟨up, ho, hs.outermostWithin_eq_ok hnup hp'⟩

/-- The node around a node that stands in a block is found, and there is at most one. -/
theorem ancestorWithin_eq_ok (hs : Sound m) {fuel : Nat} {r : Option NodeId}
    (hn : m.live? j = some n) (h : m.ancestorWithin b fuel j = .ok r) :
    r = some a ↔ m.Around a j ∧ a ∈ m.nodesOf b := by
  induction fuel generalizing j n with
  | zero => cases h
  | succ fuel ih =>
    obtain ⟨nd, hnd, -, rfl⟩ := Module.exists_of_live? hn
    simp only [Module.ancestorWithin, bind_eq_ok_iff, Module.node_eq_ok_iff] at h
    obtain ⟨nd', hnd', h⟩ := h
    obtain rfl : nd = nd' := by simpa using hnd.symm.trans hnd'
    split at h
    · next hp =>
      obtain rfl : some j = r := Except.ok.inj h
      rw [Option.some.injEq]
      constructor
      · rintro rfl
        exact ⟨.self hn, hs.toWellFormed.mem_nodesOf_iff.2 ⟨_, hn, hp⟩⟩
      · rintro ⟨haround, hmem⟩
        cases haround with
        | self => rfl
        | @up _ k ho hrest =>
          -- Two nodes of one block have the same owner.
          obtain ⟨na, hna, hpa⟩ := hs.toWellFormed.mem_nodesOf_iff.1 hmem
          obtain ⟨n', nk, hn', hnk, hk⟩ := ho
          obtain rfl := Option.some.inj (hn.symm.trans hn')
          have hpn : nd.core.parent = b := hp
          exact absurd hrest (hs.not_around_owner ⟨na, nk, hna, hnk, hpa ▸ hpn ▸ hk⟩)
    · next hp =>
      have hnot : j ∉ m.nodesOf b := fun hmem => by
        obtain ⟨n', hn', hp'⟩ := hs.toWellFormed.mem_nodesOf_iff.1 hmem
        obtain rfl := Option.some.inj (hn.symm.trans hn')
        exact hp hp'
      obtain ⟨up, hup, h⟩ := bind_eq_ok_iff.1 h
      cases up with
      | none =>
        cases h
        simp only [reduceCtorEq, false_iff, not_and]
        intro haround hmem
        cases haround with
        | self => exact hnot hmem
        | up ho _ =>
          obtain ⟨n', nk, hn', hnk, hk⟩ := ho
          obtain rfl := Option.some.inj (hn.symm.trans hn')
          obtain ⟨k, -, hblk⟩ := hs.toNested.blockCore_of_mem hnk hk
          rw [(hs.graph_of_parentNode?_none hn hup).1, hs.body] at hblk
          cases hblk
      | some up =>
        have ho := hs.ownedBy_of_parentNode? hn hup
        obtain ⟨nup, hnup⟩ := ho.live
        rw [ih hnup h]
        constructor
        · rintro ⟨haround, hmem⟩
          exact ⟨.up ho haround, hmem⟩
        · rintro ⟨haround, hmem⟩
          cases haround with
          | self => exact absurd hmem hnot
          | up ho' hrest => exact ⟨hs.ownedBy_unique ho' ho ▸ hrest, hmem⟩

/-- The scope of declarations is a block of the tree. -/
theorem placed_of_scopeWithin (hs : Sound m) {fuel : Nat} (hn : m.live? j = some n)
    (h : m.scopeWithin fuel j = .ok b) : m.Placed b := by
  induction fuel generalizing j n with
  | zero => cases h
  | succ fuel ih =>
    obtain ⟨nd, hnd, -, rfl⟩ := Module.exists_of_live? hn
    have hret : (do return (← m.node j).parent : Except Fault BlockId) = .ok b → m.Placed b := by
      intro h
      simp only [bind_eq_ok_iff, Module.node_eq_ok_iff] at h
      obtain ⟨nd', hnd', h⟩ := h
      obtain rfl : nd = nd' := by simpa using hnd.symm.trans hnd'
      exact Except.ok.inj h ▸ hs.placed (n := nd.core) hn
    rw [Module.scopeWithin, bind_eq_ok_iff] at h
    obtain ⟨up, hup, h⟩ := h
    cases up with
    | none => exact hret h
    | some up =>
      simp only [bind_eq_ok_iff, Module.node_eq_ok_iff] at h
      obtain ⟨nup, hnup, h⟩ := h
      split at h
      · obtain ⟨nup', hnup'⟩ := (hs.ownedBy_of_parentNode? hn hup).live
        exact ih hnup' h
      · exact hret (by simpa only [bind_eq_ok_iff, Module.node_eq_ok_iff] using h)

/-- A node without regions moves before one with regions. -/
theorem moveBefore (hs : Sound m) {m' : Module} (hn : m.live? id = some n) (hreg : n.regions = [])
    (ha : m.live? a = some na) (hne : na.regions ≠ []) (h : m.moveNode id (.before a) = .ok m') :
    m.Moves m' na.parent (.before a) id ∧ Sound m' := by
  have hanchor : a ≠ id := by
    rintro rfl
    rw [hn] at ha
    cases ha
    exact hne hreg
  exact hs.moveNode hn hreg (hs.in_before ha) (hs.placed ha) (by simpa using hanchor) (by simp) h

end Sound

namespace Prep

open Prepare

variable {env : Env} {s s' : State} {id p : NodeId} {n : Node} {b : BlockId}

theorem block_isProcedural_iff {m : Module} {b : BlockId} {blk : Block}
    (h : m.block? b = some blk) : blk.isProcedural = true ↔ m.kind? b = some .procedural := by
  rw [Module.kind?_of_block? h]
  simp [Block.isProcedural]

theorem enclosingProcess_runs (hs : Sound s.module) (hn : s.module.live? id = some n)
    (h : (enclosingProcess id).Runs env s p s') : s = s' ∧ s.module.ProcessOf id p := by
  simp only [enclosingProcess, runs_bind, runs_query] at h
  obtain ⟨q, _, ⟨hq, rfl⟩, h⟩ := h
  cases q with
  | none =>
    simp only [runs_bind, runs_moduleName] at h
    obtain ⟨_, _, -, h⟩ := h
    exact absurd h runs_fail
  | some q =>
    obtain ⟨rfl, rfl⟩ := runs_pure.1 h
    exact ⟨rfl, hs.enclosingProcess?_eq_ok hn hq⟩

end Prep

end NetPrep
