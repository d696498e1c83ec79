import Mathlib
import NetPrep.Proofs.Checking
import NetPrep.Proofs.Traversal

/-!
# The order of the walk

The walk meets the blocks in the order of the recursion over the tree of blocks: a block, then, for one
of its nodes after the other, the regions of that node in order, each with everything that is nested in
it. The stack of the walk is a row of trees that are still to be gone through.
-/

namespace NetPrep.Module

variable {m : Module} {b : BlockId} {bs cs l l' : List BlockId} {fuel : Nat}

/-- The blocks of a row of trees in the order of the recursion. -/
inductive Preorder (m : Module) : List BlockId → List BlockId → Prop
  | nil : m.Preorder [] []
  | cons {b : BlockId} {bs inner rest : List BlockId} (hinner : m.Preorder (m.regionsIn b) inner)
      (hrest : m.Preorder bs rest) : m.Preorder (b :: bs) (b :: (inner ++ rest))

/-- There is one such order. -/
theorem Preorder.unique (h : m.Preorder bs l) (h' : m.Preorder bs l') : l = l' := by
  induction h generalizing l' with
  | nil =>
    cases h'
    rfl
  | cons _ _ ihinner ihrest =>
    cases h' with
    | cons hinner hrest => rw [ihinner hinner, ihrest hrest]

/-- A row is gone through from left to right. -/
theorem Preorder.exists_append (h : m.Preorder (bs ++ cs) l) :
    ∃ l₁ l₂, l = l₁ ++ l₂ ∧ m.Preorder bs l₁ ∧ m.Preorder cs l₂ := by
  induction bs generalizing l with
  | nil => exact ⟨[], l, rfl, .nil, h⟩
  | cons b bs ih =>
    cases h with
    | @cons _ _ inner rest hinner hrest =>
      obtain ⟨l₁, l₂, rfl, hbs, hcs⟩ := ih hrest
      exact ⟨b :: (inner ++ l₁), l₂, by simp, .cons hinner hbs, hcs⟩

/-- What holds of a block one level higher than it holds of all its regions, holds of the trees of a row
at as many levels as they have blocks. -/
theorem Preorder.forall_mem {P : Nat → BlockId → Prop}
    (hP : ∀ depth b, (∀ c ∈ m.regionsIn b, P depth c) → P (depth + 1) b) (h : m.Preorder bs l)
    {depth : Nat} (hdepth : l.length ≤ depth) : ∀ b ∈ bs, P depth b := by
  induction h generalizing depth with
  | nil => exact fun b hb => absurd hb List.not_mem_nil
  | cons _ _ ihinner ihrest =>
    simp only [List.length_cons, List.length_append] at hdepth
    obtain ⟨depth, rfl⟩ := Nat.exists_eq_add_one_of_ne_zero (by omega : depth ≠ 0)
    exact List.forall_mem_cons.2 ⟨hP depth _ (ihinner (by omega)), ihrest (by omega)⟩

/-- A block on the stack is in the module. -/
theorem exists_block_of_walkBlocks (h : m.walkBlocks (fuel + 1) (b :: bs) = .ok l) :
    ∃ blk, m.block? b = some blk := by
  rw [walkBlocks, bind_eq_ok_iff] at h
  obtain ⟨stack, hstack, -⟩ := h
  obtain ⟨ids, hids, -⟩ := bind_eq_ok_iff.1 hstack
  obtain ⟨blk, hblk, -⟩ := bind_eq_ok_iff.1 hids
  exact ⟨blk, block_eq_ok_iff.1 hblk⟩

/-- The walk goes through the stack as through a row of trees: putting the regions of a block on top
of the rest is going through its tree before the rest. -/
theorem preorder_of_walkBlocks (hw : WellFormed m) (h : m.walkBlocks fuel bs = .ok l) :
    m.Preorder bs l := by
  induction fuel generalizing bs l with
  | zero =>
    cases bs with
    | nil =>
      cases h
      exact .nil
    | cons b bs => cases h
  | succ fuel ih =>
    cases bs with
    | nil =>
      cases h
      exact .nil
    | cons b bs =>
      obtain ⟨blk, hblk⟩ := exists_block_of_walkBlocks h
      rw [walkBlocks_cons hw hblk, bind_eq_ok_iff] at h
      obtain ⟨r, hrun, hl⟩ := h
      obtain rfl := Except.ok.inj hl
      obtain ⟨inner, rest, rfl, hinner, hrest⟩ := (ih hrun).exists_append
      exact .cons hinner hrest

/-- The walk answers the blocks in the order of the recursion, each block that the body leads to once,
and the nodes block by block, each node that the body leads to once. -/
theorem blocksPreorder_exact (hw : WellFormed m) (hr : m.Rooted) :
    ∃ blocks ids, m.blocksPreorder = .ok blocks ∧ (∀ l, m.Preorder [m.body] l ↔ l = blocks) ∧
      blocks.Nodup ∧ (∀ b, b ∈ blocks ↔ m.Placed b) ∧
      m.liveNodes = .ok ids ∧ ids = blocks.flatMap m.nodesOf ∧
      ids.Nodup ∧ ∀ id, id ∈ ids ↔ m.InBody id := by
  obtain ⟨blocks, hblocks, hnodup, hplaced⟩ := hr.exists_blocksPreorder hw
  obtain ⟨hlive, hmem⟩ := hr.exists_liveNodes hw hblocks hplaced
  have horder : m.Preorder [m.body] blocks := preorder_of_walkBlocks hw hblocks
  refine ⟨blocks, blocks.flatMap m.nodesOf, hblocks, fun l => ⟨fun h => h.unique horder, ?_⟩, hnodup,
    fun b => (hplaced b).symm, hlive, rfl, nodup_flatMap_nodesOf hw hnodup, hmem⟩
  rintro rfl
  exact horder

/-- A conditional in the second branch of a conditional, and a process behind them. -/
def tiers : Module :=
  .sketch [.int 8] [(.input, 0), (.output, 0)]
    [(.back ⟨0⟩, .ifdef ⟨2⟩, [], []), (.back ⟨0⟩, .initial, [], []), (.back ⟨2⟩, .ifdef ⟨3⟩, [], []),
      (.back ⟨5⟩, .add, [0, 0], [0]), (.back ⟨1⟩, .add, [0, 0], [0]), (.back ⟨0⟩, .output, [2], [])]

theorem blocksPreorder_tiers : WellFormed tiers ∧ tiers.Rooted ∧
    tiers.Preorder [tiers.body] ([0, 1, 2, 4, 5, 3].map .mk) ∧
    tiers.liveNodes = .ok ([0, 1, 5, 4, 2, 3].map .mk) := by
  have hs : Sound tiers := sound_of_isSound (by decide +kernel)
  obtain ⟨blocks, ids, hblocks, horder, -⟩ :=
    blocksPreorder_exact hs.toWellFormed hs.toNested.rooted
  have hrun : tiers.blocksPreorder = .ok ([0, 1, 2, 4, 5, 3].map .mk) := by decide +kernel
  obtain rfl := Except.ok.inj (hrun.symm.trans hblocks)
  have hlive : tiers.liveNodes = .ok ([0, 1, 5, 4, 2, 3].map .mk) := by decide +kernel
  exact ⟨hs.toWellFormed, hs.toNested.rooted, (horder _).2 rfl, hlive⟩

end NetPrep.Module
