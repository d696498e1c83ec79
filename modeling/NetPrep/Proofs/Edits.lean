import Mathlib
import NetPrep.Proofs.Steps

/-!
# Edits that leave the tree of blocks

Preparation makes, moves and erases nodes without regions only. So the nodes with regions stay where
they are, and the blocks are nested as before. No node changes its operation.
-/

namespace NetPrep

namespace Module

variable {m m' m'' : Module} {id : NodeId} {n : Node} {b c : BlockId} {pos : Position}
  {types : List TypeId}

/-- A node, be it erased or not, has an operation of some kind. -/
def HasOp (m : Module) (p : Op → Prop) (id : NodeId) : Prop := ∃ n, m.core id = some n ∧ p n.op

theorem HasOp.mono {p : Op → Prop} (h : m.HasOp p id) (hk : m.Kept m') : m'.HasOp p id := by
  obtain ⟨n, hn, hp⟩ := h
  obtain ⟨n', hn', hop, -⟩ := hk.node hn
  exact ⟨n', hn', hop ▸ hp⟩

theorem HasOp.imp {p q : Op → Prop} (h : m.HasOp p id) (hpq : ∀ op, p op → q op) :
    m.HasOp q id := by
  obtain ⟨n, hn, hp⟩ := h
  exact ⟨n, hn, hpq n.op hp⟩

theorem HasOp.of_live {p : Op → Prop} (h : m.HasOp p id) (hn : m.live? id = some n) : p n.op := by
  obtain ⟨n', hn', hp⟩ := h
  obtain rfl := Option.some.inj ((core_of_live? hn).symm.trans hn')
  exact hp

theorem HasOp.of_kept {p : Op → Prop} (h : m'.HasOp p id) (hk : m.Kept m')
    (hn : m.live? id = some n) : m.HasOp p id := by
  obtain ⟨n', hn', hp⟩ := h
  obtain ⟨n₁, hn₁, hop, -⟩ := hk.node (core_of_live? hn)
  obtain rfl := Option.some.inj (hn₁.symm.trans hn')
  exact ⟨n, core_of_live? hn, hop ▸ hp⟩

/-- A block that is another one, or nested in it. -/
inductive Inside (m : Module) (b : BlockId) : BlockId → Prop
  | self : m.Inside b b
  | region {id : NodeId} {n : Node} {c : BlockId} (hn : m.live? id = some n) (hc : c ∈ n.regions)
      (h : m.Inside b n.parent) : m.Inside b c

theorem Placed.inside (h : m.Placed c) : m.Inside m.body c := by
  induction h with
  | body => exact .self
  | region hn hc _ ih => exact .region hn hc ih

theorem Inside.trans {a : BlockId} (h : m.Inside a b) (h' : m.Inside b c) : m.Inside a c := by
  induction h' with
  | self => exact h
  | region hn hc _ ih => exact .region hn hc ih

/-- Two modules have the same nodes with regions in the same places. -/
structure SameTree (m m' : Module) : Prop where
  body : m'.body = m.body
  owner : ∀ {id n}, m.live? id = some n → n.regions ≠ [] →
    ∃ n', m'.live? id = some n' ∧ n'.op = n.op ∧ n'.regions = n.regions ∧ n'.parent = n.parent
  owner_of : ∀ {id n'}, m'.live? id = some n' → n'.regions ≠ [] →
    ∃ n, m.live? id = some n ∧ n'.op = n.op ∧ n'.regions = n.regions ∧ n'.parent = n.parent

namespace SameTree

theorem refl (m : Module) : SameTree m m := ⟨rfl, fun h _ => ⟨_, h, rfl, rfl, rfl⟩,
  fun h _ => ⟨_, h, rfl, rfl, rfl⟩⟩

theorem symm (h : SameTree m m') : SameTree m' m where
  body := h.body.symm
  owner hn hr := by
    obtain ⟨n, hn, hop, hreg, hp⟩ := h.owner_of hn hr
    exact ⟨n, hn, hop.symm, hreg.symm, hp.symm⟩
  owner_of hn hr := by
    obtain ⟨n, hn, hop, hreg, hp⟩ := h.owner hn hr
    exact ⟨n, hn, hop.symm, hreg.symm, hp.symm⟩

theorem trans (h : SameTree m m') (h' : SameTree m' m'') : SameTree m m'' where
  body := h'.body.trans h.body
  owner hn hr := by
    obtain ⟨n₁, hn₁, hop, hreg, hp⟩ := h.owner hn hr
    obtain ⟨n₂, hn₂, hop', hreg', hp'⟩ := h'.owner hn₁ (hreg ▸ hr)
    exact ⟨n₂, hn₂, hop'.trans hop, hreg'.trans hreg, hp'.trans hp⟩
  owner_of hn hr := by
    obtain ⟨n₁, hn₁, hop, hreg, hp⟩ := h'.owner_of hn hr
    obtain ⟨n₂, hn₂, hop', hreg', hp'⟩ := h.owner_of hn₁ (hreg ▸ hr)
    exact ⟨n₂, hn₂, hop.trans hop', hreg.trans hreg', hp.trans hp'⟩

theorem inside (h : SameTree m m') (hb : m.Inside b c) : m'.Inside b c := by
  induction hb with
  | self => exact .self
  | region hn hc _ ih =>
    obtain ⟨n', hn', -, hreg, hp⟩ := h.owner hn (List.ne_nil_of_mem hc)
    exact .region hn' (hreg ▸ hc) (hp ▸ ih)

end SameTree

theorem Creates.sameTree (h : m.Creates m' b pos id n types) : SameTree m m' where
  body := h.kept.body
  owner hj _ := ⟨_, h.live hj, rfl, rfl, rfl⟩
  owner_of {j n'} hj hr := by
    obtain ⟨-, rfl⟩ | ⟨-, hj⟩ := h.live_cases hj
    · exact absurd h.regions hr
    · exact ⟨n', hj, rfl, rfl, rfl⟩

theorem Redirects.sameTree {f : NodeId → List ValueId → List ValueId} (h : m.Redirects m' f) :
    SameTree m m' where
  body := h.kept.body
  owner hj _ := ⟨_, h.live hj, rfl, rfl, rfl⟩
  owner_of hj _ := by
    obtain ⟨n, hn, rfl⟩ := h.live_cases hj
    exact ⟨n, hn, rfl, rfl, rfl⟩

theorem Relabels.sameTree {name : Option Name → Option Name} {twoState : Bool → Bool}
    (h : m.Relabels m' id name twoState) : SameTree m m' where
  body := h.kept.body
  owner hj _ := ⟨_, h.live hj, rfl, rfl, rfl⟩
  owner_of hj _ := by
    obtain ⟨n, hn, rfl⟩ := h.live_cases hj
    exact ⟨n, hn, rfl, rfl, rfl⟩

theorem Moves.sameTree (h : m.Moves m' b pos id) (hn : m.live? id = some n) (hr : n.regions = []) :
    SameTree m m' where
  body := h.kept.body
  owner {j nj} hj hne := by
    have hji : j ≠ id := by
      rintro rfl
      rw [hn] at hj
      cases hj
      exact hne hr
    exact ⟨_, h.live hj, rfl, rfl, if_neg hji⟩
  owner_of {j nj} hj hne := by
    obtain ⟨n₀, hn₀, rfl⟩ := h.live_cases hj
    have hji : j ≠ id := by
      rintro rfl
      rw [hn] at hn₀
      cases hn₀
      exact hne hr
    exact ⟨n₀, hn₀, rfl, rfl, if_neg hji⟩

theorem Erases.sameTree (h : m.Erases m' id) (hn : m.live? id = some n) (hr : n.regions = []) :
    SameTree m m' where
  body := h.kept.body
  owner {j nj} hj hne := by
    have hji : j ≠ id := by
      rintro rfl
      rw [hn] at hj
      cases hj
      exact hne hr
    exact ⟨_, h.live hj hji, rfl, rfl, rfl⟩
  owner_of hj _ := ⟨_, (h.live_cases hj).2, rfl, rfl, rfl⟩

/-- A sound module comes from another one, and what no edit changes is kept. -/
structure Edits (m m' : Module) : Prop where
  sound : Sound m'
  kept : m.Kept m'
  sameTree : m.SameTree m'

theorem Edits.refl (hs : Sound m) : Edits m m := ⟨hs, .refl m, .refl m⟩

theorem Edits.trans (h : Edits m m') (h' : Edits m' m'') : Edits m m'' :=
  ⟨h'.sound, h.kept.trans h'.kept, h.sameTree.trans h'.sameTree⟩

theorem Edits.placed (h : Edits m m') (hb : m.Placed b) : m'.Placed b :=
  Nested.placed_of_kept h.kept (fun hn hr => by
    obtain ⟨n', hn', -, hreg, hp⟩ := h.sameTree.owner hn hr
    exact ⟨n', hn', hreg, hp⟩) hb

theorem Creates.edits (h : m.Creates m' b pos id n types) (hs' : Sound m') : Edits m m' :=
  ⟨hs', h.kept, h.sameTree⟩

theorem Redirects.edits {f : NodeId → List ValueId → List ValueId} (h : m.Redirects m' f)
    (hs' : Sound m') : Edits m m' := ⟨hs', h.kept, h.sameTree⟩

theorem Relabels.edits {name : Option Name → Option Name} {twoState : Bool → Bool}
    (h : m.Relabels m' id name twoState) (hs' : Sound m') : Edits m m' := ⟨hs', h.kept, h.sameTree⟩

theorem Moves.edits (h : m.Moves m' b pos id) (hs : Sound m) (hs' : Sound m')
    (hn : m.live? id = some n) (hop : n.op.regionKinds = []) : Edits m m' :=
  ⟨hs', h.kept, h.sameTree hn (hs.toNested.regions_eq_nil hn hop)⟩

theorem Erases.edits (h : m.Erases m' id) (hs : Sound m) (hs' : Sound m')
    (hn : m.live? id = some n) (hop : n.op.regionKinds = []) : Edits m m' :=
  ⟨hs', h.kept, h.sameTree hn (hs.toNested.regions_eq_nil hn hop)⟩

end Module

end NetPrep
