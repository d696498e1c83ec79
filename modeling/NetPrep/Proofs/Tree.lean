import Mathlib
import NetPrep.Proofs.Edits
import NetPrep.Proofs.Nesting

/-!
# The tree of blocks

A block is never nested in a block of its own regions, and no block is nested in two regions of one
block. The process around a node, its owner and the scope of its declarations stand further out.
-/

namespace NetPrep

namespace Module

variable {m m' : Module} {a j id p : NodeId} {n na : Node} {b c r r' : BlockId}

/-- A block belongs to a node that is written down as lines around it, not as a block of its own. -/
def Wrapped (m : Module) (b : BlockId) : Prop :=
  ∃ a n, m.live? a = some n ∧ n.op.isSyntacticWrapper = true ∧ b ∈ n.regions

/-- What is around a node stands in a block around that of the node. -/
theorem Around.inside {nj : Node} (h : m.Around a j) (ha : m.live? a = some na)
    (hj : m.live? j = some nj) : m.Inside na.parent nj.parent := by
  induction h generalizing nj with
  | self =>
    obtain rfl := Option.some.inj (ha.symm.trans hj)
    exact .self
  | up hown _ ih =>
    obtain ⟨nj', nk, hj', hk, hmem⟩ := hown
    obtain rfl := Option.some.inj (hj.symm.trans hj')
    exact .region hk hmem (ih hk)

theorem OwnedBy.inside (h : m.OwnedBy id a) (hn : m.live? id = some n)
    (ha : m.live? a = some na) : m.Inside na.parent n.parent :=
  (Around.of_ownedBy h).inside ha hn

theorem ProcessOf.inside (h : m.ProcessOf id p) (hn : m.live? id = some n)
    (hp : m.live? p = some na) : m.Inside na.parent n.parent := by
  obtain ⟨up, hown, hout⟩ := h
  exact ((Around.of_ownedBy hown).trans hout.around).inside hp hn

theorem ProcessOf.graph (h : m.ProcessOf id p) (hp : m.live? p = some na) :
    m.kind? na.parent = some .graph := by
  obtain ⟨up, -, hout⟩ := h
  obtain ⟨n, hn, hk⟩ := hout.graph
  obtain rfl := Option.some.inj (hp.symm.trans hn)
  exact hk

end Module

namespace Sound

variable {m : Module} {a a' j id : NodeId} {n na na' : Node} {b c r r' : BlockId}

/-- The body is a graph block. -/
theorem kind?_body (hs : Sound m) : m.kind? m.body = some .graph := by
  rw [Module.kind?, hs.body]
  rfl

/-- The block of a node is a procedural block or a graph block. -/
theorem kind?_parent (hs : Sound m) (hn : m.live? id = some n) :
    m.kind? n.parent = some .procedural ∨ m.kind? n.parent = some .graph := by
  obtain ⟨blk, hblk⟩ := hs.exists_block hn
  rw [Module.kind?_of_block? hblk]
  cases blk.kind
  · exact Or.inr rfl
  · exact Or.inl rfl

/-- A block is a region of one node. -/
theorem region_unique (hs : Sound m) (ha : m.live? a = some na) (hb : b ∈ na.regions)
    (ha' : m.live? a' = some na') (hb' : b ∈ na'.regions) : a = a' := by
  obtain ⟨k, -, hblk⟩ := hs.toNested.blockCore_of_mem ha hb
  obtain ⟨k', -, hblk'⟩ := hs.toNested.blockCore_of_mem ha' hb'
  rw [hblk] at hblk'
  cases hblk'
  rfl

/-- A node nested in a region of another one is owned by that one or by a node nested in it. -/
theorem exists_owner_of_inside (ha : m.live? a = some na) (hc : c ∈ na.regions)
    (hn : m.live? id = some n) (h : m.Inside c n.parent) : ∃ k, m.OwnedBy id k ∧ m.Around a k := by
  generalize hb : n.parent = b at h
  induction h generalizing id n with
  | self => exact ⟨a, ⟨n, na, hn, ha, hb ▸ hc⟩, .self ha⟩
  | @region up nup d hup hd _ ih =>
    obtain ⟨k, hown, haround⟩ := ih hup rfl
    exact ⟨up, ⟨n, nup, hn, hup, hb ▸ hd⟩, .up hown haround⟩

/-- No node stands in a region of its own, at whatever depth. -/
theorem not_inside_region (hs : Sound m) (ha : m.live? a = some na) (hc : c ∈ na.regions) :
    ¬ m.Inside c na.parent := by
  intro h
  obtain ⟨k, hown, haround⟩ := exists_owner_of_inside ha hc ha h
  exact hs.not_around_owner hown haround

/-- Blocks that are nested in each other are the same. -/
theorem inside_antisymm (hs : Sound m) (h : m.Inside b c) (h' : m.Inside c b) : b = c := by
  cases h with
  | self => rfl
  | region hn hc h => exact absurd (h'.trans h) (hs.not_inside_region hn hc)

/-- Nothing is nested in two regions of nodes of one block. -/
theorem eq_of_inside_regions (hs : Sound m) (ha : m.live? a = some na) (hr : r ∈ na.regions)
    (ha' : m.live? a' = some na') (hr' : r' ∈ na'.regions) (hp : na.parent = na'.parent)
    (h : m.Inside r c) (h' : m.Inside r' c) : r = r' := by
  induction h with
  | self =>
    cases h' with
    | self => rfl
    | region hn hc h' =>
      obtain rfl := hs.region_unique ha hr hn hc
      obtain rfl := Option.some.inj (ha.symm.trans hn)
      exact absurd (hp ▸ h') (hs.not_inside_region ha' hr')
  | region hn hc h ih =>
    cases h' with
    | self =>
      obtain rfl := hs.region_unique ha' hr' hn hc
      obtain rfl := Option.some.inj (ha'.symm.trans hn)
      exact absurd (hp ▸ h) (hs.not_inside_region ha hr)
    | region hn' hc' h' =>
      obtain rfl := hs.region_unique hn hc hn' hc'
      obtain rfl := Option.some.inj (hn.symm.trans hn')
      exact ih h'

/-- Declarations beside a node go to its block, or, out of wrappers, further out. -/
theorem scopeWithin_eq_ok (hs : Sound m) {fuel : Nat} (hn : m.live? j = some n)
    (h : m.scopeWithin fuel j = .ok b) :
    m.Inside b n.parent ∧ (m.Wrapped n.parent ↔ b ≠ n.parent) := by
  induction fuel generalizing j n with
  | zero => cases h
  | succ fuel ih =>
    obtain ⟨nd, hnd, -, rfl⟩ := Module.exists_of_live? hn
    have hret : (do return (← m.node j).parent : Except Fault BlockId) = .ok b → nd.parent = b := by
      intro h
      simp only [bind_eq_ok_iff, Module.node_eq_ok_iff] at h
      obtain ⟨nd', hnd', h⟩ := h
      obtain rfl : nd = nd' := by simpa using hnd.symm.trans hnd'
      exact Except.ok.inj h
    have hstay : nd.parent = b → ¬ m.Wrapped nd.parent →
        m.Inside b nd.parent ∧ (m.Wrapped nd.parent ↔ b ≠ nd.parent) := by
      rintro rfl hnot
      exact ⟨.self, iff_of_false hnot (not_not.2 rfl)⟩
    rw [Module.scopeWithin, bind_eq_ok_iff] at h
    obtain ⟨up, hup, h⟩ := h
    cases up with
    | none =>
      refine hstay (hret h) ?_
      rintro ⟨a, na, ha, -, hmem⟩
      obtain ⟨k, -, hblk⟩ := hs.toNested.blockCore_of_mem ha hmem
      have hbody : nd.parent = m.body := (hs.graph_of_parentNode?_none hn hup).1
      rw [hbody, hs.body] at hblk
      cases hblk
    | some up =>
      simp only [bind_eq_ok_iff, Module.node_eq_ok_iff] at h
      obtain ⟨nup, hnup, h⟩ := h
      obtain ⟨n', nup', hn', hup', hmem⟩ := hs.ownedBy_of_parentNode? hn hup
      obtain rfl := Option.some.inj (hn.symm.trans hn')
      obtain rfl : nup' = nup.core := Option.some.inj
        ((Module.core_of_live? hup').symm.trans (Module.core_of_node? hnup))
      split at h
      · next hwrap =>
        obtain ⟨hin, -⟩ := ih hup' h
        have hout : m.Inside b nd.parent := .region hup' hmem hin
        refine ⟨hout, iff_of_true ⟨up, nup.core, hup', hwrap, hmem⟩ ?_⟩
        rintro rfl
        exact hs.not_inside_region hup' hmem hin
      · next hwrap =>
        refine hstay (hret (by simpa only [bind_eq_ok_iff, Module.node_eq_ok_iff] using h)) ?_
        rintro ⟨a, na, ha, hwrap', hmem'⟩
        obtain rfl := hs.region_unique ha hmem' hup' hmem
        obtain rfl := Option.some.inj (ha.symm.trans hup')
        exact hwrap hwrap'

end Sound

end NetPrep
