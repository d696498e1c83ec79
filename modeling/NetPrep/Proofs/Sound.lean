import Mathlib
import NetPrep.Proofs.Runs

/-!
# Sound modules

A module is sound if it is well-formed and its blocks form a tree. Every edit of preparation concerns
nodes without regions, and keeps a module sound.
-/

namespace NetPrep

namespace Nested

variable {m m' : Module} {id : NodeId} {n : Node} {b : BlockId}

theorem placed_of_kept (hk : m.Kept m')
    (howner : ∀ {id n}, m.live? id = some n → n.regions ≠ [] →
      ∃ n', m'.live? id = some n' ∧ n'.regions = n.regions ∧ n'.parent = n.parent)
    (hb : m.Placed b) : m'.Placed b := by
  induction hb with
  | body => exact hk.body ▸ .body
  | region hn hb _ ih =>
    obtain ⟨n', hn', hr, hp⟩ := howner hn (List.ne_nil_of_mem hb)
    exact .region hn' (hr ▸ hb) (hp ▸ ih)

/-- An edit that leaves the nodes with regions alone leaves the tree of blocks. -/
theorem of_kept (h : Nested m) (hk : m.Kept m')
    (hold : ∀ {id n'}, m'.live? id = some n' →
      (∃ n, m.live? id = some n ∧ n.op = n'.op ∧ n.regions = n'.regions) ∨
      (n'.regions = [] ∧ n'.op.regionKinds = []))
    (howner : ∀ {id n}, m.live? id = some n → n.regions ≠ [] →
      ∃ n', m'.live? id = some n' ∧ n'.regions = n.regions ∧ n'.parent = n.parent)
    (hplaced : ∀ {id n'}, m'.live? id = some n' → m.Placed n'.parent) : Nested m' where
  body := by rw [hk.body, hk.blockCore, h.body]
  regions {id n'} hn' := by
    simp only [hk.blockCore]
    rcases hold hn' with ⟨n, hn, hop, hr⟩ | ⟨hr, hop⟩
    · rw [← hop, ← hr]
      exact h.regions hn
    · rw [hr, hop]
      exact .nil
  regions_nodup {id n'} hn' := by
    rcases hold hn' with ⟨n, hn, -, hr⟩ | ⟨hr, -⟩
    · exact hr ▸ h.regions_nodup hn
    · rw [hr]
      exact List.nodup_nil
  placed hn' := placed_of_kept hk howner (hplaced hn')
  owner {id n'} hn' hne := by
    rcases hold hn' with ⟨n, hn, -, hr⟩ | ⟨hr, -⟩
    · obtain ⟨n₁, hn₁, -, hres, -⟩ := hk.node (Module.core_of_live? hn)
      obtain rfl := Option.some.inj (hn₁.symm.trans (Module.core_of_live? hn'))
      rw [hres]
      exact h.owner hn (hr ▸ hne)
    · exact absurd hr hne

end Nested

/-- A well-formed module whose blocks form a tree. -/
structure Sound (m : Module) : Prop extends WellFormed m, Nested m

namespace Sound

variable {m m' : Module} {id a : NodeId} {n na : Node} {b : BlockId} {p : Position} {op : Op}
  {operands : List ValueId} {types : List TypeId} {loc : Loc} {v old new : ValueId} {i : Nat}

theorem exists_block_of_placed (hs : Sound m) (hb : m.Placed b) :
    ∃ blk, m.block? b = some blk := by
  have hcore : ∃ blk, m.blockCore b = some blk := by
    cases hb with
    | body => exact ⟨_, hs.body⟩
    | region hn hb _ =>
      obtain ⟨k, -, hblk⟩ := hs.toNested.blockCore_of_mem hn hb
      exact ⟨_, hblk⟩
  obtain ⟨blk, hblk⟩ := hcore
  obtain ⟨x, hx, -⟩ := Option.map_eq_some_iff.1 hblk
  exact ⟨x, hx⟩

theorem createNode (hs : Sound m) (hpos : p.In m.nodesOf b) (hb : m.Placed b)
    (hop : op.regionKinds = []) (huse : ∀ v ∈ operands, m.Usable v)
    (h : m.createNode p op operands types loc = .ok (id, m')) :
    m.Creates m' b p id
      (.fresh op operands (m.nextValues types.length) b loc) types ∧ Sound m' := by
  obtain ⟨hc, hw⟩ := hs.toWellFormed.createNode hpos (hs.exists_block_of_placed hb) hop huse h
  have hne : ∀ {j n}, m.live? j = some n → j ≠ id := by
    rintro j n hj rfl
    rw [hc.fresh] at hj
    exact Nat.lt_irrefl _ (Module.lt_of_live? hj)
  refine ⟨hc, ⟨hw, hs.toNested.of_kept hc.kept ?_ ?_ ?_⟩⟩
  · intro j n' hj
    by_cases hji : j = id
    · subst hji
      obtain rfl := Option.some.inj (hc.live?_self.symm.trans hj)
      exact Or.inr ⟨rfl, hop⟩
    · exact Or.inl ⟨n', by rwa [hc.live?_of_ne hji] at hj, rfl, rfl⟩
  · intro j n hj _
    exact ⟨n, by rwa [hc.live?_of_ne (hne hj)], rfl, rfl⟩
  · intro j n' hj
    by_cases hji : j = id
    · subst hji
      obtain rfl := Option.some.inj (hc.live?_self.symm.trans hj)
      exact hb
    · rw [hc.live?_of_ne hji] at hj
      exact hs.placed hj

theorem moveNode (hs : Sound m) (hn : m.live? id = some n) (hr : n.regions = [])
    (hpos : p.In m.nodesOf b) (hb : m.Placed b) (hbefore : p ≠ .before id)
    (hafter : p ≠ .after id) (h : m.moveNode id p = .ok m') :
    m.Moves m' b p id ∧ Sound m' := by
  obtain ⟨hm, hw⟩ := hs.toWellFormed.moveNode hn hpos (hs.exists_block_of_placed hb) hbefore
    hafter h
  refine ⟨hm, ⟨hw, hs.toNested.of_kept hm.kept ?_ ?_ ?_⟩⟩
  · intro j n' hj
    rw [hm.live?] at hj
    obtain ⟨n₀, hn₀, rfl⟩ := Option.map_eq_some_iff.1 hj
    exact Or.inl ⟨n₀, hn₀, rfl, rfl⟩
  · intro j n₀ hj hne
    have hji : j ≠ id := by
      rintro rfl
      rw [hn] at hj
      cases hj
      exact hne hr
    refine ⟨n₀, ?_, rfl, rfl⟩
    rw [hm.live?, hj]
    simp [hji]
  · intro j n' hj
    rw [hm.live?] at hj
    obtain ⟨n₀, hn₀, rfl⟩ := Option.map_eq_some_iff.1 hj
    by_cases hji : j = id
    · simpa [hji] using hb
    · simpa [hji] using hs.placed hn₀

theorem eraseNode (hs : Sound m) (hn : m.live? id = some n) (hr : n.regions = [])
    (h : m.eraseNode id = .ok m') :
    (∀ u, ∀ v ∈ n.results, ¬ m.Uses u v) ∧ m.Erases m' id ∧ Sound m' := by
  obtain ⟨hunused, he, hw⟩ := hs.toWellFormed.eraseNode hn hr h
  have hlive : ∀ {j n'}, m'.live? j = some n' → m.live? j = some n' := by
    intro j n' hj
    rw [he.live?] at hj
    split at hj
    · cases hj
    · exact hj
  refine ⟨hunused, he, ⟨hw, hs.toNested.of_kept he.kept ?_ ?_ ?_⟩⟩
  · intro j n' hj
    exact Or.inl ⟨n', hlive hj, rfl, rfl⟩
  · intro j n₀ hj hne
    have hji : j ≠ id := by
      rintro rfl
      rw [hn] at hj
      cases hj
      exact hne hr
    exact ⟨n₀, by rw [he.live?, if_neg hji, hj], rfl, rfl⟩
  · intro j n' hj
    exact hs.placed (hlive hj)

theorem of_redirects {f : NodeId → List ValueId → List ValueId} (hs : Sound m)
    (hr : m.Redirects m' f) (hw : WellFormed m') : Sound m' := by
  refine ⟨hw, hs.toNested.of_kept hr.kept ?_ ?_ ?_⟩
  · intro j n' hj
    rw [hr.live?] at hj
    obtain ⟨n₀, hn₀, rfl⟩ := Option.map_eq_some_iff.1 hj
    exact Or.inl ⟨n₀, hn₀, rfl, rfl⟩
  · intro j n₀ hj _
    exact ⟨{ n₀ with operands := f j n₀.operands }, by rw [hr.live?, hj, Option.map_some], rfl, rfl⟩
  · intro j n' hj
    rw [hr.live?] at hj
    obtain ⟨n₀, hn₀, rfl⟩ := Option.map_eq_some_iff.1 hj
    exact hs.placed (n := n₀) hn₀

theorem setOperand (hs : Sound m) (hn : m.live? id = some n) (hv : m.Usable v)
    (h : m.setOperand id i v = .ok m') :
    (∃ old, n.operands[i]? = some old) ∧
    m.Redirects m' (pointAt ⟨id, i⟩ v) ∧ Sound m' := by
  obtain ⟨hold, hr, hw⟩ := hs.toWellFormed.setOperand hn hv h
  exact ⟨hold, hr, hs.of_redirects hr hw⟩

theorem replaceUses (hs : Sound m) (hnew : m.Usable new) (h : m.replaceUses old new = .ok m') :
    m.Redirects m' (substitute old new) ∧ Sound m' := by
  obtain ⟨hr, hw⟩ := hs.toWellFormed.replaceUses hnew h
  exact ⟨hr, hs.of_redirects hr hw⟩

theorem of_relabels {name : Option Name → Option Name} {twoState : Bool → Bool} (hs : Sound m)
    (hr : m.Relabels m' id name twoState) (hw : WellFormed m') : Sound m' := by
  refine ⟨hw, hs.toNested.of_kept hr.kept ?_ ?_ ?_⟩
  · intro j n' hj
    rw [hr.live?] at hj
    obtain ⟨n₀, hn₀, rfl⟩ := Option.map_eq_some_iff.1 hj
    exact Or.inl ⟨n₀, hn₀, rfl, rfl⟩
  · intro j n₀ hj _
    exact ⟨{ n₀ with
      name := if j = id then name n₀.name else n₀.name
      twoState := if j = id then twoState n₀.twoState else n₀.twoState },
      by rw [hr.live?, hj, Option.map_some], rfl, rfl⟩
  · intro j n' hj
    rw [hr.live?] at hj
    obtain ⟨n₀, hn₀, rfl⟩ := Option.map_eq_some_iff.1 hj
    exact hs.placed (n := n₀) hn₀

theorem setName {name : Option Name} (hs : Sound m) (h : m.setName id name = .ok m') :
    m.Relabels m' id (fun _ => name) (fun t => t) ∧ Sound m' := by
  obtain ⟨hr, hw⟩ := hs.toWellFormed.setName h
  exact ⟨hr, hs.of_relabels hr hw⟩

theorem setTwoState {twoState : Bool} (hs : Sound m) (h : m.setTwoState id twoState = .ok m') :
    m.Relabels m' id (fun n => n) (fun _ => twoState) ∧ Sound m' := by
  obtain ⟨hr, hw⟩ := hs.toWellFormed.setTwoState h
  exact ⟨hr, hs.of_relabels hr hw⟩

theorem internType (hs : Sound m) (ty : HwType) :
    m.AddsType (m.internType ty).2 ∧ Sound (m.internType ty).2 := by
  obtain ⟨ht, hw⟩ := hs.toWellFormed.internType ty
  refine ⟨ht, ⟨hw, hs.toNested.of_kept ht.kept ?_ ?_ ?_⟩⟩
  · intro j n' hj
    exact Or.inl ⟨n', ht.live? j ▸ hj, rfl, rfl⟩
  · intro j n₀ hj _
    exact ⟨n₀, by rw [ht.live?, hj], rfl, rfl⟩
  · intro j n' hj
    exact hs.placed (ht.live? j ▸ hj)

end Sound

end NetPrep
