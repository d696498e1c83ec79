import Mathlib
import NetPrep.Proofs.Exempting
import NetPrep.Proofs.Frame
import NetPrep.Proofs.Legalization
import NetPrep.Proofs.Tree

/-!
# Uses before definitions

How the steps that break forward references change which uses come early in a block. A node that
moves to the front of the block is early nowhere, and a node with a temporary is used only by the
connection right after it; nothing else becomes early.
-/

namespace NetPrep

open Prepare Prep

/-- Nothing comes before the first entry. -/
theorem Precedes.not_head {α : Type} {l : List α} {a x : α} (hl : (x :: l).Nodup) :
    ¬ Precedes (x :: l) a x :=
  fun h => List.not_mem_nil ((@Precedes.split_iff _ [] l a x hl).1 h)

namespace Module

variable {m m' : Module} {a d j id read decl : NodeId} {n nd nj : Node} {b block : BlockId}
  {pos : Position} {types : List TypeId} {u w : Use} {v x y storage old : ValueId}

/-- The ways up from a node that stays in its block stay the same. -/
theorem SameTree.around {nj' : Node} (ht : m.SameTree m') (h : m.Around a j)
    (hj : m.live? j = some nj) (hj' : m'.live? j = some nj') (hp : nj'.parent = nj.parent) :
    m'.Around a j := by
  induction h generalizing nj nj' with
  | self => exact .self hj'
  | up hown _ ih =>
    obtain ⟨n₀, nk, hn₀, hk, hmem⟩ := hown
    obtain rfl := Option.some.inj (hj.symm.trans hn₀)
    obtain ⟨nk', hk', -, hr, hpk⟩ := ht.owner hk (List.ne_nil_of_mem hmem)
    exact .up ⟨nj', nk', hj', hk', hr ▸ hp ▸ hmem⟩ (ih hk hk' hpk)

/-- A node with nothing in it is around no node but itself. -/
theorem Around.eq_of_regions_nil (h : m.Around a j) (hn : m.live? a = some n) (hr : n.regions = []) :
    a = j := by
  induction h with
  | self => rfl
  | up hown hrest ih =>
    subst ih
    obtain ⟨n₀, na, -, ha, hmem⟩ := hown
    obtain rfl := Option.some.inj (hn.symm.trans ha)
    rw [hr] at hmem
    cases hmem

/-- No node of a block is inside another one. -/
theorem Around.eq_of_mem (h : m.Around a j) (hs : Sound m) (ha : a ∈ m.nodesOf b)
    (hj : j ∈ m.nodesOf b) : a = j := by
  obtain ⟨na, hna, rfl⟩ := hs.toWellFormed.mem_nodesOf_iff.1 ha
  obtain ⟨nj, hnj, hp⟩ := hs.toWellFormed.mem_nodesOf_iff.1 hj
  cases h with
  | self => rfl
  | up hown hrest =>
    obtain ⟨n₀, nk, hn₀, hk, hmem⟩ := hown
    obtain rfl := Option.some.inj (hnj.symm.trans hn₀)
    exact absurd (hrest.inside hna hk) (hs.not_inside_region hk (hp ▸ hmem))

/-! ## Early uses -/

/-- A use of a value comes early in a block: the user, or the node around it, stands before the node
of the block that defines the value. -/
def Early (m : Module) (block : BlockId) (u : Use) (v : ValueId) (d : NodeId) : Prop :=
  ∃ i a, m.def? v = some (.result d i) ∧ m.Uses u v ∧ m.Around a u.node ∧
    Precedes (m.nodesOf block) a d

theorem usedEarly_iff (hw : WellFormed m) :
    m.UsedEarly block d ↔ ∃ u v, m.Early block u v d := by
  constructor
  · rintro ⟨n, v, u, a, hn, hv, hu, haround, hprec⟩
    obtain ⟨i, hdef⟩ := hw.exists_def hn hv
    exact ⟨u, v, i, a, hdef, hu, haround, hprec⟩
  · rintro ⟨u, v, i, a, hdef, hu, haround, hprec⟩
    obtain ⟨n, hn, -⟩ := hw.mem_nodesOf_iff.1 hprec.mem_right
    obtain ⟨n', hn', hi⟩ := hw.definition hdef
    obtain rfl := Option.some.inj ((core_of_live? hn).symm.trans hn')
    exact ⟨n, v, u, a, hn, List.mem_of_getElem? hi, hu, haround, hprec⟩

theorem Early.uses (h : m.Early block u v d) : m.Uses u v := by
  obtain ⟨-, -, -, hu, -, -⟩ := h
  exact hu

/-- A label makes no use early. -/
theorem Relabels.early {name : Option Name → Option Name} {twoState : Bool → Bool}
    (h : m.Relabels m' id name twoState) (he : m'.Early block u v d) : m.Early block u v d := by
  obtain ⟨i, a, hdef, hu, haround, hprec⟩ := he
  rw [h.uses_iff] at hu
  have ⟨nu, hnu, _⟩ := hu
  exact ⟨i, a, h.def? v ▸ hdef, hu, h.sameTree.symm.around haround (h.live hnu) hnu rfl,
    h.nodesOf block ▸ hprec⟩

/-- Only a new user can be early where no use was. -/
theorem Creates.early_cases (h : m.Creates m' b pos id n types) (hs : Sound m)
    (he : m'.Early block u v d) : m.Early block u v d ∨ (u.node = id ∧ v ∈ n.operands) := by
  obtain ⟨i, a, hdef, hu, haround, hprec⟩ := he
  rcases h.uses_iff.1 hu with hu | ⟨hid, hv⟩
  · left
    obtain ⟨d₀, hdef₀, hlive⟩ := hs.toWellFormed.operand hu
    obtain rfl := Option.some.inj ((h.kept.def? hdef₀).symm.trans hdef)
    obtain ⟨nd, hnd⟩ := hlive rfl
    have ⟨nu, hnu, _⟩ := hu
    have ha := h.sameTree.symm.around haround (h.live hnu) hnu rfl
    obtain ⟨na, hna⟩ := ha.live
    refine ⟨i, a, hdef₀, hu, ha, ?_⟩
    rw [h.nodesOf] at hprec
    split at hprec
    · next hb => exact hb ▸ (Position.precedes_insert_iff (h.ne hna) (h.ne hnd)).1 hprec
    · exact hprec
  · exact Or.inr ⟨hid, List.mem_of_getElem? hv⟩

/-- Only the use that is pointed elsewhere can be early where it was not. -/
theorem Redirects.early_cases (h : m.Redirects m' (pointAt w x)) (hw : m.Uses w y)
    (he : m'.Early block u v d) : (u ≠ w ∧ m.Early block u v d) ∨ (u = w ∧ v = x) := by
  obtain ⟨i, a, hdef, hu, haround, hprec⟩ := he
  rw [h.uses_pointAt_iff hw] at hu
  split at hu
  · next huw => exact Or.inr ⟨huw, hu⟩
  · next huw =>
    have ⟨nu, hnu, _⟩ := hu
    rw [h.def?] at hdef
    rw [h.nodesOf] at hprec
    exact Or.inl ⟨huw, i, a, hdef, hu, h.sameTree.symm.around haround (h.live hnu) hnu rfl, hprec⟩

/-- What goes to the front of a block is not used early there, and nothing else is that was not,
unless the node that moves uses it. -/
theorem Moves.early_cases (h : m.Moves m' block (.front block) id) (hs : Sound m)
    (hn : m.live? id = some n) (hr : n.regions = []) (he : m'.Early block u v d) :
    (d ≠ id ∧ m.Early block u v d) ∨ u.node = id := by
  obtain ⟨i, a, hdef, hu, haround, hprec⟩ := he
  refine or_iff_not_imp_right.2 fun hne => ?_
  rw [h.uses_iff] at hu
  rw [h.def?] at hdef
  have ⟨nu, hnu, _⟩ := hu
  have hnu' := h.live hnu
  rw [if_neg hne] at hnu'
  have hback := (h.sameTree hn hr).symm.around haround hnu' hnu rfl
  have haid : a ≠ id := by
    rintro rfl
    exact hne (hback.eq_of_regions_nil hn hr).symm
  rw [h.nodesOf, if_pos rfl] at hprec
  rcases Precedes.cons_iff.1 hprec with ⟨rfl, -⟩ | hprec
  · exact absurd rfl haid
  · obtain ⟨-, hd, hprec⟩ := (Precedes.erase_iff (hs.toWellFormed.nodup block)).1 hprec
    exact ⟨hd, i, a, hdef, hu, hback, hprec⟩

/-! ## Temporaries -/

/-- A declaration without operands that no node of a block comes before. -/
structure Foremost (m : Module) (block : BlockId) (decl : NodeId) : Prop where
  bare : ∃ n, m.live? decl = some n ∧ n.operands = []
  first : ∀ a, ¬ Precedes (m.nodesOf block) a decl

theorem Foremost.not_early (h : m.Foremost block decl) : ¬ m.Early block u v decl := by
  rintro ⟨i, a, -, -, -, hprec⟩
  exact h.first a hprec

theorem Foremost.ne_user (h : m.Foremost block decl) (hu : m.Uses u v) : decl ≠ u.node := by
  rintro rfl
  obtain ⟨n, hn, hnil⟩ := h.bare
  obtain ⟨nu, hnu, hget⟩ := hu
  obtain rfl := Option.some.inj (hn.symm.trans hnu)
  rw [hnil] at hget
  cases hget

/-- A declaration stays foremost when a node is created behind another one. -/
theorem Foremost.creates (h : m.Foremost block decl) (hs : Sound m)
    (hc : m.Creates m' b pos id n types)
    (hpos : pos = .before a ∨ pos = .after a) (ha : a ∈ m.nodesOf b) (hne : decl ≠ a) :
    m'.Foremost block decl := by
  obtain ⟨nd, hnd, hnil⟩ := h.bare
  refine ⟨⟨nd, hc.live hnd, hnil⟩, fun p hprec => ?_⟩
  rw [hc.nodesOf] at hprec
  split at hprec
  · next hb =>
    subst hb
    have hnodup := hs.toWellFormed.nodup block
    have hfresh : id ∉ m.nodesOf block := fun hmem => by
      obtain ⟨nid, hnid, -⟩ := hs.toWellFormed.mem_nodesOf_iff.1 hmem
      exact hc.ne hnid rfl
    have hdid : decl ≠ id := hc.ne hnd
    rcases hpos with rfl | rfl
    · rcases (Precedes.insertBefore_iff hnodup ha hfresh).1 hprec with hp | ⟨-, he | hp⟩ | ⟨he, -⟩
      · exact h.first p hp
      · exact hne he
      · exact h.first a hp
      · exact hdid he
    · rcases (Precedes.insertAfter_iff hnodup ha hfresh).1 hprec with hp | ⟨-, hp⟩ | ⟨he, -⟩
      · exact h.first p hp
      · exact h.first a hp
      · exact hdid he
  · exact h.first p hprec

variable {type : TypeId} {loc : Loc} {us : List Use} {i : Nat} {result : ValueId}

/-- A use that reads storage is early no more, and the read is not early if the storage is foremost. -/
theorem ReadFor.early (h : ReadFor old storage type loc u read m m') (hs : Sound m)
    (hf : m.Foremost block decl) (hst : m.def? storage = some (.result decl i)) :
    m'.Foremost block decl ∧ ∀ {w v d}, m'.Early block w v d → w ≠ u ∧ m.Early block w v d := by
  have hs' := h.sound
  have hdef := h.kept.def? hst
  obtain ⟨hu, hnu, hc, hs₁, hr, -⟩ := h
  rename_i nu value m₁
  have hmem := hs.toWellFormed.mem_nodesOf hnu
  have hf₁ : m₁.Foremost block decl := hf.creates hs hc (Or.inl rfl) hmem (hf.ne_user hu)
  have hu₁ : m₁.Uses u old := hc.uses_iff.2 (Or.inl hu)
  have hf' : m'.Foremost block decl := by
    obtain ⟨nd, hnd, hnil⟩ := hf₁.bare
    refine ⟨⟨_, hr.live hnd, ?_⟩, fun a => hr.nodesOf block ▸ hf₁.first a⟩
    simp [pointAt, hf₁.ne_user hu₁, hnil]
  refine ⟨hf', fun {w v d} he => ?_⟩
  obtain ⟨hne, he₁⟩ | ⟨rfl, rfl⟩ := hr.early_cases hu₁ he
  · rcases hc.early_cases hs he₁ with he₀ | ⟨-, hv⟩
    · exact ⟨hne, he₀⟩
    · -- The read uses the storage, which nothing comes before.
      obtain rfl : v = storage := by simpa [Node.fresh] using hv
      have hearly := he
      obtain ⟨j, a, hdef', -⟩ := he
      obtain ⟨rfl, -⟩ : decl = d ∧ i = j := by simpa using hdef.symm.trans hdef'
      exact absurd hearly hf'.not_early
  · -- The use reads what comes right before its node.
    obtain ⟨j, a, hdef', huse, haround, hprec⟩ := he
    have hread : m'.def? v = some (.result read 0) :=
      hr.kept.def? (hc.def?_result (i := 0) rfl)
    obtain ⟨rfl, -⟩ : read = d ∧ 0 = j := by simpa using hread.symm.trans hdef'
    have hself : m'.live? read = _ := hr.live hc.live?_self
    have hblock : nu.parent = block := by
      obtain ⟨nr, hnr, hp⟩ := hs'.toWellFormed.mem_nodesOf_iff.1 hprec.mem_right
      obtain rfl := Option.some.inj (hself.symm.trans hnr)
      exact hp
    subst hblock
    have huser : w.node ∈ m'.nodesOf nu.parent :=
      hs'.toWellFormed.mem_nodesOf_iff.2 ⟨_, hr.live (hc.live hnu), rfl⟩
    obtain rfl := haround.eq_of_mem hs' hprec.mem_left huser
    rw [hr.nodesOf, hc.nodesOf, if_pos rfl] at hprec
    have hfresh : read ∉ m.nodesOf nu.parent := fun hmem => by
      obtain ⟨nid, hnid, -⟩ := hs.toWellFormed.mem_nodesOf_iff.1 hmem
      exact hc.ne hnid rfl
    have hnodup := hs.toWellFormed.nodup nu.parent
    rcases (Precedes.insertBefore_iff hnodup hmem hfresh).1 hprec with hp | ⟨he, -⟩ | ⟨-, hp⟩
    · exact absurd hp.mem_right hfresh
    · exact absurd he (hc.ne hnu)
    · exact absurd rfl (hp.ne hnodup)

theorem ReadsFor.early (h : ReadsFor old storage type loc us m m') (hs : Sound m)
    (hf : m.Foremost block decl) (hst : m.def? storage = some (.result decl i)) :
    m'.Foremost block decl ∧ ∀ {w v d}, m'.Early block w v d → w ∉ us ∧ m.Early block w v d := by
  induction h with
  | nil => exact ⟨hf, fun he => ⟨List.not_mem_nil, he⟩⟩
  | cons h _ ih =>
    obtain ⟨hf₁, hback⟩ := h.early hs hf hst
    obtain ⟨hf', hrest⟩ := ih h.sound hf₁ (h.kept.def? hst)
    refine ⟨hf', fun he => ?_⟩
    obtain ⟨hnot, he₁⟩ := hrest he
    obtain ⟨hne, he₀⟩ := hback he₁
    exact ⟨List.not_mem_cons_of_ne_of_not_mem hne hnot, he₀⟩

/-- A value that has a temporary at the front of the block is not used early there. -/
theorem SpillsResult.early {name : Option Name} (h : m.SpillsResult id result name true m')
    (hs : Sound m) (hid : id ∈ m.nodesOf block) (he : m'.Early block u v d) :
    v ≠ result ∧ m.Early block u v d := by
  have hs' := h.sound
  obtain ⟨hn, hres, -, hdecl, -, hs₁, huses, -, hreads, hconn, hs₃, rfl⟩ := h
  rename_i n type stype decl conn storage uses m₁ m₂
  obtain ⟨n₀, hn₀, rfl⟩ := hs.toWellFormed.mem_nodesOf_iff.1 hid
  obtain rfl := Option.some.inj (hn.symm.trans hn₀)
  have hst : m₁.def? storage = some (.result decl 0) := hdecl.def?_result (i := 0) rfl
  have hf₁ : m₁.Foremost n.parent decl := by
    refine ⟨⟨_, hdecl.live?_self, rfl⟩, fun a hprec => ?_⟩
    have hlist : m₁.nodesOf n.parent = decl :: m.nodesOf n.parent := by
      rw [hdecl.nodesOf, if_pos rfl]
      rfl
    have hnodup := hs₁.toWellFormed.nodup n.parent
    rw [hlist] at hprec hnodup
    exact Precedes.not_head hnodup hprec
  obtain ⟨hf₂, hback⟩ := hreads.early hs₁ hf₁ hst
  have hs₂ := hreads.sound hs₁
  obtain ⟨ops, hid₂⟩ := hreads.live (hdecl.live hn)
  have hmem : id ∈ m₂.nodesOf n.parent := hs₂.toWellFormed.mem_nodesOf_iff.2 ⟨_, hid₂, rfl⟩
  have hf' := hf₂.creates hs₂ hconn (Or.inr rfl) hmem (hdecl.ne hn).symm
  rcases hconn.early_cases hs₂ he with he₂ | ⟨hnode, hv⟩
  · obtain ⟨hnot, he₁⟩ := hback he₂
    have hne : v ≠ result := fun hv => hnot ((huses u).2 (hv ▸ he₁.uses))
    rcases hdecl.early_cases hs he₁ with he₀ | ⟨-, hv⟩
    · exact ⟨hne, he₀⟩
    · cases hv
  · -- The connection comes right after the node, and after the declaration.
    obtain ⟨j, a, hdef, huse, haround, hprec⟩ := he
    rw [hnode] at haround
    have hcmem : conn ∈ m'.nodesOf n.parent :=
      hs'.toWellFormed.mem_nodesOf_iff.2 ⟨_, hconn.live?_self, rfl⟩
    obtain rfl := haround.eq_of_mem hs' hprec.mem_left hcmem
    obtain rfl | rfl : v = storage ∨ v = result := by simpa [Node.fresh] using hv
    · have hdef' := hconn.kept.def? (hreads.kept.def? hst)
      obtain ⟨rfl, -⟩ : decl = d ∧ 0 = j := by simpa using hdef'.symm.trans hdef
      exact absurd hprec (hf'.first a)
    · obtain ⟨k, hresult⟩ := hs.toWellFormed.exists_def hn hres
      have hdef' := hconn.kept.def? (hreads.kept.def? (hdecl.kept.def? hresult))
      obtain ⟨rfl, -⟩ : id = d ∧ k = j := by simpa using hdef'.symm.trans hdef
      rw [hconn.nodesOf, if_pos rfl] at hprec
      have hnodup := hs₂.toWellFormed.nodup n.parent
      have hfresh : a ∉ m₂.nodesOf n.parent := fun hm => by
        obtain ⟨nid, hnid, -⟩ := hs₂.toWellFormed.mem_nodesOf_iff.1 hm
        exact hconn.ne hnid rfl
      rcases (Precedes.insertAfter_iff hnodup hmem hfresh).1 hprec with hp | ⟨-, hp⟩ | ⟨he, -⟩
      · exact absurd hp.mem_left hfresh
      · exact absurd rfl (hp.ne hnodup)
      · exact absurd he (hconn.ne hid₂)

theorem SpillsResults.early {vs : List ValueId} (h : SpillsResults id true vs m m') (hs : Sound m)
    (hid : id ∈ m.nodesOf block) (he : m'.Early block u v d) : v ∉ vs ∧ m.Early block u v d := by
  induction h with
  | nil => exact ⟨List.not_mem_nil, he⟩
  | cons h _ ih =>
    obtain ⟨n, hn, hp⟩ := hs.toWellFormed.mem_nodesOf_iff.1 hid
    obtain ⟨ops, hn₁⟩ := h.live hn
    obtain ⟨hnot, he₁⟩ := ih h.sound (h.sound.toWellFormed.mem_nodesOf_iff.2 ⟨_, hn₁, hp⟩) he
    obtain ⟨hne, he₀⟩ := h.early hs hid he₁
    exact ⟨List.not_mem_cons_of_ne_of_not_mem hne hnot, he₀⟩

/-- What a node with temporaries at the front of its block computes is not used early there. -/
theorem Spills.early (h : m.Spills id true m') (hs : Sound m) (hid : id ∈ m.nodesOf block)
    (he : m'.Early block u v d) : d ≠ id ∧ m.Early block u v d := by
  have hback : (∀ n, m.live? id = some n → v ∉ n.results) ∧ m.Early block u v d := by
    cases h with
    | single hn hv hl hs₁ h =>
      obtain ⟨hne, he₁⟩ := h.early hs₁ (hl.nodesOf block ▸ hid) he
      refine ⟨fun n' hn' => ?_, hl.early he₁⟩
      obtain rfl := Option.some.inj (hn.symm.trans hn')
      simpa [hv] using hne
    | all hn h =>
      obtain ⟨hnot, he₀⟩ := h.early hs hid he
      refine ⟨fun n' hn' => ?_, he₀⟩
      obtain rfl := Option.some.inj (hn.symm.trans hn')
      exact hnot
  obtain ⟨hnot, he₀⟩ := hback
  refine ⟨?_, he₀⟩
  rintro rfl
  obtain ⟨n, hn, -⟩ := hs.toWellFormed.mem_nodesOf_iff.1 hid
  obtain ⟨i, -, hdef, -⟩ := he₀
  obtain ⟨n', hn', hi⟩ := hs.toWellFormed.definition hdef
  obtain rfl := Option.some.inj ((core_of_live? hn).symm.trans hn')
  exact hnot n hn (List.mem_of_getElem? hi)

end Module

end NetPrep
