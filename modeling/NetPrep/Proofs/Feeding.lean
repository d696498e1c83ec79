import Mathlib
import NetPrep.Proofs.Acts

/-!
# Where operands come from

`Module.Fed` says that every node stands where its users find it: a node that is printed at its uses,
or stands in procedural code, is in the block of the user or further out, and in procedural code it
comes before the user. Settling takes nodes out of their places for a while; those that are still to
be put before their users are given as a worklist.
-/

namespace NetPrep

open Prepare Prep

namespace Module

variable {m m' : Module} {W W' : List NodeId} {T : NodeId → Prop} {a d e j k u id r w x : NodeId}
  {n nd nu : Node} {b c : BlockId} {pos : Position} {types : List TypeId} {v x' y : ValueId}

/-- A node has a result of another one, or of its own, among its operands. -/
def Takes (m : Module) (u d : NodeId) : Prop :=
  ∃ k v i, m.Uses ⟨u, k⟩ v ∧ m.def? v = some (.result d i)

/-- A node comes before another one, or before a node around it. -/
def Dominates (m : Module) (d u : NodeId) : Prop :=
  ∃ b a, m.Around a u ∧ Precedes (m.nodesOf b) d a

/-- A node is in the block of another one or further out. -/
def Encloses (m : Module) (d u : NodeId) : Prop :=
  ∃ nd nu, m.live? d = some nd ∧ m.live? u = some nu ∧ m.Inside nd.parent nu.parent

def InGraph (m : Module) (d : NodeId) : Prop :=
  ∃ nd, m.live? d = some nd ∧ m.kind? nd.parent = some .graph

/-- A node of a graph block that is not printed at its uses can be used from anywhere. -/
def Free (m : Module) (d : NodeId) : Prop := m.InGraph d ∧ ¬ IsInline m d

/-- All that is printed inside a node, at any depth, takes besides only what can be used from
anywhere. -/
def Roams (m : Module) (d : NodeId) : Prop :=
  ∃ R : NodeId → Prop, R d ∧ ∀ j, R j → ∀ e, m.Takes j e → m.Free e ∨ (IsInline m e ∧ R e)

/-- A node stands where one that takes it finds it, or is on a worklist. Assignments of graph blocks
can be displaced, and with them what is printed inside them. -/
structure Supplies (m : Module) (W : List NodeId) (d u : NodeId) : Prop where
  inside : m.Free d ∨ (d ∈ W ∧ m.Roams d) ∨ m.Encloses d u
  ahead : m.InGraph d ∨ m.HasOp (· = .assign) u ∨ (IsInline m u ∧ ¬ IsInline m d) ∨
    (d ∈ W ∧ d ≠ u) ∨ m.Dominates d u

/-- Every node stands where those that take it find it, or is on a worklist. -/
def Fed (m : Module) (W : List NodeId) : Prop := ∀ ⦃u d⦄, m.Takes u d → m.Supplies W d u

/-! ## Places of nodes -/

theorem Takes.live_left (h : m.Takes u d) : ∃ n, m.live? u = some n := by
  obtain ⟨k, v, i, ⟨n, hn, -⟩, -⟩ := h
  exact ⟨n, hn⟩

theorem Takes.live_right (h : m.Takes u d) (hw : WellFormed m) : ∃ n, m.live? d = some n := by
  obtain ⟨k, v, i, hu, hdef⟩ := h
  obtain ⟨x, hx, hlive⟩ := hw.operand hu
  obtain rfl := Option.some.inj (hx.symm.trans hdef)
  exact hlive rfl

theorem Roams.takes (h : m.Roams d) (hde : m.Takes d e) :
    m.Free e ∨ (IsInline m e ∧ m.Roams e) := by
  obtain ⟨R, hd, hR⟩ := h
  exact (hR d hd e hde).imp_right fun h => ⟨h.1, R, h.2, hR⟩

theorem isInline_of_live (hn : m.live? id = some n) (hop : n.op.isAlwaysInline = true) :
    IsInline m id := ⟨n, core_of_live? hn, hop⟩

theorem not_isInline_of_live (hn : m.live? id = some n) (hop : n.op.isAlwaysInline = false) :
    ¬ IsInline m id := fun h =>
  absurd (hop.symm.trans (HasOp.of_live (p := (·.isAlwaysInline = true)) h hn)) Bool.false_ne_true

/-- A node is around another one as before if that one stays in its block. -/
theorem Around.of_sameTree (h : m.Around a u) (ht : SameTree m m')
    (hu : ∃ n n', m.live? u = some n ∧ m'.live? u = some n' ∧ n'.parent = n.parent) :
    m'.Around a u := by
  induction h with
  | self =>
    obtain ⟨-, n', -, hn', -⟩ := hu
    exact .self hn'
  | @up j k hown _ ih =>
    obtain ⟨n, na, hn, ha, hmem⟩ := hown
    obtain ⟨n₀, n', hn₀, hn', hp⟩ := hu
    obtain rfl := Option.some.inj (hn.symm.trans hn₀)
    obtain ⟨na', ha', -, hreg, hpa⟩ := ht.owner ha (List.ne_nil_of_mem hmem)
    exact .up ⟨n', na', hn', ha', by rw [hp, hreg]; exact hmem⟩ (ih ⟨na, na', ha, ha', hpa⟩)

/-- What is around another node owns blocks. -/
theorem Around.eq_or_regions (h : m.Around a u) :
    a = u ∨ ∃ n, m.live? a = some n ∧ n.regions ≠ [] := by
  induction h with
  | self => exact Or.inl rfl
  | up hown _ ih =>
    obtain rfl | h := ih
    · exact Or.inr hown.regions
    · exact Or.inr h

theorem Dominates.encloses (h : m.Dominates d u) (hw : WellFormed m)
    (hu : m.live? u = some nu) : m.Encloses d u := by
  obtain ⟨b, a, ha, hp⟩ := h
  obtain ⟨nd, hnd, hpd⟩ := hw.mem_nodesOf_iff.1 hp.mem_left
  obtain ⟨na, hna, hpa⟩ := hw.mem_nodesOf_iff.1 hp.mem_right
  exact ⟨nd, nu, hnd, hu, hpd.trans hpa.symm ▸ ha.inside hna hu⟩

/-- Of two nodes of one block the one that dominates the other comes before it. -/
theorem Dominates.precedes (h : m.Dominates d u) (hs : Sound m) (hd : d ∈ m.nodesOf b)
    (hu : u ∈ m.nodesOf b) : Precedes (m.nodesOf b) d u := by
  obtain ⟨c, a, ha, hp⟩ := h
  obtain ⟨nd, hnd, rfl⟩ := hs.mem_nodesOf_iff.1 hd
  obtain ⟨nd', hnd', rfl⟩ := hs.mem_nodesOf_iff.1 hp.mem_left
  obtain rfl := Option.some.inj (hnd.symm.trans hnd')
  cases ha with
  | self => exact hp
  | up hown hrest =>
    -- Otherwise the block of the two is nested in itself.
    obtain ⟨na, hna, hpa⟩ := hs.mem_nodesOf_iff.1 hp.mem_right
    obtain ⟨nu, nk, hnu, hk, hmem⟩ := hown
    obtain ⟨nu', hnu', hpu⟩ := hs.mem_nodesOf_iff.1 hu
    obtain rfl := Option.some.inj (hnu.symm.trans hnu')
    refine absurd ?_ (hs.not_inside_region hk hmem)
    rw [hpu, ← hpa]
    exact hrest.inside hna hk

theorem Dominates.ne (h : m.Dominates d u) (hs : Sound m) : d ≠ u := by
  rintro rfl
  obtain ⟨b, a, ha, hp⟩ := id h
  have hd := hp.mem_left
  exact (h.precedes hs hd hd).ne (hs.nodup b) rfl

section

variable (hf : Frame T m m') (ht : SameTree m m')
  (hT : ∀ j n, T j → m.live? j = some n → n.regions = [])

include hf ht

theorem Encloses.frame (h : m.Encloses d u) (hd : ¬ T d) (hu : ¬ T u) : m'.Encloses d u := by
  obtain ⟨nd, nu, hnd, hnu, hin⟩ := h
  obtain ⟨nd', hnd', hpd⟩ := hf.live hnd hd
  obtain ⟨nu', hnu', hpu⟩ := hf.live hnu hu
  exact ⟨nd', nu', hnd', hnu', hpd ▸ hpu ▸ ht.inside hin⟩

omit ht in
theorem InGraph.frame (h : m.InGraph d) (hd : ¬ T d) : m'.InGraph d := by
  obtain ⟨nd, hnd, hk⟩ := h
  obtain ⟨nd', hnd', hpd⟩ := hf.live hnd hd
  exact ⟨nd', hnd', by rw [hpd, hf.kept.kind?, hk]⟩

omit ht in
theorem Free.frame (h : m.Free d) (hd : ¬ T d) : m'.Free d := by
  obtain ⟨hg, hinline⟩ := h
  obtain ⟨nd, hnd, -⟩ := id hg
  exact ⟨hg.frame hf hd, fun hin => hinline (hin.of_kept hf.kept hnd)⟩

include hT

theorem Dominates.frame (h : m.Dominates d u) (hd : ¬ T d) (hu : ¬ T u)
    (hlive : m.live? u = some nu) : m'.Dominates d u := by
  obtain ⟨b, a, ha, hp⟩ := h
  obtain ⟨nu', hnu', hpu⟩ := hf.live hlive hu
  have hta : ¬ T a := by
    obtain rfl | ⟨na, hna, hreg⟩ := ha.eq_or_regions
    · exact hu
    · exact fun hta => hreg (hT a na hta hna)
  exact ⟨b, a, ha.of_sameTree ht ⟨nu, nu', hlive, hnu', hpu⟩,
    (hf.order hd hta hp.mem_left hp.mem_right).2 hp⟩

theorem Supplies.frame (h : m.Supplies W d u) (hd : ¬ T d) (hu : ¬ T u) (hnd : m.live? d = some nd)
    (hnu : m.live? u = some nu) (hroams : d ∈ W → m.Roams d → m'.Roams d) : m'.Supplies W d u where
  inside := by
    obtain h | ⟨hW, h⟩ | h := h.inside
    · exact Or.inl (h.frame hf hd)
    · exact Or.inr (Or.inl ⟨hW, hroams hW h⟩)
    · exact Or.inr (Or.inr (h.frame hf ht hd hu))
  ahead := by
    obtain h | h | ⟨h, h'⟩ | h | h := h.ahead
    · exact Or.inl (h.frame hf hd)
    · exact Or.inr (Or.inl (h.mono hf.kept))
    · exact Or.inr (Or.inr (Or.inl ⟨h.mono hf.kept, fun hin => h' (hin.of_kept hf.kept hnd)⟩))
    · exact Or.inr (Or.inr (Or.inr (Or.inl h)))
    · exact Or.inr (Or.inr (Or.inr (Or.inr (h.frame hf ht hT hd hu hnu))))

/-- A step feeds every node if it does so where it moves a node or lets a node take another one. -/
theorem Fed.step (hm : m.Fed W) (hw : WellFormed m)
    (hroams : ∀ d ∈ W, ∀ nd, m.live? d = some nd → m.Roams d → m'.Roams d)
    (hnew : ∀ u d, m'.Takes u d → (m.Takes u d ∧ ¬ T u ∧ ¬ T d) ∨ m'.Supplies W d u) : m'.Fed W := by
  intro u d h
  obtain ⟨hold, hu, hd⟩ | h := hnew u d h
  · obtain ⟨nd, hnd⟩ := hold.live_right hw
    obtain ⟨nu, hnu⟩ := hold.live_left
    exact (hm hold).frame hf ht hT hd hu hnd hnu fun hW => hroams d hW nd hnd
  · exact h

end

theorem Supplies.mono (h : m.Supplies W d u) (hW : W ⊆ W') : m.Supplies W' d u where
  inside := h.inside.imp_right (Or.imp_left fun h => ⟨hW h.1, h.2⟩)
  ahead := h.ahead.imp_right (Or.imp_right (Or.imp_right (Or.imp_left fun h => ⟨hW h.1, h.2⟩)))

theorem Fed.mono (h : m.Fed W) (hW : W ⊆ W') : m.Fed W' := fun _ _ hud => (h hud).mono hW

/-! ## Where a node can be taken -/

theorem Supplies.of_free (h : m.Free d) : m.Supplies W d u := ⟨Or.inl h, Or.inl h.1⟩

theorem Supplies.of_inGraph (h : m.InGraph d) (hin : m.Encloses d u) : m.Supplies W d u :=
  ⟨Or.inr (Or.inr hin), Or.inl h⟩

theorem Supplies.of_assign (h : m.HasOp (· = .assign) u) (hin : m.Encloses d u) : m.Supplies W d u :=
  ⟨Or.inr (Or.inr hin), Or.inr (Or.inl h)⟩

theorem Supplies.of_dominates (h : m.Dominates d u) (hw : WellFormed m) (hu : m.live? u = some nu) :
    m.Supplies W d u :=
  ⟨Or.inr (Or.inr (h.encloses hw hu)), Or.inr (Or.inr (Or.inr (Or.inr h)))⟩

theorem Supplies.of_precedes (h : Precedes (m.nodesOf b) d u) (hw : WellFormed m) :
    m.Supplies W d u := by
  obtain ⟨nu, hnu, -⟩ := hw.mem_nodesOf_iff.1 h.mem_right
  exact of_dominates ⟨b, u, .self hnu, h⟩ hw hnu

/-- What is printed at its uses finds what is printed inside it on the worklist. -/
theorem Supplies.of_inline (hin : m.Free d ∨ (d ∈ W ∧ m.Roams d) ∨ m.Encloses d u) (hu : IsInline m u)
    (hd : IsInline m d → d ∈ W ∧ d ≠ u) : m.Supplies W d u where
  inside := hin
  ahead := by
    by_cases h : IsInline m d
    · exact Or.inr (Or.inr (Or.inr (Or.inl (hd h))))
    · exact Or.inr (Or.inr (Or.inl ⟨hu, h⟩))

/-! ## Steps -/

theorem Takes.of_kept {k i : Nat} (hk : m.Kept m') (hw : WellFormed m) (hu : m.Uses ⟨u, k⟩ v)
    (hdef : m'.def? v = some (.result d i)) : m.Takes u d ∧ m.def? v = some (.result d i) := by
  obtain ⟨x, hx, -⟩ := hw.operand hu
  obtain rfl := Option.some.inj ((hk.def? hx).symm.trans hdef)
  exact ⟨⟨k, v, i, hu, hx⟩, hx⟩

theorem Takes.mono (h : m.Takes u d) (hk : m.Kept m') (hu : ∀ {k v}, m.Uses ⟨u, k⟩ v → m'.Uses ⟨u, k⟩ v) :
    m'.Takes u d := by
  obtain ⟨k, v, i, huse, hdef⟩ := h
  exact ⟨k, v, i, hu huse, hk.def? hdef⟩

theorem Creates.takes (h : m.Creates m' b pos id n types) (hw : WellFormed m) (hud : m'.Takes u d) :
    m.Takes u d ∨ (u = id ∧ ∃ v ∈ n.operands, ∃ i, m'.def? v = some (.result d i)) := by
  obtain ⟨k, v, i, huse, hdef⟩ := hud
  obtain huse | ⟨hid, hv⟩ := h.uses_iff.1 huse
  · exact Or.inl (Takes.of_kept h.kept hw huse hdef).1
  · exact Or.inr ⟨hid, v, List.mem_of_getElem? hv, i, hdef⟩

theorem Redirects.takes_pointAt {w : Use} (h : m.Redirects m' (pointAt w x')) (hw : m.Uses w y)
    (hud : m'.Takes u d) : m.Takes u d ∨ (u = w.node ∧ ∃ i, m.def? x' = some (.result d i)) := by
  obtain ⟨k, v, i, huse, hdef⟩ := hud
  rw [h.uses_pointAt_iff hw] at huse
  rw [h.def?] at hdef
  split at huse
  · next he => exact Or.inr ⟨congrArg Use.node he, i, huse ▸ hdef⟩
  · exact Or.inl ⟨k, v, i, huse, hdef⟩

theorem Redirects.takes_substitute (h : m.Redirects m' (substitute y x')) (hud : m'.Takes u d) :
    m.Takes u d ∨ ∃ k i, m.Uses ⟨u, k⟩ y ∧ m.def? x' = some (.result d i) := by
  obtain ⟨k, v, i, huse, hdef⟩ := hud
  rw [h.def?] at hdef
  obtain ⟨huse, rfl⟩ | ⟨-, huse⟩ := h.uses_substitute_iff.1 huse
  · exact Or.inr ⟨k, i, huse, hdef⟩
  · exact Or.inl ⟨k, v, i, huse, hdef⟩

theorem Moves.takes_iff (h : m.Moves m' b pos id) : m'.Takes u d ↔ m.Takes u d := by
  simp only [Takes, h.uses_iff, h.def?]

theorem Relabels.takes_iff {name : Option Name → Option Name} {twoState : Bool → Bool}
    (h : m.Relabels m' id name twoState) : m'.Takes u d ↔ m.Takes u d := by
  simp only [Takes, h.uses_iff, h.def?]

theorem Erases.takes (h : m.Erases m' id) (hud : m'.Takes u d) : m.Takes u d ∧ u ≠ id := by
  obtain ⟨k, v, i, huse, hdef⟩ := hud
  obtain ⟨huse, hne⟩ := h.uses_iff.1 huse
  exact ⟨⟨k, v, i, huse, (h.def? v) ▸ hdef⟩, hne⟩

/-! ## Settling -/

/-- The node `k`, which is another one or a copy of it, is put before a node that takes that one. -/
structure PutBefore (id k u : NodeId) (m m' : Module) : Prop where
  sound : Sound m'
  sameTree : SameTree m m'
  frame : Frame (· = k) m m'
  inline : IsInline m id
  inline_put : IsInline m' k
  user : m.Takes u id
  node : (k = id ∧ u ≠ id ∧ ∀ x, m.Takes x id → x = u) ∨ m.live? k = none
  before : ∃ b, u ∈ m.nodesOf b ∧ Precedes (m'.nodesOf b) k u
  takes_cases : ∀ {x e}, m'.Takes x e →
    (x = k ∧ m.Takes id e) ∨ (x = u ∧ e = k) ∨ (x ≠ k ∧ e ≠ k ∧ m.Takes x e)
  takes : ∀ {x e}, m.Takes x e → m'.Takes x e ∨ (x = u ∧ e = id)

theorem InlineStep.exists_putBefore (h : InlineStep id m m') (hs : Sound m) :
    ∃ k u, PutBefore id k u m m' := by
  have hframe := h.frame hs.toWellFormed
  have htree := (h.edits hs).sameTree
  cases h with
  | @clone k n nu v copy u type m₁ hn hop hv hu hnu htype hc hs₁ hr hs' =>
    have hdef : m.def? v = some (.result id 0) := hs.result (core_of_live? hn) (by simp [hv])
    have huse₁ : m₁.Uses u v := hc.uses_iff.2 (Or.inl hu)
    have hne : ∀ {x nx}, m.live? x = some nx → x ≠ k := fun hx => hc.ne hx
    have hcopy : m₁.def? copy = some (.result k 0) := hc.def?_result rfl
    have hlive : m.live? k = none := by
      cases hk : m.live? k with
      | none => rfl
      | some nk => exact absurd rfl (hne hk)
    have hput := hr.live hc.live?_self
    refine ⟨k, u.node, hs', htree, ?_, isInline_of_live hn hop, isInline_of_live hput hop,
      ⟨u.operand, v, 0, hu, hdef⟩, Or.inr hlive, ⟨nu.parent, hs.mem_nodesOf hnu, ?_⟩, fun {x e} hxe => ?_,
      fun {x e} hxe => ?_⟩
    · exact (hc.frame hs.toWellFormed (Op.isMade_of_isAlwaysInline hop)).trans
        hr.frame hs.toWellFormed hs₁.toWellFormed fun _ _ _ ht => ht
    · rw [hr.nodesOf, hc.nodesOf, if_pos rfl]
      exact (Precedes.insertBefore_iff (hs.nodup _) (hs.mem_nodesOf hnu) fun hmem => by
        obtain ⟨nk, hk, -⟩ := hs.mem_nodesOf_iff.1 hmem
        exact hne hk rfl).2 (Or.inr (Or.inl ⟨rfl, Or.inl rfl⟩))
    · obtain h | ⟨rfl, i, hi⟩ := hr.takes_pointAt huse₁ hxe
      · obtain h | ⟨rfl, w, hw, i, hi⟩ := hc.takes hs.toWellFormed h
        · obtain ⟨nx, hx⟩ := h.live_left
          obtain ⟨ne, he⟩ := h.live_right hs.toWellFormed
          exact Or.inr (Or.inr ⟨hne hx, hne he, h⟩)
        · obtain ⟨j, hj⟩ := exists_uses_of_mem hn hw
          exact Or.inl ⟨rfl, (Takes.of_kept hc.kept hs.toWellFormed hj hi).1⟩
      · obtain ⟨rfl, -⟩ : k = e ∧ 0 = i := by simpa using hcopy.symm.trans hi
        exact Or.inr (Or.inl ⟨rfl, rfl⟩)
    · obtain ⟨j, w, i, hj, hi⟩ := hxe
      by_cases hju : (⟨x, j⟩ : Use) = u
      · subst hju
        obtain ⟨n₁, hn₁, h₁⟩ := hj
        obtain ⟨n₂, hn₂, h₂⟩ := hu
        obtain rfl := Option.some.inj (hn₁.symm.trans hn₂)
        obtain rfl := Option.some.inj (h₁.symm.trans h₂)
        obtain ⟨rfl, -⟩ : id = e ∧ 0 = i := by simpa using hdef.symm.trans hi
        exact Or.inr ⟨rfl, rfl⟩
      · refine Or.inl ⟨j, w, i, ?_, (hr.def? w).trans (hc.kept.def? hi)⟩
        rw [hr.uses_pointAt_iff huse₁, if_neg hju]
        exact hc.uses_iff.2 (Or.inl hj)
  | @move n nu v u hn hop hv honly hnu hne hm hs' =>
    have hu := (honly u).2 rfl
    have hdef : m.def? v = some (.result id 0) := hs.result (core_of_live? hn) (by simp [hv])
    have htake : m.Takes u.node id := ⟨u.operand, v, 0, hu, hdef⟩
    have honly' : ∀ x, m.Takes x id → x = u.node := by
      rintro x ⟨j, w, i, hj, hi⟩
      obtain ⟨n', hn', hget⟩ := hs.definition hi
      obtain rfl := Option.some.inj ((core_of_live? hn).symm.trans hn')
      obtain rfl : w = v := by
        rw [hv] at hget
        exact List.mem_singleton.1 (List.mem_of_getElem? hget)
      exact congrArg Use.node ((honly _).1 hj)
    refine ⟨id, u.node, hs', htree, hframe, isInline_of_live hn hop,
      isInline_of_live (hm.live hn) hop, htake, Or.inl ⟨rfl, hne, honly'⟩, ⟨nu.parent,
      hs.mem_nodesOf hnu, hm.precedes_before hs.toWellFormed (hs.mem_nodesOf hnu) hne⟩,
      fun {x e} hxe => ?_, fun hxe => Or.inl (hm.takes_iff.2 hxe)⟩
    rw [hm.takes_iff] at hxe
    by_cases hx : x = id
    · exact Or.inl ⟨hx, hx ▸ hxe⟩
    · by_cases he : e = id
      · exact Or.inr (Or.inl ⟨honly' x (he ▸ hxe), he⟩)
      · exact Or.inr (Or.inr ⟨hx, he, hxe⟩)

namespace PutBefore

variable {k : NodeId} (h : PutBefore id k u m m') (hs : Sound m)

include h in
theorem regions (hs : Sound m) (hn : m.live? k = some n) : n.regions = [] := by
  obtain ⟨n', hn', hop⟩ := h.inline
  obtain ⟨rfl, -⟩ | hnone := h.node
  · obtain rfl := Option.some.inj ((core_of_live? hn).symm.trans hn')
    exact hs.toNested.regions_eq_nil hn (Op.regionKinds_of_isAlwaysInline hop)
  · rw [hnone] at hn
    cases hn

include h hs

/-- What is printed inside the node is neither the node nor its copy. -/
theorem ne_of_takes (he : m.Takes id e) : e ≠ k := by
  rintro rfl
  obtain ⟨rfl, hne, honly⟩ | hnone := h.node
  · exact hne (honly e he).symm
  · obtain ⟨ne, hlive⟩ := he.live_right hs.toWellFormed
    rw [hnone] at hlive
    cases hlive

omit hs in
theorem user_ne : u ≠ k := by
  rintro rfl
  obtain ⟨rfl, hne, -⟩ | hnone := h.node
  · exact hne rfl
  · obtain ⟨nu, hnu⟩ := h.user.live_left
    rw [hnone] at hnu
    cases hnu

theorem roams_of (hd : (d = k ∧ m.Roams id) ∨ (d ≠ k ∧ m.Roams d)) : m'.Roams d := by
  refine ⟨fun j => (j = k ∧ m.Roams id) ∨ (j ≠ k ∧ m.Roams j), hd, fun j hj e hje => ?_⟩
  have hold : ∀ {e}, e ≠ k → m.Free e ∨ (IsInline m e ∧ m.Roams e) →
      m'.Free e ∨ (IsInline m' e ∧ ((e = k ∧ m.Roams id) ∨ (e ≠ k ∧ m.Roams e))) :=
    fun hne he => he.imp (·.frame h.frame hne) fun he =>
      ⟨he.1.mono h.frame.kept, Or.inr ⟨hne, he.2⟩⟩
  obtain ⟨rfl, he⟩ | ⟨rfl, rfl⟩ | ⟨hx, hne, he⟩ := h.takes_cases hje
  · obtain ⟨-, hid⟩ := hj.resolve_right fun hj => hj.1 rfl
    exact hold (h.ne_of_takes hs he) (hid.takes he)
  · obtain ⟨-, hu⟩ := hj.resolve_left fun hj => h.user_ne hj.1
    have hid := (hu.takes h.user).resolve_left fun hfree => hfree.2 h.inline
    exact Or.inr ⟨h.inline_put, Or.inl ⟨rfl, hid.2⟩⟩
  · exact hold hne ((hj.resolve_left fun hj => hx hj.1).2.takes he)

theorem roams (hd : m.live? d = some nd) (hroams : m.Roams d) : m'.Roams d := by
  refine h.roams_of hs ?_
  by_cases hdk : d = k
  · subst hdk
    obtain ⟨rfl, -⟩ | hnone := h.node
    · exact Or.inl ⟨rfl, hroams⟩
    · rw [hnone] at hd
      cases hd
  · exact Or.inr ⟨hdk, hroams⟩

/-- Nodes are fed as before once a node is put before one that takes it, if what is printed inside it is
on the worklist. -/
theorem fed (hm : m.Fed W) (hinner : ∀ e, IsInline m e → m.Takes id e → e ∈ W) : m'.Fed W := by
  have hk := h.frame.kept
  refine hm.step h.frame h.sameTree (fun j n hj hn => h.regions hs (hj ▸ hn)) hs.toWellFormed
    (fun d _ nd hnd => h.roams hs hnd) fun x e hxe => ?_
  obtain ⟨rfl, he⟩ | ⟨rfl, rfl⟩ | ⟨hx, hne, hold⟩ := h.takes_cases hxe
  · have hne := h.ne_of_takes hs he
    obtain ⟨n₁, hn₁⟩ := he.live_right hs.toWellFormed
    refine Or.inr (.of_inline ?_ h.inline_put fun hin => ⟨hinner e (hin.of_kept hk hn₁) he, hne⟩)
    obtain hfree | ⟨hW, hr⟩ | ⟨ne, ni, hne', hni, hin⟩ := (hm he).inside
    · exact Or.inl (hfree.frame h.frame hne)
    · exact Or.inr (Or.inl ⟨hW, h.roams hs hn₁ hr⟩)
    · -- It is around the node, and so around the one that takes the node.
      obtain hfree | ⟨-, hr⟩ | ⟨ni', nu, hni', hnu, hin'⟩ := (hm h.user).inside
      · exact absurd h.inline hfree.2
      · exact (hr.takes he).imp (·.frame h.frame hne) fun hr =>
          Or.inl ⟨hinner e hr.1 he, h.roams hs hn₁ hr.2⟩
      · obtain rfl := Option.some.inj (hni.symm.trans hni')
        obtain ⟨b, hu, hbefore⟩ := h.before
        obtain ⟨nu', hnu', rfl⟩ := hs.mem_nodesOf_iff.1 hu
        obtain rfl := Option.some.inj (hnu.symm.trans hnu')
        obtain ⟨nk, hnk, hp⟩ := h.sound.mem_nodesOf_iff.1 hbefore.mem_left
        obtain ⟨ne', hlive, hpe⟩ := h.frame.live hne' hne
        refine Or.inr (Or.inr ⟨ne', nk, hlive, hnk, ?_⟩)
        rw [hpe, hp]
        exact h.sameTree.inside (hin.trans hin')
  · obtain ⟨b, -, hbefore⟩ := h.before
    exact Or.inr (.of_precedes hbefore h.sound.toWellFormed)
  · exact Or.inl ⟨hold, hx, hne⟩

end PutBefore

/-- What is printed at its uses and takes part in a node is used there. -/
theorem Fitted.uses_of_takes (hf : m.Fitted) (hw : WellFormed m) (hud : m.Takes u d)
    (hin : IsInline m d) :
    ∃ n v k, m.live? d = some n ∧ n.results = [v] ∧ m.Uses ⟨u, k⟩ v := by
  obtain ⟨n, hn⟩ := hud.live_right hw
  obtain ⟨k, v, i, huse, hdef⟩ := hud
  have hop : n.op.isAlwaysInline = true := HasOp.of_live (p := (·.isAlwaysInline = true)) hin hn
  obtain ⟨w, hres⟩ := (hf hn).result (by simp [hop])
  obtain ⟨n', hn', hget⟩ := hw.definition hdef
  obtain rfl := Option.some.inj ((core_of_live? hn).symm.trans hn')
  obtain rfl : v = w := by
    rw [hres] at hget
    exact List.mem_singleton.1 (List.mem_of_getElem? hget)
  exact ⟨n, v, k, hn, hres, huse⟩

theorem innerOf_of_takes (hd : IsInline m d) (hu : IsInline m u) (hud : m.Takes u d) :
    InnerOf m u d := by
  obtain ⟨k, v, i, ⟨n, hn, hget⟩, hdef⟩ := hud
  exact ⟨hd, n, hn, HasOp.of_live (p := (·.isAlwaysInline = true)) hu hn, v,
    List.mem_of_getElem? hget, i, hdef⟩

/-- A node can leave the worklist once it stands before each node that takes it. -/
theorem Fed.drop {l : List NodeId} (hm : m.Fed W) (hw : WellFormed m) (hf : m.Fitted)
    (hin : IsInline m id) (hrests : m.Rests id l) (hW : ∀ d ∈ W, d ≠ id → d ∈ W') : m.Fed W' := by
  intro u d hud
  obtain ⟨hinside, hahead⟩ := hm hud
  by_cases hd : d = id
  · subst hd
    obtain ⟨n, v, k, hn, hres, huse⟩ := hf.uses_of_takes hw hud hin
    obtain hself | ⟨-, hbefore⟩ := hrests
    · obtain rfl := hself hn hres huse
      refine ⟨Or.inr (Or.inr ⟨n, n, hn, hn, .self⟩), ?_⟩
      exact hahead.imp_right (Or.imp_right (Or.imp_right (Or.imp_left fun h => absurd rfl h.2)))
    · obtain ⟨b, hp⟩ := hbefore hn hres huse
      exact .of_precedes hp hw
  · exact ⟨hinside.imp_right (Or.imp_left fun h => ⟨hW d h.1 hd, h.2⟩),
      hahead.imp_right (Or.imp_right (Or.imp_right (Or.imp_left fun h => ⟨hW d h.1 hd, h.2⟩)))⟩

/-- A node is settled in time: it is on the worklist, or gets there with a node that is printed
elsewhere than inside itself. -/
def Due (m : Module) (l : List NodeId) (w : NodeId) : Prop :=
  w ∈ l ∨ ∃ r ∈ l, m.Takes r w ∧ ∃ u, u ≠ r ∧ m.Takes u r

theorem Due.mono {l l' : List NodeId} (h : m.Due l w) (hl : l ⊆ l') : m.Due l' w :=
  h.imp (hl ·) fun ⟨r, hr, h⟩ => ⟨r, hl hr, h⟩

theorem PutBefore.due {k : NodeId} {l : List NodeId} (h : PutBefore id k u m m') (hd : m.Due l w)
    (hid : id ∈ l) (hw : m.Takes id w → w ∈ l) : m'.Due l w := by
  obtain hw' | ⟨r, hr, hrw, x, hne, hxr⟩ := hd
  · exact Or.inl hw'
  by_cases hrid : r = id
  · exact Or.inl (hw (hrid ▸ hrw))
  obtain hrw' | ⟨-, rfl⟩ := h.takes hrw
  · obtain hxr' | ⟨-, rfl⟩ := h.takes hxr
    · exact Or.inr ⟨r, hr, hrw', x, hne, hxr'⟩
    · exact absurd rfl hrid
  · exact Or.inl hid

/-- Once all of a worklist is settled every node stands where those that take it find it. -/
theorem Settles.fed {R : NodeId → Prop} (h : m.Settles R m') (hs : Sound m) (hf : m.Fitted)
    (hR : ∀ d, R d → IsInline m d) (hm : m.Fed W)
    (hW : ∀ d ∈ W, IsInline m d ∧
      (R d ∨ ∃ r, R r ∧ m.Takes r d ∧ ∃ u, u ≠ r ∧ m.Takes u r)) : m'.Fed [] := by
  obtain ⟨ids, hids, hrun⟩ := h
  have hend := hrun (fun m l => Sound m ∧ m.Fitted ∧ (∀ d ∈ l, IsInline m d) ∧
    ∃ W, (∀ d ∈ W, IsInline m d ∧ m.Due l d) ∧ m.Fed W) ⟨?_, ?_, ?_⟩ [] ⟨hs, hf,
      fun d hd => hR d ((hids d).1 (by simpa using hd)), W, fun d hd => ⟨(hW d hd).1, ?_⟩, hm⟩
  · obtain ⟨-, -, -, W, hdue, hfed⟩ := hend
    refine hfed.mono fun d hd => ?_
    obtain ⟨-, hmem | ⟨r, hr, -⟩⟩ := hdue d hd
    · exact hmem
    · cases hr
  · rintro m id more l ⟨hs, hf, hin, W, hdue, hm⟩ hmore
    have hsub : id :: l ⊆ id :: (more ++ l) :=
      List.cons_subset_cons id (List.subset_append_right more l)
    refine ⟨hs, hf, fun d hd => ?_, W, fun d hd => ⟨(hdue d hd).1, (hdue d hd).2.mono hsub⟩, hm⟩
    rcases List.mem_cons.1 hd with rfl | hd
    · exact hin d List.mem_cons_self
    rcases List.mem_append.1 hd with hd | hd
    · exact (hmore d hd).1
    · exact hin d (List.mem_cons_of_mem _ hd)
  · rintro m m' id l ⟨hs, hf, hin, W, hdue, hm⟩ hinner hstep
    obtain ⟨k, u, hput⟩ := hstep.exists_putBefore hs
    have hacts : Acts m.body (fun _ => False) m m' := hstep.acts
    have hlisted : ∀ {e}, IsInline m e → m.Takes id e → e ∈ id :: l := fun he htake =>
      List.mem_cons_of_mem _ (hinner _ (innerOf_of_takes he (hin id List.mem_cons_self) htake))
    refine ⟨hstep.sound, Acts.fitted hacts hf, fun d hd => (hin d hd).mono hstep.kept,
      W ++ id :: l, fun d hd => ?_, hput.fed hs (hm.mono (List.subset_append_left W _))
        fun e he htake => List.mem_append_right W (hlisted he htake)⟩
    rcases List.mem_append.1 hd with hd | hd
    · exact ⟨(hdue d hd).1.mono hstep.kept, hput.due (hdue d hd).2 List.mem_cons_self
        (hlisted (hdue d hd).1)⟩
    · exact ⟨(hin d hd).mono hstep.kept, Or.inl hd⟩
  · rintro m id l ⟨hs, hf, hin, W, hdue, hm⟩ hrests
    refine ⟨hs, hf, fun d hd => hin d (List.mem_cons_of_mem _ hd), W.filter (· ≠ id),
      fun d hd => ?_, hm.drop hs.toWellFormed hf (hin id List.mem_cons_self) hrests
        fun d hd hne => List.mem_filter.2 ⟨hd, by simpa using hne⟩⟩
    obtain ⟨hd, hne⟩ := List.mem_filter.1 hd
    have hne : d ≠ id := by simpa using hne
    obtain ⟨hind, hmem | ⟨r, hr, hrd, u, hur, hu⟩⟩ := hdue d hd
    · exact ⟨hind, Or.inl ((List.mem_cons.1 hmem).resolve_left hne)⟩
    rcases List.mem_cons.1 hr with rfl | hr
    · -- It is printed inside the node that leaves, which another one takes.
      have hinr := hin r List.mem_cons_self
      obtain hself | ⟨hinner, -⟩ := hrests
      · obtain ⟨n, v, k, hn, hres, huse⟩ := hf.uses_of_takes hs.toWellFormed hu hinr
        exact absurd (hself hn hres huse) hur
      · exact ⟨hind, Or.inl (hinner d (innerOf_of_takes hind hinr hrd))⟩
    · exact ⟨hind, Or.inr ⟨r, hr, hrd, u, hur, hu⟩⟩
  · exact (hW d hd).2.imp (fun h => by simpa using (hids d).2 h) fun ⟨r, hr, h⟩ =>
      ⟨r, by simpa using (hids r).2 hr, h⟩

theorem InlinesBy.frame {P : Module → NodeId → Prop} (h : m.InlinesBy P m') (hw : WellFormed m)
    (hP : ∀ m j, P m j → T j) : Frame T m m' := by
  induction h with
  | refl => exact .refl _ _
  | step hid hstep _ ih =>
    have hw₁ := hstep.sound.toWellFormed
    exact ((hstep.frame hw).mono (fun j _ _ hj => hj ▸ hP _ _ hid) hw).trans (ih hw₁) hw hw₁
      fun _ _ _ ht => ht

/-- Where nothing is printed inside the nodes that are settled, only these are moved. -/
theorem Settles.frame_of_bare {R : NodeId → Prop} (h : m.Settles R m') (hs : Sound m)
    (hR : ∀ j, R j → ∀ e, m.Takes j e → ¬ IsInline m e) : Frame R m m' := by
  refine (h.inlinesBy (P := fun m j => R j ∧ ∀ e, m.Takes j e → ¬ IsInline m e) ⟨?_, ?_⟩ hs
    fun j hj => ⟨hj, hR j hj⟩).frame hs.toWellFormed fun m j hj => hj.1
  · rintro m m' id j hs ⟨-, hid⟩ hstep ⟨hj, hjt⟩
    obtain ⟨k, u, hput⟩ := hstep.exists_putBefore hs
    refine ⟨hj, fun e he hin => ?_⟩
    have hold : ∀ {x}, m.Takes x e → IsInline m e := fun hx => by
      obtain ⟨ne, hne⟩ := hx.live_right hs.toWellFormed
      exact hin.of_kept hstep.kept hne
    obtain ⟨rfl, he⟩ | ⟨rfl, rfl⟩ | ⟨-, -, he⟩ := hput.takes_cases he
    · exact hid e he (hold he)
    · exact hjt id hput.user hput.inline
    · exact hjt e he (hold he)
  · rintro m id j hs ⟨-, hid⟩ ⟨hin, n, hn, -, v, hv, i, hdef⟩
    obtain ⟨k, hk⟩ := exists_uses_of_mem hn hv
    exact absurd hin (hid j ⟨k, v, i, hk, hdef⟩)

end Module

end NetPrep
