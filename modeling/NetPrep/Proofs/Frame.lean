import Mathlib
import NetPrep.Proofs.Inlining

/-!
# What a step leaves in its place

`Module.Frame` says which nodes a step may move or erase: all others keep their block and their order
among each other, and what is new is of an operation that preparation makes.
-/

namespace NetPrep

open Prepare Prep

/-- The operations of the nodes that preparation makes. -/
def Op.isMade : Op → Bool
  | .wire | .reg | .logic | .read | .assign | .blockingAssign | .constant _ | .sub
  | .structExtract _ | .elementStorage | .fieldStorage _ | .add | .mul | .and | .or | .xor => true
  | _ => false

theorem Op.regionKinds_of_isMade {op : Op} (h : op.isMade = true) : op.regionKinds = [] := by
  cases op <;> first | rfl | cases h

theorem Op.category_ne_foreign_of_isMade {op : Op} (h : op.isMade = true) :
    op.category ≠ .foreign := by
  intro hforeign
  cases op <;> first | cases hforeign; done | cases h

theorem Op.isMade_of_isAlwaysInline {op : Op} (h : op.isAlwaysInline = true) :
    op.isMade = true := by
  cases op <;> first | rfl | cases h

theorem Op.isMade_of_isCommutative {op : Op} (h : op.isCommutative = true) : op.isMade = true := by
  cases op <;> first | rfl | cases h

theorem Precedes.filter_ne_iff {l : List NodeId} {x p q : NodeId} :
    Precedes (l.filter (· ≠ x)) p q ↔ p ≠ x ∧ q ≠ x ∧ Precedes l p q := by
  unfold Precedes
  rw [List.sublist_filter_iff]
  constructor
  · rintro ⟨l', hl', heq⟩
    have hp : p ∈ l'.filter (· ≠ x) := heq ▸ List.mem_cons_self
    have hq : q ∈ l'.filter (· ≠ x) := heq ▸ by simp
    refine ⟨by simpa using (List.mem_filter.1 hp).2, by simpa using (List.mem_filter.1 hq).2, ?_⟩
    exact heq ▸ (List.filter_sublist.trans hl')
  · rintro ⟨hp, hq, h⟩
    exact ⟨[p, q], h, by simp [hp, hq]⟩

/-- Putting a node in leaves the others as they are. -/
theorem Position.filter_insert (pos : Position) (id : NodeId) (l : List NodeId) :
    (pos.insert id l).filter (· ≠ id) = l.filter (· ≠ id) := by
  cases pos with
  | front | back => simp [Position.insert]
  | before a =>
    change (insertBefore a id l).filter _ = _
    induction l with
    | nil => rfl
    | cons y l ih =>
      unfold insertBefore
      split
      · simp
      · simp only [List.filter_cons, ih]
  | after a =>
    change (insertAfter a id l).filter _ = _
    induction l with
    | nil => rfl
    | cons y l ih =>
      unfold insertAfter
      split
      · simp [List.filter_cons]
      · simp only [List.filter_cons, ih]

theorem Position.precedes_insert_iff {pos : Position} {id p q : NodeId} {l : List NodeId}
    (hp : p ≠ id) (hq : q ≠ id) : Precedes (pos.insert id l) p q ↔ Precedes l p q := by
  have h := pos.filter_insert id l
  have h₁ : Precedes ((pos.insert id l).filter (· ≠ id)) p q ↔ Precedes (l.filter (· ≠ id)) p q := by
    rw [h]
  rw [Precedes.filter_ne_iff, Precedes.filter_ne_iff] at h₁
  simpa [hp, hq] using h₁

namespace Module

variable {m m' m'' : Module} {T T' : NodeId → Prop} {id : NodeId} {n : Node} {b : BlockId}
  {pos : Position}

/-- Nodes outside a set keep their places, and new nodes are of operations that are made. -/
structure Frame (T : NodeId → Prop) (m m' : Module) : Prop where
  kept : m.Kept m'
  live : ∀ {j n}, m.live? j = some n → ¬ T j → ∃ n', m'.live? j = some n' ∧ n'.parent = n.parent
  old : ∀ {j n'}, m'.live? j = some n' →
    (∃ n, m.live? j = some n) ∨ (m.nodes.size ≤ j.index ∧ n'.op.isMade = true)
  order : ∀ {a x c}, ¬ T a → ¬ T x → a ∈ m.nodesOf c → x ∈ m.nodesOf c →
    (Precedes (m'.nodesOf c) a x ↔ Precedes (m.nodesOf c) a x)

namespace Frame

theorem refl (T : NodeId → Prop) (m : Module) : Frame T m m where
  kept := .refl m
  live h _ := ⟨_, h, rfl⟩
  old h := Or.inl ⟨_, h⟩
  order _ _ _ _ := Iff.rfl

theorem mono (h : Frame T m m') (hT : ∀ j n, m.live? j = some n → T j → T' j)
    (hw : WellFormed m) : Frame T' m m' where
  kept := h.kept
  live hj hn := h.live hj fun ht => hn (hT _ _ hj ht)
  old := h.old
  order ha hx hac hxc := by
    obtain ⟨na, hna, -⟩ := hw.mem_nodesOf_iff.1 hac
    obtain ⟨nx, hnx, -⟩ := hw.mem_nodesOf_iff.1 hxc
    exact h.order (fun ht => ha (hT _ _ hna ht)) (fun ht => hx (hT _ _ hnx ht)) hac hxc

theorem trans (h : Frame T m m') (h' : Frame T' m' m'') (hw : WellFormed m) (hw' : WellFormed m')
    (hT : ∀ j n, m.live? j = some n → T' j → T j) : Frame T m m'' where
  kept := h.kept.trans h'.kept
  live hj hn := by
    obtain ⟨n', hj', hp'⟩ := h.live hj hn
    obtain ⟨n'', hj'', hp''⟩ := h'.live hj' fun ht => hn (hT _ _ hj ht)
    exact ⟨n'', hj'', hp''.trans hp'⟩
  old hj := by
    rcases h'.old hj with ⟨n', hj'⟩ | ⟨hsize, hop⟩
    · rcases h.old hj' with hold | ⟨hsize, hop⟩
      · exact Or.inl hold
      · obtain ⟨n₁, hn₁, hop₁, -⟩ := h'.kept.node (core_of_live? hj')
        obtain rfl := Option.some.inj ((core_of_live? hj).symm.trans hn₁)
        exact Or.inr ⟨hsize, hop₁ ▸ hop⟩
    · exact Or.inr ⟨h.kept.nodes_size.trans hsize, hop⟩
  order {a x c} ha hx hac hxc := by
    obtain ⟨na, hna, hpa⟩ := hw.mem_nodesOf_iff.1 hac
    obtain ⟨nx, hnx, hpx⟩ := hw.mem_nodesOf_iff.1 hxc
    obtain ⟨na', hna', hpa'⟩ := h.live hna ha
    obtain ⟨nx', hnx', hpx'⟩ := h.live hnx hx
    rw [h'.order (fun ht => ha (hT _ _ hna ht)) (fun ht => hx (hT _ _ hnx ht))
      (hw'.mem_nodesOf_iff.2 ⟨na', hna', hpa'.trans hpa⟩)
      (hw'.mem_nodesOf_iff.2 ⟨nx', hnx', hpx'.trans hpx⟩), h.order ha hx hac hxc]

/-- A node outside the set stays in its block. -/
theorem mem_nodesOf (h : Frame T m m') (hw : WellFormed m) (hw' : WellFormed m')
    (hid : id ∈ m.nodesOf b) (hn : ¬ T id) : id ∈ m'.nodesOf b := by
  obtain ⟨n, hn₁, hp⟩ := hw.mem_nodesOf_iff.1 hid
  obtain ⟨n', hn', hp'⟩ := h.live hn₁ hn
  exact hw'.mem_nodesOf_iff.2 ⟨n', hn', hp'.trans hp⟩

/-- What is gone does not come back. -/
theorem gone (h : Frame T m m') (hid : m.live? id = none) (hlt : id.index < m.nodes.size) :
    m'.live? id = none := by
  refine Option.eq_none_iff_forall_not_mem.2 fun n' hn' => ?_
  obtain ⟨n, hn⟩ | ⟨hsize, -⟩ := h.old hn'
  · simp [hid] at hn
  · exact absurd hlt hsize.not_gt

end Frame

theorem Creates.frame {types : List TypeId} (h : m.Creates m' b pos id n types)
    (hw : WellFormed m) (hop : n.op.isMade = true) : Frame T m m' where
  kept := h.kept
  live hj _ := ⟨_, h.live hj, rfl⟩
  old hj := by
    rcases h.live_cases hj with ⟨rfl, rfl⟩ | ⟨-, hj⟩
    · exact Or.inr ⟨by rw [h.fresh], hop⟩
    · exact Or.inl ⟨_, hj⟩
  order {a x c} _ _ ha hx := by
    obtain ⟨na, hna, -⟩ := hw.mem_nodesOf_iff.1 ha
    obtain ⟨nx, hnx, -⟩ := hw.mem_nodesOf_iff.1 hx
    rw [h.nodesOf]
    split
    · next hc => rw [Position.precedes_insert_iff (h.ne hna) (h.ne hnx), hc]
    · rfl

theorem Moves.frame (h : m.Moves m' b pos id) (hw : WellFormed m) : Frame (· = id) m m' where
  kept := h.kept
  live hj hne := ⟨_, h.live hj, if_neg hne⟩
  old hj := by
    obtain ⟨n, hn, -⟩ := h.live_cases hj
    exact Or.inl ⟨n, hn⟩
  order {a x c} ha hx _ _ := by
    rw [h.nodesOf]
    split
    · next hc =>
      rw [Position.precedes_insert_iff ha hx, Precedes.erase_iff (hw.nodup b), hc]
      simp [ha, hx]
    · rw [Precedes.erase_iff (hw.nodup c)]
      simp [ha, hx]

theorem Erases.frame (h : m.Erases m' id) (hw : WellFormed m) : Frame (· = id) m m' where
  kept := h.kept
  live hj hne := ⟨_, h.live hj hne, rfl⟩
  old hj := Or.inl ⟨_, (h.live_cases hj).2⟩
  order {a x c} ha hx _ _ := by
    rw [h.nodesOf, Precedes.erase_iff (hw.nodup c)]
    simp [ha, hx]

theorem Redirects.frame {f : NodeId → List ValueId → List ValueId} (h : m.Redirects m' f) :
    Frame T m m' where
  kept := h.kept
  live hj _ := ⟨_, h.live hj, rfl⟩
  old hj := by
    obtain ⟨n, hn, -⟩ := h.live_cases hj
    exact Or.inl ⟨n, hn⟩
  order _ _ _ _ := by rw [h.nodesOf]

theorem Relabels.frame {name : Option Name → Option Name} {twoState : Bool → Bool}
    (h : m.Relabels m' id name twoState) : Frame T m m' where
  kept := h.kept
  live hj _ := ⟨_, h.live hj, rfl⟩
  old hj := by
    obtain ⟨n, hn, -⟩ := h.live_cases hj
    exact Or.inl ⟨n, hn⟩
  order _ _ _ _ := by rw [h.nodesOf]

theorem InlineStep.frame (h : InlineStep id m m') (hw : WellFormed m) : Frame (· = id) m m' := by
  cases h with
  | clone hn hop hv hu hnu htype hc hs₁ hr hs =>
    exact (hc.frame hw (Op.isMade_of_isAlwaysInline hop)).trans hr.frame hw hs₁.toWellFormed
      fun _ _ _ ht => ht
  | move hn hop hv honly hnu hne hm hs => exact hm.frame hw

/-- Settling moves nothing but the nodes that are settled. -/
theorem Inlines.frame (h : Inlines T m m') (hw : WellFormed m) : Frame T m m' := by
  induction h with
  | refl => exact .refl _ _
  | step hid hstep _ ih =>
    have hw₁ := hstep.sound.toWellFormed
    exact ((hstep.frame hw).mono (fun _ _ _ he => he ▸ hid) hw).trans (ih hw₁) hw hw₁
      fun _ _ _ ht => ht

end Module

end NetPrep
