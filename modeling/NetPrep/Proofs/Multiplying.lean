import Mathlib
import NetPrep.Proofs.Covering

/-!
# How many copies there are

What is printed where a value is used is a tree, and each use but one of the value at its root needs a
copy of the whole tree. A copy of the root takes one use from the root and gives one to each operand: so
what is left to be copied is one node less, and the nodes together with what is left to be copied stay
the same in number.
-/

namespace NetPrep

namespace Module

variable {p : Label → Bool} {m m' : Module} {id x j : NodeId} {n : Node} {v w y : ValueId} {u q : Use}
  {b : BlockId} {g : NodeId → NodeId} {o : ValueId → ValueId} {r : Nat} {f : ValueId → Nat}

/-! ## The tree that is printed for a value -/

/-- The node that defines a value, if it must be printed at each of its uses. -/
def pastedAt (p : Label → Bool) (m : Module) (v : ValueId) : Option Node :=
  (m.def? v).bind fun d => match d with
    | .result j _ => (m.live? j).filter fun n => p (m.label n)
    | .port _ => none

/-- The number of nodes that are printed for a value, down to some depth. -/
def pastedCount (p : Label → Bool) (m : Module) : Nat → ValueId → Nat
  | 0, _ => 0
  | r + 1, v => (pastedAt p m v).elim 0 fun n => (n.operands.map (pastedCount p m r)).sum + 1

theorem pastedAt_eq_some_iff (hw : WellFormed m) : m.pastedAt p v = some n ↔
    ∃ j, m.live? j = some n ∧ p (m.label n) = true ∧ v ∈ n.results := by
  unfold pastedAt
  constructor
  · intro h
    obtain ⟨d, hd, h⟩ := Option.bind_eq_some_iff.1 h
    cases d with
    | port i => cases h
    | result j i =>
      obtain ⟨hn, hp⟩ := Option.filter_eq_some_iff.1 h
      obtain ⟨n', hn', hi⟩ := hw.definition hd
      obtain rfl := Option.some.inj (hn'.symm.trans (core_of_live? hn))
      exact ⟨j, hn, hp, List.mem_of_getElem? hi⟩
  · rintro ⟨j, hn, hp, hv⟩
    obtain ⟨i, hdef⟩ := hw.exists_def hn hv
    rw [hdef, Option.bind_some]
    exact Option.filter_eq_some_iff.2 ⟨hn, hp⟩

/-- A number for each value: one more than the sum for the operands of the node that defines it, where
that must be printed at each of its uses. -/
structure CountsPasted (p : Label → Bool) (m : Module) (f : ValueId → Nat) : Prop where
  plain : ∀ {v}, (∀ j n, m.live? j = some n → p (m.label n) = true → v ∉ n.results) → f v = 0
  node : ∀ {j n v}, m.live? j = some n → p (m.label n) = true → v ∈ n.results →
    f v = (n.operands.map f).sum + 1

theorem pastedCount_eq (hw : WellFormed m)
    (hbelow : ∀ {j n}, m.live? j = some n → p (m.label n) = true → v ∈ n.results → m.Below p r j) :
    m.pastedCount p (r + 1) v = m.pastedCount p r v := by
  induction r generalizing v with
  | zero =>
    have hnone : m.pastedAt p v = none := Option.eq_none_iff_forall_not_mem.2 fun n hn => by
      obtain ⟨j, hn, hp, hv⟩ := (pastedAt_eq_some_iff hw).1 hn
      exact hbelow hn hp hv
    simp only [pastedCount, hnone, Option.elim_none]
  | succ r ih =>
    rw [pastedCount, pastedCount]
    cases hat : m.pastedAt p v with
    | none => rfl
    | some n =>
      obtain ⟨j, hn, hp, hv⟩ := (pastedAt_eq_some_iff hw).1 hat
      simp only [Option.elim_some]
      congr 2
      refine List.map_congr_left fun y hy => ih fun hk hpk hmem => ?_
      exact hbelow hn hp hv _ ⟨_, n, y, ⟨hk, hpk⟩, ⟨hn, hp⟩, hmem, hy⟩

/-- The numbers of nodes that are printed for the values. -/
theorem countsPasted (hw : WellFormed m)
    (hacyclic : ∀ j, ¬ Relation.TransGen (m.PastedIn p) j j) :
    m.CountsPasted p (m.pastedCount p (m.nodes.size + 1)) where
  plain {v} hplain := by
    have hnone : m.pastedAt p v = none := Option.eq_none_iff_forall_not_mem.2 fun n hn => by
      obtain ⟨j, hn, hp, hv⟩ := (pastedAt_eq_some_iff hw).1 hn
      exact hplain j n hn hp hv
    rw [pastedCount, hnone]
    rfl
  node {j n v} hn hp hv := by
    rw [← pastedCount_eq hw fun _ _ _ => below_of_acyclic hacyclic _, pastedCount,
      (pastedAt_eq_some_iff hw).2 ⟨j, hn, hp, hv⟩]
    rfl

/-- What is printed for a value is printed for each value that stands for it. -/
theorem Covers.countsPasted (h : m.Covers p m' g o) (hf : m.CountsPasted p f) :
    m'.CountsPasted p fun v => f (o v) where
  plain {v} hplain := by
    have hv : o v = v := (h.value v).resolve_right fun ⟨j, n', hn', hp, hmem⟩ => hplain j n' hn' hp hmem
    refine hf.plain fun j n hn hp hmem => ?_
    obtain ⟨n', hn', hres, hlabel, -⟩ := h.exists_live hn
    exact hplain j n' hn' (hlabel ▸ hp) (hres ▸ hv ▸ hmem)
  node {j n' v} hn' hp hv := by
    obtain ⟨n, hn, hlabel, hres, hops⟩ := h.node hn'
    rw [hf.node hn (hlabel ▸ hp) (hres ▸ List.mem_map_of_mem hv), ← hops, List.map_map]
    rfl

/-! ## What is left to be copied -/

/-- The uses of a value. -/
def usesOf (m : Module) (v : ValueId) : List Use := (m.value? v).elim [] (·.uses)

theorem mem_usesOf_iff (hw : WellFormed m) : q ∈ m.usesOf v ↔ m.Uses q v := by
  unfold usesOf
  cases hvalue : m.value? v with
  | none =>
    refine ⟨fun hq => absurd hq List.not_mem_nil, fun hq => ?_⟩
    obtain ⟨value, hvalue'⟩ := hw.exists_value hq
    simp [hvalue] at hvalue'
  | some value => exact hw.mem_uses hvalue

theorem nodup_usesOf (hw : WellFormed m) (v : ValueId) : (m.usesOf v).Nodup := by
  unfold usesOf
  cases hvalue : m.value? v with
  | none => exact List.nodup_nil
  | some value => exact hw.uses_nodup hvalue

theorem length_usesAmong (id : NodeId) (v : ValueId) (i : Nat) (ws : List ValueId) :
    (usesAmong id v i ws).length = ws.count v := by
  induction ws generalizing i with
  | nil => rfl
  | cons w ws ih =>
    unfold usesAmong
    rw [List.count_cons]
    by_cases hw : w = v
    · simp [hw, ih]
    · simp [hw, ih]

/-- The nodes that are left to be copied: what is printed for a value, for each of its uses but one. -/
def leftToCopy (m : Module) (f : ValueId → Nat) : Nat :=
  ∑ i ∈ Finset.range m.values.size, ((m.usesOf ⟨i⟩).length - 1) * f ⟨i⟩

theorem leftToCopy_eq_sum {k : Nat} (hk : m.values.size ≤ k) :
    m.leftToCopy f = ∑ i ∈ Finset.range k, ((m.usesOf ⟨i⟩).length - 1) * f ⟨i⟩ := by
  refine Finset.sum_subset (Finset.range_subset_range.2 hk) fun i _ hi => ?_
  have hnone : m.value? ⟨i⟩ = none := Array.getElem?_eq_none (by simpa using hi)
  simp [usesOf, hnone]

theorem sum_map_eq_sum_count {k : Nat} {ops : List ValueId} (hops : ∀ y ∈ ops, y.index < k) :
    (ops.map f).sum = ∑ i ∈ Finset.range k, ops.count ⟨i⟩ * f ⟨i⟩ := by
  induction ops with
  | nil => simp
  | cons y ops ih =>
    have hy : ∑ i ∈ Finset.range k, (if y = ⟨i⟩ then f ⟨i⟩ else 0) = f y := by
      rw [Finset.sum_eq_single_of_mem y.index (Finset.mem_range.2 (hops y List.mem_cons_self))]
      · exact if_pos rfl
      · exact fun i _ hi => if_neg fun he => hi (congrArg ValueId.index he).symm
    rw [List.map_cons, List.sum_cons, ih fun z hz => hops z (List.mem_cons_of_mem _ hz), ← hy,
      ← Finset.sum_add_distrib]
    refine Finset.sum_congr rfl fun i _ => ?_
    rw [List.count_cons]
    by_cases he : y = ⟨i⟩
    · simp [he]
      ring
    · simp [he]

namespace Puts

variable (h : m.Puts m' id n v u b x w)

include h

/-- A copy takes one use from its source and gives one to each operand. -/
theorem length_usesOf (hw : WellFormed m) (hx : x ≠ id) (hy : y ≠ w) :
    (m'.usesOf y).length + n.results.count y = (m.usesOf y).length + n.operands.count y := by
  have hdisjoint : ∀ {q}, q.node = x → ¬ m.Uses q y := fun {q} hq ⟨nx, hnx, _⟩ =>
    hx (h.eq_of_live (hq ▸ hnx)).1
  have hperm : (m'.usesOf y).Perm ((m.usesOf y).erase u ++ usesAmong x y 0 n.operands) := by
    have hnodup := (nodup_usesOf hw y).erase u
    refine (List.perm_ext_iff_of_nodup (nodup_usesOf h.sound.toWellFormed y)
      (List.nodup_append.2 ⟨hnodup, nodup_usesAmong _ _ _ _, ?_⟩)).2 fun q => ?_
    · rintro q hq q' hq' rfl
      exact hdisjoint (mem_usesAmong_iff.1 hq').1 ((mem_usesOf_iff hw).1 (List.mem_of_mem_erase hq))
    · rw [mem_usesOf_iff h.sound.toWellFormed, h.uses_iff, List.mem_append,
        (nodup_usesOf hw y).mem_erase_iff, mem_usesOf_iff hw, mem_usesAmong_iff]
      constructor
      · rintro (⟨-, rfl⟩ | ⟨hq, hq' | ⟨hqx, hget⟩⟩)
        · exact absurd rfl hy
        · exact Or.inl ⟨hq, hq'⟩
        · exact Or.inr ⟨hqx, Nat.zero_le _, hget⟩
      · rintro (⟨hq, hq'⟩ | ⟨hqx, -, hget⟩)
        · exact Or.inr ⟨hq, Or.inl hq'⟩
        · exact Or.inr ⟨fun he => h.ne_user (he ▸ hqx), Or.inr ⟨hqx, hget⟩⟩
  rw [hperm.length_eq, List.length_append, length_usesAmong, h.results]
  by_cases hyv : y = v
  · subst hyv
    have hu : u ∈ m.usesOf y := (mem_usesOf_iff hw).2 h.slot
    have hpos := List.length_pos_of_mem hu
    rw [List.length_erase_of_mem hu, List.count_singleton_self]
    omega
  · have hu : u ∉ m.usesOf y := fun hu => hyv (((mem_usesOf_iff hw).1 hu).unique h.slot)
    have hv : y ∉ [v] := by simpa using hyv
    rw [List.erase_of_not_mem hu, List.count_eq_zero_of_not_mem hv]
    rfl

/-- Moving a node leaves all uses. -/
theorem usesOf_perm (hw : WellFormed m) (hx : x = id) (y : ValueId) :
    (m'.usesOf y).Perm (m.usesOf y) := by
  refine (List.perm_ext_iff_of_nodup (nodup_usesOf h.sound.toWellFormed y) (nodup_usesOf hw y)).2
    fun q => ?_
  obtain ⟨-, rfl, -⟩ := h.eq_of_live (hx ▸ h.source)
  rw [mem_usesOf_iff h.sound.toWellFormed, mem_usesOf_iff hw, h.uses_iff]
  constructor
  · rintro (⟨rfl, rfl⟩ | ⟨-, hq | ⟨hq, hget⟩⟩)
    · exact h.slot
    · exact hq
    · exact ⟨n, (congrArg _ (hq.trans hx)).trans h.source, hget⟩
  · intro hq
    by_cases hqu : q = u
    · subst hqu
      exact Or.inl ⟨rfl, hq.unique h.slot⟩
    · exact Or.inr ⟨hqu, Or.inl hq⟩

/-- A copy takes a tree from what is left to be copied, and gives the trees of the operands. -/
theorem copies_term (hw : WellFormed m) (hx : x ≠ id) (f : ValueId → Nat) (y : ValueId) :
    ((m'.usesOf y).length - 1) * f (if y = w then v else y) + n.results.count y * f y =
      ((m.usesOf y).length - 1) * f y + n.operands.count y * f y := by
  have hw' := h.sound.toWellFormed
  by_cases hy : y = w
  · -- The copy has one use, and nothing refers to it otherwise.
    subst hy
    have hfresh : ¬ m.Usable y := fun hy => hx (h.eq_of_usable hy).1
    have hold : m.usesOf y = [] := List.eq_nil_iff_forall_not_mem.2 fun q hq =>
      hfresh (hw.usable ((mem_usesOf_iff hw).1 hq))
    have hnew : (m'.usesOf y).Perm [u] := by
      refine (List.perm_ext_iff_of_nodup (nodup_usesOf hw' y) (List.nodup_singleton u)).2 fun q => ?_
      rw [mem_usesOf_iff hw', List.mem_singleton]
      exact h.onlyUse hw q
    have hres : y ∉ n.results := fun hmem => hfresh (hw.usable_of_mem_results h.source hmem)
    have hops : y ∉ n.operands := fun hmem => hfresh (hw.usable_operand h.source hmem)
    simp [hold, hnew.length_eq, List.count_eq_zero_of_not_mem hres, List.count_eq_zero_of_not_mem hops]
  · have hlen := h.length_usesOf hw hx hy
    have hops : n.operands.count y = 0 ∨ 0 < (m.usesOf y).length := by
      refine or_iff_not_imp_left.2 fun hne => ?_
      obtain ⟨i, hi⟩ := exists_uses_of_mem h.source (List.count_pos_iff.1 (Nat.pos_of_ne_zero hne))
      exact List.length_pos_of_mem ((mem_usesOf_iff hw).2 hi)
    have hres : n.results.count y = 0 ∨ 0 < (m'.usesOf y).length := by
      refine or_iff_not_imp_left.2 fun hne => ?_
      have hmem := List.count_pos_iff.1 (Nat.pos_of_ne_zero hne)
      obtain rfl : y = v := by simpa [h.results] using hmem
      obtain ⟨he, -⟩ | ⟨-, -, q, hq, hqy⟩ := h.node
      · exact absurd he hx
      · exact List.length_pos_of_mem ((mem_usesOf_iff hw').2 (h.uses_of_ne hq hqy))
    rw [if_neg hy, ← Nat.add_mul, ← Nat.add_mul]
    congr 1
    omega

/-- One node less is left to be copied after a copy. -/
theorem nodes_add_leftToCopy (hw : WellFormed m) (hp : p (m.label n) = true) (hf : m.CountsPasted p f) :
    m'.nodes.size + m'.leftToCopy (fun y => f (if y = w then v else y)) = m.nodes.size + m.leftToCopy f := by
  have hsize := h.kept.values_size
  rw [h.nodes_size, leftToCopy_eq_sum hsize, leftToCopy]
  by_cases hx : x = id
  · obtain ⟨-, rfl, -⟩ := h.eq_of_live (hx ▸ h.source)
    rw [if_pos hx, Nat.add_zero]
    congr 1
    refine Finset.sum_congr rfl fun i _ => ?_
    rw [(h.usesOf_perm hw hx ⟨i⟩).length_eq]
    split
    · next he => rw [he]
    · rfl
  · have hsum := Finset.sum_congr (rfl : Finset.range m'.values.size = _) fun i _ =>
      h.copies_term hw hx f ⟨i⟩
    rw [Finset.sum_add_distrib, Finset.sum_add_distrib, ← sum_map_eq_sum_count fun y hy => ?_,
      ← sum_map_eq_sum_count fun y hy => ?_] at hsum
    · have hv := hf.node h.source hp (v := v) (by simp [h.results])
      rw [if_neg hx]
      simp only [h.results, List.map_cons, List.map_nil, List.sum_cons, List.sum_nil] at hsum
      omega
    · exact lt_of_lt_of_le (WellFormed.lt_of_usable (hw.usable_operand h.source hy)) hsize
    · exact lt_of_lt_of_le (WellFormed.lt_of_usable (hw.usable_of_mem_results h.source hy)) hsize

end Puts

/-- The nodes and what is left to be copied stay the same in number. -/
theorem Unshares.exists_countsPasted (h : Unshares p m m') (hs : Sound m) (hf : m.CountsPasted p f) :
    ∃ f', m'.CountsPasted p f' ∧ m'.nodes.size + m'.leftToCopy f' = m.nodes.size + m.leftToCopy f := by
  induction h generalizing f with
  | refl => exact ⟨f, hf, rfl⟩
  | step hput hp _ ih =>
    have hw := hs.toWellFormed
    obtain ⟨f', hf', heq⟩ := ih hput.sound ((hput.covers hw hp).countsPasted hf)
    exact ⟨f', hf', heq.trans (hput.nodes_add_leftToCopy hw hp hf)⟩

/-- How many copies of nodes there are in all if each use gets a copy of what is printed there. -/
def copies (p : Label → Bool) (m : Module) : Nat :=
  m.leftToCopy (m.pastedCount p (m.nodes.size + 1))

/-- Where all copies fit, another node always does. -/
theorem Unshares.fits (h : Unshares p m m') (hs : Sound m)
    (hacyclic : ∀ j, ¬ Relation.TransGen (m.PastedIn p) j j) (hfits : m.Fits (m.copies p + 1)) :
    m'.Fits 1 := by
  obtain ⟨f', -, heq⟩ := h.exists_countsPasted hs (countsPasted hs.toWellFormed hacyclic)
  refine lt_of_le_of_lt (Nat.mul_le_mul_right _ ?_) hfits
  unfold copies
  omega

end Module

end NetPrep
