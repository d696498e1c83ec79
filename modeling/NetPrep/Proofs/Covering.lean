import Mathlib
import NetPrep.Proofs.Pasting

/-!
# Modules that cover others

A module with copies covers the module without them: each node stands for one that was there, with the
same label, and its operands stand for the operands of that node. So what is printed where a value is
used is what would have been printed there before.
-/

namespace NetPrep

namespace Module

variable {p : Label → Bool} {m m' m'' : Module} {id x j k : NodeId} {n nj n' : Node} {v v' w : ValueId}
  {u q : Use} {b c : BlockId} {g g' : NodeId → NodeId} {o o' : ValueId → ValueId} {r r' : Nat}

/-! ## How deep nodes are printed inside each other -/

/-- Less than `r` nodes are printed inside each other at the node. -/
def Below (p : Label → Bool) (m : Module) : Nat → NodeId → Prop
  | 0, _ => False
  | r + 1, j => ∀ k, m.PastedIn p k j → Below p m r k

theorem Below.not_self (h : m.Below p r j) : ¬ m.PastedIn p j j := by
  induction r with
  | zero => exact h.elim
  | succ r ih => exact fun hin => ih (h j hin) hin

theorem Below.not_mem_operands (h : m.Below p r j) (hj : m.live? j = some nj)
    (hp : p (m.label nj) = true) (hv : nj.results = [v]) : v ∉ nj.operands := fun hop =>
  h.not_self ⟨nj, nj, v, ⟨hj, hp⟩, ⟨hj, hp⟩, by simp [hv], hop⟩

theorem PastedIn.lt_left (h : m.PastedIn p j k) : j.index < m.nodes.size := by
  obtain ⟨n, -, -, ⟨hn, -⟩, -⟩ := h
  exact lt_of_live? hn

/-- Where no node is printed inside itself, there are only so many inside each other. -/
theorem below_of_acyclic (hacyclic : ∀ j, ¬ Relation.TransGen (m.PastedIn p) j j) (j : NodeId) :
    m.Below p (m.nodes.size + 1) j := by
  let inner (j : NodeId) : Set (Fin m.nodes.size) := {i | Relation.TransGen (m.PastedIn p) ⟨i⟩ j}
  have hlt : ∀ {k j}, m.PastedIn p k j → (inner k).ncard < (inner j).ncard := fun {k j} hin => by
    refine Set.ncard_lt_ncard ⟨fun i hi => hi.tail hin, fun hsub => ?_⟩
    exact hacyclic k (hsub (a := ⟨k.index, hin.lt_left⟩) (Relation.TransGen.single hin))
  have hbelow : ∀ r j, (inner j).ncard < r → m.Below p r j := fun r => by
    induction r with
    | zero => exact fun j hr => absurd hr (Nat.not_lt_zero _)
    | succ r ih => exact fun j hr k hin => ih k (by have := hlt hin; omega)
  have hcard : (inner j).ncard ≤ m.nodes.size := by
    simpa using Set.ncard_le_card (inner j)
  exact hbelow _ j (Nat.lt_succ_of_le hcard)

/-- Nothing is printed inside itself where it is printed inside nodes with greater numbers only. -/
theorem acyclic_of_lt (h : ∀ {j k}, m.PastedIn p j k → j.index < k.index) (j : NodeId) :
    ¬ Relation.TransGen (m.PastedIn p) j j := by
  have hlt : ∀ {j k}, Relation.TransGen (m.PastedIn p) j k → j.index < k.index := fun hjk => by
    induction hjk with
    | single hin => exact h hin
    | tail _ hin ih => exact ih.trans (h hin)
  exact fun hj => (hlt hj).false

/-! ## Coverings -/

/-- The nodes and values of a module stand for nodes and values of another one, which it still has. -/
structure Covers (p : Label → Bool) (m m' : Module) (g : NodeId → NodeId) (o : ValueId → ValueId) :
    Prop where
  old : ∀ {j n}, m.live? j = some n → g j = j ∧ ∃ n', m'.live? j = some n' ∧ n'.results = n.results
  node : ∀ {j n'}, m'.live? j = some n' → ∃ n, m.live? (g j) = some n ∧ m'.label n' = m.label n ∧
    n'.results.map o = n.results ∧ n'.operands.map o = n.operands
  value : ∀ v, o v = v ∨ ∃ j n', m'.live? j = some n' ∧ p (m'.label n') = true ∧ v ∈ n'.results

namespace Covers

theorem refl (p : Label → Bool) (m : Module) : m.Covers p m (fun j => j) (fun v => v) where
  old hn := ⟨rfl, _, hn, rfl⟩
  node hn := ⟨_, hn, rfl, List.map_id' _, List.map_id' _⟩
  value _ := Or.inl rfl

/-- A node that was there is still there, with its label. -/
theorem exists_live (h : m.Covers p m' g o) (hj : m.live? j = some nj) : ∃ n', m'.live? j = some n' ∧
    n'.results = nj.results ∧ m'.label n' = m.label nj ∧ n'.operands.map o = nj.operands := by
  obtain ⟨hg, n', hn', hres⟩ := h.old hj
  obtain ⟨n₀, hn₀, hlabel, -, hops⟩ := h.node hn'
  obtain rfl := Option.some.inj (hj.symm.trans (hg ▸ hn₀))
  exact ⟨n', hn', hres, hlabel, hops⟩

theorem trans (h : m.Covers p m' g o) (h' : m'.Covers p m'' g' o') :
    m.Covers p m'' (fun j => g (g' j)) (fun v => o (o' v)) where
  old hn := by
    obtain ⟨hg, n₁, hn₁, hres⟩ := h.old hn
    obtain ⟨hg', n₂, hn₂, hres'⟩ := h'.old hn₁
    exact ⟨by rw [hg', hg], n₂, hn₂, hres'.trans hres⟩
  node hn := by
    obtain ⟨n₁, hn₁, hlabel', hres', hops'⟩ := h'.node hn
    obtain ⟨n₀, hn₀, hlabel, hres, hops⟩ := h.node hn₁
    refine ⟨n₀, hn₀, hlabel'.trans hlabel, ?_, ?_⟩
    · rw [← hres, ← hres', List.map_map]
      rfl
    · rw [← hops, ← hops', List.map_map]
      rfl
  value v := by
    obtain hv | hpasted := h'.value v
    · rw [hv]
      refine (h.value v).imp_right fun ⟨j, n₁, hn₁, hp, hmem⟩ => ?_
      obtain ⟨n₂, hn₂, hres, hlabel, -⟩ := h'.exists_live hn₁
      exact ⟨j, n₂, hn₂, hlabel ▸ hp, hres ▸ hmem⟩
    · exact Or.inr hpasted

/-- What is printed inside a node stands for what is printed inside the node that this one stands for. -/
theorem pastedIn (h : m.Covers p m' g o) (hk : m'.PastedIn p k j) : m.PastedIn p (g k) (g j) := by
  obtain ⟨nk, nj, y, ⟨hnk, hpk⟩, ⟨hnj, hpj⟩, hres, hop⟩ := hk
  obtain ⟨nk₀, hnk₀, hlk, hresk, -⟩ := h.node hnk
  obtain ⟨nj₀, hnj₀, hlj, -, hopsj⟩ := h.node hnj
  exact ⟨nk₀, nj₀, o y, ⟨hnk₀, hlk ▸ hpk⟩, ⟨hnj₀, hlj ▸ hpj⟩, hresk ▸ List.mem_map_of_mem hres,
    hopsj ▸ List.mem_map_of_mem hop⟩

theorem below (h : m.Covers p m' g o) (hj : m.Below p r (g j)) : m'.Below p r j := by
  induction r generalizing j with
  | zero => exact hj
  | succ r ih => exact fun k hk => ih (hj (g k) (h.pastedIn hk))

end Covers

/-- Putting a node before its user makes a module that covers the one before. -/
theorem Puts.covers (h : m.Puts m' id n v u b x w) (hw : WellFormed m) (hp : p (m.label n) = true) :
    m.Covers p m' (fun j => if j = x then id else j) (fun y => if y = w then v else y) where
  old hj := by
    obtain ⟨n', hn', hres, -⟩ := h.exists_live hw hj
    refine ⟨?_, n', hn', hres⟩
    split
    · next he => exact (h.eq_of_live (he ▸ hj)).1.symm.trans he.symm
    · rfl
  node {j n'} hj := by
    have hsame : ∀ {ys : List ValueId}, (∀ y ∈ ys, m.Usable y) →
        ys.map (fun y => if y = w then v else y) = ys := fun hys => by
      refine (List.map_congr_left fun y hy => ?_).trans (List.map_id' _)
      split
      · next he => exact (h.eq_of_usable (he ▸ hys y hy)).2.1.symm.trans he.symm
      · rfl
    obtain ⟨rfl, rfl⟩ | ⟨hne, nj, hnj, rfl⟩ := h.live_cases hj
    · refine ⟨n, by rw [if_pos rfl, h.source], h.label_self, ?_,
        hsame fun y hy => hw.usable_operand h.source hy⟩
      rw [h.results, List.map_cons, if_pos rfl, List.map_nil]
    · obtain ⟨n', hn', -, hlabel, -⟩ := h.exists_live hw hnj
      obtain rfl := Option.some.inj (hj.symm.trans hn')
      refine ⟨nj, by rw [if_neg hne, hnj], hlabel, hsame fun y hy => hw.usable_of_mem_results hnj hy,
        List.ext_getElem? fun i => ?_⟩
      rw [List.getElem?_map]
      by_cases hu : (⟨j, i⟩ : Use) = u
      · subst hu
        obtain ⟨nu, hnu, hslot⟩ := h.slot
        obtain rfl := Option.some.inj (hnu.symm.trans hnj)
        have hget := getElem?_pointAt_self (w := w) (List.getElem?_eq_some_iff.1 hslot).1
        simp only at hget hslot
        rw [hget, hslot, Option.map_some, if_pos rfl]
      · have hget : (pointAt u w j nj.operands)[i]? = nj.operands[i]? := getElem?_pointAt_of_ne hu
        rw [hget, ← List.getElem?_map, hsame fun y hy => hw.usable_operand hnj hy]
  value y := by
    by_cases hy : y = w
    · exact Or.inr ⟨x, _, h.live?_self, h.label_self ▸ hp, by simp [hy]⟩
    · exact Or.inl (if_neg hy)

/-! ## What is printed where a value is used -/

/-- In the second module, the second value is printed like the first one in the first module: it is the
same value, or comes from a node with the same label and operands that are printed alike. -/
inductive Mirrors (p : Label → Bool) (m m' : Module) : ValueId → ValueId → Prop
  | same {v : ValueId} (h : ∀ j n, m.live? j = some n → v ∈ n.results → p (m.label n) = false) :
      Mirrors p m m' v v
  | node {j j' : NodeId} {n n' : Node} {v v' : ValueId} (hn : m.live? j = some n)
      (hp : p (m.label n) = true) (hv : n.results = [v]) (hn' : m'.live? j' = some n')
      (hv' : n'.results = [v']) (hlabel : m'.label n' = m.label n)
      (hops : List.Forall₂ (Mirrors p m m') n.operands n'.operands) : Mirrors p m m' v v'

/-- What must be printed at each of its uses has one result. -/
def SinglePasted (p : Label → Bool) (m : Module) : Prop :=
  ∀ {j n}, m.live? j = some n → p (m.label n) = true → ∃ v, n.results = [v]

namespace Covers

/-- In a module that covers another one, a value is printed like the value that it stands for. -/
theorem mirrors (h : m.Covers p m' g o) (hw : WellFormed m) (hsingle : m.SinglePasted p)
    (hbelow : ∀ {j n}, m.live? j = some n → p (m.label n) = true → o v ∈ n.results → m.Below p r j) :
    Mirrors p m m' (o v) v := by
  induction r generalizing v with
  | zero =>
    have hplain : ∀ j n, m.live? j = some n → o v ∈ n.results → p (m.label n) = false :=
      fun j n hn hmem => Bool.eq_false_iff.2 fun hp => hbelow hn hp hmem
    have hv : o v = v := (h.value v).resolve_right fun ⟨j, n', hn', hp, hmem⟩ => by
      obtain ⟨n, hn, hlabel, hres, -⟩ := h.node hn'
      exact hbelow hn (hlabel ▸ hp) (hres ▸ List.mem_map_of_mem hmem)
    rw [hv] at hplain ⊢
    exact .same hplain
  | succ r ih =>
    by_cases hpasted : ∃ j n, m.live? j = some n ∧ p (m.label n) = true ∧ o v ∈ n.results
    · obtain ⟨j, n, hn, hp, hmem⟩ := hpasted
      -- The value comes from a copy of the node, or from the node itself.
      obtain ⟨j', n', hn', hmem'⟩ : ∃ j' n', m'.live? j' = some n' ∧ v ∈ n'.results := by
        obtain hv | ⟨j', n', hn', -, hmem'⟩ := h.value v
        · obtain ⟨n', hn', hres, -⟩ := h.exists_live hn
          exact ⟨j, n', hn', hres ▸ hv ▸ hmem⟩
        · exact ⟨j', n', hn', hmem'⟩
      obtain ⟨n₀, hn₀, hlabel, hres, hops⟩ := h.node hn'
      obtain ⟨-, rfl⟩ := hw.eq_of_mem_results hn hn₀ hmem (hres ▸ List.mem_map_of_mem hmem')
      obtain ⟨y, hy⟩ := hsingle hn hp
      obtain ⟨z, hz, rfl⟩ : ∃ z, n'.results = [z] ∧ o z = y := by
        rw [← hres] at hy
        simpa [List.map_eq_singleton_iff] using hy
      obtain rfl : v = z := by simpa [hz] using hmem'
      refine .node hn hp hy hn' hz hlabel ?_
      rw [← hops, List.forall₂_map_left_iff, List.forall₂_same]
      exact fun y hyop => ih fun hk hpk hres => hbelow hn hp hmem _
        ⟨_, n, o y, ⟨hk, hpk⟩, ⟨hn, hp⟩, hres, hops ▸ List.mem_map_of_mem hyop⟩
    · exact ih fun hn hp hmem => absurd ⟨_, _, hn, hp, hmem⟩ hpasted

/-- Every use of a value refers to a value that is printed like it. -/
theorem exists_uses (h : m.Covers p m' g o) (hw : WellFormed m) (hsingle : m.SinglePasted p)
    (hacyclic : ∀ j, ¬ Relation.TransGen (m.PastedIn p) j j) (hu : m.Uses u v) :
    ∃ v', m'.Uses u v' ∧ Mirrors p m m' v v' := by
  obtain ⟨n, hn, hget⟩ := hu
  obtain ⟨n', hn', -, -, hops⟩ := h.exists_live hn
  rw [← hops, List.getElem?_map, Option.map_eq_some_iff] at hget
  obtain ⟨v', hget, rfl⟩ := hget
  refine ⟨v', ⟨n', hn', hget⟩, ?_⟩
  by_cases hpasted : ∃ j n, m.live? j = some n ∧ p (m.label n) = true ∧ o v' ∈ n.results
  · obtain ⟨j, nj, hnj, hp, hmem⟩ := hpasted
    exact h.mirrors hw hsingle fun _ _ _ => below_of_acyclic hacyclic _
  · exact h.mirrors (r := 0) hw hsingle fun hn hp hmem => hpasted ⟨_, _, hn, hp, hmem⟩

end Covers

/-! ## Runs -/

/-- One module comes from another one by putting nodes before their users. -/
inductive Unshares (p : Label → Bool) : Module → Module → Prop
  | refl (m : Module) : Unshares p m m
  | step {m m₁ m' : Module} {id x : NodeId} {n : Node} {v w : ValueId} {u : Use} {b : BlockId}
      (h : m.Puts m₁ id n v u b x w) (hp : p (m.label n) = true) (hrest : Unshares p m₁ m') :
      Unshares p m m'

namespace Unshares

theorem trans (h : Unshares p m m') (h' : Unshares p m' m'') : Unshares p m m'' := by
  induction h with
  | refl => exact h'
  | step hput hp _ ih => exact .step hput hp (ih h')

theorem sound (h : Unshares p m m') (hs : Sound m) : Sound m' := by
  induction h with
  | refl => exact hs
  | step hput _ _ ih => exact ih hput.sound

theorem exists_covers (h : Unshares p m m') (hs : Sound m) : ∃ g o, m.Covers p m' g o := by
  induction h with
  | refl => exact ⟨_, _, .refl p _⟩
  | step hput hp _ ih =>
    obtain ⟨g, o, h⟩ := ih hput.sound
    exact ⟨_, _, (hput.covers hs.toWellFormed hp).trans h⟩

/-- What is printed inside a node is no deeper afterwards. -/
theorem keeps_below (h : Unshares p m m') (hs : Sound m) (hj : m.live? j = some nj) (hr : m.Below p r j) :
    m'.Below p r j := by
  obtain ⟨g, o, h⟩ := h.exists_covers hs
  exact h.below ((h.old hj).1.symm ▸ hr)

/-- The other nodes keep their labels and their blocks. -/
theorem plain (h : Unshares p m m') (hs : Sound m) (hj : m.live? j = some nj)
    (hp : p (m.label nj) = false) :
    ∃ n', m'.live? j = some n' ∧ m'.label n' = m.label nj ∧ n'.parent = nj.parent := by
  induction h generalizing nj with
  | refl => exact ⟨nj, hj, rfl, rfl⟩
  | step hput hpx _ ih =>
    obtain ⟨n₁, hn₁, -, hlabel, hparent⟩ := hput.exists_live hs.toWellFormed hj
    obtain ⟨n', hn', hlabel', hparent'⟩ := ih hput.sound hn₁ (hlabel ▸ hp)
    exact ⟨n', hn', hlabel'.trans hlabel, hparent'.trans (hparent (hput.ne_of_plain hj hp hpx))⟩

/-- The other nodes keep their order. -/
theorem precedes_iff {nk : Node} (h : Unshares p m m') (hs : Sound m) (hj : m.live? j = some nj)
    (hpj : p (m.label nj) = false) (hk : m.live? k = some nk) (hpk : p (m.label nk) = false) :
    Precedes (m'.nodesOf c) j k ↔ Precedes (m.nodesOf c) j k := by
  induction h generalizing nj nk with
  | refl => rfl
  | step hput hpx _ ih =>
    obtain ⟨nj₁, hnj₁, -, hlj, -⟩ := hput.exists_live hs.toWellFormed hj
    obtain ⟨nk₁, hnk₁, -, hlk, -⟩ := hput.exists_live hs.toWellFormed hk
    refine (ih hput.sound hnj₁ (hlj ▸ hpj) hnk₁ (hlk ▸ hpk)).trans ?_
    exact hput.precedes_iff hs.toWellFormed (hput.ne_of_plain hj hpj hpx) (hput.ne_of_plain hk hpk hpx)

end Unshares

end Module

end NetPrep
