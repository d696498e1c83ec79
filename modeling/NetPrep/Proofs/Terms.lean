import Mathlib
import NetPrep.Proofs.Limits
import NetPrep.Proofs.Visiting

/-!
# Numbers of terms

What the size of an expression stands for: the number of terms that it has when it is printed in
full. Where no value depends on itself, a size that is computed is at least the number of terms, as
long as the sizes remembered before are.
-/

namespace NetPrep

/-- A relation without cycles has no endless descent if only finitely many values are below any. -/
theorem wellFounded_of_acyclic {R : ValueId → ValueId → Prop} {size : Nat}
    (hlt : ∀ {w v}, R w v → w.index < size) (h : ∀ v, ¬ Relation.TransGen R v v) :
    WellFounded R := by
  let below (i j : Fin size) : Prop := Relation.TransGen R ⟨i⟩ ⟨j⟩
  have : IsTrans _ below := ⟨fun _ _ _ => Relation.TransGen.trans⟩
  have : Std.Irrefl below := ⟨fun i => h ⟨i⟩⟩
  have hbelow : WellFounded below := Finite.wellFounded_of_trans_of_irrefl below
  have hacc : ∀ i : Fin size, Acc R ⟨i⟩ := by
    intro i
    induction i using hbelow.induction with
    | _ i ih => exact .intro _ fun w hw => ih ⟨w.index, hlt hw⟩ (.single hw)
  exact ⟨fun v => .intro v fun w hw => hacc ⟨w.index, hlt hw⟩⟩

/-- Values that are only above values with smaller numbers are not above themselves. -/
theorem not_transGen_of_lt {R : ValueId → ValueId → Prop} (h : ∀ {w v}, R w v → w.index < v.index)
    (v : ValueId) : ¬ Relation.TransGen R v v := by
  have hlt : ∀ {w v}, Relation.TransGen R w v → w.index < v.index := fun hwv => by
    induction hwv with
    | single hw => exact h hw
    | tail _ hw ih => exact ih.trans (h hw)
  exact fun hv => (hlt hv).false

namespace Module

variable {m : Module} {f : ValueId → Nat} {v w : ValueId} {id : NodeId} {n : Node}

/-- A value is an operand of the node that another value comes from. -/
def Feeds (m : Module) (w v : ValueId) : Prop :=
  ∃ id n, m.live? id = some n ∧ v ∈ n.results ∧ w ∈ n.operands

/-- No value depends on itself. -/
def NoCycles (m : Module) : Prop := ∀ v, ¬ Relation.TransGen m.Feeds v v

/-- A number of terms for every value: one for a port and a node without operands, and for any other
node as many as its operands have together. -/
structure CountsTerms (m : Module) (f : ValueId → Nat) : Prop where
  port : ∀ {v i}, m.def? v = some (.port i) → f v = 1
  leaf : ∀ {id n v}, m.live? id = some n → v ∈ n.results → n.operands = [] → f v = 1
  node : ∀ {id n v}, m.live? id = some n → v ∈ n.results → n.operands ≠ [] →
    f v = (n.operands.map f).sum

theorem Feeds.usable (hw : WellFormed m) (h : m.Feeds w v) : m.Usable w := by
  obtain ⟨id, n, hn, -, hmem⟩ := h
  exact hw.usable_operand hn hmem

/-- Without cycles, values can be gone through from the operands on. -/
theorem NoCycles.wellFounded (h : m.NoCycles) (hw : WellFormed m) : WellFounded m.Feeds :=
  wellFounded_of_acyclic (fun hfeeds => WellFormed.lt_of_usable (hfeeds.usable hw)) h

/-- Values that only depend on values with smaller numbers do not depend on themselves. -/
theorem noCycles_of_lt (h : ∀ {w v}, m.Feeds w v → w.index < v.index) : m.NoCycles :=
  not_transGen_of_lt h

open Classical in
/-- Without cycles, there is a number of terms for every value. -/
theorem exists_countsTerms (hw : WellFormed m) (hfeeds : WellFounded m.Feeds) :
    ∃ f, m.CountsTerms f := by
  let inner (v : ValueId) (p : NodeId × Node) : Prop :=
    m.live? p.1 = some p.2 ∧ v ∈ p.2.results ∧ p.2.operands ≠ []
  let step (v : ValueId) (rec : ∀ w, m.Feeds w v → Nat) : Nat :=
    if h : ∃ p, inner v p then
      (h.choose.2.operands.attach.map fun w =>
        rec w.1 ⟨h.choose.1, h.choose.2, h.choose_spec.1, h.choose_spec.2.1, w.2⟩).sum
    else 1
  let f := hfeeds.fix step
  have hfix : ∀ v, f v = step v fun w _ => f w := fun v => hfeeds.fix_eq step v
  refine ⟨f, fun {v i} hd => ?_, fun {id n v} hn hv hops => ?_, fun {id n v} hn hv hops => ?_⟩
  · rw [hfix]
    refine dif_neg ?_
    rintro ⟨p, hp, hv, -⟩
    obtain ⟨j, hdef⟩ := hw.exists_def hp hv
    rw [hdef] at hd
    cases hd
  · rw [hfix]
    refine dif_neg ?_
    rintro ⟨p, hp, hv', hops'⟩
    obtain ⟨-, rfl⟩ := hw.eq_of_mem_results hn hp hv hv'
    exact hops' hops
  · have hex : ∃ p, inner v p := ⟨(id, n), hn, hv, hops⟩
    obtain ⟨-, heq⟩ := hw.eq_of_mem_results hn hex.choose_spec.1 hv hex.choose_spec.2.1
    rw [hfix]
    change dite _ _ _ = _
    rw [dif_pos hex, heq]
    simp

/-- Every value that can be used has a term. -/
theorem CountsTerms.one_le (h : m.CountsTerms f) (hw : WellFormed m)
    (hfeeds : WellFounded m.Feeds) (hv : m.Usable v) : 1 ≤ f v := by
  induction v using hfeeds.induction with
  | _ v ih =>
    obtain ⟨d, hd, hlive⟩ := hv
    cases d with
    | port i => rw [h.port hd]
    | result id i =>
      obtain ⟨n, hn⟩ := hlive rfl
      obtain ⟨n', hn', hi⟩ := hw.definition hd
      obtain rfl := Option.some.inj (hn'.symm.trans (core_of_live? hn))
      have hv := List.mem_of_getElem? hi
      cases hops : n'.operands with
      | nil => rw [h.leaf hn hv hops]
      | cons w ops =>
        have hmem : w ∈ n'.operands := by simp [hops]
        have hle := ih w ⟨id, n', hn, hv, hmem⟩ (hw.usable_operand hn hmem)
        rw [h.node hn hv (by simp [hops]), hops, List.map_cons, List.sum_cons]
        omega

end Module

namespace CostMemo

variable {m : Module} {f : ValueId → Nat} {v w : ValueId} {memo memo' : CostMemo}
  {ops : List ValueId}

/-- Remembered sizes belong to values that can be used, and are at least their numbers of terms. -/
def Bounds (m : Module) (f : ValueId → Nat) (memo : CostMemo) : Prop :=
  ∀ v size, memo.get? v.index = some size → m.Usable v ∧ f v ≤ size

/-- What `operandsOf` answers for a value that can be used. -/
theorem operandsOf_cases (hw : WellFormed m) (hv : m.Usable v) (h : operandsOf m v = .ok ops) :
    (ops = [] ∧ ∃ i, m.def? v = some (.port i)) ∨
      ∃ id n, m.live? id = some n ∧ v ∈ n.results ∧ n.operands = ops := by
  obtain ⟨d, hd, h⟩ := bind_eq_ok_iff.1 h
  cases d with
  | none =>
    cases h
    exact Or.inl ⟨rfl, Module.definingNode?_eq_none_iff.1 hd⟩
  | some id =>
    obtain ⟨nd, hnd, h⟩ := bind_eq_ok_iff.1 h
    cases h
    obtain ⟨i, hdef⟩ := Module.definingNode?_eq_some_iff.1 hd
    obtain ⟨d, hdef', hlive⟩ := hv
    obtain ⟨n, hn⟩ := hlive (Option.some.inj (hdef'.symm.trans hdef))
    obtain ⟨nd', hnd', -, rfl⟩ := Module.exists_of_live? hn
    obtain rfl := Option.some.inj ((Module.node_eq_ok_iff.1 hnd).symm.trans hnd')
    obtain ⟨n, hcore, hi⟩ := hw.definition hdef
    obtain rfl := Option.some.inj (hcore.symm.trans (Module.core_of_live? hn))
    exact Or.inr ⟨id, _, hn, List.mem_of_getElem? hi, rfl⟩

theorem terms_of_leaf (hw : WellFormed m) (hf : m.CountsTerms f) (hv : m.Usable v)
    (h : operandsOf m v = .ok []) : f v = 1 := by
  obtain ⟨-, i, hd⟩ | ⟨id, n, hn, hmem, hops⟩ := operandsOf_cases hw hv h
  · exact hf.port hd
  · exact hf.leaf hn hmem hops

theorem terms_of_operands (hw : WellFormed m) (hf : m.CountsTerms f) (hv : m.Usable v)
    (h : operandsOf m v = .ok ops) (hne : ops ≠ []) : f v = (ops.map f).sum := by
  obtain ⟨hnil, -⟩ | ⟨id, n, hn, hmem, rfl⟩ := operandsOf_cases hw hv h
  · exact absurd hnil hne
  · exact hf.node hn hmem hne

theorem feeds_iff (hw : WellFormed m) (hv : m.Usable v) (h : operandsOf m v = .ok ops) :
    m.Feeds w v ↔ w ∈ ops := by
  obtain ⟨rfl, i, hd⟩ | ⟨id, n, hn, hmem, rfl⟩ := operandsOf_cases hw hv h
  · refine ⟨?_, fun h => absurd h List.not_mem_nil⟩
    rintro ⟨id, n, hn, hmem, -⟩
    obtain ⟨j, hdef⟩ := hw.exists_def hn hmem
    rw [hdef] at hd
    cases hd
  · constructor
    · rintro ⟨id', n', hn', hmem', hw'⟩
      obtain ⟨-, rfl⟩ := hw.eq_of_mem_results hn hn' hmem hmem'
      exact hw'
    · exact fun hw' => ⟨id, n, hn, hmem, hw'⟩

theorem exists_operandsOf (hv : m.Usable v) : ∃ ops, operandsOf m v = .ok ops := by
  obtain ⟨d, hd, hlive⟩ := hv
  cases d with
  | port i =>
    exact ⟨[], bind_eq_ok_iff.2 ⟨none, Module.definingNode?_eq_none_iff.2 ⟨i, hd⟩, rfl⟩⟩
  | result id i =>
    obtain ⟨n, hn⟩ := hlive rfl
    obtain ⟨nd, hnd, -, -⟩ := Module.exists_of_live? hn
    exact ⟨nd.operands, bind_eq_ok_iff.2 ⟨some id, Module.definingNode?_eq_some_iff.2 ⟨i, hd⟩,
      bind_eq_ok_iff.2 ⟨nd, Module.node_eq_ok_iff.2 hnd, rfl⟩⟩⟩

theorem usable_of_operandsOf (hw : WellFormed m) (hv : m.Usable v) (h : operandsOf m v = .ok ops)
    (hmem : w ∈ ops) : m.Usable w ∧ m.Feeds w v := by
  have hfeeds := (feeds_iff hw hv h).2 hmem
  exact ⟨hfeeds.usable hw, hfeeds⟩

/-! ## Bounds -/

/-- The sum over operands whose sizes are at least their numbers of terms. -/
theorem sum_bounds {soFar size : Nat}
    (hknown : ∀ w ∈ ops, ∃ size, memo.get? w.index = some size ∧ f w ≤ size)
    (h : memo.sum soFar ops = .ok size) : soFar + (ops.map f).sum ≤ size := by
  induction ops generalizing soFar with
  | nil =>
    cases h
    simp
  | cons v ops ih =>
    rw [List.forall_mem_cons] at hknown
    obtain ⟨⟨vsize, hv, hle⟩, hknown⟩ := hknown
    obtain ⟨next, hnext, h⟩ := bind_eq_ok_iff.1 h
    obtain ⟨-, rfl⟩ := below_eq_ok_iff.1 hnext
    have hrest := ih hknown h
    rw [hv] at hrest
    simp only [Option.getD_some, List.map_cons, List.sum_cons] at hrest ⊢
    omega

/-- A size that is computed from sizes that are large enough is so too. -/
theorem rule_bounds (hw : WellFormed m) (hf : m.CountsTerms f) :
    Rule m m.Feeds m.Usable (fun v size => m.Usable v ∧ f v ≤ size) fun _ => True where
  fault _ _ := trivial
  operand := usable_of_operandsOf hw
  leaf hv hops := ⟨hv, (terms_of_leaf hw hf hv hops).le⟩
  sum {v ops memo} hv hops hne hknown := by
    cases hsum : memo.sum 0 ops with
    | error e => trivial
    | ok size =>
      have hle := sum_bounds (fun w hmem => (hknown w hmem).imp fun _ h => ⟨h.1, h.2.2⟩) hsum
      rw [Nat.zero_add, ← terms_of_operands hw hf hv hops hne] at hle
      exact ⟨hv, hle⟩

/-- The size of a value is at least its number of terms. -/
theorem cost_bounds (hw : WellFormed m) (hfeeds : WellFounded m.Feeds) (hf : m.CountsTerms f)
    (hv : m.Usable v) (hmemo : Bounds m f memo) {size : Nat}
    (h : cost m memo v = .ok (size, memo')) : f v ≤ size ∧ Bounds m f memo' := by
  have hcost := (rule_bounds hw hf).cost hfeeds hv hmemo
  rw [h] at hcost
  exact ⟨hcost.1.2, hcost.2⟩

end CostMemo

end NetPrep
