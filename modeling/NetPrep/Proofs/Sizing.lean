import Mathlib
import NetPrep.Proofs.Terms

/-!
# Sizes that are exact

With a memo that holds exact sizes to begin with, the size of a value is found whenever it can be
represented. This holds of any sizes that operands have together, so of the numbers of terms.
-/

namespace NetPrep.CostMemo

variable {m : Module} {f : ValueId → Nat} {v : ValueId} {memo : CostMemo} {ops : List ValueId}
  {R : ValueId → ValueId → Prop} {P : ValueId → Prop} {Q : ValueId → Nat → Prop}

/-- The sum over operands whose sizes are known is found if it can be represented. -/
theorem sum_eq {soFar : Nat} (hsoFar : soFar < limit64)
    (hknown : ∀ w ∈ ops, memo.get? w.index = some (f w)) :
    memo.sum soFar ops = below limit64 (soFar + (ops.map f).sum) := by
  induction ops generalizing soFar with
  | nil => exact (below_eq_ok_iff.2 ⟨hsoFar, rfl⟩).symm
  | cons v ops ih =>
    obtain ⟨hv, hops⟩ := List.forall_mem_cons.1 hknown
    rw [CostMemo.sum, hv, Option.getD_some, List.map_cons, List.sum_cons, ← Nat.add_assoc]
    by_cases hlt : soFar + f v < limit64
    · rw [below, if_pos hlt, ok_bind]
      exact ih hlt hops
    · have hlarge : ¬ soFar + f v + (ops.map f).sum < limit64 := by omega
      rw [below, below, if_neg hlt, if_neg hlarge]
      rfl

/-- The operands of a value are below it, and its size is theirs together; without operands it is one. -/
def AddsUp (m : Module) (R : ValueId → ValueId → Prop) (P : ValueId → Prop) (f : ValueId → Nat)
    (v : ValueId) : Prop :=
  ∃ ops, operandsOf m v = .ok ops ∧ (∀ w ∈ ops, P w ∧ R w v) ∧
    f v = if ops = [] then 1 else (ops.map f).sum

/-- Sizes that add up are found exactly, unless one of them is too large to be represented. -/
theorem rule_exact (large : Prop) (hP : ∀ {v}, P v → AddsUp m R P f v)
    (hexact : ∀ {v size}, Q v size → size = f v) (hQ : ∀ {v}, P v → f v < limit64 → Q v (f v)) :
    Rule m R (fun v => P v ∧ (large ∨ f v < limit64)) Q fun e => e = .overflow ∧ large where
  fault := fun ⟨hv, _⟩ h => by
    obtain ⟨ops, hops, -⟩ := hP hv
    rw [hops] at h
    cases h
  operand {v w _} := fun ⟨hv, hlt⟩ h hmem => by
    obtain ⟨ops, hops, hbelow, hsize⟩ := hP hv
    obtain rfl := Except.ok.inj (hops.symm.trans h)
    rw [if_neg (List.ne_nil_of_mem hmem)] at hsize
    have hle : f w ≤ (ops.map f).sum := List.le_sum_of_mem (List.mem_map_of_mem hmem)
    obtain ⟨hw, hR⟩ := hbelow w hmem
    exact ⟨⟨hw, hlt.imp_right fun hlt => (hle.trans_eq hsize.symm).trans_lt hlt⟩, hR⟩
  leaf {v} := fun ⟨hv, _⟩ h => by
    obtain ⟨ops, hops, -, hsize⟩ := hP hv
    obtain rfl := Except.ok.inj (hops.symm.trans h)
    rw [if_pos rfl] at hsize
    have hone : f v < limit64 := hsize ▸ by decide
    exact hsize ▸ hQ hv hone
  sum {v _ memo} := fun ⟨hv, hlt⟩ h hne hknown => by
    obtain ⟨ops, hops, -, hsize⟩ := hP hv
    obtain rfl := Except.ok.inj (hops.symm.trans h)
    rw [if_neg hne] at hsize
    have hget : ∀ w ∈ ops, memo.get? w.index = some (f w) := by
      intro w hmem
      obtain ⟨size, hget, hw⟩ := hknown w hmem
      exact hexact hw ▸ hget
    rw [sum_eq (by decide) hget, Nat.zero_add, ← hsize, below]
    split
    · next hfits => exact hQ hv hfits
    · next hlarge => exact ⟨rfl, hlt.resolve_right hlarge⟩

/-! ## Numbers of terms -/

/-- Remembered sizes belong to values that can be used, and are their numbers of terms. -/
def Exact (m : Module) (f : ValueId → Nat) (memo : CostMemo) : Prop :=
  ∀ v size, memo.get? v.index = some size → m.Usable v ∧ size = f v

theorem exact_empty : Exact m f .empty := fun _ _ h => by cases h

theorem addsUp_of_usable (hw : WellFormed m) (hf : m.CountsTerms f) (hv : m.Usable v) :
    AddsUp m m.Feeds m.Usable f v := by
  obtain ⟨ops, hops⟩ := exists_operandsOf hv
  refine ⟨ops, hops, fun w => usable_of_operandsOf hw hv hops, ?_⟩
  split
  · next hnil => exact terms_of_leaf hw hf hv (hnil ▸ hops)
  · next hne => exact terms_of_operands hw hf hv hops hne

/-- The size of a value is its number of terms, if that can be represented. -/
theorem exists_cost (hw : WellFormed m) (hfeeds : WellFounded m.Feeds) (hf : m.CountsTerms f)
    (hv : m.Usable v) (hlt : f v < limit64) (hmemo : Exact m f memo) :
    ∃ memo', cost m memo v = .ok (f v, memo') ∧ Exact m f memo' := by
  have hrule : Rule m m.Feeds (fun v => m.Usable v ∧ (False ∨ f v < limit64))
      (fun v size => m.Usable v ∧ size = f v) _ :=
    rule_exact False (addsUp_of_usable hw hf) And.right fun hv _ => ⟨hv, rfl⟩
  have hcost := hrule.cost hfeeds ⟨hv, Or.inr hlt⟩ hmemo
  cases h : cost m memo v with
  | error e =>
    rw [h] at hcost
    exact hcost.2.elim
  | ok r =>
    rw [h] at hcost
    obtain ⟨⟨-, hsize⟩, hmemo'⟩ := hcost
    exact ⟨r.2, congrArg Except.ok (Prod.ext hsize rfl), hmemo'⟩

end NetPrep.CostMemo
