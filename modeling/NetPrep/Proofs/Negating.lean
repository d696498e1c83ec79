import Mathlib
import NetPrep.Proofs.Breaking
import NetPrep.Proofs.Keeping.Expression
import NetPrep.Proofs.Rewriting
import NetPrep.Proofs.Sparing

/-!
# Differences in place of sums

To add a negative constant is to subtract its negation. The difference takes the place of the sum: it has
its name and its uses. The two are the same word, unless the word is wider than constants are and the
constant is the least one, which is its own negation.
-/

namespace NetPrep

open Prepare Prep

/-! ## Negated constants -/

/-- A constant is negated as a signed 64-bit number, which wraps around at the least one only. -/
theorem negatedConstant_of_le {value : Int} {w : Nat} (hw : 64 ≤ w) (hvalue : fitsInt64 value = true)
    (hneg : value < 0) :
    negatedConstant value w = if value = -0x8000000000000000 then value else -value := by
  obtain ⟨hle, -⟩ := fitsInt64_iff.1 hvalue
  rw [negatedConstant, canonicalConstant, if_neg (by omega), if_pos hw, limit64]
  split
  · next he =>
    subst he
    rfl
  · next hne => exact Int.bmod_eq_of_le (by omega) (by omega)

/-- Subtracting the negation of a constant is adding the constant, unless the word is wider than
constants are and the constant is the least one. -/
theorem add_eq_sub_negatedConstant_iff {value : Int} {w : Nat} (hvalue : fitsInt64 value = true)
    (hneg : value < 0) :
    (∀ a : BitVec w, a + .ofInt w value = a - .ofInt w (negatedConstant value w)) ↔
      (w ≤ 64 ∨ value ≠ -0x8000000000000000) := by
  constructor
  · intro h
    by_contra hboth
    obtain ⟨hw, rfl⟩ : 64 < w ∧ value = -0x8000000000000000 := by simpa using hboth
    have hpow : 2 ^ 65 ≤ 2 ^ w := Nat.pow_le_pow_right (by omega) hw
    -- The least constant and its negation are two words, one of which would be added to zero.
    have hzero := congrArg BitVec.toInt (h 0#w)
    rw [negatedConstant_of_le hw.le hvalue hneg, if_pos rfl, BitVec.zero_add, BitVec.zero_sub,
      ← BitVec.ofInt_neg, BitVec.toInt_ofInt, BitVec.toInt_ofInt, Int.bmod_eq_of_le (by omega) (by omega),
      Int.bmod_eq_of_le (by omega) (by omega)] at hzero
    omega
  · intro h a
    have hnegated : BitVec.ofInt w (negatedConstant value w) = -BitVec.ofInt w value := by
      obtain hw | hw := Nat.le_total w 64
      · exact ofInt_negatedConstant hw value
      · by_cases hmin : value = -0x8000000000000000
        · exact ofInt_negatedConstant (h.resolve_right fun hne => hne hmin) value
        · rw [negatedConstant_of_le hw hvalue hneg, if_neg hmin, BitVec.ofInt_neg]
    rw [hnegated, BitVec.sub_neg]

/-! ## Sums and differences -/

/-- The addition of a constant, and the constant. -/
structure ConstantSum where
  add : NodeId
  node : Node
  constant : NodeId
  constantNode : Node
  lhs : ValueId
  rhs : ValueId
  old : ValueId
  type : TypeId
  width : Nat
  value : Int

namespace ConstantSum

/-- A negative constant is added to a word. -/
structure In (S : ConstantSum) (m : Module) : Prop where
  node : m.live? S.add = some S.node
  op : S.node.op = .add
  operands : S.node.operands = [S.lhs, S.rhs]
  results : S.node.results = [S.old]
  type : m.type? S.old = some S.type
  width : m.types.intWidth? S.type = some S.width
  constant : m.live? S.constant = some S.constantNode
  constantOp : S.constantNode.op = .constant S.value
  constantOperands : S.constantNode.operands = []
  rhs : S.rhs ∈ S.constantNode.results
  range : fitsInt64 S.value = true
  negative : S.value < 0

theorem In.isAlwaysInline_node {S : ConstantSum} {m : Module} (h : S.In m) :
    S.node.op.isAlwaysInline = false := by
  rw [h.op]
  rfl

theorem In.isAlwaysInline_constant {S : ConstantSum} {m : Module} (h : S.In m) :
    S.constantNode.op.isAlwaysInline = false := by
  rw [h.constantOp]
  rfl

/-- The sum is not the constant. -/
theorem In.constant_ne_add {S : ConstantSum} {m : Module} (h : S.In m) : S.constant ≠ S.add := by
  intro he
  obtain hnode := Option.some.inj (h.constant.symm.trans (he ▸ h.node))
  have hop := h.constantOp
  rw [hnode, h.op] at hop
  cases hop

/-- So no value of the constant is the sum. -/
theorem In.ne_old_of_mem {S : ConstantSum} {m : Module} {v : ValueId} (h : S.In m) (hw : WellFormed m)
    (hv : v ∈ S.constantNode.results) : v ≠ S.old := by
  rintro rfl
  exact h.constant_ne_add (hw.eq_of_mem_results h.constant h.node hv (by simp [h.results])).1

/-- Nothing but the sum uses the constant. -/
def Sole (S : ConstantSum) (m : Module) : Prop :=
  ∀ u, ∀ v ∈ S.constantNode.results, m.Uses u v → u = ⟨S.add, 1⟩

end ConstantSum

/-- The subtraction of a constant, and the constant. -/
structure ConstantDifference where
  positive : NodeId
  positiveValue : ValueId
  sub : NodeId
  value : ValueId

namespace Module

variable {m m' : Module} {S : ConstantSum} {D : ConstantDifference} {j : NodeId} {nj n' : Node}
  {v : ValueId} {u : Use} {g : NodeId → NodeId} {o : ValueId → ValueId}

/-- A difference takes the place of a sum: it has its name, and the uses of the sum refer to it. The
constant that was added goes if nothing else uses it. -/
structure Trades (m m' : Module) (S : ConstantSum) (D : ConstantDifference) : Prop where
  kept : m.Kept m'
  sound : Sound m'
  gone : m'.live? S.add = none
  constant_iff : m'.live? S.constant = none ↔ S.Sole m
  other : ∀ {j nj}, m.live? j = some nj → j ≠ S.add → (j = S.constant → ¬ S.Sole m) →
    m'.live? j = some { nj with operands := substitute S.old D.value j nj.operands }
  positive : m'.live? D.positive = some (.fresh (.constant (negatedConstant S.value S.width)) []
    [D.positiveValue] S.node.parent S.node.loc)
  sub : m'.live? D.sub = some { Node.fresh .sub (substitute S.old D.value D.sub [S.lhs, D.positiveValue])
    [D.value] S.node.parent S.node.loc with name := S.node.name, twoState := S.node.twoState }
  positiveType : m'.type? D.positiveValue = some S.type
  type : m'.type? D.value = some S.type

namespace Trades

variable (h : m.Trades m' S D)

include h

/-- The uses of the sum refer to the difference. -/
theorem uses (hS : S.In m) (hu : m.Uses u S.old) (hne : u.node ≠ S.add) : m'.Uses u D.value := by
  obtain ⟨nu, hnu, hget⟩ := hu
  refine ⟨_, h.other hnu hne ?_, by simp [substitute, hget]⟩
  -- The constant itself has no operands.
  intro hc
  obtain rfl := Option.some.inj (hS.constant.symm.trans (hc ▸ hnu))
  simp [hS.constantOperands] at hget

theorem unpasted : m'.Unpasted Label.isAlwaysInline D.value ∧
    m'.Unpasted Label.isAlwaysInline D.positiveValue :=
  ⟨unpasted_of_plain h.sound.toWellFormed h.sub rfl (List.mem_singleton_self _),
    unpasted_of_plain h.sound.toWellFormed h.positive rfl (List.mem_singleton_self _)⟩

/-- The constant that is made is not the sum. -/
theorem positiveValue_ne (hw : WellFormed m) (hS : S.In m) : D.positiveValue ≠ S.old := by
  intro he
  have hold := h.kept.def? (hw.result (core_of_live? hS.node) (i := 0) (v := S.old) (by simp [hS.results]))
  have hnew := h.sound.toWellFormed.result (core_of_live? h.positive) (i := 0) (v := D.positiveValue) rfl
  rw [he, hold] at hnew
  have hgone := h.gone
  rw [(ValueDef.result.inj (Option.some.inj hnew)).1, h.positive] at hgone
  cases hgone

end Trades

end Module

namespace Module

variable {m m' m₁ m₂ m₃ m₄ : Module} {S : ConstantSum} {D : ConstantDifference} {positive j : NodeId}
  {nj : Node} {v : ValueId} {u : Use}

/-- The edits by which a difference takes the place of a sum. -/
structure Substitutes (m m₁ m₂ m₃ m₄ : Module) (S : ConstantSum) (D : ConstantDifference) : Prop where
  positive : m.Creates m₁ S.node.parent (.before S.add) D.positive
    (.fresh (.constant (negatedConstant S.value S.width)) [] [D.positiveValue] S.node.parent S.node.loc)
    [S.type]
  sound₁ : Sound m₁
  sub : m₁.Creates m₂ S.node.parent (.before S.add) D.sub
    { Node.fresh .sub [S.lhs, D.positiveValue] [D.value] S.node.parent S.node.loc with
      name := S.node.name, twoState := S.node.twoState } [S.type]
  sound₂ : Sound m₂
  redirects : m₂.Redirects m₃ (substitute S.old D.value)
  sound₃ : Sound m₃
  erases : m₃.Erases m₄ S.add
  sound₄ : Sound m₄

namespace Substitutes

variable (h : Substitutes m m₁ m₂ m₃ m₄ S D) (hw : WellFormed m) (hS : S.In m)

include h

theorem kept : m.Kept m₄ :=
  ((h.positive.kept.trans h.sub.kept).trans h.redirects.kept).trans h.erases.kept

/-- The values that are made are none that was there. -/
theorem ne_of_lt (hlt : v.index < m.values.size) : v ≠ D.positiveValue ∧ v ≠ D.value := by
  have hlt₁ := hlt.trans_le h.positive.kept.values_size
  refine ⟨?_, ?_⟩
  · rintro rfl
    exact absurd (h.positive.index_result (v := D.positiveValue) (by simp [Node.fresh])) (by omega)
  · rintro rfl
    exact absurd (h.sub.index_result (v := D.value) (by simp [Node.fresh])) (by omega)

/-- A node that is there stays, but for the sum, with operands redirected. -/
theorem live (hj : m₂.live? j = some nj) (hne : j ≠ S.add) :
    m₄.live? j = some { nj with operands := substitute S.old D.value j nj.operands } :=
  h.erases.live (h.redirects.live hj) hne

include hw hS

/-- A value of the constant is used where it was, and by the difference if the sum had it on both
sides. -/
theorem uses_constant_iff (hv : v ∈ S.constantNode.results) :
    m₄.Uses u v ↔ (m.Uses u v ∧ u.node ≠ S.add) ∨ (u = ⟨D.sub, 0⟩ ∧ v = S.lhs) := by
  obtain ⟨hpositive, hnew⟩ := h.ne_of_lt (hw.lt_of_result (core_of_live? hS.constant) hv)
  have hold := hS.ne_old_of_mem hw hv
  have hne : D.sub ≠ S.add := (h.sub.ne (h.positive.live hS.node)).symm
  have hrest : m₃.Uses u v ↔ m₂.Uses u v := by simp [h.redirects.uses_substitute_iff, hold, hnew]
  rw [h.erases.uses_iff, hrest, h.sub.uses_iff, h.positive.uses_iff]
  constructor
  · rintro ⟨(hu | ⟨-, hget⟩) | ⟨hus, hget⟩, hadd⟩
    · exact Or.inl ⟨hu, hadd⟩
    · simp [Node.fresh] at hget
    · obtain ⟨id, i⟩ := u
      obtain rfl : id = D.sub := hus
      rcases i with _ | _ | i
      · exact Or.inr ⟨rfl, (Option.some.inj hget).symm⟩
      · exact absurd (Option.some.inj hget).symm hpositive
      · simp [Node.fresh] at hget
  · rintro (⟨hu, hadd⟩ | ⟨rfl, rfl⟩)
    · exact ⟨Or.inl (Or.inl hu), hadd⟩
    · exact ⟨Or.inr ⟨rfl, rfl⟩, hne⟩

/-- The constant is left unused by the edits if only the sum used it. -/
theorem unused_constant_iff : (∀ u, ∀ v ∈ S.constantNode.results, ¬ m₄.Uses u v) ↔ S.Sole m := by
  have hlhs : m.Uses ⟨S.add, 0⟩ S.lhs := ⟨_, hS.node, by simp [hS.operands]⟩
  constructor
  · rintro hunused ⟨id, i⟩ v hv hu
    obtain rfl : id = S.add := by
      by_contra hne
      exact hunused _ v hv ((h.uses_constant_iff hw hS hv).2 (Or.inl ⟨hu, hne⟩))
    obtain ⟨n, hn, hget⟩ := hu
    obtain rfl := Option.some.inj (hS.node.symm.trans hn)
    rw [hS.operands] at hget
    rcases i with _ | _ | i
    · have huse := (h.uses_constant_iff hw hS hv).2 (Or.inr ⟨rfl, (Option.some.inj hget).symm⟩)
      exact absurd huse (hunused _ v hv)
    · rfl
    · simp at hget
  · intro hsole u v hv hu
    obtain ⟨hu, hne⟩ | ⟨-, rfl⟩ := (h.uses_constant_iff hw hS hv).1 hu
    · exact hne (by rw [hsole u v hv hu])
    · cases hsole _ _ hv hlhs

/-- What is printed at its uses stays: neither the sum nor the difference nor a constant is. -/
theorem spares : m.Spares Label.isAlwaysInline m₄ := by
  have hop := hS.isAlwaysInline_node
  have hw₁ := h.sound₁.toWellFormed
  have hw₂ := h.sound₂.toWellFormed
  have hn₂ := h.sub.live (h.positive.live hS.node)
  have hold : m₂.Unpasted Label.isAlwaysInline S.old :=
    unpasted_of_plain hw₂ hn₂ hop (by simp [hS.results])
  have hnew : m₂.Unpasted Label.isAlwaysInline D.value :=
    unpasted_of_plain hw₂ h.sub.live?_self rfl (List.mem_singleton_self _)
  have hsub : m₁.Spares Label.isAlwaysInline m₂ := h.sub.spares hw₁ rfl
  replace hsub := (h.positive.spares hw rfl).trans hsub
  refine (hsub.trans (h.redirects.spares hw₂ hold hnew)).trans ?_
  exact h.erases.spares h.sound₃.toWellFormed (h.redirects.live hn₂) hop

/-- The uses of what is printed there are as many as before. -/
theorem length_usesOf (hv : ¬ m.Unpasted Label.isAlwaysInline v) :
    (m₄.usesOf v).length = (m.usesOf v).length := by
  have hw₁ := h.sound₁.toWellFormed
  have hw₂ := h.sound₂.toWellFormed
  have hw₃ := h.sound₃.toWellFormed
  have hold : v ≠ S.old := by
    rintro rfl
    exact hv (unpasted_of_plain hw hS.node hS.isAlwaysInline_node (by simp [hS.results]))
  have hrhs : v ≠ S.rhs := by
    rintro rfl
    exact hv (unpasted_of_plain hw hS.constant hS.isAlwaysInline_constant hS.rhs)
  obtain ⟨hpositive, hnew⟩ := h.ne_of_lt (v := v) (Nat.lt_of_not_le fun hle =>
    hv (unpasted_of_le hw hle))
  have hn₃ := h.redirects.live (h.sub.live (h.positive.live hS.node))
  have h₁ := h.positive.length_usesOf hw hw₁ v
  have h₂ := h.sub.length_usesOf hw₁ hw₂ v
  have h₃ := h.redirects.length_usesOf hw₂ hw₃ hold hnew
  have h₄ := h.erases.length_usesOf hw₃ h.sound₄.toWellFormed hn₃ v
  -- The difference has the first operand of the sum, and the other operands are constants.
  rw [show (substitute S.old D.value S.add S.node.operands).count v = [S.lhs, S.rhs].count v by
    rw [count_substitute hold hnew, hS.operands]] at h₄
  simp only [Node.fresh, List.count_cons, List.count_nil, beq_iff_eq, hpositive.symm, hrhs.symm,
    if_false] at h₁ h₂ h₄
  omega

end Substitutes

/-- What subtracting instead comes to before the operands of the difference are settled. -/
theorem Subtracts.exists_trades (h : m.Subtracts S.add S.constant S.value positive m') (hs : Sound m)
    (hS : S.In m) :
    ∃ D mid, D.positive = positive ∧ m.Trades mid S D ∧ SettlesOperands [D.sub] mid m' := by
  obtain @⟨n, nc, lhs, rhs, old, positiveValue, difference, type, sub, m₁, m₂, m₃, m₄, m₅, hn, hop, hops,
    hrhs, hc, hcop, -, hold, htype, width, ⟨_, hbits, hwidth⟩, hpos, hs₁, hsub, hs₂, hr, hs₃, -, he, hs₄,
    hconst, hs₅, hsettle⟩ := h
  obtain rfl := Option.some.inj (hS.node.symm.trans hn)
  obtain rfl := Option.some.inj (hS.constant.symm.trans hc)
  obtain ⟨rfl, rfl⟩ : S.lhs = lhs ∧ S.rhs = rhs := by simpa using hS.operands.symm.trans hops
  obtain rfl : S.old = old := by simpa [hS.results] using hold
  obtain rfl := Option.some.inj (hS.type.symm.trans htype)
  obtain rfl : S.width = width := by
    rw [TypeTable.bitWidth_of_intWidth? hS.width] at hbits
    cases hbits
    exact hwidth
  let D : ConstantDifference := ⟨positive, positiveValue, sub, difference⟩
  have h : Substitutes m m₁ m₂ m₃ m₄ S D := ⟨hpos, hs₁, hsub, hs₂, hr, hs₃, he, hs₄⟩
  have hiff := h.unused_constant_iff hs.toWellFormed hS
  have hnec := hS.constant_ne_add
  have hadd : S.add ≠ positive ∧ S.add ≠ sub := ⟨hpos.ne hS.node, hsub.ne (hpos.live hS.node)⟩
  have hcon : S.constant ≠ positive ∧ S.constant ≠ sub :=
    ⟨hpos.ne hS.constant, hsub.ne (hpos.live hS.constant)⟩
  have hgone : m₄.live? S.add = none := by rw [he.live?, if_pos rfl]
  have hlive : ∀ {j nj}, m₄.live? j = some nj → (j = S.constant → ¬ S.Sole m) →
      m₅.live? j = some nj := by
    intro j nj hj hjc
    obtain ⟨rfl, -⟩ | ⟨hunused, he'⟩ := hconst
    · exact hj
    · exact he'.live hj fun hc => hjc hc (hiff.1 hunused)
  have hkept : m₄.Kept m₅ := by
    obtain ⟨rfl, -⟩ | ⟨-, he'⟩ := hconst
    · exact .refl _
    · exact he'.kept
  refine ⟨D, m₅, rfl, ⟨h.kept.trans hkept, hs₅, ?_, ?_, fun hj hne hjc =>
    hlive (h.live (hsub.live (hpos.live hj)) hne) hjc, ?_, ?_, ?_, ?_⟩, hsettle⟩
  · obtain ⟨rfl, -⟩ | ⟨-, he'⟩ := hconst
    · exact hgone
    · rw [he'.live?, hgone, ite_self]
  · have hc₄ := h.live (hsub.live (hpos.live hS.constant)) hnec
    obtain ⟨rfl, u, v, hv, hu⟩ | ⟨hunused, he'⟩ := hconst
    · have hused : ¬ S.Sole m := fun hsole => hiff.2 hsole u v hv hu
      simp [hc₄, hused]
    · exact iff_of_true (by rw [he'.live?, if_pos rfl]) (hiff.1 hunused)
  · exact hlive (h.live (hsub.live hpos.live?_self) hadd.1.symm) fun hc => absurd hc.symm hcon.1
  · exact hlive (h.live hsub.live?_self hadd.2.symm) fun hc => absurd hc.symm hcon.2
  · exact hkept.type? (he.kept.type? (hr.kept.type? (hsub.kept.type? (hpos.type?_result (i := 0) rfl))))
  · exact hkept.type? (he.kept.type? (hr.kept.type? (hsub.type?_result (i := 0) rfl)))

/-- A difference is there in place of a sum, and all uses of the sum refer to it. Its first operand
stands for that of the sum. The constant that was added is gone if nothing else used it. -/
structure Negated (m m' : Module) (S : ConstantSum) (D : ConstantDifference)
    (o : ValueId → ValueId) : Prop where
  gone : m'.live? S.add = none
  constant_iff : m'.live? S.constant = none ↔ S.Sole m
  positive : ∃ np, m'.live? D.positive = some np ∧
    np.op = .constant (negatedConstant S.value S.width) ∧ np.results = [D.positiveValue]
  sub : ∃ ns lhs, m'.live? D.sub = some ns ∧ ns.op = .sub ∧ ns.operands = [lhs, D.positiveValue] ∧
    ns.results = [D.value] ∧ ns.name = S.node.name ∧ ns.twoState = S.node.twoState ∧
    ns.loc = S.node.loc ∧ o lhs = if S.lhs = S.old then D.value else S.lhs
  types : m'.type? D.positiveValue = some S.type ∧ m'.type? D.value = some S.type
  uses : ∀ {u}, m.Uses u S.old → u.node ≠ S.add → m'.Uses u D.value

/-- Settling the operands of the difference leaves it the difference. -/
theorem Trades.negated {D : ConstantDifference} {mid : Module} {g : NodeId → NodeId}
    {o : ValueId → ValueId} (h : m.Trades mid S D) (hw : WellFormed m) (hS : S.In m)
    (hsettle : SettlesOperands [D.sub] mid m') (hcovers : mid.Covers Label.isAlwaysInline m' g o) :
    m.Negated m' S D o := by
  have hframe := hsettle.frame h.sound
  have hsize := h.kept.nodes_size
  obtain ⟨np, hnp, hnpres, hnplabel, -⟩ := hcovers.exists_live h.positive
  obtain ⟨ns, hns, hnsres, hnslabel, hnsops⟩ := hcovers.exists_live h.sub
  refine ⟨hframe.gone h.gone ((lt_of_live? hS.node).trans_le hsize), ?_,
    ⟨np, hnp, congrArg Label.op hnplabel, hnpres⟩, ?_,
    ⟨hframe.kept.type? h.positiveType, hframe.kept.type? h.type⟩,
    fun hu hne => hcovers.uses (h.uses hS hu hne) h.unpasted.1⟩
  · rw [← h.constant_iff]
    constructor
    · intro hnone
      refine Option.eq_none_iff_forall_not_mem.2 fun nc hnc => ?_
      obtain ⟨nc', hnc', -⟩ := hcovers.exists_live hnc
      simp [hnone] at hnc'
    · exact fun hnone => hframe.gone hnone ((lt_of_live? hS.constant).trans_le hsize)
  · have hne := h.positiveValue_ne hw hS
    obtain ⟨lhs, rest, hops, hlhs, hrest⟩ := List.map_eq_cons_iff.1 hnsops
    obtain ⟨positiveValue, rfl, hpositive⟩ := List.map_eq_singleton_iff.1 hrest
    replace hpositive : o positiveValue = D.positiveValue := hpositive.trans (if_neg hne)
    have hsame := hcovers.eq_of_unpasted (v := positiveValue) (hpositive ▸ h.unpasted.2)
    rw [← hsame, hpositive] at hops
    exact ⟨ns, lhs, hns, congrArg Label.op hnslabel, hops, hnsres, congrArg Label.name hnslabel,
      congrArg Label.twoState hnslabel, congrArg Label.loc hnslabel, hlhs⟩

/-- Whatever comes of subtracting instead has the difference in place of the sum. -/
theorem Subtracts.exists_negated (h : m.Subtracts S.add S.constant S.value positive m') (hs : Sound m)
    (hS : S.In m) : ∃ D mid g o, D.positive = positive ∧ m.Trades mid S D ∧
      mid.Covers Label.isAlwaysInline m' g o ∧ m.Negated m' S D o := by
  obtain ⟨D, mid, hD, htrades, hsettle⟩ := h.exists_trades hs hS
  obtain ⟨g, o, hcovers⟩ := hsettle.exists_covers htrades.sound
  exact ⟨D, mid, g, o, hD, htrades, hcovers, htrades.negated hs.toWellFormed hS hsettle hcovers⟩

end Module

namespace Prep

variable {m m' : Module} {names : NameTable} {stats : Stats} {S : ConstantSum}

/-- Settling the operands of the difference ends, after edits that spare what is printed at its uses. -/
theorem settleDifference_ends {D : ConstantDifference} {np ns : Node} (hs : Sound m)
    (hsingle : m.SinglePasted Label.isAlwaysInline)
    (hlhs : m.Shallow Label.isAlwaysInline S.lhs)
    (hspares : m.Spares Label.isAlwaysInline m') (hs' : Sound m') (hk : m.Kept m')
    (hsize : m'.nodes.size = m.nodes.size + 2)
    (huses : ∀ v, ¬ m.Unpasted Label.isAlwaysInline v →
      (m'.usesOf v).length = (m.usesOf v).length)
    (hpositive : m'.live? D.positive = some np) (hnp : np.op.isAlwaysInline = false)
    (hsub : m'.live? D.sub = some ns) (hns : ns.op.isAlwaysInline = false)
    (hops : ∀ v ∈ ns.operands, v = S.lhs ∨ v ∈ np.results ∨ v ∈ ns.results) :
    Ends Label.isAlwaysInline (fun _ => do inlineOperands D.sub; return D.positive)
      ⟨m', names, stats⟩ (fun _ _ => True)
      ((∀ j, ¬ Relation.TransGen (m.PastedIn Label.isAlwaysInline) j j) →
        ¬ m.Fits (m.copies Label.isAlwaysInline + 3)) := by
  have hw' := hs'.toWellFormed
  have hshallow : ∀ v ∈ ns.operands, m'.Shallow Label.isAlwaysInline v := fun v hv => by
    obtain rfl | hv | hv := hops v hv
    · exact hspares.shallow hlhs
    · exact (Module.unpasted_of_plain hw' hpositive hnp hv).shallow
    · exact (Module.unpasted_of_plain hw' hsub hns hv).shallow
  refine .bind ((inlineOperands_ends hs' (hspares.singlePasted hsingle) ⟨ns, hsub, hshallow⟩).relax
    fun hcrowds hacyclic => ?_) fun _ _ _ => .pure trivial
  exact hcrowds.not_fits_of_spares hspares hs hs' hk hsize huses hacyclic

/-- Subtracting instead ends, if what is printed for the first operand is finite. There is room if there
is room for the new nodes and for all copies of what is printed at its uses. -/
theorem subtractInstead_ends (hs : Sound m) (hS : S.In m)
    (hsingle : m.SinglePasted Label.isAlwaysInline)
    (hlhs : m.Shallow Label.isAlwaysInline S.lhs) :
    Ends Label.isAlwaysInline (fun _ => subtractInstead S.add S.constant S.value) ⟨m, names, stats⟩
      (fun _ _ => True)
      ((∀ j, ¬ Relation.TransGen (m.PastedIn Label.isAlwaysInline) j j) →
        ¬ m.Fits (m.copies Label.isAlwaysInline + 3)) := by
  have hw := hs.toWellFormed
  obtain ⟨nd, hnd, -, hcore⟩ := Module.exists_of_live? hS.node
  have hops : nd.operands = [S.lhs, S.rhs] := (congrArg Node.operands hcore).trans hS.operands
  have hres : nd.results = [S.old] := (congrArg Node.results hcore).trans hS.results
  have hrest : nd.loc = S.node.loc ∧ nd.name = S.node.name ∧ nd.twoState = S.node.twoState := by
    rw [← hcore]
    exact ⟨rfl, rfl, rfl⟩
  obtain ⟨hloc, hname, hmark⟩ := hrest
  have hlhsUse : m.Uses ⟨S.add, 0⟩ S.lhs := ⟨_, hS.node, by simp [hS.operands]⟩
  have hreg : S.node.regions = [] := hs.toNested.regions_of_results hS.node hS.results
  simp only [subtractInstead]
  refine .step (fun _ _ => runs_node.2 ⟨hnd, rfl⟩) ?_
  refine .query (operand_eq_ok_iff.2 ⟨nd, hnd, by rw [hops]; rfl⟩) ?_
  refine .query (result_eq_ok_iff.2 ⟨nd, hnd, by rw [hres]; rfl⟩) ?_
  refine .query (valueType_eq_ok_iff.2 hS.type) ?_
  refine .query (TypeTable.bitWidth_of_intWidth? hS.width) ?_
  simp only [Option.getD_some, hloc, hname, hmark]
  refine .create hs hS.node rfl (by simp) (fun hfits _ hroom => hfits (hroom.of_le (by omega)))
    fun positive positiveValue m₁ hc₁ hs₁ hsize₁ => ?_
  have husable : ∀ v ∈ [S.lhs, positiveValue], m₁.Usable v := by
    simpa using ⟨hc₁.usable (hw.usable hlhsUse), hc₁.usable_result (i := 0) rfl⟩
  refine .create hs₁ (hc₁.live hS.node) rfl husable
    (fun hfits _ hroom => hfits (hroom.of_le (by omega)))
    fun sub difference m₂ hc₂ hs₂ hsize₂ => ?_
  refine .setTwoState hs₂ hc₂.live?_self fun m₃ hr₃ hs₃ hsize₃ => ?_
  refine .setName hs₃ (hr₃.live hc₂.live?_self) fun m₄ hr₄ hs₄ hsize₄ => ?_
  have hc₄ := (hc₂.relabel hr₃).relabel hr₄
  refine .replaceUses hs₄ (hc₄.kept.type? (hc₁.kept.type? hS.type)) (hc₄.usable_result (i := 0) rfl)
    fun m₅ hr hs₅ hsize₅ => ?_
  have hn₅ := hr.live (hc₄.live (hc₁.live hS.node))
  have hne : difference ≠ S.old := by
    rintro rfl
    have hlt := Module.lt_of_type? (hc₁.kept.type? hS.type)
    exact absurd (hc₄.index_result (v := S.old) (by simp [Node.fresh])) (Nat.not_le.2 hlt)
  refine .eraseNode hs₅ hn₅ hreg (fun v hv => ?_) fun m₆ he hs₆ hsize₆ => ?_
  · obtain rfl : v = S.old := by simpa [hS.results] using hv
    exact hr.unused hne
  let D : ConstantDifference := ⟨positive, positiveValue, sub, difference⟩
  have h : m.Substitutes m₁ m₄ m₅ m₆ S D := ⟨hc₁, hs₁, by simpa using hc₄, hs₄, hr, hs₅, he, hs₆⟩
  have hadd : S.add ≠ positive ∧ S.add ≠ sub := ⟨hc₁.ne hS.node, hc₄.ne (hc₁.live hS.node)⟩
  have hcon : S.constant ≠ positive ∧ S.constant ≠ sub :=
    ⟨hc₁.ne hS.constant, hc₄.ne (hc₁.live hS.constant)⟩
  have hconstant := h.live (hc₄.live (hc₁.live hS.constant)) hS.constant_ne_add
  have hpositive := h.live (hc₄.live hc₁.live?_self) hadd.1.symm
  have hsub := h.live h.sub.live?_self hadd.2.symm
  have hsize : m₆.nodes.size = m.nodes.size + 2 := by
    rw [hsize₆, hsize₅, hsize₄, hsize₃, hsize₂, hsize₁]
  have hops : ∀ v ∈ substitute S.old D.value D.sub [S.lhs, D.positiveValue],
      v = S.lhs ∨ v ∈ [D.positiveValue] ∨ v ∈ [D.value] := by
    intro v hv
    obtain ⟨w, hw, rfl⟩ := List.mem_map.1 hv
    split
    · simp
    · exact (List.mem_pair.1 hw).imp id fun hw => Or.inl (List.mem_singleton.2 hw)
  obtain ⟨unused, hunused, hiff⟩ := hs₆.exists_isUnused hconstant
  refine .query hunused ?_
  cases unused with
  | false =>
    simp only [Bool.false_eq_true, if_false]
    exact settleDifference_ends (D := D) hs hsingle hlhs (h.spares hw hS) hs₆ h.kept hsize
      (fun v => h.length_usesOf hw hS) hpositive rfl hsub rfl hops
  | true =>
    simp only [if_true]
    have hregc : S.constantNode.regions = [] := hs.toNested.regions_eq_nil hS.constant
      (by rw [hS.constantOp]; rfl)
    refine .eraseNode hs₆ hconstant hregc (fun v hv u => hiff.1 rfl u v hv) fun m₇ he' hs₇ hsize₇ => ?_
    have hw₆ := hs₆.toWellFormed
    have hspares := (h.spares hw hS).trans (he'.spares hw₆ hconstant hS.isAlwaysInline_constant)
    refine settleDifference_ends (D := D) hs hsingle hlhs hspares hs₇ (h.kept.trans he'.kept)
      (hsize₇.trans hsize) (fun v hv => ?_) (he'.live hpositive hcon.1.symm) rfl
      (he'.live hsub hcon.2.symm) rfl hops
    have hlen := he'.length_usesOf hw₆ hs₇.toWellFormed hconstant v
    simp only [substitute, hS.constantOperands, List.map_nil, List.count_nil, Nat.add_zero] at hlen
    exact hlen.trans (h.length_usesOf hw hS hv)

/-- The constant that is added is found. -/
theorem negativeConstant?_of_in (hw : WellFormed m) (hS : S.In m) :
    negativeConstant? m S.add = .ok (some (S.constant, S.value)) := by
  obtain ⟨nd, hnd, -, hcore⟩ := Module.exists_of_live? hS.node
  obtain ⟨nc, hnc, -, hccore⟩ := Module.exists_of_live? hS.constant
  have hop : nd.op = .add := (congrArg Node.op hcore).trans hS.op
  have hops : nd.operands = [S.lhs, S.rhs] := (congrArg Node.operands hcore).trans hS.operands
  have hcop : nc.op = .constant S.value := (congrArg Node.op hccore).trans hS.constantOp
  obtain ⟨i, hresult⟩ := hw.exists_def hS.constant hS.rhs
  have hdef := Module.definingNode?_eq_some_iff.2 ⟨i, hresult⟩
  simp only [negativeConstant?, Module.node_eq_ok_iff.2 hnd, Module.node_eq_ok_iff.2 hnc, ok_bind, hop,
    hops, hcop, hdef, hS.negative, if_true]
  rfl

/-- A difference takes the place of the sum of a word and a negative constant, with all its uses. The
two are the same word unless the word is wider than constants are and the constant is the least one. It
comes to that if what is printed for the first operand is finite, and there is room for all copies. -/
theorem subtractInstead_exact {s : State} (hs : Sound s.module) (hS : S.In s.module) :
    ((∀ a : BitVec S.width, a + .ofInt S.width S.value =
        a - .ofInt S.width (negatedConstant S.value S.width)) ↔
      (S.width ≤ 64 ∨ S.value ≠ -0x8000000000000000)) ∧
    (∀ {env positive s'}, env.oracle = .systemVerilog →
      (subtractInstead S.add S.constant S.value).Runs env s positive s' →
      ∃ D mid g o, D.positive = positive ∧ s.module.Trades mid S D ∧
        mid.Covers Label.isAlwaysInline s'.module g o ∧ s.module.Negated s'.module S D o) ∧
    (s.module.SinglePasted Label.isAlwaysInline → s.module.Shallow Label.isAlwaysInline S.lhs →
      ∃ bound, (∃ positive s', ∀ env : Env, env.oracle = .systemVerilog → bound ≤ env.fuel →
        (subtractInstead S.add S.constant S.value).Runs env s positive s') ∨
        (((∀ j, ¬ Relation.TransGen (s.module.PastedIn Label.isAlwaysInline) j j) →
            ¬ s.module.Fits (s.module.copies Label.isAlwaysInline + 3)) ∧
          ∀ env : Env, env.oracle = .systemVerilog → bound ≤ env.fuel →
            subtractInstead S.add S.constant S.value env s = .error .overflow)) := by
  refine ⟨add_eq_sub_negatedConstant_iff hS.range hS.negative, fun ho hrun => ?_, fun hsingle hlhs => ?_⟩
  · exact (subtractInstead_runs ho hs hS.node (negativeConstant?_of_in hs.toWellFormed hS)
      hrun).exists_negated hs hS
  · obtain ⟨bound, ⟨positive, s', -, hruns⟩ | ⟨hshort, herr⟩⟩ :=
      subtractInstead_ends (m := s.module) hs hS hsingle hlhs
    · exact ⟨bound, Or.inl ⟨positive, s', fun env ho hfuel =>
        hruns env bound (ho ▸ Oracle.classifies_systemVerilog) hfuel le_rfl⟩⟩
    · exact ⟨bound, Or.inr ⟨hshort, fun env ho hfuel =>
        herr env bound (ho ▸ Oracle.classifies_systemVerilog) hfuel le_rfl⟩⟩

end Prep

/-- A read of storage is added to the least constant of eight bits, and used besides. -/
def Module.narrow : Module :=
  .sketch [.int 8, .storage ⟨0⟩] [(.input, 0), (.output, 0)]
    [(.back ⟨0⟩, .reg, [], [1]), (.back ⟨0⟩, .constant (-128), [], [0]), (.back ⟨0⟩, .read, [1], [0]),
      (.back ⟨0⟩, .add, [3, 2], [0]), (.back ⟨0⟩, .xor, [4, 3, 4], [0]), (.back ⟨0⟩, .output, [5], [])]

/-- The sum, and the constant that nothing else uses. -/
def ConstantSum.narrow : ConstantSum where
  add := ⟨3⟩
  node := .fresh .add [⟨3⟩, ⟨2⟩] [⟨4⟩] ⟨0⟩ .unknown
  constant := ⟨1⟩
  constantNode := .fresh (.constant (-128)) [] [⟨2⟩] ⟨0⟩ .unknown
  lhs := ⟨3⟩
  rhs := ⟨2⟩
  old := ⟨4⟩
  type := ⟨0⟩
  width := 8
  value := -128

/-- The difference has the negation of the least constant, which is the least constant. -/
theorem subtractInstead_exact_narrow : Sound Module.narrow ∧ ConstantSum.narrow.In .narrow ∧
    (∀ a : BitVec 8, a + .ofInt 8 (-128) = a - .ofInt 8 (negatedConstant (-128) 8)) ∧
    ∃ bound, ∀ fuel, bound ≤ fuel → ∃ positive s' D o,
      (subtractInstead ⟨3⟩ ⟨1⟩ (-128)).Runs ⟨.default, .systemVerilog, "top", fuel⟩
        ⟨.narrow, Module.sketchNames, .zero⟩ positive s' ∧
      Module.narrow.Negated s'.module .narrow D o ∧ s'.module.live? ⟨1⟩ = none := by
  have hs : Sound Module.narrow := sound_of_isSound (by decide +kernel)
  have hS : ConstantSum.narrow.In .narrow := by constructor <;> decide +kernel
  have hfits : Module.narrow.Fits (Module.narrow.copies Label.isAlwaysInline + 3) := by
    unfold Module.Fits
    decide +kernel
  obtain ⟨hsingle, hacyclic⟩ := Module.of_pastesForward (m := Module.narrow) (by decide +kernel)
  obtain ⟨value, hvalue, huses⟩ := Option.map_eq_some_iff.1
    (show (Module.narrow.value? ⟨2⟩).map (·.uses) = some [⟨⟨3⟩, 1⟩] by decide +kernel)
  have hsole : ConstantSum.narrow.Sole .narrow := by
    intro u v hv hu
    obtain rfl : v = ⟨2⟩ := by simpa [ConstantSum.narrow, Node.fresh] using hv
    have hmem := (hs.toWellFormed.mem_uses hvalue).2 hu
    rwa [huses, List.mem_singleton] at hmem
  obtain ⟨hword, hexact, hends⟩ := subtractInstead_exact
    (s := ⟨.narrow, Module.sketchNames, .zero⟩) hs hS
  obtain ⟨bound, ⟨positive, s', hruns⟩ | ⟨hcrowded, -⟩⟩ := hends hsingle
    (Module.shallow_of_acyclic hacyclic _)
  · refine ⟨hs, hS, hword.2 (Or.inl (by decide)), bound, fun fuel hfuel => ?_⟩
    have hrun := hruns ⟨.default, .systemVerilog, "top", fuel⟩ rfl hfuel
    obtain ⟨D, mid, g, o, -, -, -, hnegated⟩ := hexact rfl hrun
    exact ⟨positive, s', D, o, hrun, hnegated, hnegated.constant_iff.2 hsole⟩
  · exact absurd hfits (hcrowded hacyclic)

/-- The least constant is added to a word that is wider than constants are. -/
def Module.wide : Module :=
  .sketch [.int 65] [(.input, 0), (.output, 0)]
    [(.back ⟨0⟩, .constant (-0x8000000000000000), [], [0]), (.back ⟨0⟩, .add, [0, 1], [0]),
      (.back ⟨0⟩, .output, [2], [])]

/-- The constant is its own negation, and to subtract it gives another word. -/
theorem not_eq_difference_wide : Valid Module.wide ∧
    negativeConstant? .wide ⟨1⟩ = .ok (some (⟨0⟩, -0x8000000000000000)) ∧ ∃ positive s',
      (subtractInstead ⟨1⟩ ⟨0⟩ (-0x8000000000000000)).Runs sketchEnv
        ⟨.wide, Module.sketchNames, .zero⟩ positive s' ∧
      (s'.module.live? positive).map (fun n => (n.op, n.results)) =
        some (.constant (-0x8000000000000000), [⟨3⟩]) ∧
      (s'.module.live? ⟨4⟩).map (fun n => (n.op, n.operands, n.results)) =
        some (.sub, [⟨0⟩, ⟨3⟩], [⟨4⟩]) ∧
      (s'.module.live? ⟨2⟩).map (·.operands) = some [⟨4⟩] ∧
      ∃ a : BitVec 65, a + .ofInt 65 (-0x8000000000000000) ≠ a - .ofInt 65 (-0x8000000000000000) := by
  obtain ⟨positive, s', hrun, hp⟩ := exists_runs_of_answers (p := fun positive m' => decide (
      (m'.live? positive).map (fun n => (n.op, n.results)) =
        some (.constant (-0x8000000000000000), [⟨3⟩]) ∧
      (m'.live? ⟨4⟩).map (fun n => (n.op, n.operands, n.results)) =
        some (.sub, [⟨0⟩, ⟨3⟩], [⟨4⟩]) ∧
      (m'.live? ⟨2⟩).map (·.operands) = some [⟨4⟩]))
    (show answers (subtractInstead ⟨1⟩ ⟨0⟩ (-0x8000000000000000)) sketchEnv
      ⟨.wide, Module.sketchNames, .zero⟩ _ = true by decide +kernel)
  obtain ⟨hpositive, hsub, huse⟩ := of_decide_eq_true hp
  exact ⟨valid_of_isValid (by decide +kernel), rfl, positive, s', hrun, hpositive, hsub, huse, 0,
    by decide⟩

end NetPrep
