import Mathlib
import NetPrep.Proofs.Legalizing
import NetPrep.Proofs.Storing

/-!
# Operators and the meaning

An operator gives way to another form of it: nodes are made that compute the same, its uses are
redirected to them, and it is erased. A tree over the operands of a variadic operator computes what
the operator computes, as its operation is associative.
-/

namespace NetPrep

open Prepare Prep

/-! ## Associative operations -/

section Monoid

variable {op : Op} {w : Nat} {f : BitVec w → BitVec w → BitVec w} {unit : BitVec w}

theorem Op.exists_monoid?_of_isCommutative (h : op.isCommutative = true) (w : Nat) :
    ∃ f unit, op.monoid? w = some (f, unit) := by
  cases op <;> first | exact ⟨_, _, rfl⟩ | cases h

theorem Op.isFunction_of_isCommutative (h : op.isCommutative = true) : op.isFunction = true := by
  cases op <;> first | rfl | cases h

/-- The operation is associative, and has the unit. -/
theorem Op.monoid_laws (h : op.monoid? w = some (f, unit)) :
    (∀ a b c, f (f a b) c = f a (f b c)) ∧ (∀ a, f unit a = a) ∧ ∀ a, f a unit = a := by
  cases op <;> simp only [monoid?, Option.some.injEq, Prod.mk.injEq, reduceCtorEq] at h
  case add =>
    obtain ⟨rfl, rfl⟩ := h
    exact ⟨BitVec.add_assoc, BitVec.zero_add, BitVec.add_zero⟩
  case mul =>
    obtain ⟨rfl, rfl⟩ := h
    exact ⟨BitVec.mul_assoc, BitVec.one_mul, BitVec.mul_one⟩
  case and =>
    obtain ⟨rfl, rfl⟩ := h
    exact ⟨BitVec.and_assoc, fun _ => BitVec.allOnes_and, fun _ => BitVec.and_allOnes⟩
  case or =>
    obtain ⟨rfl, rfl⟩ := h
    exact ⟨BitVec.or_assoc, fun _ => BitVec.zero_or, fun _ => BitVec.or_zero⟩
  case xor =>
    obtain ⟨rfl, rfl⟩ := h
    exact ⟨BitVec.xor_assoc, fun _ => BitVec.zero_xor, fun _ => BitVec.xor_zero⟩

theorem Op.foldr_append (h : op.monoid? w = some (f, unit)) (xs ys : List (BitVec w)) :
    (xs ++ ys).foldr f unit = f (xs.foldr f unit) (ys.foldr f unit) := by
  obtain ⟨hassoc, hunit, -⟩ := monoid_laws h
  induction xs with
  | nil => exact (hunit _).symm
  | cons x xs ih => rw [List.cons_append, List.foldr_cons, ih, List.foldr_cons, hassoc]

/-- An associative operation suits words of one type, however many. -/
theorem TypeTable.suits_of_isCommutative {t : TypeTable} {os rs : List TypeId}
    (h : t.Suits os rs op) (hop : op.isCommutative = true) :
    ∃ r w, rs = [r] ∧ t.intWidth? r = some w ∧ (∀ o ∈ os, o = r) ∧
      ∀ os', (∀ o ∈ os', o = r) → t.Suits os' rs op := by
  cases op with
  | add =>
    obtain ⟨r, w, hrs, hw, hos, hle⟩ := h
    exact ⟨r, w, hrs, hw, hos, fun _ hos' => ⟨r, w, hrs, hw, hos', hle⟩⟩
  | mul | and | or | xor =>
    obtain ⟨r, w, hrs, hw, hos⟩ := h
    exact ⟨r, w, hrs, hw, hos, fun _ hos' => ⟨r, w, hrs, hw, hos'⟩⟩
  | _ => cases hop

end Monoid

/-! ## Negated constants -/

/-- Storing a constant keeps its lowest bits. -/
theorem ofInt_canonicalConstant {w : Nat} (hle : w ≤ 64) (value : Int) :
    BitVec.ofInt w (canonicalConstant value w) = BitVec.ofInt w value := by
  unfold canonicalConstant
  split
  · next hw =>
    subst hw
    exact BitVec.of_length_zero.trans BitVec.of_length_zero.symm
  · split
    · rfl
    · apply BitVec.eq_of_toInt_eq
      rw [BitVec.toInt_ofInt, BitVec.toInt_ofInt]
      exact Int.bmod_bmod

theorem ofInt_negatedConstant {w : Nat} (hle : w ≤ 64) (value : Int) :
    BitVec.ofInt w (negatedConstant value w) = -BitVec.ofInt w value := by
  rw [negatedConstant, ofInt_canonicalConstant hle, ← BitVec.ofInt_neg]
  apply BitVec.eq_of_toInt_eq
  rw [BitVec.toInt_ofInt, BitVec.toInt_ofInt]
  exact Int.bmod_bmod_of_dvd (Nat.pow_dvd_pow 2 hle)

/-- The packed width of a word is its width. -/
theorem TypeTable.bitWidth_of_intWidth? {t : TypeTable} {type : TypeId} {w : Nat}
    (h : t.intWidth? type = some w) : t.bitWidth type = .ok (some w) := by
  rw [bitWidth, widthWithin, intWidth?_eq_some_iff.1 h]
  rfl

/-! ## What nodes compute -/

namespace Meaning

variable {I : Meaning} {macros : Name → Prop} {ins : Nat → Datum} {outs : NodeId → List Datum}
  {m m' : Module} {σ : Valuation} {id : NodeId} {n : Node} {v : ValueId} {type : TypeId} {i w : Nat}
  {t : TypeTable} {op : Op} {twoState : Bool} {os rs : List TypeId} {ds : List Datum}

theorem result_of_monoid? {f : BitVec w → BitVec w → BitVec w} {unit : BitVec w}
    (hw : t.intWidth? type = some w) (h : op.monoid? w = some (f, unit)) :
    I.result t op twoState os [type] ds i = .ofWord ((ds.map (Datum.word w)).foldr f unit) := by
  rw [result, width_singleton hw]
  cases op <;> simp only [Op.monoid?, Option.some.injEq, Prod.mk.injEq, reduceCtorEq] at h
  all_goals
    obtain ⟨rfl, rfl⟩ := h
    rfl

theorem result_constant (hw : t.intWidth? type = some w) (value : Int) :
    I.result t (.constant value) twoState os [type] ds i = .ofWord (BitVec.ofInt w value) := by
  rw [result, width_singleton hw]
  rfl

theorem result_sub (hw : t.intWidth? type = some w) (a b : Datum) :
    I.result t .sub twoState os [type] [a, b] i = .ofWord (a.word w - b.word w) := by
  rw [result, width_singleton hw]
  rfl

/-- A result of a node that is compiled, if it is a function of the operands. -/
theorem Shows.value_eq (hσ : I.Shows macros ins outs m σ) (hn : m.live? id = some n)
    (hc : m.Compiled macros n.parent) (hop : n.op.isFunction = true) (hv : n.results[i]? = some v) :
    σ.value v = I.result m.types n.op n.twoState (m.typesOf n.operands) (m.typesOf n.results)
      (n.operands.map σ.value) i := by
  have hread : n.op ≠ .read := fun he => by
    rw [he] at hop
    cases hop
  rw [(hσ.holds hn hc).results (Or.inr hop) i v hv, computed, if_neg hread]

theorem typesOf_singleton (h : m.type? v = some type) : m.typesOf [v] = [type] := by
  simp [Module.typesOf, h]

/-- What a new node computes is a datum of its type. -/
theorem Shows.creates_function {b : BlockId} {pos : Position} (hσ : I.Shows macros ins outs m σ)
    (h : m.Creates m' b pos id n [type]) (hw : Wired m) (hI : I.Fits m'.types)
    (hos : n.operands.mapM m.type? = some os) (hsuits : m'.types.Suits os [type] n.op)
    (hop : n.op.isFunction = true) :
    ∃ x, I.Shows macros ins outs m' (σ.extend m.values.size x default) := by
  have hread : n.op ≠ .read := fun he => by
    rw [he] at hop
    cases hop
  have hx : ∀ σ : Valuation, I.computed m' σ n 0 =
      I.result m'.types n.op n.twoState os [type] (n.operands.map σ.value) 0 := fun σ => by
    rw [computed, if_neg hread, typesOf_eq (Module.mapM_type?_kept h.kept hos), typesOf_eq h.mapM_results]
  have hdecl := Op.not_isDeclaration_or (Or.inr hop)
  refine ⟨I.computed m' σ n 0, hσ.creates_value h hw (fun he => ?_) (fun he => ?_) ?_
    (fun hd => ?_) fun _ _ => ?_⟩
  · rw [he] at hop
    cases hop
  · rw [he] at hop
    cases hop
  · rw [hx]
    exact hI.has_result hsuits (forall₂_has hσ.value hos) rfl
  · rw [hdecl] at hd
    cases hd
  · rw [hx, hx]
    refine congrArg (I.result _ _ _ _ _ · 0) (List.map_congr_left fun v hv => ?_)
    obtain ⟨t, -, ht⟩ := Module.exists_type_of_mem hos hv
    exact Valuation.value_extend (Module.lt_of_type? ht)

end Meaning

namespace Module

open Meaning

variable {m m' : Module} {b : BlockId} {pos : Position} {id x : NodeId} {n nx : Node} {type : TypeId}
  {os : List TypeId} {v old new : ValueId}

/-- A value of a type that can be used in a block. -/
def Offers (m : Module) (b : BlockId) (type : TypeId) (v : ValueId) : Prop :=
  m.Visible v b ∧ m.type? v = some type

theorem Creates.offers {types : List TypeId} {c : BlockId} (h : m.Creates m' b pos id n types)
    (hw : WellFormed m) (hv : m.Offers c type v) : m'.Offers c type v :=
  ⟨h.visible hw hv.1 (lt_of_type? hv.2), h.kept.type? hv.2⟩

theorem Creates.offers_result (h : m.Creates m' b pos id n [type]) (hv : n.results[0]? = some v) :
    m'.Offers b type v :=
  ⟨h.visible_result (List.mem_of_getElem? hv), h.type?_result hv⟩

/-- A new node that computes a function of values that it may use. -/
theorem Creates.preserves (h : m.Creates m' b pos id n [type]) (hw : Wired m) (hs' : Sound m')
    (hop : n.op.isFunction = true) (hkinds : n.op.regionKinds = [])
    (hos : n.operands.mapM m.type? = some os) (hsuits : m'.types.Suits os [type] n.op)
    (hscope : ∀ v ∈ n.operands, m.Visible v b) : Preserves m m' := by
  refine ⟨h.wired hw hs' hkinds hos hsuits hscope fun he => ?_, h.kept, h.sameTree, fun hI => ?_⟩
  · rcases he with he | he <;> rw [he] at hop <;> cases hop
  · constructor
    · intro ins outs σ hσ _
      obtain ⟨x, hx⟩ := hσ.creates_function h hw hI hos hsuits hop
      exact ⟨_, hx, trivial⟩
    · intro ins outs σ hσ _
      exact ⟨σ, hσ.of_creates h hw, trivial⟩

/-! ## A node in place of another -/

/-- All uses of a value are redirected to a value of the same type that is defined in the same block
or around it. -/
structure Supersedes (m m' : Module) (id x : NodeId) (n nx : Node) (old new : ValueId) : Prop where
  node : m.live? id = some n
  function : n.op.isFunction = true
  mem_old : old ∈ n.results
  other : m.live? x = some nx
  mem_new : new ∈ nx.results
  noPath : ¬ (nx.op.isAlwaysInline = true ∨ nx.op = .structExplode)
  parent : m.Inside nx.parent n.parent
  type? : m.type? new = m.type? old
  redirects : m.Redirects m' (substitute old new)
  sound : Sound m'

namespace Supersedes

theorem reroutes (h : m.Supersedes m' id x n nx old new) (hw : Wired m) :
    m.Reroutes m' (fun _ => True) old new :=
  h.redirects.reroutes_substitute hw
    (hw.not_isStorage_result h.node h.mem_old (Op.not_isDeclaration_or (Or.inr h.function)))

theorem wired (h : m.Supersedes m' id x n nx old new) (hw : Wired m) : Wired m' := by
  have hdef : ∀ {j nj}, m.live? j = some nj → new ∈ nj.results → j = x :=
    fun hj hv => (hw.eq_of_mem_results hj h.other hv h.mem_new).1
  refine (h.reroutes hw).wired hw h.sound h.type? (fun {j nj} hj _ hold => ?_)
    fun {j nj} hj hop _ _ hv => ?_
  · -- The users of the value are in the block of its node, or further in.
    obtain ⟨k, hk⟩ := exists_uses_of_mem hj hold
    intro d i nd hd hlive _
    obtain rfl := hw.eq_of_def h.other h.mem_new hd
    obtain rfl := Option.some.inj (h.other.symm.trans hlive)
    exact h.parent.trans
      (hw.inside_user h.node h.mem_old (Op.not_isDeclaration_or (Or.inr h.function)) hk hj)
  · obtain rfl := hdef hj hv
    obtain rfl := Option.some.inj (h.other.symm.trans hj)
    exact h.noPath hop

/-- The meaning is kept if the values are equal on both sides, where the nodes are compiled. -/
theorem preserves (h : m.Supersedes m' id x n nx old new) (hw : Wired m)
    (heq : ∀ {I : Meaning} {macros ins outs σ}, I.Fits m.types → I.Shows macros ins outs m σ →
      m.Compiled macros n.parent → σ.value new = σ.value old)
    (heq' : ∀ {I : Meaning} {macros ins outs σ}, I.Fits m'.types → I.Shows macros ins outs m' σ →
      m'.Compiled macros n.parent → σ.value new = σ.value old) : Preserves m m' := by
  have hre := h.reroutes hw
  have hdecl := Op.not_isDeclaration_or (Or.inr h.function)
  refine ⟨h.wired hw, hre.kept, hre.sameTree, fun {I macros} hI => ?_⟩
  have hcompiled : ∀ {j nj}, m.live? j = some nj → old ∈ nj.operands →
      m.Compiled macros nj.parent → m.Compiled macros n.parent := by
    intro j nj hj hold hc
    obtain ⟨k, hk⟩ := exists_uses_of_mem hj hold
    exact hc.of_inside hw.toSound (hw.inside_user h.node h.mem_old hdecl hk hj)
  constructor
  · intro ins outs σ hσ _
    exact ⟨σ, (shows_reroutes_iff hre hw h.type? fun hj _ hold hc =>
      heq (hI.mono hre.kept.extends) hσ (hcompiled hj hold hc)).2 hσ, trivial⟩
  · intro ins outs σ hσ _
    exact ⟨σ, (shows_reroutes_iff hre hw h.type? fun hj _ hold hc =>
      heq' hI hσ (hre.sameTree.compiled (hcompiled hj hold hc))).1 hσ, trivial⟩

end Supersedes

/-- Settling the operands of nodes. -/
theorem SettlesOperands.preserves {ids : List NodeId} (h : SettlesOperands ids m m')
    (hw : Wired m) : Preserves m m' := by
  induction h with
  | nil => exact .refl hw
  | cons _ h _ ih =>
    have hpres := h.inlines.preserves hw
    exact hpres.trans (ih hpres.wired)

/-- A node that is compiled where a block is computes a value of a type from operands. -/
inductive Computes (m : Module) (b : BlockId) (op : Op) (operands : List ValueId) (type : TypeId)
    (v : ValueId) : Prop
  | mk {id : NodeId} {n : Node} (hn : m.live? id = some n) (hop : n.op = op)
      (hops : n.operands = operands) (hres : n.results = [v]) (htype : m.type? v = some type)
      (hin : m.Inside n.parent b)

namespace Computes

variable {op : Op} {vs : List ValueId}

theorem mono (h : m.Computes b op vs type v) (hk : m.Kept m') (ht : m.SameTree m')
    (hlive : ∀ {j n}, m.live? j = some n → ∃ n', m'.live? j = some n' ∧ n'.op = n.op ∧
      n'.operands = n.operands ∧ n'.results = n.results ∧ n'.parent = n.parent) :
    m'.Computes b op vs type v := by
  obtain ⟨hn, hop, hops, hres, htype, hin⟩ := h
  obtain ⟨n', hn', hop', hops', hres', hp⟩ := hlive hn
  exact ⟨hn', hop'.trans hop, hops'.trans hops, hres'.trans hres, hk.type? htype,
    hp ▸ ht.inside hin⟩

theorem creates {c : BlockId} {types : List TypeId} (h : m.Computes b op vs type v)
    (hc : m.Creates m' c pos id n types) : m'.Computes b op vs type v :=
  h.mono hc.kept hc.sameTree fun hj => ⟨_, hc.live hj, rfl, rfl, rfl, rfl⟩

theorem of_creates (h : m.Creates m' b pos id n [type]) (hres : n.results = [v]) :
    m'.Computes b n.op n.operands type v :=
  ⟨h.live?_self, rfl, rfl, hres, h.type?_result (i := 0) (by rw [hres]; rfl), h.parent ▸ .self⟩

theorem redirects (h : m.Computes b op vs type v) (hr : m.Redirects m' (substitute old new)) :
    m'.Computes b op (vs.map fun w => if w = old then new else w) type v := by
  obtain ⟨hn, hop, rfl, hres, htype, hin⟩ := h
  exact ⟨hr.live hn, hop, rfl, hres, hr.kept.type? htype, hr.sameTree.inside hin⟩

theorem type? (h : m.Computes b op vs type v) : m.type? v = some type := by
  obtain ⟨-, -, -, -, htype, -⟩ := h
  exact htype

theorem value {I : Meaning} {macros : Name → Prop} {ins : Nat → Datum} {outs : NodeId → List Datum}
    {σ : Valuation} (h : m.Computes b op vs type v) (hs : Sound m)
    (hσ : I.Shows macros ins outs m σ) (hc : m.Compiled macros b) (hop : op.isFunction = true) :
    ∃ twoState, σ.value v =
      I.result m.types op twoState (m.typesOf vs) [type] (vs.map σ.value) 0 := by
  obtain ⟨hn, rfl, rfl, hres, htype, hin⟩ := h
  have hvalue := hσ.value_eq hn (hc.of_inside hs hin) hop (i := 0) (v := v) (by rw [hres]; rfl)
  rw [hres, typesOf_singleton htype] at hvalue
  exact ⟨_, hvalue⟩

end Computes

/-! ## Trees of variadic operators -/

/-- A value combines values by an operation: it is one of them, or nodes compute it from them, none of
which defines a given value. -/
inductive Combines (m : Module) (b : BlockId) (op : Op) (type : TypeId) (old : ValueId) :
    List ValueId → ValueId → Prop
  | leaf (v : ValueId) : Combines m b op type old [v] v
  | branch {vs ws : List ValueId} {lhs rhs value : ValueId}
      (hleft : Combines m b op type old vs lhs) (hright : Combines m b op type old ws rhs)
      (h : m.Computes b op [lhs, rhs] type value) (hne : value ≠ old) :
      Combines m b op type old (vs ++ ws) value

namespace Combines

variable {op : Op} {vs : List ValueId}

theorem mono (h : m.Combines b op type old vs v) (hk : m.Kept m') (ht : m.SameTree m')
    (hlive : ∀ {j n}, m.live? j = some n → ∃ n', m'.live? j = some n' ∧ n'.op = n.op ∧
      n'.operands = n.operands ∧ n'.results = n.results ∧ n'.parent = n.parent) :
    m'.Combines b op type old vs v := by
  induction h with
  | leaf v => exact .leaf v
  | branch _ _ h hne ihl ihr => exact .branch ihl ihr (h.mono hk ht hlive) hne

theorem creates {c : BlockId} {types : List TypeId} (h : m.Combines b op type old vs v)
    (hc : m.Creates m' c pos id n types) : m'.Combines b op type old vs v :=
  h.mono hc.kept hc.sameTree fun hj => ⟨_, hc.live hj, rfl, rfl, rfl, rfl⟩

/-- Redirecting uses of the value that no node of the tree defines redirects its leaves. -/
theorem redirects (h : m.Combines b op type old vs v) (hr : m.Redirects m' (substitute old new)) :
    m'.Combines b op type old (vs.map fun w => if w = old then new else w)
      (if v = old then new else v) := by
  induction h with
  | leaf v => exact .leaf _
  | branch _ _ h hne ihl ihr =>
    rw [List.map_append, if_neg hne]
    exact .branch ihl ihr (h.redirects hr) hne

section Value

variable {I : Meaning} {macros : Name → Prop} {ins : Nat → Datum} {outs : NodeId → List Datum}
  {σ : Valuation} {w : Nat}

/-- Where the nodes are compiled, the value is what the operation makes of the values it combines. -/
theorem word_value {f : BitVec w → BitVec w → BitVec w} {unit : BitVec w}
    (h : m.Combines b op type old vs v) (hs : Sound m) (hσ : I.Shows macros ins outs m σ)
    (hc : m.Compiled macros b) (hop : op.isCommutative = true)
    (hw : m.types.intWidth? type = some w) (hf : op.monoid? w = some (f, unit)) :
    (σ.value v).word w = (vs.map fun o => (σ.value o).word w).foldr f unit := by
  obtain ⟨-, -, hunit⟩ := Op.monoid_laws hf
  induction h with
  | leaf v => exact (hunit _).symm
  | branch _ _ h _ ihl ihr =>
    obtain ⟨twoState, hvalue⟩ := h.value hs hσ hc (Op.isFunction_of_isCommutative hop)
    rw [result_of_monoid? hw hf] at hvalue
    rw [hvalue, Datum.word_ofWord, List.map_append, Op.foldr_append hf, ← ihl, ← ihr]
    simp [hunit]

/-- What an operator makes of values is what a tree over them makes of them. -/
theorem value_eq {u : ValueId} (h : m.Combines b op type old vs v)
    (hu : m.Computes b op vs type u) (hs : Sound m) (hσ : I.Shows macros ins outs m σ)
    (hI : I.Fits m.types) (hc : m.Compiled macros b) (hop : op.isCommutative = true)
    (hw : m.types.intWidth? type = some w) (hv : m.type? v = some type) :
    σ.value v = σ.value u := by
  obtain ⟨f, unit, hf⟩ := Op.exists_monoid?_of_isCommutative hop w
  obtain ⟨twoState, hvalue⟩ := hu.value hs hσ hc (Op.isFunction_of_isCommutative hop)
  obtain ⟨x, hx⟩ := (hI.int hw _).1 (hσ.value hv)
  have hword := h.word_value hs hσ hc hop hw hf
  rw [hx, Datum.word_ofWord] at hword
  rw [hx, hword, hvalue, result_of_monoid? hw hf, List.map_map]
  rfl

end Value

end Combines

/-- A value that combines the operands of an operator takes the place of its result. -/
theorem Supersedes.preserves_of_combines (h : m.Supersedes m' id x n nx old new) (hw : Wired m)
    (hcomb : m.Combines n.parent n.op type old n.operands new) (hop : n.op.isCommutative = true)
    {w : Nat} (hwidth : m.types.intWidth? type = some w) (hres : n.results = [old])
    (htype : m.type? old = some type) (hne : new ≠ old) : Preserves m m' := by
  have hnew := h.type?.trans htype
  have hold : m.Computes n.parent n.op n.operands type old :=
    ⟨h.node, rfl, rfl, hres, htype, .self⟩
  refine h.preserves hw
    (fun hI hσ hc => hcomb.value_eq hold hw.toSound hσ hI hc hop hwidth hnew) fun hI hσ hc => ?_
  -- The operator may be among its own operands, so that it is redirected along with the tree.
  have hcomb' := hcomb.redirects h.redirects
  rw [if_neg hne] at hcomb'
  have hk := h.redirects.kept
  exact hcomb'.value_eq (hold.redirects h.redirects) h.sound hσ hI hc hop (hk.extends.intWidth? hwidth)
    (hk.type? hnew)

section Grows

variable {shape : TreeShape} {tree : OperandTree} {ids : List NodeId} {na : Node}

theorem Grows.offers {c : BlockId} {w : ValueId} (h : Grows shape tree v ids m m') (hs : Sound m)
    (hw : m.Offers c type w) : m'.Offers c type w := by
  induction h with
  | leaf => exact hw
  | branch hleft hright _ hc _ ih₁ ih₂ =>
    have hs₁ := hleft.sound hs
    exact hc.offers (hright.sound hs₁).toWellFormed (ih₂ hs₁ (ih₁ hs hw))

theorem Grows.sameTree (h : Grows shape tree v ids m m') : m.SameTree m' := by
  induction h with
  | leaf => exact .refl _
  | branch _ _ _ hc _ ih₁ ih₂ => exact (ih₁.trans ih₂).trans hc.sameTree

/-- The nodes of a tree combine its leaves. -/
theorem Grows.combines (h : Grows shape tree v ids m m') (ha : m.live? shape.anchor = some na)
    (hold : old.index < m.values.size) :
    m'.Combines na.parent shape.op shape.type old tree.leaves v := by
  induction h with
  | leaf v => exact .leaf v
  | @branch left right lhs rhs value lefts rights id na' m m₁ m₂ m' hleft hright ha' hc _ ih₁ ih₂ =>
    obtain rfl := Option.some.inj ((hright.live (hleft.live ha)).symm.trans ha')
    have hl := (ih₁ ha hold).mono hright.kept hright.sameTree fun hj =>
      ⟨_, hright.live hj, rfl, rfl, rfl, rfl⟩
    have hr := ih₂ (hleft.live ha) (hold.trans_le hleft.kept.values_size)
    refine .branch (hl.creates hc) (hr.creates hc) (.of_creates hc rfl) ?_
    rintro rfl
    have hsize := hleft.kept.values_size.trans hright.kept.values_size
    exact absurd (hc.index_result (v := value) (by simp [Node.fresh])) (by omega)

theorem Grows.preserves (h : Grows shape tree v ids m m') (hw : Wired m)
    (ha : m.live? shape.anchor = some na) (hop : shape.op.isCommutative = true)
    (hsuits : m.types.Suits os [shape.type] shape.op)
    (hleaves : ∀ w ∈ tree.leaves, m.Offers na.parent shape.type w) :
    Preserves m m' ∧ m'.Offers na.parent shape.type v := by
  induction h with
  | leaf v => exact ⟨.refl hw, hleaves v (by simp [OperandTree.leaves])⟩
  | @branch left right lhs rhs value lefts rights id na' m m₁ m₂ m' hleft hright ha' hc hs' ih₁ ih₂ =>
    obtain rfl := Option.some.inj ((hright.live (hleft.live ha)).symm.trans ha')
    obtain ⟨h₁, hlhs⟩ := ih₁ hw ha hsuits fun w hw => hleaves w (by simp [OperandTree.leaves, hw])
    obtain ⟨h₂, hrhs⟩ := ih₂ h₁.wired (hleft.live ha) (hsuits.mono h₁.kept.extends) fun w hmem =>
      hleft.offers hw.toSound (hleaves w (by simp [OperandTree.leaves, hmem]))
    replace hlhs := hright.offers h₁.wired.toSound hlhs
    obtain ⟨_, _, hrs, -, -, hsuits'⟩ := TypeTable.suits_of_isCommutative
      (hsuits.mono ((h₁.kept.trans h₂.kept).trans hc.kept).extends) hop
    obtain rfl := List.singleton_inj.1 hrs
    have hall : ∀ w ∈ [lhs, rhs], m₂.Visible w na.parent := by
      simpa using ⟨hlhs.1, hrhs.1⟩
    exact ⟨(h₁.trans h₂).trans (hc.preserves h₂.wired hs' (Op.isFunction_of_isCommutative hop)
      (Op.regionKinds_of_isExpression (Op.isExpression_of_isCommutative hop))
      (show _ = some [shape.type, shape.type] by simp [Node.fresh, hlhs.2, hrhs.2])
      (hsuits' _ (by simp)) hall),
      hc.offers_result rfl⟩

end Grows

/-- The types of a node that combines its operands. -/
theorem types_of_isCommutative (hw : Wired m) (hn : m.live? id = some n)
    (hop : n.op.isCommutative = true) (hold : n.results[0]? = some old)
    (htype : m.type? old = some type) : n.results = [old] ∧
      (∃ w, m.types.intWidth? type = some w) ∧ (∃ os, m.types.Suits os [type] n.op) ∧
        ∀ v ∈ n.operands, m.Offers n.parent type v := by
  obtain ⟨os, rs, hos, hrs, hsuits⟩ := hw.suited hn
  obtain ⟨r, w, rfl, hwidth, hall, -⟩ := TypeTable.suits_of_isCommutative hsuits hop
  obtain ⟨v, hv⟩ := List.length_eq_one_iff.1 (forall₂_of_mapM_type? hrs).length_eq
  obtain rfl : v = old := by simpa [hv] using hold
  obtain rfl : type = r := by simpa [hv, htype] using hrs
  refine ⟨hv, ⟨w, hwidth⟩, ⟨os, hsuits⟩, fun u hu => ⟨hw.inScope hn hu, ?_⟩⟩
  obtain ⟨t, ht, htype'⟩ := exists_type_of_mem hos hu
  rw [htype', hall t ht]

/-- A balanced tree computes what the variadic operator computes. -/
theorem Balances.preserves {ids : List NodeId} (h : m.Balances id ids m') (hw : Wired m)
    (hn : m.live? id = some n) (hop : n.op.isCommutative = true) (hlen : 2 < n.operands.length) :
    Preserves m m' := by
  obtain @⟨n', tree, old, root, shape, name, rootNode, m₁, m₂, m₃, m₄, hn', htree, hold, htype, hshape,
    rfl, hgrow, hname, hs₂, hr, hs₃, hunused, he, hs₄, hsettle⟩ := h
  obtain rfl := Option.some.inj (hn.symm.trans hn')
  obtain ⟨hres, ⟨w, hwidth⟩, ⟨os, hsuits⟩, hoffers⟩ := types_of_isCommutative hw hn hop hold htype
  have hfun := Op.isFunction_of_isCommutative hop
  have hkinds := Op.regionKinds_of_isExpression (Op.isExpression_of_isCommutative hop)
  have hleaves := OperandTree.leaves_balanced? htree
  have hcomb₁ := hgrow.combines hn (lt_of_type? htype)
  obtain ⟨h₁, -⟩ := hgrow.preserves hw hn (hshape ▸ hop) (hshape ▸ hsuits) fun v hv =>
    hoffers v (hleaves ▸ hv)
  rw [hleaves, hshape] at hcomb₁
  -- Naming the root changes nothing that matters.
  have hlive₂ : ∀ {j nj}, m₁.live? j = some nj → ∃ n', m₂.live? j = some n' ∧ n'.op = nj.op ∧
      n'.operands = nj.operands ∧ n'.results = nj.results ∧ n'.parent = nj.parent := by
    intro j nj hj
    obtain rfl | hl := hname
    · exact ⟨nj, hj, rfl, rfl, rfl, rfl⟩
    · exact ⟨_, hl.live hj, rfl, rfl, rfl, rfl⟩
  have h₂ : Preserves m₁ m₂ := by
    obtain rfl | hl := hname
    · exact .refl h₁.wired
    · exact hl.preserves h₁.wired hs₂
  have hk₂ := h₁.kept.trans h₂.kept
  have hcomb₂ := hcomb₁.mono h₂.kept h₂.sameTree hlive₂
  obtain ⟨n₂, hn₂, hop₂, hops₂, hres₂, hp₂⟩ := hlive₂ (hgrow.live hn)
  obtain ⟨⟨lhs, rhs, @⟨x, nx, hx, hxop, -, hxres, hxtype, hxin⟩⟩, hne⟩ :
      (∃ lhs rhs, m₂.Computes n.parent n.op [lhs, rhs] shape.type root) ∧ root ≠ old := by
    generalize n.operands = vs at hcomb₂ hlen
    cases hcomb₂ with
    | leaf => simp at hlen
    | branch _ _ h hne => exact ⟨⟨_, _, h⟩, hne⟩
  have hsuper : m₂.Supersedes m₃ shape.anchor x n₂ nx old root := by
    refine ⟨hn₂, hop₂ ▸ hfun, by simp [hres₂, hres], hx, by simp [hxres], ?_, hp₂ ▸ hxin,
      hxtype.trans (hk₂.type? htype).symm, hr, hs₃⟩
    rw [hxop]
    rintro (hpath | hpath)
    · rw [Op.isAlwaysInline_of_isCommutative hop] at hpath
      cases hpath
    · rw [hpath] at hop
      cases hop
  have hwidth₂ := hk₂.extends.intWidth? hwidth
  rw [← hp₂, ← hop₂, ← hops₂] at hcomb₂
  have h₃ := hsuper.preserves_of_combines h₂.wired hcomb₂ (hop₂ ▸ hop) hwidth₂ (hres₂.trans hres)
    (hk₂.type? htype) hne
  have hn₃ := hr.live hn₂
  have h₄ := he.preserves h₃.wired hs₄ hn₃
    (h₃.wired.toNested.regions_eq_nil hn₃ (hop₂ ▸ hkinds)) (Or.inr (hop₂ ▸ hfun))
    fun u v hv => hunused u v (hres₂ ▸ hv)
  exact (((h₁.trans h₂).trans h₃).trans h₄).trans (hsettle.preserves h₄.wired)

/-! ## Subtractions -/

/-- A word from which the negation of a constant is subtracted is the word that it is added to. -/
theorem value_eq_of_negated {I : Meaning} {macros : Name → Prop} {ins : Nat → Datum}
    {outs : NodeId → List Datum} {σ : Valuation} {w : Nat} {vs ws : List ValueId} {value : Int}
    {lhs rhs positive difference : ValueId} (hs : Sound m) (hσ : I.Shows macros ins outs m σ)
    (hc : m.Compiled macros b) (hw : m.types.intWidth? type = some w) (hle : w ≤ 64)
    (hsum : m.Computes b .add [lhs, rhs] type old)
    (hconstant : m.Computes b (.constant value) vs type rhs)
    (hnegated : m.Computes b (.constant (negatedConstant value w)) ws type positive)
    (hsub : m.Computes b .sub [lhs, positive] type difference) :
    σ.value difference = σ.value old := by
  obtain ⟨_, hold⟩ := hsum.value hs hσ hc rfl
  obtain ⟨_, hrhs⟩ := hconstant.value hs hσ hc rfl
  obtain ⟨_, hpositive⟩ := hnegated.value hs hσ hc rfl
  obtain ⟨_, hdifference⟩ := hsub.value hs hσ hc rfl
  rw [result_of_monoid? hw rfl] at hold
  rw [result_constant hw] at hrhs
  rw [result_constant hw, ofInt_negatedConstant hle] at hpositive
  rw [List.map_cons, List.map_cons, List.map_nil, result_sub hw] at hdifference
  rw [hold, hdifference, hpositive, List.map_cons, List.map_cons, List.map_cons, hrhs]
  simp

/-- The constant that an operand is. -/
theorem computes_constant {constant : NodeId} {nc : Node} {value : Int} {u : Use} (hw : Wired m)
    (hn : m.live? u.node = some n) (hu : m.Uses u v) (hdef : ∃ i, m.def? v = some (.result constant i))
    (hc : m.live? constant = some nc) (hop : nc.op = .constant value) (htype : m.type? v = some type) :
    m.Computes n.parent (.constant value) nc.operands type v := by
  obtain ⟨i, hi⟩ := hdef
  obtain ⟨nc', hnc', hv⟩ := hw.definition hi
  obtain rfl := Option.some.inj ((core_of_live? hc).symm.trans hnc')
  obtain ⟨os, rs, -, hrs, hsuits⟩ := hw.suited hc
  rw [hop] at hsuits
  obtain ⟨r, w, rfl, -⟩ := hsuits
  obtain ⟨v', hv'⟩ := List.length_eq_one_iff.1 (forall₂_of_mapM_type? hrs).length_eq
  obtain rfl : v = v' := by simpa [hv'] using List.mem_of_getElem? hv
  exact ⟨hc, hop, rfl, hv', htype, hw.inside_user hc (by simp [hv']) (by rw [hop]; rfl) hu hn⟩

/-- Subtracting computes what adding the negative constant computes. -/
theorem Subtracts.preserves {constant positive : NodeId} {value : Int}
    (h : m.Subtracts id constant value positive m') (hw : Wired m) : Preserves m m' := by
  obtain @⟨n, nc, lhs, rhs, old, positiveValue, difference, type, sub, m₁, m₂, m₃, m₄, m₅, hn, hop, hops,
    hrhs, hc, hcop, -, hold, htype, width, ⟨_, hbits, hwidth⟩, hpos, hs₁, hsub, hs₂, hr, hs₃, hunused, he,
    hs₄, hconst, hs₅, hsettle⟩ := h
  obtain ⟨hres, ⟨w, hw₀⟩, ⟨os, hsuits⟩, hoffers⟩ :=
    types_of_isCommutative hw hn (by rw [hop]; rfl) hold htype
  have hle : w ≤ 64 := by
    rw [hop] at hsuits
    obtain ⟨r, w', hrs, hw', -, hle⟩ := hsuits
    obtain rfl := List.singleton_inj.1 hrs
    obtain rfl := Option.some.inj (hw₀.symm.trans hw')
    exact hle
  rw [TypeTable.bitWidth_of_intWidth? hw₀] at hbits
  cases hbits
  obtain rfl : w = width := hwidth
  have hlhs := hoffers lhs (by simp [hops])
  have hconstant := computes_constant (u := ⟨id, 1⟩) hw hn ⟨n, hn, by rw [hops]; rfl⟩ hrhs hc hcop
    (hoffers rhs (by simp [hops])).2
  have hsum : m.Computes n.parent .add [lhs, rhs] type old := ⟨hn, hop, hops, hres, htype, .self⟩
  have h₁ : Preserves m m₁ := hpos.preserves hw hs₁ rfl rfl (show _ = some [] from rfl)
    ⟨type, w, rfl, hpos.kept.extends.intWidth? hw₀⟩ (by simp [Node.fresh])
  have hlhs₁ := hpos.offers hw.toWellFormed hlhs
  have hpositive₁ := hpos.offers_result rfl
  have h₂ : Preserves m₁ m₂ := hsub.preserves h₁.wired hs₂ rfl rfl
    (show _ = some [type, type] by simp [Node.fresh, hlhs₁.2, hpositive₁.2])
    ⟨type, type, type, w, rfl, rfl, hsub.kept.extends.intWidth? (h₁.kept.extends.intWidth? hw₀)⟩
    (by simpa [Node.fresh] using ⟨hlhs₁.1, hpositive₁.1⟩)
  have hk₂ := h₁.kept.trans h₂.kept
  have hn₂ := hsub.live (hpos.live hn)
  have hsum₂ := (hsum.creates hpos).creates hsub
  have hconstant₂ := (hconstant.creates hpos).creates hsub
  have hnegated₂ : m₂.Computes n.parent (.constant (negatedConstant value w)) [] type positiveValue :=
    (Computes.of_creates hpos rfl).creates hsub
  have hdifference₂ : m₂.Computes n.parent .sub [lhs, positiveValue] type difference :=
    .of_creates hsub rfl
  have hsuper : m₂.Supersedes m₃ id sub n _ old difference :=
    ⟨hn₂, by rw [hop]; rfl, by simp [hres], hsub.live?_self, by simp [Node.fresh],
      by simp [Node.fresh, Op.isAlwaysInline], .self,
      hdifference₂.type?.trans (hk₂.type? htype).symm, hr, hs₃⟩
  have hne : constant ≠ id := by
    rintro rfl
    obtain rfl := Option.some.inj (hn.symm.trans hc)
    rw [hop] at hcop
    cases hcop
  -- Neither constant is the result of the addition.
  have hrhs_ne : rhs ≠ old := by
    rintro rfl
    obtain ⟨i, hi⟩ := hrhs
    have heq := (hw.result (core_of_live? hn) hold).symm.trans hi
    simp only [Option.some.injEq, ValueDef.result.injEq] at heq
    exact hne heq.1.symm
  have hpositive_ne : positiveValue ≠ old := by
    rintro rfl
    have hlt := lt_of_type? htype
    exact absurd (hpos.index_result (v := positiveValue) (by simp [Node.fresh])) (by omega)
  have hw₂ := hk₂.extends.intWidth? hw₀
  have h₃ := hsuper.preserves h₂.wired (fun _ hσ hcomp => value_eq_of_negated hs₂ hσ hcomp hw₂ hle
      hsum₂ hconstant₂ hnegated₂ hdifference₂) fun _ hσ hcomp => by
    have hsum₃ := hsum₂.redirects hr
    have hdifference₃ := hdifference₂.redirects hr
    simp only [List.map_cons, List.map_nil, if_neg hrhs_ne] at hsum₃
    simp only [List.map_cons, List.map_nil, if_neg hpositive_ne] at hdifference₃
    exact value_eq_of_negated hs₃ hσ hcomp (hr.kept.extends.intWidth? hw₂) hle hsum₃
      (hconstant₂.redirects hr) (hnegated₂.redirects hr) hdifference₃
  have hn₃ := hr.live hn₂
  have h₄ := he.preserves h₃.wired hs₄ hn₃
    (h₃.wired.toNested.regions_eq_nil hn₃ (by simp [hop, Op.regionKinds])) (Or.inr (by rw [hop]; rfl)) hunused
  have h₅ : Preserves m₄ m₅ := by
    obtain ⟨rfl, -⟩ | ⟨hunused', he'⟩ := hconst
    · exact .refl h₄.wired
    · have hc₄ := he.live (hr.live (hsub.live (hpos.live hc))) hne
      exact he'.preserves h₄.wired hs₅ hc₄
        (h₄.wired.toNested.regions_eq_nil hc₄ (by simp [hcop, Op.regionKinds])) (Or.inr (by rw [hcop]; rfl))
        hunused'
  exact ((((h₁.trans h₂).trans h₃).trans h₄).trans h₅).trans (hsettle.preserves h₅.wired)

/-! ## Fields of structs -/

/-- Where no field occurs twice, each is found at its place. -/
theorem lookup_of_getElem? {fields : List (Name × TypeId)} (hnd : (fields.map (·.1)).Nodup) {k : Nat}
    {field : Name} (h : fields[k]? = some (field, type)) : fields.lookup field = some type := by
  induction fields generalizing k with
  | nil => simp at h
  | cons f fields ih =>
    obtain ⟨hf, hnd⟩ := List.nodup_cons.1 hnd
    cases k with
    | zero =>
      obtain rfl : f = (field, type) := by simpa using h
      simp
    | succ k =>
      rw [List.getElem?_cons_succ] at h
      have hne : (field == f.1) = false := beq_false_of_ne fun he =>
        hf (List.mem_map.2 ⟨_, List.mem_of_getElem? h, he⟩)
      rw [List.lookup_cons, hne]
      exact ih hnd h

/-- Selecting a field of a struct is taking the struct apart. -/
theorem value_eq_of_extracts {I : Meaning} {macros : Name → Prop} {ins : Nat → Datum}
    {outs : NodeId → List Datum} {σ : Valuation} {fields : List (Name × TypeId)} {field : Name}
    {input result value : ValueId} {stype : TypeId} {k : Nat} (hs : Sound m)
    (hσ : I.Shows macros ins outs m σ) (hn : m.live? id = some n)
    (hc : m.Compiled macros n.parent) (hop : n.op = .structExplode) (hops : n.operands = [input])
    (hresult : n.results[k]? = some result) (hinput : m.type? input = some stype)
    (hfields : m.types.fields? stype = some fields) (hnd : (fields.map (·.1)).Nodup)
    (hfield : (fields.map (·.1))[k]? = some field)
    (h : m.Computes n.parent (.structExtract field) [input] type value) :
    σ.value value = σ.value result := by
  obtain ⟨_, hvalue⟩ := h.value hs hσ hc rfl
  have hold := hσ.value_eq hn hc (by rw [hop]; rfl) hresult
  rw [typesOf_singleton hinput] at hvalue
  rw [hop, hops] at hold
  have hcomponent : σ.value value = (σ.value input).component (fieldNames m.types [stype]) field := hvalue
  have hexplode : σ.value result = ((σ.value input).components[k]?).getD default := hold
  rw [hcomponent, hexplode, fieldNames_singleton hfields]
  exact Datum.component_getElem hnd hfield _

theorem Extracts.preserves {input : ValueId} {loc : Loc} {pairs : List (ValueId × Name)}
    {created : List NodeId} {stype : TypeId} {fields : List (Name × TypeId)}
    (h : Extracts id input loc pairs created m m') (hw : Wired m) (hn : m.live? id = some n)
    (hop : n.op = .structExplode) (hops : n.operands = [input])
    (hinput : m.type? input = some stype) (hfields : m.types.fields? stype = some fields)
    (hpairs : ∀ p ∈ pairs, ∃ k : Nat, n.results[k]? = some p.1 ∧
      (fields.map (·.1))[k]? = some p.2) : Preserves m m' := by
  induction h generalizing n with
  | nil => exact .refl hw
  | @cons result value field rest extract ids na type m m₁ m₂ m' ha htype hc hs₁ hr hs₂ _ ih =>
    obtain rfl := Option.some.inj (hn.symm.trans ha)
    obtain ⟨k, hk, hfield⟩ := hpairs _ (List.mem_cons_self ..)
    have hmem := List.mem_of_getElem? hk
    -- The struct is not among its own fields, so it is not redirected.
    have hne : input ≠ result := by
      rintro rfl
      exact hw.distinct hn (Or.inr hop) hmem (by simp [hops])
    obtain ⟨os, rs, hos, hrs, hsuits⟩ := hw.suited hn
    rw [hop] at hsuits
    obtain ⟨a, fields', rfl, hfields', rfl, hnd⟩ := hsuits
    obtain rfl : a = stype := by simpa [hops, hinput] using hos.symm
    obtain rfl := Option.some.inj (hfields.symm.trans hfields')
    have hlookup : fields.lookup field = some type := by
      rw [List.getElem?_map] at hfield
      obtain ⟨⟨name, type'⟩, hget, rfl⟩ := Option.map_eq_some_iff.1 hfield
      have htypes := getElem?_of_mapM_type? hrs hk htype
      rw [List.getElem?_map, hget] at htypes
      obtain rfl : type' = type := Option.some.inj htypes
      exact lookup_of_getElem? hnd hget
    have h₁ : Preserves m m₁ := hc.preserves hw hs₁ rfl rfl
      (show _ = some [a] by simp [Node.fresh, hinput])
      ⟨a, fields, type, rfl, rfl, hc.kept.extends.fields? hfields, hlookup⟩
      fun v hv => hw.inScope hn (by simpa [hops, Node.fresh] using hv)
    have hn₁ := hc.live hn
    have hvalue₁ : m₁.Computes n.parent (.structExtract field) [input] type value := .of_creates hc rfl
    have hinput₁ := hc.kept.type? hinput
    have hfields₁ := hc.kept.extends.fields? hfields
    have hsuper : m₁.Supersedes m₂ id extract n _ result value :=
      ⟨hn₁, by rw [hop]; rfl, hmem, hc.live?_self, by simp [Node.fresh],
        by simp [Node.fresh, Op.isAlwaysInline], .self,
        hvalue₁.type?.trans (hc.kept.type? htype).symm, hr, hs₂⟩
    have hn₂ := hr.live hn₁
    have hops₂ : substitute result value id n.operands = [input] := by
      simp [substitute, hops, hne]
    have h₂ := hsuper.preserves h₁.wired
      (fun _ hσ hcomp => value_eq_of_extracts hs₁ hσ hn₁ hcomp hop hops hk hinput₁ hfields₁ hnd hfield
        hvalue₁)
      fun _ hσ hcomp => by
        have hvalue₂ := hvalue₁.redirects hr
        simp only [List.map_cons, List.map_nil, if_neg hne] at hvalue₂
        exact value_eq_of_extracts hs₂ hσ hn₂ hcomp hop hops₂ hk (hr.kept.type? hinput₁)
          (hr.kept.extends.fields? hfields₁) hnd hfield hvalue₂
    exact (h₁.trans h₂).trans (ih h₂.wired hn₂ hop hops₂ (hr.kept.type? hinput₁)
      (hr.kept.extends.fields? hfields₁) fun p hp => hpairs p (List.mem_cons_of_mem _ hp))

/-- Selecting each field computes what taking the struct apart computes. -/
theorem Explodes.preserves {created : List NodeId} (h : m.Explodes id created m') (hw : Wired m)
    (hn : m.live? id = some n) (hop : n.op = .structExplode) : Preserves m m' := by
  obtain @⟨n', input, inputs, stype, fields, m₁, m₂, hn', hops, htype, hfields, hextract, hunused, he, hs₂,
    hsettle⟩ := h
  obtain rfl := Option.some.inj (hn.symm.trans hn')
  obtain ⟨os, rs, hos, hrs, hsuits⟩ := hw.suited hn
  rw [hop] at hsuits
  obtain ⟨a, fields', rfl, hfields', rfl, -⟩ := hsuits
  obtain rfl : inputs = [] := by
    have hlen := (forall₂_of_mapM_type? hos).length_eq
    simpa [hops] using hlen
  obtain rfl : stype = a := by simpa [hops, htype] using hos
  obtain rfl : fields = fields' := by
    rw [TypeTable.fields, TypeTable.fields?_eq_some_iff.1 hfields'] at hfields
    exact (Except.ok.inj hfields).symm
  have h₁ := hextract.preserves hw hn hop hops htype hfields' fun p hp => by
    obtain ⟨k, hk⟩ := List.mem_iff_getElem?.1 hp
    rw [List.getElem?_zip_eq_some] at hk
    exact ⟨k, hk⟩
  obtain ⟨ops, hn₁⟩ := hextract.live hn
  have h₂ := he.preserves h₁.wired hs₂ hn₁
    (h₁.wired.toNested.regions_eq_nil hn₁ (by simp [hop, Op.regionKinds])) (Or.inr (by rw [hop]; rfl)) hunused
  exact (h₁.trans h₂).trans (hsettle.preserves h₂.wired)

end Module

end NetPrep
