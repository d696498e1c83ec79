import Mathlib
import NetPrep.Proofs.Checking
import NetPrep.Proofs.Sizing

/-!
# Sizes asked one after another

What is stored as the operands of a value may be anything; nodes that are erased have operands too.
Whatever it is, a query comes to an end. If it is in the module and no value is among its own
operands, then all queries that share a memo answer the sizes that the recursion over the operands
gives, in any order.
-/

namespace NetPrep

/-! ## The graph of operands -/

namespace Module

variable {m : Module} {f : ValueId → Nat} {v w : ValueId}

/-- The operands of the node that a value comes from; a port has none. -/
def sources (m : Module) (v : ValueId) : List ValueId :=
  match m.def? v with
  | some (.result id _) => (m.node? id).elim [] (·.operands)
  | _ => []

/-- No value is among its own sources, directly or through others. -/
def Acyclic (m : Module) : Prop := ∀ v, ¬ Relation.TransGen (fun w v => w ∈ m.sources v) v v

/-- What values and nodes refer to is in the module. -/
structure SelfContained (m : Module) : Prop where
  node : ∀ {v id i}, m.def? v = some (.result id i) → ∃ n, m.node? id = some n
  source : ∀ {v w}, w ∈ m.sources v → w.index < m.values.size

/-- The size of every value by recursion: one without sources, and else the sizes of the sources
together, each as often as it is an operand. -/
def Sizes (m : Module) (f : ValueId → Nat) : Prop :=
  ∀ v, f v = if m.sources v = [] then 1 else ((m.sources v).map f).sum

theorem SelfContained.wellFounded (h : m.SelfContained) (hm : m.Acyclic) :
    WellFounded fun w v => w ∈ m.sources v :=
  wellFounded_of_acyclic h.source hm

/-- A value with sources is in the module. -/
theorem lt_of_mem_sources (h : w ∈ m.sources v) : v.index < m.values.size := by
  unfold sources at h
  cases hd : m.def? v with
  | none =>
    rw [hd] at h
    cases h
  | some d =>
    obtain ⟨x, hx, -⟩ := Option.map_eq_some_iff.1 hd
    exact lt_of_value? hx

/-- The recursion has a solution if there is no endless descent. -/
theorem exists_sizes (h : WellFounded fun w v => w ∈ m.sources v) : ∃ f, m.Sizes f := by
  let size (v : ValueId) (rec : ∀ w, w ∈ m.sources v → Nat) : Nat :=
    if m.sources v = [] then 1 else ((m.sources v).attach.map fun w => rec w.1 w.2).sum
  refine ⟨h.fix size, fun v => ?_⟩
  have hfix : h.fix size v = size v fun w _ => h.fix size w := h.fix_eq size v
  rw [hfix]
  simp [size]

end Module

namespace CostMemo

variable {m : Module} {f : ValueId → Nat} {v w : ValueId} {memo memo' : CostMemo}
  {vs : List ValueId} {e : Fault}

/-- The answers to queries that are made one after another and share a memo. A query without an answer
leaves the sizes that were known before. -/
def answers (m : Module) : CostMemo → List ValueId → List (Except Fault Nat)
  | _, [] => []
  | memo, v :: vs => match cost m memo v with
    | .ok (size, memo) => .ok size :: answers m memo vs
    | .error e => .error e :: answers m memo vs

theorem operandsOf_eq_sources (hm : m.SelfContained) (hv : v.index < m.values.size) :
    operandsOf m v = .ok (m.sources v) := by
  have hvalue : ∃ x, m.value? v = some x := ⟨_, Array.getElem?_eq_getElem hv⟩
  obtain ⟨x, hx⟩ := hvalue
  have hdef : m.def? v = some x.definition := by simp [Module.def?, hx]
  rw [operandsOf_eq, Module.sources, hdef]
  cases hd : x.definition with
  | port i => rfl
  | result id i =>
    obtain ⟨n, hn⟩ := hm.node (hdef.trans (congrArg some hd))
    simp only [hn, Option.elim_some]

theorem addsUp_of_sizes (hm : m.SelfContained) (hf : m.Sizes f) (hv : v.index < m.values.size) :
    AddsUp m (fun w v => w ∈ m.sources v) (fun v => v.index < m.values.size) f v :=
  ⟨m.sources v, operandsOf_eq_sources hm hv, fun _ hw => ⟨hm.source hw, hw⟩, hf v⟩

/-- What is remembered while sizes are asked for. -/
def Correct (f : ValueId → Nat) (memo : CostMemo) : Prop :=
  Holds (fun v size => size = f v ∧ size < limit64) memo

/-- A query answers the size of a value if that can be represented. -/
theorem cost_of_sizes (hm : m.SelfContained) (hacyclic : m.Acyclic) (hf : m.Sizes f)
    (hv : v.index < m.values.size) (hmemo : Correct f memo) :
    (f v < limit64 ∧ ∃ memo', cost m memo v = .ok (f v, memo') ∧ Correct f memo') ∨
      ¬ f v < limit64 ∧ cost m memo v = .error .overflow := by
  have hrule := rule_exact (Q := fun v size => size = f v ∧ size < limit64) (¬ f v < limit64)
    (addsUp_of_sizes hm hf) And.left fun _ hlt => ⟨rfl, hlt⟩
  have hcost := hrule.cost (hm.wellFounded hacyclic) ⟨hv, (em (f v < limit64)).symm⟩ hmemo
  cases h : cost m memo v with
  | error e =>
    rw [h] at hcost
    obtain ⟨rfl, hlarge⟩ := hcost
    exact Or.inr ⟨hlarge, rfl⟩
  | ok r =>
    rw [h] at hcost
    obtain ⟨⟨hsize, hlt⟩, hmemo'⟩ := hcost
    exact Or.inl ⟨hsize ▸ hlt, r.2, congrArg Except.ok (Prod.ext hsize rfl), hmemo'⟩

/-- All queries answer the sizes, whatever was asked before. -/
theorem answers_of_sizes (hm : m.SelfContained) (hacyclic : m.Acyclic) (hf : m.Sizes f)
    (hmemo : Correct f memo) (hvs : ∀ v ∈ vs, v.index < m.values.size) :
    answers m memo vs = vs.map fun v => below limit64 (f v) := by
  induction vs generalizing memo with
  | nil => rfl
  | cons v vs ih =>
    obtain ⟨hv, hvs⟩ := List.forall_mem_cons.1 hvs
    rw [answers, List.map_cons, below]
    obtain ⟨hlt, memo', hcost, hmemo'⟩ | ⟨hlarge, hcost⟩ := cost_of_sizes hm hacyclic hf hv hmemo
    · rw [hcost, if_pos hlt]
      exact congrArg _ (ih hmemo' hvs)
    · rw [hcost, if_neg hlarge]
      exact congrArg _ (ih hmemo hvs)

/-- A query without an answer. -/
theorem exists_cost_of_mem_answers (h : .error e ∈ answers m memo vs) :
    ∃ memo', ∃ v ∈ vs, cost m memo' v = .error e := by
  induction vs generalizing memo with
  | nil => cases h
  | cons v vs ih =>
    have hrest : ∀ {memo'}, .error e ∈ answers m memo' vs →
        ∃ memo', ∃ w ∈ v :: vs, cost m memo' w = .error e := fun h => by
      obtain ⟨memo', w, hw, hcost⟩ := ih h
      exact ⟨memo', w, List.mem_cons_of_mem v hw, hcost⟩
    rw [answers] at h
    split at h
    · exact hrest ((List.mem_cons.1 h).resolve_left (by simp))
    · next e' hcost =>
      obtain he | h := List.mem_cons.1 h
      · cases he
        exact ⟨memo, v, List.mem_cons_self, hcost⟩
      · exact hrest h

/-- The loop comes to an end for every query on every module, also where values are among their own
operands. If what they refer to is there, a query only fails with a size that cannot be represented.
Without cycles the recursion has a solution, and every query answers what the recursion says of its
value if that can be represented, whatever was asked before. -/
theorem answers_exact (m : Module) :
    (∀ vs, .error .outOfFuel ∉ answers m .empty vs) ∧
      (m.SelfContained → ∀ vs, (∀ v ∈ vs, v.index < m.values.size) →
        ∀ a ∈ answers m .empty vs, a = .error .overflow ∨ ∃ size, a = .ok size) ∧
      (m.SelfContained → m.Acyclic → (∃ f, m.Sizes f) ∧ ∀ f, m.Sizes f →
        ∀ vs, (∀ v ∈ vs, v.index < m.values.size) →
          answers m .empty vs =
            vs.map fun v => if f v < limit64 then .ok (f v) else .error .overflow) := by
  refine ⟨fun vs h => ?_, fun hm vs hvs a ha => ?_, fun hm hacyclic => ?_⟩
  · obtain ⟨memo', v, -, hcost⟩ := exists_cost_of_mem_answers h
    obtain he | ⟨w, -, he⟩ := error_of_cost (P := fun _ => True) (fun _ _ _ => trivial) trivial hcost
    · cases he
    · exact operandsOf_ne_outOfFuel he
  · cases a with
    | ok size => exact Or.inr ⟨size, rfl⟩
    | error e =>
      obtain ⟨memo', v, hv, hcost⟩ := exists_cost_of_mem_answers ha
      have hsources : ∀ {v w ops}, v.index < m.values.size → operandsOf m v = .ok ops → w ∈ ops →
          w.index < m.values.size := by
        intro v w ops hv hops hw
        obtain rfl := Except.ok.inj ((operandsOf_eq_sources hm hv).symm.trans hops)
        exact hm.source hw
      obtain rfl | ⟨w, hw, he⟩ := error_of_cost hsources (hvs v hv) hcost
      · exact Or.inl rfl
      · rw [operandsOf_eq_sources hm hw] at he
        cases he
  · exact ⟨Module.exists_sizes (hm.wellFounded hacyclic), fun f hf vs =>
      answers_of_sizes hm hacyclic hf holds_empty⟩

end CostMemo

/-- A sum that is used twice in a product counts for both uses. -/
def Module.squared : Module :=
  .sketch [.int 8] [(.input, 0), (.input, 0)]
    [(.back ⟨0⟩, .add, [0, 1], [0]), (.back ⟨0⟩, .mul, [2, 2, 0], [0])]

theorem CostMemo.answers_squared : Module.squared.SelfContained ∧ Module.squared.Acyclic ∧
    answers .squared .empty [⟨3⟩, ⟨0⟩, ⟨2⟩, ⟨3⟩] = [.ok 5, .ok 1, .ok 2, .ok 5] := by
  have hall : (Module.squared.valueIds.all fun v =>
      (match Module.squared.def? v with
        | some (.result id _) => (Module.squared.node? id).isSome
        | _ => true) &&
      (Module.squared.sources v).all fun w => decide (w.index < v.index)) = true := by decide +kernel
  have hvalue : ∀ {v}, v.index < Module.squared.values.size →
      (∀ {id i}, Module.squared.def? v = some (.result id i) →
        ∃ n, Module.squared.node? id = some n) ∧
        ∀ {w}, w ∈ Module.squared.sources v → w.index < v.index := by
    intro v hv
    have h := List.all_eq_true.1 hall v (Module.mem_valueIds_iff.2 hv)
    simp only [Bool.and_eq_true, List.all_eq_true, decide_eq_true_eq] at h
    refine ⟨fun {id i} hd => ?_, fun {w} => h.2 w⟩
    rw [hd] at h
    exact Option.isSome_iff_exists.1 h.1
  have hlt : ∀ {w v}, w ∈ Module.squared.sources v → w.index < v.index :=
    fun h => (hvalue (Module.lt_of_mem_sources h)).2 h
  have hclosed : Module.squared.SelfContained := by
    refine ⟨fun {v id i} hd => ?_, fun h => (hlt h).trans (Module.lt_of_mem_sources h)⟩
    obtain ⟨x, hx, -⟩ := Option.map_eq_some_iff.1 hd
    exact (hvalue (Module.lt_of_value? hx)).1 hd
  have hacyclic : Module.squared.Acyclic := not_transGen_of_lt hlt
  obtain ⟨⟨f, hf⟩, hanswers⟩ := (answers_exact .squared).2.2 hclosed hacyclic
  have hport : f ⟨0⟩ = 1 ∧ f ⟨1⟩ = 1 := ⟨hf ⟨0⟩, hf ⟨1⟩⟩
  have hsum : f ⟨2⟩ = 2 := (hf ⟨2⟩).trans (by
    change f ⟨0⟩ + (f ⟨1⟩ + 0) = 2
    omega)
  have hproduct : f ⟨3⟩ = 5 := (hf ⟨3⟩).trans (by
    change f ⟨2⟩ + (f ⟨2⟩ + (f ⟨0⟩ + 0)) = 5
    omega)
  refine ⟨hclosed, hacyclic, (hanswers f hf _ (by decide +kernel)).trans ?_⟩
  simp only [List.map_cons, List.map_nil, hport, hsum, hproduct]
  decide

end NetPrep
