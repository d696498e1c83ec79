import Mathlib
import NetPrep.Netlist.Cost
import NetPrep.Proofs.Inlining
import NetPrep.Proofs.Safety

/-!
# The loop that computes sizes

`CostMemo.settle` goes through the operands of a value with a stack. Two things are shown of it for
every module, whatever its operands refer to.

The steps that are allowed are enough. Each step takes a task from the stack, except that a value is
opened once, and then puts at most itself and its operands there. What a value may still put on the
stack is its weight; the stack and the weights of the values that are neither known nor open are worth
fewer steps after each step.

Where no value depends on itself, the stack does what a recursion does: the tasks above the rest of
the stack are done without a look at the rest, and when a value is added up, its operands are known.
So whatever a rule says of a value, as soon as it says so of the operands, holds of every size that
is remembered.
-/

namespace NetPrep.CostMemo

variable {m : Module} {v w : ValueId} {memo memo' : CostMemo} {opened opened' : IdMap Unit}
  {t : Task} {stack tasks : List Task} {ops : List ValueId} {e : Fault}

/-! ## Sizes that are remembered -/

/-- The size of a value is remembered. -/
def Known (memo : CostMemo) (v : ValueId) : Prop := memo.contains v.index = true

theorem known_iff : Known memo v ↔ ∃ size, memo.get? v.index = some size := Option.isSome_iff_exists

theorem get?_insert_value {size : Nat} : (memo.insert v.index size).get? w.index =
    if v = w then some size else memo.get? w.index := by
  rw [IdMap.get?_insert]
  exact if_congr ⟨fun h => congrArg ValueId.mk h, congrArg _⟩ rfl rfl

theorem known_insert {size : Nat} : Known (memo.insert v.index size) w ↔ v = w ∨ Known memo w := by
  rw [known_iff, known_iff, get?_insert_value]
  split <;> simp [*]

theorem contains_insert {i j : Nat} : (opened.insert i ()).contains j = true ↔
    i = j ∨ opened.contains j = true := by
  unfold IdMap.contains
  rw [IdMap.get?_insert]
  split <;> simp [*]

theorem contains_erase {i j : Nat} : (opened.erase i).contains j = true ↔
    i ≠ j ∧ opened.contains j = true := by
  unfold IdMap.contains
  rw [IdMap.get?_erase]
  split <;> simp [*]

/-- Every value of a size that is remembered obeys a rule. -/
def Holds (Q : ValueId → Nat → Prop) (memo : CostMemo) : Prop :=
  ∀ v size, memo.get? v.index = some size → Q v size

theorem holds_empty {Q : ValueId → Nat → Prop} : Holds Q .empty := fun _ _ h => by cases h

theorem Holds.insert {Q : ValueId → Nat → Prop} (h : Holds Q memo) {size : Nat} (hv : Q v size) :
    Holds Q (memo.insert v.index size) := by
  intro w size' hget
  rw [get?_insert_value] at hget
  split at hget
  · next heq =>
    subst heq
    exact Option.some.inj hget ▸ hv
  · exact h w size' hget

/-! ## Operands -/

/-- What `operandsOf` answers. -/
theorem operandsOf_eq : operandsOf m v = match m.def? v with
    | none => .error (.noValue v)
    | some (.port _) => .ok []
    | some (.result id _) => match m.node? id with
      | none => .error (.noNode id)
      | some n => .ok n.operands := by
  unfold operandsOf Module.definingNode? Module.def? Module.value? Module.value
  cases m.values[v.index]? with
  | none => rfl
  | some x =>
    obtain ⟨type, definition, uses⟩ := x
    cases definition with
    | port i => rfl
    | result id i =>
      unfold Module.node?
      simp only [bind, Except.bind, pure, Except.pure, Option.map_some, Module.node]
      cases m.nodes[id.index]? <;> rfl

/-- Looking operands up takes no steps. -/
theorem operandsOf_ne_outOfFuel : operandsOf m v ≠ .error .outOfFuel := by
  intro h
  rw [operandsOf_eq] at h
  split at h
  · cases h
  · cases h
  · split at h <;> cases h

/-! ## The steps of a stack -/

/-- The operands of a value that are looked for when it is opened. -/
def unknown (memo : CostMemo) (opened : IdMap Unit) (ops : List ValueId) : List ValueId :=
  ops.filter fun o => !memo.contains o.index && !opened.contains o.index

theorem mem_unknown : w ∈ unknown memo opened ops ↔
    w ∈ ops ∧ ¬ Known memo w ∧ ¬ opened.contains w.index = true := by
  simp [unknown, Known]

section
variable {fuel : Nat} {expanded : Bool}

theorem settle_nil : settle m fuel memo opened [] = .ok memo := by
  cases fuel <;> rfl

theorem settle_of_known (hknown : memo.contains v.index = true) :
    settle m (fuel + 1) memo opened (⟨v, expanded⟩ :: stack) = settle m fuel memo opened stack := by
  rw [settle, if_pos hknown]

theorem settle_of_fault (hknown : ¬ memo.contains v.index = true)
    (hops : operandsOf m v = .error e) :
    settle m (fuel + 1) memo opened (⟨v, expanded⟩ :: stack) = .error e := by
  rw [settle, if_neg hknown, hops]
  rfl

theorem settle_of_leaf (hknown : ¬ memo.contains v.index = true) (hops : operandsOf m v = .ok []) :
    settle m (fuel + 1) memo opened (⟨v, expanded⟩ :: stack) =
      settle m fuel (memo.insert v.index 1) opened stack := by
  rw [settle, if_neg hknown, hops]
  rfl

theorem settle_of_sum (hknown : ¬ memo.contains v.index = true) (hops : operandsOf m v = .ok ops)
    (hne : ops ≠ []) :
    settle m (fuel + 1) memo opened (⟨v, true⟩ :: stack) = memo.sum 0 ops >>= fun size =>
      settle m fuel (memo.insert v.index size) (opened.erase v.index) stack := by
  have hempty : ops.isEmpty = false := by simpa using hne
  rw [settle, if_neg hknown, hops, ok_bind, hempty, if_neg Bool.false_ne_true, if_pos rfl]

theorem settle_of_open (hknown : ¬ memo.contains v.index = true) (hops : operandsOf m v = .ok ops)
    (hne : ops ≠ []) :
    settle m (fuel + 1) memo opened (⟨v, false⟩ :: stack) =
      settle m fuel memo (opened.insert v.index ())
        ((unknown memo (opened.insert v.index ()) ops).map (⟨·, false⟩) ++ ⟨v, true⟩ :: stack) := by
  have hempty : ops.isEmpty = false := by simpa using hne
  rw [settle, if_neg hknown, hops, ok_bind, hempty, if_neg Bool.false_ne_true,
    if_neg Bool.false_ne_true]
  rfl

/-- What opening a value puts on the stack, apart from what was there. -/
theorem settle_of_open_append (hknown : ¬ memo.contains v.index = true)
    (hops : operandsOf m v = .ok ops) (hne : ops ≠ []) :
    settle m (fuel + 1) memo opened (⟨v, false⟩ :: stack) =
      settle m fuel memo (opened.insert v.index ())
        (((unknown memo (opened.insert v.index ()) ops).map (⟨·, false⟩) ++ [⟨v, true⟩]) ++
          stack) := by
  rw [settle_of_open hknown hops hne, List.append_assoc]
  rfl

end

/-- More steps than are needed do no harm. -/
theorem settle_mono {fuel k : Nat}
    (h : settle m fuel memo opened stack ≠ .error .outOfFuel) :
    settle m (fuel + k) memo opened stack = settle m fuel memo opened stack := by
  induction fuel generalizing memo opened stack with
  | zero =>
    cases stack with
    | nil => rw [settle_nil, settle_nil]
    | cons t stack => exact absurd rfl h
  | succ fuel ih =>
    cases stack with
    | nil => rw [settle_nil, settle_nil]
    | cons t stack =>
      obtain ⟨v, expanded⟩ := t
      rw [Nat.add_right_comm]
      by_cases hknown : Known memo v
      · rw [settle_of_known hknown] at h ⊢
        rw [settle_of_known hknown, ih h]
      cases hops : operandsOf m v with
      | error e => rw [settle_of_fault hknown hops, settle_of_fault hknown hops]
      | ok ops =>
        by_cases hne : ops = []
        · subst hne
          rw [settle_of_leaf hknown hops] at h ⊢
          rw [settle_of_leaf hknown hops, ih h]
        cases expanded with
        | false =>
          rw [settle_of_open hknown hops hne] at h ⊢
          rw [settle_of_open hknown hops hne, ih h]
        | true =>
          rw [settle_of_sum hknown hops hne] at h ⊢
          rw [settle_of_sum hknown hops hne]
          cases hsum : memo.sum 0 ops with
          | error e => rfl
          | ok size =>
            rw [hsum] at h
            exact ih h

/-- Adding up sizes fails only with a sum that cannot be represented. -/
theorem overflow_of_sum {soFar : Nat} (h : memo.sum soFar ops = .error e) : e = .overflow := by
  induction ops generalizing soFar with
  | nil => cases h
  | cons v ops ih =>
    obtain hbelow | ⟨next, -, h⟩ := bind_eq_error_iff.1 h
    · unfold below at hbelow
      split at hbelow <;> cases hbelow
      rfl
    · exact ih h

/-! ## Enough steps -/

/-- How many tasks opening a value puts on the stack at most. -/
def weight (m : Module) (x : Value) : Nat :=
  match x.definition with
  | .result id _ => 1 + ((m.nodes[id.index]?).map (·.operands.length)).getD 0
  | .port _ => 0

/-- The weight of the value in a place, unless it is known or open. -/
def pending (m : Module) (memo : CostMemo) (opened : IdMap Unit) (i : Nat) : Nat :=
  if memo.contains i ∨ opened.contains i then 0 else (m.values[i]?).elim 0 (weight m)

/-- Steps that are enough for a stack. -/
def potential (m : Module) (memo : CostMemo) (opened : IdMap Unit) (stack : List Task) : Nat :=
  stack.length + ∑ i ∈ Finset.range m.values.size, pending m memo opened i

theorem settleFuel_eq (m : Module) (v : ValueId) :
    settleFuel m = potential m .empty .empty [⟨v, false⟩] := by
  have hsum : ∀ (l : List Value) k, l.foldl (fun n x => n + weight m x) k =
      k + ∑ i ∈ Finset.range l.length, (l[i]?).elim 0 (weight m) := by
    intro l
    induction l with
    | nil => simp
    | cons x l ih =>
      intro k
      rw [List.foldl_cons, ih, List.length_cons, Finset.sum_range_succ']
      simp only [List.getElem?_cons_succ, List.getElem?_cons_zero, Option.elim_some]
      omega
  have hstep : settleFuel m = m.values.toList.foldl (fun n x => n + weight m x) 1 := by
    unfold settleFuel
    rw [← Array.foldl_toList]
    congr
    funext n x
    unfold weight
    cases x.definition with
    | port i => rfl
    | result id i => exact Nat.add_assoc n 1 _
  rw [hstep, hsum]
  simp [potential, pending, IdMap.contains]

/-- What is known or open later was not pending before. -/
theorem pending_le (h : ∀ i, memo.contains i ∨ opened.contains i →
    memo'.contains i ∨ opened'.contains i) (i : Nat) :
    pending m memo' opened' i ≤ pending m memo opened i := by
  unfold pending
  split
  · exact Nat.zero_le _
  · next hnot => rw [if_neg fun hi => hnot (h i hi)]

/-- Taking the task on top is a step. -/
theorem potential_pop (h : ∀ i, memo.contains i ∨ opened.contains i →
    memo'.contains i ∨ opened'.contains i) (t : Task) :
    potential m memo' opened' stack + 1 ≤ potential m memo opened (t :: stack) := by
  have hle := Finset.sum_le_sum fun i (_ : i ∈ Finset.range m.values.size) =>
    pending_le (m := m) h i
  unfold potential
  rw [List.length_cons]
  omega

theorem weight_of_operandsOf (hops : operandsOf m v = .ok ops) (hne : ops ≠ []) :
    ∃ x, m.value? v = some x ∧ weight m x = 1 + ops.length := by
  obtain ⟨d, hd, h⟩ := bind_eq_ok_iff.1 hops
  cases d with
  | none =>
    cases h
    exact absurd rfl hne
  | some id =>
    obtain ⟨nd, hnd, h⟩ := bind_eq_ok_iff.1 h
    cases h
    obtain ⟨i, hdef⟩ := Module.definingNode?_eq_some_iff.1 hd
    obtain ⟨x, hx, hdef⟩ := Option.map_eq_some_iff.1 hdef
    have hget : m.nodes[id.index]? = some nd := Module.node_eq_ok_iff.1 hnd
    refine ⟨x, hx, ?_⟩
    simp only [weight, hdef, hget, Option.map_some, Option.getD_some]

/-- Opening the value on top is a step: its weight covers what it puts on the stack. -/
theorem potential_expand (hops : operandsOf m v = .ok ops) (hne : ops ≠ [])
    (hknown : ¬ Known memo v) (hopened : ¬ opened.contains v.index = true) :
    potential m memo (opened.insert v.index ())
        ((unknown memo (opened.insert v.index ()) ops).map (⟨·, false⟩) ++ ⟨v, true⟩ :: stack) + 1 ≤
      potential m memo opened (⟨v, false⟩ :: stack) := by
  obtain ⟨x, hx, hweight⟩ := weight_of_operandsOf hops hne
  have hmem : v.index ∈ Finset.range m.values.size :=
    Finset.mem_range.2 (Module.lt_of_value? hx)
  have hbefore : pending m memo opened v.index = 1 + ops.length := by
    have hget : m.values[v.index]? = some x := hx
    unfold Known at hknown
    rw [← hweight, pending, if_neg (by tauto), hget, Option.elim_some]
  have hafter : pending m memo (opened.insert v.index ()) v.index = 0 :=
    if_pos (Or.inr (contains_insert.2 (Or.inl rfl)))
  have hle : ∀ i, pending m memo (opened.insert v.index ()) i ≤ pending m memo opened i :=
    pending_le fun i => Or.imp_right fun hi => contains_insert.2 (Or.inr hi)
  have hrest := Finset.sum_le_sum fun i (_ : i ∈ (Finset.range m.values.size).erase v.index) => hle i
  have hfew : (unknown memo (opened.insert v.index ()) ops).length ≤ ops.length :=
    List.length_filter_le _ ops
  unfold potential
  rw [← Finset.add_sum_erase _ _ hmem, ← Finset.add_sum_erase _ (pending m memo opened) hmem,
    hbefore, hafter]
  simp only [List.length_append, List.length_map, List.length_cons]
  omega

/-- The uppermost task of a value that is open but not known is the one that adds it up. -/
def Guarded (memo : CostMemo) (opened : IdMap Unit) (stack : List Task) : Prop :=
  ∀ w : ValueId, opened.contains w.index = true → ¬ Known memo w →
    stack.find? (fun t => decide (t.value = w)) = some ⟨w, true⟩

namespace Guarded

/-- The value on top is known now. -/
theorem pop (h : Guarded memo opened (t :: stack)) (hmemo : ∀ w, Known memo w → Known memo' w)
    (ht : Known memo' t.value)
    (hopened : ∀ i, opened'.contains i = true → opened.contains i = true) :
    Guarded memo' opened' stack := by
  intro w ho hw
  have hne : ¬ t.value = w := fun he => hw (he ▸ ht)
  have hfind := h w (hopened _ ho) fun hk => hw (hmemo w hk)
  rwa [List.find?_cons_of_neg (by simpa using hne)] at hfind

/-- The value on top is opened: nothing that is open is put on the stack to be looked for. -/
theorem expand (h : Guarded memo opened (⟨v, false⟩ :: stack)) (ops : List ValueId) :
    Guarded memo (opened.insert v.index ())
      ((unknown memo (opened.insert v.index ()) ops).map (⟨·, false⟩) ++ ⟨v, true⟩ :: stack) := by
  intro w ho hw
  have habove : ((unknown memo (opened.insert v.index ()) ops).map (⟨·, false⟩)).find?
      (fun t : Task => decide (t.value = w)) = none := by
    refine List.find?_eq_none.2 fun t ht => ?_
    obtain ⟨o, hmem, rfl⟩ := List.mem_map.1 ht
    have hne : o ≠ w := fun he => (mem_unknown.1 hmem).2.2 (he ▸ ho)
    simpa using hne
  rw [List.find?_append, habove, Option.none_or]
  by_cases he : v = w
  · subst he
    exact List.find?_cons_of_pos (by simp)
  · have hne : ¬ v.index = w.index := fun hi => he (congrArg ValueId.mk hi)
    have hfind := h w ((contains_insert.1 ho).resolve_left hne) hw
    rw [List.find?_cons_of_neg (by simpa using he)] at hfind ⊢
    exact hfind

/-- A value on top that is still to be opened is not open. -/
theorem not_opened (h : Guarded memo opened (⟨v, false⟩ :: stack)) (hv : ¬ Known memo v) :
    ¬ opened.contains v.index = true := by
  intro ho
  have hfind := h v ho hv
  rw [List.find?_cons_of_pos (by simp)] at hfind
  cases hfind

end Guarded

/-- A stack is done in as many steps as it is worth, unless a sum cannot be represented or the
operands of a value cannot be looked up. -/
theorem error_of_settle {P : ValueId → Prop}
    (hP : ∀ {v w ops}, P v → operandsOf m v = .ok ops → w ∈ ops → P w) {fuel : Nat}
    (hstack : ∀ t ∈ stack, P t.value) (hguard : Guarded memo opened stack)
    (hfuel : potential m memo opened stack ≤ fuel)
    (h : settle m fuel memo opened stack = .error e) :
    e = .overflow ∨ ∃ v, P v ∧ operandsOf m v = .error e := by
  induction fuel generalizing memo opened stack with
  | zero =>
    obtain rfl : stack = [] := by
      unfold potential at hfuel
      exact List.length_eq_zero_iff.1 (by omega)
    cases h
  | succ fuel ih =>
    cases stack with
    | nil => cases h
    | cons t stack =>
      obtain ⟨v, expanded⟩ := t
      obtain ⟨hv, htail⟩ := List.forall_mem_cons.1 hstack
      -- Once the value on top is known, the rest is worth fewer steps.
      have hrest : ∀ {memo₁ : CostMemo} {opened₁ : IdMap Unit},
          (∀ w, Known memo w → Known memo₁ w) → Known memo₁ v →
          (∀ i, opened₁.contains i = true → opened.contains i = true) →
          (∀ i, opened.contains i = true → v.index = i ∨ opened₁.contains i = true) →
          settle m fuel memo₁ opened₁ stack = .error e →
          e = .overflow ∨ ∃ v, P v ∧ operandsOf m v = .error e := by
        intro memo₁ opened₁ hle hv₁ hopened hkept h
        -- A mark that goes was that of the value on top, which is known instead.
        refine ih htail (hguard.pop hle hv₁ hopened) ?_ h
        have hmarks : ∀ i, memo.contains i ∨ opened.contains i →
            memo₁.contains i ∨ opened₁.contains i := by
          rintro i (hi | hi)
          · exact Or.inl (hle ⟨i⟩ hi)
          · obtain rfl | ho := hkept i hi
            · exact Or.inl hv₁
            · exact Or.inr ho
        have hpop : potential m memo₁ opened₁ stack + 1 ≤ _ := potential_pop hmarks ⟨v, expanded⟩
        omega
      have hinsert : ∀ size w, Known memo w → Known (memo.insert v.index size) w :=
        fun _ _ hw => known_insert.2 (Or.inr hw)
      have hnow : ∀ size, Known (memo.insert v.index size) v :=
        fun _ => known_insert.2 (Or.inl rfl)
      by_cases hknown : Known memo v
      · rw [settle_of_known hknown] at h
        exact hrest (fun _ hw => hw) hknown (fun _ ho => ho) (fun _ => Or.inr) h
      cases hops : operandsOf m v with
      | error e' =>
        rw [settle_of_fault hknown hops] at h
        cases h
        exact Or.inr ⟨v, hv, hops⟩
      | ok ops =>
        by_cases hne : ops = []
        · subst hne
          rw [settle_of_leaf hknown hops] at h
          exact hrest (hinsert 1) (hnow 1) (fun _ ho => ho) (fun _ => Or.inr) h
        cases expanded with
        | true =>
          rw [settle_of_sum hknown hops hne] at h
          obtain hsum | ⟨size, -, h⟩ := bind_eq_error_iff.1 h
          · exact Or.inl (overflow_of_sum hsum)
          · refine hrest (hinsert size) (hnow size) (fun i ho => (contains_erase.1 ho).2)
              (fun i ho => ?_) h
            rw [contains_erase]
            tauto
        | false =>
          rw [settle_of_open hknown hops hne] at h
          refine ih (fun t ht => ?_) (hguard.expand ops) ?_ h
          · simp only [List.mem_append, List.mem_map, List.mem_cons] at ht
            obtain ⟨w, hmem, rfl⟩ | rfl | ht := ht
            · exact hP hv hops (mem_unknown.1 hmem).1
            · exact hv
            · exact htail t ht
          · have hexpand : _ ≤ potential m memo opened (⟨v, false⟩ :: stack) :=
              potential_expand hops hne hknown (hguard.not_opened hknown)
            omega

/-- The steps of a query are enough. -/
theorem error_of_settleFuel {P : ValueId → Prop}
    (hP : ∀ {v w ops}, P v → operandsOf m v = .ok ops → w ∈ ops → P w) (hv : P v)
    (h : settle m (settleFuel m) memo .empty [⟨v, false⟩] = .error e) :
    e = .overflow ∨ ∃ w, P w ∧ operandsOf m w = .error e := by
  refine error_of_settle hP (by simpa using hv) (fun w ho => by cases ho) ?_ h
  rw [settleFuel_eq m v]
  exact Nat.add_le_add_left (Finset.sum_le_sum fun i _ => pending_le
    (fun i hi => hi.elim (fun h => by cases h) fun h => by cases h) i) _

theorem settle_settleFuel (v : ValueId) :
    settle m (settleFuel m) memo .empty [⟨v, false⟩] ≠ .error .outOfFuel := by
  intro h
  obtain he | ⟨w, -, he⟩ := error_of_settleFuel (P := fun _ => True) (fun _ _ _ => trivial) trivial h
  · cases he
  · exact operandsOf_ne_outOfFuel he

/-- A query fails only if a sum cannot be represented or the operands of a value cannot be looked
up. -/
theorem error_of_cost {P : ValueId → Prop}
    (hP : ∀ {v w ops}, P v → operandsOf m v = .ok ops → w ∈ ops → P w) (hv : P v)
    (h : cost m memo v = .error e) : e = .overflow ∨ ∃ w, P w ∧ operandsOf m w = .error e := by
  unfold cost at h
  split at h
  · cases h
  · obtain hsettle | ⟨memo', -, h⟩ := bind_eq_error_iff.1 h
    · exact error_of_settleFuel hP hv hsettle
    · cases h

/-! ## What the loop keeps -/

/-- A result has a property, or a fault has another one. -/
def Obeys {α : Type} (q : α → Prop) (E : Fault → Prop) : Except Fault α → Prop
  | .ok a => q a
  | .error e => E e

/-- What is asked of the values that are looked at (`P`), of the sizes that are remembered for them
(`Q`) and of the faults that a run may end in (`E`), so that every step keeps it. The operands of a
value are below it in `R`. -/
structure Rule (m : Module) (R : ValueId → ValueId → Prop) (P : ValueId → Prop)
    (Q : ValueId → Nat → Prop) (E : Fault → Prop) : Prop where
  fault : ∀ {v e}, P v → operandsOf m v = .error e → E e
  operand : ∀ {v w ops}, P v → operandsOf m v = .ok ops → w ∈ ops → P w ∧ R w v
  leaf : ∀ {v}, P v → operandsOf m v = .ok [] → Q v 1
  sum : ∀ {v ops} {memo : CostMemo}, P v → operandsOf m v = .ok ops → ops ≠ [] →
    (∀ w ∈ ops, ∃ size, memo.get? w.index = some size ∧ Q w size) →
    Obeys (Q v) E (memo.sum 0 ops)

/-- What is left of the sizes and of the marks when some tasks are done. -/
structure Further (Q : ValueId → Nat → Prop) (memo memo' : CostMemo) (opened opened' : IdMap Unit) :
    Prop where
  holds : Holds Q memo'
  known : ∀ {w}, Known memo w → Known memo' w
  opened : ∀ {w : ValueId}, opened'.contains w.index = true →
    opened.contains w.index = true ∨ Known memo' w

theorem Further.refl {Q : ValueId → Nat → Prop} (h : Holds Q memo) :
    Further Q memo memo opened opened :=
  ⟨h, fun hw => hw, Or.inl⟩

theorem Further.trans {Q : ValueId → Nat → Prop} {memo'' : CostMemo} {opened'' : IdMap Unit}
    (h : Further Q memo memo' opened opened') (h' : Further Q memo' memo'' opened' opened'') :
    Further Q memo memo'' opened opened'' where
  holds := h'.holds
  known hw := h'.known (h.known hw)
  opened ho := by
    obtain ho | hw := h'.opened ho
    · exact (h.opened ho).imp_right h'.known
    · exact Or.inr hw

/-- A size is remembered. -/
theorem Further.insert {Q : ValueId → Nat → Prop} (h : Holds Q memo) {size : Nat} (hv : Q v size)
    (hopened : ∀ i, opened'.contains i = true → opened.contains i = true) :
    Further Q memo (memo.insert v.index size) opened opened' :=
  ⟨h.insert hv, fun hw => known_insert.2 (Or.inr hw), fun ho => Or.inl (hopened _ ho)⟩

/-- Whatever is below them on the stack, some tasks are done with what holds then, or stop with a
fault. -/
def Settles (m : Module) (E : Fault → Prop) (memo : CostMemo) (opened : IdMap Unit)
    (tasks : List Task) (post : CostMemo → IdMap Unit → Prop) : Prop :=
  ∃ (k : Nat) (r : Except Fault (CostMemo × IdMap Unit)),
    (∀ fuel stack, settle m (fuel + k) memo opened (tasks ++ stack) =
      r >>= fun s => settle m fuel s.1 s.2 stack) ∧
    Obeys (fun s => post s.1 s.2) E r

namespace Settles

variable {E : Fault → Prop} {post post' : CostMemo → IdMap Unit → Prop}

theorem nil (h : post memo opened) : Settles m E memo opened [] post :=
  ⟨0, .ok (memo, opened), fun _ _ => rfl, h⟩

/-- A step that leaves other tasks in the place of the one on top. -/
theorem step (h : ∀ fuel stack, settle m (fuel + 1) memo opened (t :: stack) =
      settle m fuel memo' opened' (tasks ++ stack))
    (hrest : Settles m E memo' opened' tasks post) : Settles m E memo opened [t] post := by
  obtain ⟨k, r, hrun, hpost⟩ := hrest
  refine ⟨k + 1, r, fun fuel stack => ?_, hpost⟩
  rw [← hrun, ← h]
  rfl

/-- A step that stops. -/
theorem stop (h : ∀ fuel stack, settle m (fuel + 1) memo opened (t :: stack) = .error e)
    (he : E e) : Settles m E memo opened [t] post :=
  ⟨1, .error e, fun fuel stack => h fuel stack, he⟩

theorem append {tasks' : List Task} (h : Settles m E memo opened tasks post)
    (hrest : ∀ memo' opened', post memo' opened' → Settles m E memo' opened' tasks' post') :
    Settles m E memo opened (tasks ++ tasks') post' := by
  obtain ⟨k, r, hrun, hpost⟩ := h
  cases r with
  | error e =>
    refine ⟨k, .error e, fun fuel stack => ?_, hpost⟩
    rw [List.append_assoc, hrun]
    rfl
  | ok s =>
    -- The tasks behind are below the first ones, and what is below both is below them.
    obtain ⟨k', r', hrun', hpost'⟩ := hrest s.1 s.2 hpost
    refine ⟨k' + k, r', fun fuel stack => ?_, hpost'⟩
    rw [List.append_assoc, ← Nat.add_assoc, hrun, ok_bind, hrun']

theorem mono (h : Settles m E memo opened tasks post)
    (hle : ∀ memo' opened', post memo' opened' → post' memo' opened') :
    Settles m E memo opened tasks post' := by
  have happend := h.append fun memo' opened' hpost => nil (hle memo' opened' hpost)
  rwa [List.append_nil] at happend

end Settles

namespace Rule

variable {R : ValueId → ValueId → Prop} {P : ValueId → Prop} {Q : ValueId → Nat → Prop}
  {E : Fault → Prop}

/-- Values are looked for one after another. Nothing below them is open unless it is known, and that
stays so, for only known values are added. -/
theorem visit_all {vs : List ValueId} (hmemo : Holds Q memo)
    (hopened : ∀ v ∈ vs, ∀ w, Relation.ReflTransGen R w v → opened.contains w.index = true →
      Known memo w)
    (hvisit : ∀ v ∈ vs, ∀ {memo opened}, Holds Q memo →
      (∀ w, Relation.ReflTransGen R w v → opened.contains w.index = true → Known memo w) →
      Settles m E memo opened [⟨v, false⟩] fun memo' opened' =>
        Further Q memo memo' opened opened' ∧ Known memo' v) :
    Settles m E memo opened (vs.map (⟨·, false⟩)) fun memo' opened' =>
      Further Q memo memo' opened opened' ∧ ∀ v ∈ vs, Known memo' v := by
  induction vs generalizing memo opened with
  | nil => exact .nil ⟨.refl hmemo, fun v hv => absurd hv List.not_mem_nil⟩
  | cons v vs ih =>
    refine (hvisit v List.mem_cons_self hmemo (hopened v List.mem_cons_self)).append
      fun memo₁ opened₁ ⟨hfirst, hv⟩ => ?_
    have hopened₁ : ∀ u ∈ vs, ∀ w, Relation.ReflTransGen R w u →
        opened₁.contains w.index = true → Known memo₁ w := fun u hu w hw ho =>
      (hfirst.opened ho).elim
        (fun ho => hfirst.known (hopened u (List.mem_cons_of_mem v hu) w hw ho)) fun hk => hk
    refine (ih hfirst.holds hopened₁ fun u hu => hvisit u (List.mem_cons_of_mem v hu)).mono
      fun memo₂ opened₂ ⟨hrest, hvs⟩ => ?_
    exact ⟨hfirst.trans hrest, List.forall_mem_cons.2 ⟨hrest.known hv, hvs⟩⟩

/-- A value is added up when its operands are known. -/
theorem visit_expanded (h : Rule m R P Q E) (hv : P v) (hops : operandsOf m v = .ok ops)
    (hne : ops ≠ []) (hmemo : Holds Q memo) (hknown : ∀ w ∈ ops, Known memo w) :
    Settles m E memo opened [⟨v, true⟩] fun memo' opened' =>
      Further Q memo memo' opened opened' ∧ Known memo' v := by
  by_cases hv' : Known memo v
  · exact .step (fun _ _ => settle_of_known hv') (.nil ⟨.refl hmemo, hv'⟩)
  have hobeys : Obeys (Q v) E (memo.sum 0 ops) := by
    refine h.sum hv hops hne fun w hw => ?_
    obtain ⟨size, hsize⟩ := known_iff.1 (hknown w hw)
    exact ⟨size, hsize, hmemo w size hsize⟩
  have hstep : ∀ fuel stack, settle m (fuel + 1) memo opened (⟨v, true⟩ :: stack) = _ :=
    fun _ _ => settle_of_sum hv' hops hne
  cases hsum : memo.sum 0 ops with
  | error e =>
    rw [hsum] at hobeys hstep
    exact .stop hstep hobeys
  | ok size =>
    rw [hsum] at hobeys
    simp only [hsum, ok_bind] at hstep
    have hdone : Settles m E (memo.insert v.index size) (opened.erase v.index) []
        fun memo' opened' => Further Q memo memo' opened opened' ∧ Known memo' v :=
      .nil ⟨.insert hmemo hobeys fun i ho => (contains_erase.1 ho).2, known_insert.2 (Or.inl rfl)⟩
    exact .step hstep hdone

/-- A value is looked for as a recursion does it: its operands first, whatever is below it on the
stack. -/
theorem visit (h : Rule m R P Q E) (hR : WellFounded R) (hv : P v) (hmemo : Holds Q memo)
    (hopened : ∀ w, Relation.ReflTransGen R w v → opened.contains w.index = true →
      Known memo w) :
    Settles m E memo opened [⟨v, false⟩] fun memo' opened' =>
      Further Q memo memo' opened opened' ∧ Known memo' v := by
  induction v using hR.induction generalizing memo opened with
  | _ v ih =>
    by_cases hknown : Known memo v
    · exact .step (fun _ _ => settle_of_known hknown) (.nil ⟨.refl hmemo, hknown⟩)
    cases hops : operandsOf m v with
    | error e => exact .stop (fun _ _ => settle_of_fault hknown hops) (h.fault hv hops)
    | ok ops =>
      by_cases hne : ops = []
      · subst hne
        refine .step (fun _ _ => settle_of_leaf hknown hops) (.nil ⟨?_, known_insert.2 (Or.inl rfl)⟩)
        exact .insert hmemo (h.leaf hv hops) fun _ ho => ho
      -- Among what is below an operand, only what was open before is open: the value itself is not.
      have hbelow : ∀ u ∈ ops, ∀ w, Relation.ReflTransGen R w u →
          (opened.insert v.index ()).contains w.index = true → Known memo w := by
        intro u hu w hwu ho
        have hwv := Relation.TransGen.tail' hwu (h.operand hv hops hu).2
        have hne : v.index ≠ w.index := by
          intro he
          obtain rfl : v = w := congrArg ValueId.mk he
          exact hR.transGen.irrefl.irrefl v hwv
        exact hopened w hwv.to_reflTransGen ((contains_insert.1 ho).resolve_left hne)
      refine .step (fun _ _ => settle_of_open_append hknown hops hne) ?_
      refine (visit_all hmemo (fun u hu => hbelow u (mem_unknown.1 hu).1) fun u hu memo opened =>
        ih u (h.operand hv hops (mem_unknown.1 hu).1).2 (h.operand hv hops (mem_unknown.1 hu).1).1
        ).append fun memo₁ opened₁ ⟨hfirst, hunknown⟩ => ?_
      -- What was not put on the stack was known already, for nothing below the value is open.
      have hall : ∀ w ∈ ops, Known memo₁ w := by
        intro w hw
        by_cases hmem : w ∈ unknown memo (opened.insert v.index ()) ops
        · exact hunknown w hmem
        · rw [mem_unknown] at hmem
          refine hfirst.known (by_contra fun hk => hmem ⟨hw, hk, fun ho => hk ?_⟩)
          exact hbelow w hw w .refl ho
      refine (h.visit_expanded hv hops hne hfirst.holds hall).mono
        fun memo₂ opened₂ ⟨hlast, hnow⟩ => ⟨?_, hnow⟩
      have hboth := hfirst.trans hlast
      refine ⟨hboth.holds, hboth.known, fun {w} ho => ?_⟩
      obtain ho | hw := hboth.opened ho
      · obtain he | ho := contains_insert.1 ho
        · obtain rfl : v = w := congrArg ValueId.mk he
          exact Or.inr hnow
        · exact Or.inl ho
      · exact Or.inr hw

/-- A query answers a size as the rule says. -/
theorem cost (h : Rule m R P Q E) (hR : WellFounded R) (hv : P v) (hmemo : Holds Q memo) :
    Obeys (fun r => Q v r.1 ∧ Holds Q r.2) E (cost m memo v) := by
  unfold CostMemo.cost
  split
  · next size hsize => exact ⟨hmemo v size hsize, hmemo⟩
  · next hnone =>
    have hvisit : Settles m E memo .empty [⟨v, false⟩] fun memo' opened' =>
        Further Q memo memo' .empty opened' ∧ Known memo' v :=
      h.visit hR hv hmemo fun w _ ho => by cases ho
    obtain ⟨k, r, hrun, hpost⟩ := hvisit
    -- The steps that the recursion takes may be more or fewer than those that are allowed.
    have henough : settle m (settleFuel m + k) memo .empty [⟨v, false⟩] = _ :=
      settle_mono (settle_settleFuel v)
    have hsettle := henough.symm.trans (hrun (settleFuel m) [])
    rw [hsettle]
    cases r with
    | error e => exact hpost
    | ok s =>
      obtain ⟨hfurther, hknown⟩ := hpost
      obtain ⟨size, hsize⟩ := known_iff.1 hknown
      rw [ok_bind, settle_nil, ok_bind, hsize]
      exact ⟨hfurther.holds v size hsize, hfurther.holds⟩

end Rule

end NetPrep.CostMemo
