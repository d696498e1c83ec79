import Mathlib
import NetPrep.Prepare.Design
import NetPrep.Proofs.Redirect

/-!
# Successful steps

`Prep.Runs` says that a step succeeds with a result and leaves a state. Here it is computed for the
ways in which steps are put together.
-/

namespace NetPrep.Prep

open Prepare

variable {α β : Type} {env : Env} {s s' : State} {a c : α} {b : β}

/-- A step succeeds, with a result and a state that it leaves. -/
def Runs (x : Prep α) (env : Env) (s : State) (a : α) (s' : State) : Prop :=
  x env s = .ok (.ok a, s')

@[simp] theorem runs_pure : (pure a : Prep α).Runs env s c s' ↔ a = c ∧ s = s' := by
  simp [Runs, pure, ReaderT.pure, ExceptT.pure, ExceptT.mk, StateT.pure, Except.pure]

@[simp] theorem runs_bind {x : Prep α} {f : α → Prep β} :
    (x >>= f).Runs env s b s' ↔ ∃ a s₁, x.Runs env s a s₁ ∧ (f a).Runs env s₁ b s' := by
  unfold Runs
  change (x env s >>= fun r => ExceptT.bindCont (fun a => f a env) r.1 r.2) = _ ↔ _
  rw [bind_eq_ok_iff]
  constructor
  · rintro ⟨⟨r, s₁⟩, hx, hf⟩
    cases r with
    | ok a => exact ⟨a, s₁, hx, hf⟩
    | error e => cases hf
  · rintro ⟨a, s₁, hx, hf⟩
    exact ⟨(.ok a, s₁), hx, hf⟩

@[simp] theorem runs_query {f : Module → Except Fault α} :
    (query f).Runs env s a s' ↔ f s.module = .ok a ∧ s = s' := by
  unfold Runs query
  cases f s.module <;> simp [eq_comm]

@[simp] theorem runs_edit {f : Module → Except Fault Module} {u : Unit} :
    (edit f).Runs env s u s' ↔ ∃ m, f s.module = .ok m ∧ s' = { s with module := m } := by
  obtain ⟨m, names, stats⟩ := s
  unfold Runs edit
  cases h : f m <;> simp [h, eq_comm]

@[simp] theorem runs_editWith {f : Module → Except Fault (α × Module)} :
    (editWith f).Runs env s a s' ↔
      ∃ m, f s.module = .ok (a, m) ∧ s' = { s with module := m } := by
  obtain ⟨m, names, stats⟩ := s
  unfold Runs editWith
  cases h : f m with
  | error e => simp [h]
  | ok r =>
    obtain ⟨b, m'⟩ := r
    simp only [h, Except.ok.injEq, Prod.mk.injEq]
    constructor
    · rintro ⟨rfl, rfl⟩
      exact ⟨m', ⟨rfl, rfl⟩, rfl⟩
    · rintro ⟨m'', ⟨rfl, rfl⟩, rfl⟩
      exact ⟨rfl, rfl⟩

@[simp] theorem runs_count {f : Stats → Stats} {u : Unit} :
    (count f).Runs env s u s' ↔ s' = { s with stats := f s.stats } := by
  simp [Runs, count, eq_comm]

@[simp] theorem runs_options {o : Options} :
    options.Runs env s o s' ↔ env.options = o ∧ s = s' := by
  simp [Runs, options]

@[simp] theorem runs_fuel {k : Nat} : fuel.Runs env s k s' ↔ env.fuel = k ∧ s = s' := by
  simp [Runs, fuel]

@[simp] theorem runs_moduleName {t : String} :
    moduleName.Runs env s t s' ↔ env.moduleName = t ∧ s = s' := by
  simp [Runs, moduleName]

@[simp] theorem runs_intern {t : String} {name : Name} :
    (intern t).Runs env s name s' ↔
      (s.names.intern t).1 = name ∧ s' = { s with names := (s.names.intern t).2 } := by
  simp [Runs, intern, eq_comm]

@[simp] theorem runs_resolve {name : Name} {t : String} :
    (resolve name).Runs env s t s' ↔ s.names.resolve name = .ok t ∧ s = s' := by
  unfold Runs resolve
  cases s.names.resolve name <;> simp [eq_comm]

@[simp] theorem runs_fail {f : Failure} : ¬ (fail f : Prep α).Runs env s a s' := by
  simp [Runs, fail]

@[simp] theorem runs_fault {f : Fault} : ¬ (fault f : Prep α).Runs env s a s' := by
  simp [Runs, fault]

@[simp] theorem runs_node {id : NodeId} {n : Node} :
    (node id).Runs env s n s' ↔ s.module.node? id = some n ∧ s = s' := by
  simp [node]

@[simp] theorem runs_isExpression {id : NodeId} {r : Bool} :
    (isExpression id).Runs env s r s' ↔ env.oracle.isExpression s.module id = .ok r ∧ s = s' :=
  runs_query

@[simp] theorem runs_isAlwaysInline {id : NodeId} {r : Bool} :
    (isAlwaysInline id).Runs env s r s' ↔ env.oracle.isAlwaysInline s.module id = .ok r ∧ s = s' :=
  runs_query

@[simp] theorem runs_isConstantExpression {id : NodeId} {r : Bool} :
    (isConstantExpression id).Runs env s r s' ↔
      env.oracle.isConstantExpression s.module id = .ok r ∧ s = s' :=
  runs_query

@[simp] theorem runs_isMemoryEffectFree {id : NodeId} {r : Bool} :
    (isMemoryEffectFree id).Runs env s r s' ↔
      env.oracle.isMemoryEffectFree s.module id = .ok r ∧ s = s' :=
  runs_query

/-! ## Steps over lists -/

@[simp] theorem runs_forM_nil {f : α → Prep Unit} {u : Unit} :
    (([] : List α).forM f).Runs env s u s' ↔ s = s' := by
  simp [List.forM_nil]

@[simp] theorem runs_forM_cons {f : α → Prep Unit} {l : List α} {u : Unit} :
    ((a :: l).forM f).Runs env s u s' ↔
      ∃ s₁, (f a).Runs env s () s₁ ∧ (l.forM f).Runs env s₁ () s' := by
  change (f a >>= fun _ => l.forM f).Runs env s u s' ↔ _
  rw [runs_bind]
  exact ⟨fun ⟨_, s₁, h₁, h₂⟩ => ⟨s₁, h₁, h₂⟩, fun ⟨s₁, h₁, h₂⟩ => ⟨(), s₁, h₁, h₂⟩⟩

/-- What every step over a list keeps holds after all of them. -/
theorem Runs.foldlM {P : β → State → Prop} {f : β → α → Prep β} {l : List α} {b b' : β}
    (h : (l.foldlM f b).Runs env s b' s') (hs : P b s)
    (hf : ∀ a ∈ l, ∀ b s b' s', P b s → (f b a).Runs env s b' s' → P b' s') : P b' s' := by
  induction l generalizing s b with
  | nil =>
    simp only [List.foldlM_nil, runs_pure] at h
    obtain ⟨rfl, rfl⟩ := h
    exact hs
  | cons a l ih =>
    simp only [List.foldlM_cons, runs_bind] at h
    obtain ⟨b₁, s₁, h₁, h₂⟩ := h
    exact ih h₂ (hf a (by simp) _ _ _ _ hs h₁) fun c hc => hf c (List.mem_cons_of_mem _ hc)

end NetPrep.Prep
