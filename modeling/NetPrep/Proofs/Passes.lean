import Mathlib
import NetPrep.Prepare.Run
import NetPrep.Proofs.Runs

/-!
# What a pass leaves behind

`Prepare.Yields` says that a pass ends without a failure and leaves a module and names. It does not say
in how many steps: what holds of every module that is left holds whatever the bound on the loops is.
-/

namespace NetPrep.Prepare

variable {pass : Pass} {options : Options} {m m' : Module} {names names' : NameTable}

/-- A pass under the rules of the SystemVerilog emitter succeeds and leaves a module and names. -/
def Yields (pass : Pass) (options : Options) (m : Module) (names : NameTable) (m' : Module)
    (names' : NameTable) : Prop :=
  ∃ fuel stats, runWith fuel pass options .systemVerilog m names = .ok ⟨m', names', .ok stats⟩

/-- A pass that succeeds is a successful run of its steps. -/
theorem runWith_eq_ok_iff {fuel : Nat} {oracle : Oracle} {stats : Stats} :
    runWith fuel pass options oracle m names = .ok ⟨m', names', .ok stats⟩ ↔
      ∃ name, names.resolve m.name = .ok name ∧ pass.action.Runs ⟨options, oracle, name, fuel⟩
        ⟨m, names, .zero⟩ () ⟨m', names', stats⟩ := by
  simp only [runWith, bind_eq_ok_iff]
  refine exists_congr fun name => and_congr_right fun _ => ?_
  constructor
  · rintro ⟨⟨result, state⟩, hrun, h⟩
    simp only [pure, Except.pure, Except.ok.injEq, Outcome.mk.injEq] at h
    obtain ⟨rfl, rfl, hresult⟩ := h
    cases result with
    | error => simp [Except.map] at hresult
    | ok u =>
      obtain rfl : state.stats = stats := by simpa [Except.map] using hresult
      exact hrun
  · exact fun hrun => ⟨_, hrun, rfl⟩

theorem Yields.runs (h : Yields pass options m names m' names') :
    ∃ env s s', env.oracle = .systemVerilog ∧ env.options = options ∧ s.module = m ∧
      s.names = names ∧ s'.module = m' ∧ s'.names = names' ∧ pass.action.Runs env s () s' := by
  obtain ⟨fuel, stats, h⟩ := h
  obtain ⟨name, -, hrun⟩ := runWith_eq_ok_iff.1 h
  exact ⟨_, _, _, rfl, rfl, rfl, rfl, rfl, rfl, hrun⟩

/-- Whether a pass succeeds and leaves a module and names with a property. -/
def leaves (pass : Pass) (options : Options) (m : Module) (names : NameTable)
    (p : Module → NameTable → Bool) : Bool :=
  match run pass options .systemVerilog m names with
  | .ok ⟨m', names', .ok _⟩ => p m' names'
  | _ => false

theorem exists_run_of_leaves {p : Module → NameTable → Bool}
    (h : leaves pass options m names p = true) : ∃ m' names' stats,
      run pass options .systemVerilog m names = .ok ⟨m', names', .ok stats⟩ ∧
        p m' names' = true := by
  unfold leaves at h
  split at h
  · next m' names' stats hrun => exact ⟨m', names', stats, hrun, h⟩
  · simp at h

theorem exists_yields_of_leaves {p : Module → NameTable → Bool}
    (h : leaves pass options m names p = true) :
    ∃ m' names', Yields pass options m names m' names' ∧ p m' names' = true := by
  obtain ⟨m', names', stats, hrun, hp⟩ := exists_run_of_leaves h
  exact ⟨m', names', ⟨defaultFuel, stats, hrun⟩, hp⟩

end NetPrep.Prepare

namespace NetPrep.Prep

/-- Whether a step succeeds with a result and a module that have a property. -/
def answers {α : Type} (x : Prep α) (env : Prepare.Env) (s : Prepare.State)
    (p : α → Module → Bool) : Bool :=
  match x env s with
  | .ok (.ok a, s') => p a s'.module
  | _ => false

theorem exists_runs_of_answers {α : Type} {x : Prep α} {env : Prepare.Env} {s : Prepare.State}
    {p : α → Module → Bool} (h : answers x env s p = true) :
    ∃ a s', x.Runs env s a s' ∧ p a s'.module = true := by
  unfold answers at h
  split at h
  · next a s' hrun => exact ⟨a, s', hrun, h⟩
  · simp at h

/-- Whether a step ends without a failure and leaves a module with a property. -/
def leaves (x : Prep Unit) (env : Prepare.Env) (s : Prepare.State) (p : Module → Bool) : Bool :=
  answers x env s fun _ => p

theorem exists_ok_of_leaves {x : Prep Unit} {env : Prepare.Env} {s : Prepare.State} {p : Module → Bool}
    (h : leaves x env s p = true) : ∃ s', x env s = .ok (.ok (), s') ∧ p s'.module = true := by
  obtain ⟨_, s', hrun, hp⟩ := exists_runs_of_answers h
  exact ⟨s', hrun, hp⟩

end NetPrep.Prep
