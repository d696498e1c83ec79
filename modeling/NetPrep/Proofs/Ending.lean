import Mathlib
import NetPrep.Prepare.Inline
import NetPrep.Proofs.Runs
import NetPrep.Proofs.Safety

/-!
# Steps that end

What is printed at each of its uses is up to the emitter. Here it may be told in any way by the operation,
the attributes and the types of a node. `Prep.Ends` says of a step that it ends if it is allowed enough steps,
in the same way in every setting: with a result and a state of some kind, or for want of room.
-/

namespace NetPrep

/-- What a clone shares with its source: the operation, the attributes and the types of the results. -/
structure Label where
  op : Op
  name : Option Name
  twoState : Bool
  loc : Loc
  types : List (Option TypeId)

def Module.label (m : Module) (n : Node) : Label :=
  ⟨n.op, n.name, n.twoState, n.loc, n.results.map m.type?⟩

/-- An oracle that tells by their labels which nodes must be printed at each of their uses. -/
def Oracle.Classifies (o : Oracle) (p : Label → Bool) : Prop :=
  ∀ {m : Module} {id : NodeId} {n : Node}, m.node? id = some n →
    o.isAlwaysInline m id = .ok (p (m.label n))

namespace Prep

open Prepare

variable {α β : Type} {p : Label → Bool} {s : State} {good : β → State → Prop} {short : Prop}

/-- In every setting with a classification that allows enough steps, a step, which may depend on how many
are allowed, ends in the same way: with a good result and state, or with an overflow where room is
short. -/
def Ends (p : Label → Bool) (x : Nat → Prep α) (s : State) (good : α → State → Prop) (short : Prop) :
    Prop :=
  ∃ bound,
    (∃ a s', good a s' ∧ ∀ (env : Env) k, env.oracle.Classifies p → bound ≤ env.fuel → bound ≤ k →
      (x k).Runs env s a s') ∨
    (short ∧ ∀ (env : Env) k, env.oracle.Classifies p → bound ≤ env.fuel → bound ≤ k →
      x k env s = .error .overflow)

namespace Ends

/-- A step that ends in one step, as it is. -/
theorem of_runs {x : Nat → Prep β} {a : β} {s' : State} (hgood : good a s')
    (h : ∀ (env : Env) k, env.oracle.Classifies p → (x k).Runs env s a s') : Ends p x s good short :=
  ⟨0, Or.inl ⟨a, s', hgood, fun env k hp _ _ => h env k hp⟩⟩

theorem pure {a : β} (hgood : good a s) : Ends p (fun _ => pure a) s good short :=
  of_runs hgood fun _ _ _ => runs_pure.2 ⟨rfl, rfl⟩

theorem mono {x : Nat → Prep β} {good' : β → State → Prop} (h : Ends p x s good short)
    (hgood : ∀ a s', good a s' → good' a s') : Ends p x s good' short := by
  obtain ⟨bound, ⟨a, s', ha, hrun⟩ | hshort⟩ := h
  · exact ⟨bound, Or.inl ⟨a, s', hgood a s' ha, hrun⟩⟩
  · exact ⟨bound, Or.inr hshort⟩

theorem relax {x : Nat → Prep β} {short' : Prop} (h : Ends p x s good short)
    (hshort : short → short') : Ends p x s good short' := by
  obtain ⟨bound, hgood | ⟨hs, herr⟩⟩ := h
  · exact ⟨bound, Or.inl hgood⟩
  · exact ⟨bound, Or.inr ⟨hshort hs, herr⟩⟩

theorem error_bind {x : Prep α} {f : α → Prep β} {env : Env} {e : Fault} (h : x env s = .error e) :
    (x >>= f) env s = .error e := by
  change (x env s >>= fun r => ExceptT.bindCont (fun a => f a env) r.1 r.2) = _
  rw [h]
  rfl

theorem run_bind {x : Prep α} {f : α → Prep β} {env : Env} {a : α} {s₁ : State}
    (h : x.Runs env s a s₁) : (x >>= f) env s = f a env s₁ := by
  change (x env s >>= fun r => ExceptT.bindCont (fun a => f a env) r.1 r.2) = _
  rw [show x env s = .ok (.ok a, s₁) from h]
  rfl

/-- What comes after a step ends from wherever the step leads. -/
theorem bind {x : Nat → Prep α} {f : Nat → α → Prep β} {mid : α → State → Prop}
    (hx : Ends p x s mid short)
    (hf : ∀ a s₁, mid a s₁ → Ends p (fun k => f k a) s₁ good short) :
    Ends p (fun k => x k >>= f k) s good short := by
  obtain ⟨bound, ⟨a, s₁, hmid, hrun⟩ | ⟨hshort, herr⟩⟩ := hx
  · obtain ⟨bound', ⟨b, s', hgood, hrun'⟩ | ⟨hshort, herr⟩⟩ := hf a s₁ hmid
    · refine ⟨max bound bound', Or.inl ⟨b, s', hgood, fun env k hp hfuel hk => ?_⟩⟩
      exact runs_bind.2 ⟨a, s₁, hrun env k hp (by omega) (by omega),
        hrun' env k hp (by omega) (by omega)⟩
    · refine ⟨max bound bound', Or.inr ⟨hshort, fun env k hp hfuel hk => ?_⟩⟩
      exact (run_bind (hrun env k hp (by omega) (by omega))).trans
        (herr env k hp (by omega) (by omega))
  · exact ⟨bound, Or.inr ⟨hshort, fun env k hp hfuel hk =>
      error_bind (herr env k hp hfuel hk)⟩⟩

/-- A step that changes nothing but the state comes first. -/
theorem step {x : Prep α} {f : Nat → α → Prep β} {a : α} {s₁ : State}
    (hx : ∀ env : Env, env.oracle.Classifies p → x.Runs env s a s₁)
    (hf : Ends p (fun k => f k a) s₁ good short) : Ends p (fun k => x >>= f k) s good short := by
  have hends : Ends p (fun _ => x) s (fun b t => b = a ∧ t = s₁) short :=
    of_runs ⟨rfl, rfl⟩ fun env _ hp => hx env hp
  exact hends.bind fun _ _ ⟨hb, ht⟩ => hb ▸ ht ▸ hf

theorem query {q : Module → Except Fault α} {f : Nat → α → Prep β} {a : α} (hq : q s.module = .ok a)
    (hf : Ends p (fun k => f k a) s good short) : Ends p (fun k => query q >>= f k) s good short :=
  step (fun _ _ => runs_query.2 ⟨hq, rfl⟩) hf

theorem edit_ok {e : Module → Except Fault Module} {f : Nat → Unit → Prep β} {m : Module}
    (he : e s.module = .ok m) (hf : Ends p (fun k => f k ()) { s with module := m } good short) :
    Ends p (fun k => edit e >>= f k) s good short :=
  step (fun _ _ => runs_edit.2 ⟨m, he, rfl⟩) hf

theorem count {g : Stats → Stats} {f : Nat → Unit → Prep β}
    (hf : Ends p (fun k => f k ()) { s with stats := g s.stats } good short) :
    Ends p (fun k => count g >>= f k) s good short :=
  step (fun _ _ => runs_count.2 rfl) hf

/-- The number of steps that is allowed is asked for. -/
theorem fuel {f : Nat → Prep β} (hf : Ends p f s good short) :
    Ends p (fun _ => fuel >>= f) s good short := by
  obtain ⟨bound, ⟨a, s', hgood, hrun⟩ | ⟨hshort, herr⟩⟩ := hf
  · exact ⟨bound, Or.inl ⟨a, s', hgood, fun env _ hp hfuel _ =>
      runs_bind.2 ⟨env.fuel, s, runs_fuel.2 ⟨rfl, rfl⟩, hrun env env.fuel hp hfuel hfuel⟩⟩⟩
  · refine ⟨bound, Or.inr ⟨hshort, fun env _ hp hfuel _ => ?_⟩⟩
    exact (run_bind (runs_fuel.2 ⟨rfl, rfl⟩)).trans (herr env env.fuel hp hfuel hfuel)

/-- A step of a loop takes one of the steps that are allowed. -/
theorem succ {x : Nat → Prep β} (h : Ends p (fun k => x (k + 1)) s good short) :
    Ends p x s good short := by
  obtain ⟨bound, h⟩ := h
  refine ⟨bound + 1, h.imp ?_ ?_⟩
  · rintro ⟨a, s', hgood, hrun⟩
    refine ⟨a, s', hgood, fun env k hp hfuel hk => ?_⟩
    obtain ⟨k, rfl⟩ := Nat.exists_eq_add_one_of_ne_zero (by omega : k ≠ 0)
    exact hrun env k hp (by omega) (by omega)
  · rintro ⟨hshort, herr⟩
    refine ⟨hshort, fun env k hp hfuel hk => ?_⟩
    obtain ⟨k, rfl⟩ := Nat.exists_eq_add_one_of_ne_zero (by omega : k ≠ 0)
    exact herr env k hp (by omega) (by omega)

/-- An edit for which there may be no room. -/
theorem editWith {e : Module → Except Fault (α × Module)} {f : Nat → α → Prep β} {room : Prop}
    (he : Safe room (e s.module)) (hshort : ¬ room → short)
    (hf : ∀ a m, e s.module = .ok (a, m) →
      Ends p (fun k => f k a) { s with module := m } good short) :
    Ends p (fun k => editWith e >>= f k) s good short := by
  obtain ⟨⟨a, m⟩, ham⟩ | ⟨herr, hroom⟩ := he
  · exact step (fun _ _ => runs_editWith.2 ⟨m, ham, rfl⟩) (hf a m ham)
  · refine ⟨0, Or.inr ⟨hshort hroom, fun env k _ _ _ => error_bind ?_⟩⟩
    unfold Prep.editWith
    dsimp only
    rw [herr]

theorem edit {e : Module → Except Fault Module} {f : Nat → Unit → Prep β} {room : Prop}
    (he : Safe room (e s.module)) (hshort : ¬ room → short)
    (hf : ∀ m, e s.module = .ok m → Ends p (fun k => f k ()) { s with module := m } good short) :
    Ends p (fun k => edit e >>= f k) s good short := by
  obtain ⟨m, hm⟩ | ⟨herr, hroom⟩ := he
  · exact step (fun _ _ => runs_edit.2 ⟨m, hm, rfl⟩) (hf m hm)
  · refine ⟨0, Or.inr ⟨hshort hroom, fun env k _ _ _ => error_bind ?_⟩⟩
    unfold Prep.edit
    dsimp only
    rw [herr]

end Ends

end Prep

end NetPrep
