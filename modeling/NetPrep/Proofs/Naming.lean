import Mathlib
import NetPrep.Prepare.InstancePorts
import NetPrep.Proofs.Runs

/-!
# Steps that leave the module alone

Finding a name for a temporary adds to the table of names, and asks about the module, but does not
change it. Names that are there stay what they are.
-/

namespace NetPrep

namespace NameTable

/-- The names of one table have the same strings behind them in the other one. -/
def Within (t t' : NameTable) : Prop :=
  ∀ name text, t.resolve name = .ok text → t'.resolve name = .ok text

theorem Within.refl (t : NameTable) : t.Within t := fun _ _ h => h

theorem Within.trans {t t' t'' : NameTable} (h : t.Within t') (h' : t'.Within t'') :
    t.Within t'' := fun _ _ hn => h' _ _ (h _ _ hn)

theorem within_intern (t : NameTable) (text : String) : t.Within (t.intern text).2 :=
  fun _ _ h => resolve_intern_of_resolve h text

end NameTable

namespace Prep

open Prepare

variable {α β : Type}

/-- A step that does not change the module, counts nothing, and only adds names. -/
structure Silent (x : Prep α) : Prop where
  module_eq : ∀ {env s a s'}, x.Runs env s a s' → s'.module = s.module
  within : ∀ {env s a s'}, x.Runs env s a s' → s.names.Within s'.names
  stats_eq : ∀ {env s a s'}, x.Runs env s a s' → s'.stats = s.stats

namespace Silent

theorem of_state_eq {x : Prep α} (h : ∀ {env s a s'}, x.Runs env s a s' → s = s') : Silent x where
  module_eq hrun := congrArg State.module (h hrun).symm
  within hrun := by
    obtain rfl := h hrun
    exact .refl _
  stats_eq hrun := congrArg State.stats (h hrun).symm

theorem pure (a : α) : Silent (pure a : Prep α) := of_state_eq fun h => (runs_pure.1 h).2

theorem bind {x : Prep α} {f : α → Prep β} (hx : Silent x) (hf : ∀ a, Silent (f a)) :
    Silent (x >>= f) where
  module_eq h := by
    obtain ⟨a, s₁, h₁, h₂⟩ := runs_bind.1 h
    rw [(hf a).module_eq h₂, hx.module_eq h₁]
  within h := by
    obtain ⟨a, s₁, h₁, h₂⟩ := runs_bind.1 h
    exact (hx.within h₁).trans ((hf a).within h₂)
  stats_eq h := by
    obtain ⟨a, s₁, h₁, h₂⟩ := runs_bind.1 h
    rw [(hf a).stats_eq h₂, hx.stats_eq h₁]

theorem query (f : Module → Except Fault α) : Silent (query f) :=
  of_state_eq fun h => (runs_query.1 h).2

theorem node (id : NodeId) : Silent (node id) := query _

theorem resolve (name : Name) : Silent (resolve name) := of_state_eq fun h => (runs_resolve.1 h).2

theorem intern (t : String) : Silent (intern t) where
  module_eq h := by
    obtain ⟨-, rfl⟩ := runs_intern.1 h
    rfl
  within h := by
    obtain ⟨-, rfl⟩ := runs_intern.1 h
    exact NameTable.within_intern _ t
  stats_eq h := by
    obtain ⟨-, rfl⟩ := runs_intern.1 h
    rfl

theorem resolve? (name : Option Name) : Silent (resolve? name) := by
  cases name with
  | none => exact pure none
  | some name => exact (resolve name).bind fun _ => pure _

theorem directName? (v : ValueId) : Silent (directName? v) := by
  refine (query _).bind fun x => ?_
  cases x.definition with
  | port i => exact (query _).bind fun _ => resolve? _
  | result id i =>
    refine (node id).bind fun n => ?_
    cases n.name with
    | some hint => exact (resolve hint).bind fun _ => pure _
    | none =>
      dsimp only
      split
      · refine (query _).bind fun o => (query _).bind fun d => ?_
        cases d with
        | none => exact pure _
        | some decl => exact (node decl).bind fun _ => resolve? _
      · exact pure _

theorem directNames (vs : List ValueId) : Silent (directNames vs) := by
  induction vs with
  | nil => exact pure _
  | cons v vs ih =>
    refine (directName? v).bind fun name => ?_
    cases name with
    | none => exact ih
    | some name => exact ih.bind fun _ => pure _

theorem nameBase? (id : NodeId) (v : ValueId) : Silent (nameBase? id v) := by
  refine (node id).bind fun n => ?_
  split
  · exact directName? v
  · refine (query _).bind fun o => (directName? o).bind fun name => ?_
    cases name with
    | none => exact pure _
    | some name => exact pure _
  · refine (directNames _).bind fun names => ?_
    cases names with
    | nil => exact pure _
    | cons name names => exact pure _

theorem structuralName? (v : ValueId) : Silent (structuralName? v) := by
  refine (query _).bind fun d => ?_
  cases d with
  | none => exact pure _
  | some id =>
    refine (node id).bind fun n => ?_
    cases n.name with
    | some hint => exact pure _
    | none =>
      refine (nameBase? id v).bind fun base => ?_
      cases base with
      | none => exact pure _
      | some base => exact (intern _).bind fun _ => pure _

theorem mapM_resolve? (names : List (Option Name)) : Silent (names.mapM Prep.resolve?) := by
  induction names with
  | nil =>
    rw [List.mapM_nil]
    exact pure _
  | cons name names ih =>
    rw [List.mapM_cons]
    exact (resolve? name).bind fun _ => ih.bind fun _ => pure _

theorem portNames (choose : List (Option Name) → List (Option Name) → List (Option Name)) (op : Op) :
    Silent (portNames choose op) := by
  unfold Prep.portNames
  split
  · exact (resolve _).bind fun _ => (mapM_resolve? _).bind fun _ => pure _
  · exact pure _

end Silent

end Prep

end NetPrep
