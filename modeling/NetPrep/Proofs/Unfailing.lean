import Mathlib
import NetPrep.Prepare.Order

/-!
# Steps that do not give up

Most steps of preparation end with a result or a fault: the failures are an operation that cannot be
emitted, a value that is read but is not storage, and a node in a procedural block that belongs to no
node. `Prep.Unfailing` says of a step that none of them comes up in it.
-/

namespace NetPrep.Prep

open Prepare

variable {α β : Type}

/-- A step that never stops with a failure. -/
def Unfailing (x : Prep α) : Prop := ∀ env s e s', x env s ≠ .ok (.error e, s')

namespace Unfailing

theorem pure (a : α) : Unfailing (pure a : Prep α) := fun _ _ _ _ h => by cases h

theorem bind {x : Prep α} {f : α → Prep β} (hx : Unfailing x) (hf : ∀ a, Unfailing (f a)) :
    Unfailing (x >>= f) := by
  intro env s e s' h
  change (x env s >>= fun r => ExceptT.bindCont (fun a => f a env) r.1 r.2) = _ at h
  match hx₁ : x env s, h with
  | .ok (.ok a, s₁), h => exact hf a env s₁ e s' h
  | .ok (.error e₁, s₁), _ => exact hx env s e₁ s₁ hx₁

theorem query (f : Module → Except Fault α) : Unfailing (query f) := fun env s e s' h => by
  unfold Prep.query at h
  split at h <;> cases h

theorem edit (f : Module → Except Fault Module) : Unfailing (edit f) := fun env s e s' h => by
  unfold Prep.edit at h
  dsimp only at h
  split at h <;> cases h

theorem editWith (f : Module → Except Fault (α × Module)) : Unfailing (editWith f) :=
  fun env s e s' h => by
    unfold Prep.editWith at h
    dsimp only at h
    split at h <;> cases h

theorem count (f : Stats → Stats) : Unfailing (count f) := fun _ _ _ _ h => by cases h

theorem intern (t : String) : Unfailing (intern t) := fun _ _ _ _ h => by cases h

theorem resolve (name : Name) : Unfailing (resolve name) := fun env s e s' h => by
  unfold Prep.resolve at h
  split at h <;> cases h

theorem node (id : NodeId) : Unfailing (node id) := query _

/-- Asking the oracle. -/
theorem consult (q : Env → Module → Except Fault α) :
    Unfailing (fun env => Prep.query (q env) env : Prep α) := fun env s => query (q env) env s

theorem ite {c : Prop} [Decidable c] {x y : Prep α} (hx : Unfailing x) (hy : Unfailing y) :
    Unfailing (if c then x else y) := by
  split
  · exact hx
  · exact hy

theorem forM {f : α → Prep Unit} (hf : ∀ a, Unfailing (f a)) (l : List α) :
    Unfailing (l.forM f) := by
  induction l with
  | nil => exact pure ()
  | cons a l ih => exact (hf a).bind fun _ => ih

/-! ## Making nodes -/

theorem createStatement (pos : Position) (op : Op) (operands : List ValueId) (loc : Loc) :
    Unfailing (createStatement pos op operands loc) := editWith _

theorem create (pos : Position) (op : Op) (operands : List ValueId) (type : TypeId) (loc : Loc) :
    Unfailing (create pos op operands type loc) :=
  (editWith _).bind fun _ => (query _).bind fun _ => pure _

theorem declareFor (v : ValueId) (pos : Position) (op : Op) (name : Option Name) (loc : Loc) :
    Unfailing (declareFor v pos op name loc) :=
  ((query _).bind fun _ => editWith _).bind fun _ =>
    (create _ _ _ _ _).bind fun _ => (edit _).bind fun _ => pure _

theorem readFor (u : Use) (storage : ValueId) (type : TypeId) (loc : Loc) :
    Unfailing (readFor u storage type loc) :=
  (create _ _ _ _ _).bind fun _ => (edit _).bind fun _ => pure _

/-! ## Names -/

theorem resolve? (name : Option Name) : Unfailing (resolve? name) := by
  cases name with
  | none => exact pure _
  | some name => exact (resolve name).bind fun _ => pure _

theorem directName? (v : ValueId) : Unfailing (directName? v) := by
  refine (query _).bind fun x => ?_
  cases x.definition with
  | port i => exact (query _).bind fun _ => resolve? _
  | result id i =>
    refine (node id).bind fun n => ?_
    cases n.name with
    | some hint => exact (resolve hint).bind fun _ => pure _
    | none =>
      refine ite ((query _).bind fun o => (query _).bind fun d => ?_) (pure _)
      cases d with
      | none => exact pure _
      | some decl => exact (node decl).bind fun _ => resolve? _

theorem directNames (vs : List ValueId) : Unfailing (directNames vs) := by
  induction vs with
  | nil => exact pure _
  | cons v vs ih =>
    refine (directName? v).bind fun name => ?_
    cases name with
    | none => exact ih
    | some name => exact ih.bind fun _ => pure _

theorem nameBase? (id : NodeId) (v : ValueId) : Unfailing (nameBase? id v) := by
  refine (node id).bind fun n => ?_
  split
  · exact directName? v
  · refine (query _).bind fun o => (directName? o).bind fun name => ?_
    cases name <;> exact pure _
  · refine (directNames _).bind fun names => ?_
    cases names <;> exact pure _

theorem structuralName? (v : ValueId) : Unfailing (structuralName? v) := by
  refine (query _).bind fun d => ?_
  cases d with
  | none => exact pure _
  | some id =>
    refine (node id).bind fun n => ?_
    cases n.name with
    | some hint => exact pure _
    | none =>
      refine (nameBase? id v).bind fun base => ?_
      cases base with
      | none => exact pure _
      | some base => exact (intern _).bind fun _ => pure _

/-! ## Temporaries -/

theorem spillResult (id : NodeId) (result : ValueId) (name : Option Name) (atFront : Bool) :
    Unfailing (spillResult id result name atFront) := by
  refine (node id).bind fun n => (query _).bind fun blk => (query _).bind fun type =>
    (declareFor _ _ _ _ _).bind fun p => (query _).bind fun x =>
    (forM (fun u => (readFor _ _ _ _).bind fun _ => pure _) _).bind fun _ =>
    (createStatement _ _ _ _).bind fun _ => ?_
  exact ite ((edit _).bind fun _ => count _) (count _)

theorem spill (id : NodeId) (atFront : Bool) : Unfailing (spill id atFront) := by
  refine (node id).bind fun n => ?_
  split
  · exact (structuralName? _).bind fun name => (edit _).bind fun _ => spillResult _ _ _ _
  · exact forM (fun v => spillResult _ _ _ _) _

/-! ## Passes -/

/-- Breaking a forward reference. -/
theorem resolveForwardReference (block : BlockId) (id : NodeId) :
    Unfailing (resolveForwardReference block id) := by
  refine (count _).bind fun _ => (query _).bind fun movable => ?_
  rcases movable with _ | _
  on_goal 1 => refine (consult _).bind fun _ => ?_
  on_goal 2 => refine (pure true).bind fun _ => ?_
  all_goals
    refine ite (edit _) ((query _).bind fun decl => ?_)
    cases decl with
    | none => exact spill id true
    | some decl => exact (edit _).bind fun _ => edit _

theorem resolveForwardReferences (block : BlockId) : Unfailing (resolveForwardReferences block) :=
  (query _).bind fun ids => forM (resolveForwardReference block) ids

end Unfailing

end NetPrep.Prep
