import Mathlib
import NetPrep.Proofs.Closed
import NetPrep.Proofs.Exempting
import NetPrep.Proofs.Tidying

/-!
# The decision to give an expression a temporary

An expression is left alone if it is exempt, or if its size is within the limit and its name, where
names are asked for, needs no declaration. Making a temporary only adds names.
-/

namespace NetPrep

open Prepare

namespace Prep

variable {α β : Type}

/-! ## Names are only added -/

/-- A step that leaves every name with its string. -/
structure Widens (x : Prep α) : Prop where
  within : ∀ {env s a s'}, x.Runs env s a s' → s.names.Within s'.names

namespace Widens

theorem of_silent {x : Prep α} (h : Silent x) : Widens x := ⟨h.within⟩

theorem pure (a : α) : Widens (pure a : Prep α) := of_silent (.pure a)

theorem query (f : Module → Except Fault α) : Widens (query f) := of_silent (.query f)

theorem bind {x : Prep α} {f : α → Prep β} (hx : Widens x) (hf : ∀ a, Widens (f a)) :
    Widens (x >>= f) where
  within h := by
    obtain ⟨a, s₁, h₁, h₂⟩ := runs_bind.1 h
    exact (hx.within h₁).trans ((hf a).within h₂)

theorem edit (f : Module → Except Fault Module) : Widens (edit f) where
  within h := by
    obtain ⟨m, -, rfl⟩ := runs_edit.1 h
    exact .refl _

theorem editWith (f : Module → Except Fault (α × Module)) : Widens (editWith f) where
  within h := by
    obtain ⟨m, -, rfl⟩ := runs_editWith.1 h
    exact .refl _

theorem count (f : Stats → Stats) : Widens (count f) where
  within h := by
    obtain rfl := runs_count.1 h
    exact .refl _

theorem forM {f : α → Prep Unit} {l : List α} (hf : ∀ a, Widens (f a)) : Widens (l.forM f) := by
  induction l with
  | nil => exact pure ()
  | cons a l ih => exact (hf a).bind fun _ => ih

theorem create (pos : Position) (op : Op) (operands : List ValueId) (type : TypeId) (loc : Loc) :
    Widens (create pos op operands type loc) :=
  (editWith _).bind fun _ => (query _).bind fun _ => pure _

theorem declareFor (v : ValueId) (pos : Position) (op : Op) (name : Option Name) (loc : Loc) :
    Widens (declareFor v pos op name loc) :=
  ((query _).bind fun _ => editWith _).bind fun _ => (create ..).bind fun _ =>
    (edit _).bind fun _ => pure _

theorem readFor (u : Use) (storage : ValueId) (type : TypeId) (loc : Loc) :
    Widens (readFor u storage type loc) :=
  (create ..).bind fun _ => (edit _).bind fun _ => pure _

theorem spillResult (id : NodeId) (result : ValueId) (name : Option Name) (atFront : Bool) :
    Widens (spillResult id result name atFront) := by
  refine (query _).bind fun n => (query _).bind fun b => (query _).bind fun type => ?_
  refine (declareFor ..).bind fun decl => (query _).bind fun x => ?_
  refine (forM fun u => (readFor ..).bind fun _ => pure _).bind fun _ => ?_
  refine (editWith _).bind fun _ => ?_
  dsimp only
  split
  · exact (edit _).bind fun _ => count _
  · exact count _

theorem spill (id : NodeId) (atFront : Bool) : Widens (spill id atFront) := by
  refine (query _).bind fun n => ?_
  split
  · exact (of_silent (.structuralName? _)).bind fun name => (edit _).bind fun _ => spillResult _ _ name atFront
  · exact forM fun result => spillResult id result none atFront

end Widens

end Prep

namespace Module

variable {m : Module} {id user : NodeId} {n : Node} {v : ValueId}

/-- Expressions have one result at most. -/
def SingleResults (m : Module) : Prop :=
  ∀ {id n}, m.live? id = some n → n.op.isExpression = true → n.results.length ≤ 1

/-- The node with the only use of an expression. -/
theorem onlyUse_of_singleUser? (hs : Sound m) (hsingle : m.SingleResults) (hn : m.live? id = some n)
    (hop : n.op.isExpression = true) (h : m.singleUser? id = .ok (some user)) :
    ∃ v u, n.results = [v] ∧ m.OnlyUse v u ∧ u.node = user := by
  have hlength := hsingle hn hop
  obtain ⟨uses, huses, h⟩ := bind_eq_ok_iff.1 h
  obtain ⟨nd, hnd, -, rfl⟩ := exists_of_live? hn
  have hmem : ∀ {u}, u ∈ uses ↔ ∃ v ∈ nd.core.results, m.Uses u v :=
    hs.recorded.mem_nodeUses_iff hnd huses
  split at h
  · next u =>
    cases h
    obtain ⟨v, hv, -⟩ := hmem.1 (List.mem_singleton_self u)
    have hone : nd.core.results = [v] := by
      obtain ⟨w, hw⟩ := List.length_eq_one_iff.1 (hlength.antisymm (List.length_pos_of_mem hv))
      rw [hw] at hv ⊢
      rw [List.mem_singleton.1 hv]
    refine ⟨v, u, hone, fun w => ?_, rfl⟩
    have hw := (hmem (u := w)).symm
    rw [hone] at hw
    simpa using hw
  · cases h

end Module

namespace Prep

variable {env : Env} {s s' : State} {m : Module} {id : NodeId} {n : Node} {v : ValueId}

/-- The only use of an expression, and the operation of its user. -/
theorem exists_user (hs : Sound m) (hsingle : m.SingleResults) (hn : m.live? id = some n)
    (hop : n.op.isExpression = true) {next : NodeId} {nd : Node}
    (h : m.singleUser? id = .ok (some next)) (hnd : m.node next = .ok nd) :
    ∃ v u user, n.results = [v] ∧ m.OnlyUse v u ∧ u.node = next ∧ m.live? u.node = some user ∧
      nd.op = user.op := by
  obtain ⟨v, u, hresults, honly, rfl⟩ := Module.onlyUse_of_singleUser? hs hsingle hn hop h
  obtain ⟨user, huser, -⟩ := (honly u).2 rfl
  refine ⟨v, u, user, hresults, honly, rfl, huser, ?_⟩
  obtain ⟨nd', hnd', -, rfl⟩ := Module.exists_of_live? huser
  obtain rfl := Option.some.inj ((Module.node_eq_ok_iff.1 hnd).symm.trans hnd')
  rfl

/-- An expression whose use names its value is exempt. -/
theorem isExempt_of_isNamedByUser (hs : Sound m) (hsingle : m.SingleResults)
    (hn : m.live? id = some n) (hop : n.op.isExpression = true)
    (h : isNamedByUser m id = .ok true) : m.IsExempt n := by
  obtain ⟨next, hnext, h⟩ := bind_eq_ok_iff.1 h
  cases next with
  | none => cases h
  | some next =>
    obtain ⟨nd, hnd, h⟩ := bind_eq_ok_iff.1 h
    obtain ⟨v, u, user, hresults, honly, rfl, hlive, huser⟩ :=
      exists_user hs hsingle hn hop hnext hnd
    have hv : v ∈ n.results := hresults ▸ List.mem_singleton_self v
    rw [huser] at h
    dsimp only at h
    split at h
    · next hnames =>
      refine Or.inr (Or.inr (Or.inr ⟨v, hv, Or.inr ?_⟩))
      obtain hnames | hinst := Bool.or_eq_true_iff.1 hnames
      · exact Or.inl ⟨u, user, honly, hlive, hnames⟩
      · exact Or.inr ⟨u, user, honly, hlive, Or.inl hinst⟩
    · split at h
      · next hcast =>
        obtain ⟨last, hlast, h⟩ := bind_eq_ok_iff.1 h
        cases last with
        | none => cases h
        | some last =>
          dsimp only at h
          obtain ⟨nd', hnd', hlastop⟩ := bind_eq_ok_iff.1 h
          obtain ⟨w, u', user', hresults', honly', rfl, hlive', huser'⟩ :=
            exists_user hs hsingle hlive (hcast ▸ rfl) hlast hnd'
          have hw : w ∈ user.results := hresults' ▸ List.mem_singleton_self w
          have hnames : user'.op.namesOperand = true := huser' ▸ Except.ok.inj hlastop
          exact Or.inr (Or.inr (Or.inr ⟨v, hv, Or.inr (Or.inr ⟨u, user, honly, hlive,
            Or.inr ⟨hcast, w, hw, u', user', honly', hlive', hnames⟩⟩)⟩))
      · cases h

/-- An expression that may not have a temporary is exempt. -/
theorem isExempt_of_maySpill (hs : Sound m) (hsingle : m.SingleResults) (hn : m.live? id = some n)
    (hop : n.op.isExpression = true) (hv : v ∈ n.results) (h : maySpill m id v = .ok false) :
    m.IsExempt n := by
  obtain ⟨nd, hnd, h⟩ := bind_eq_ok_iff.1 h
  obtain ⟨nd', hnd', -, rfl⟩ := Module.exists_of_live? hn
  obtain rfl := Option.some.inj ((Module.node_eq_ok_iff.1 hnd).symm.trans hnd')
  obtain ⟨type, htype, h⟩ := bind_eq_ok_iff.1 h
  obtain ⟨storage, hstorage, h⟩ := bind_eq_ok_iff.1 h
  split at h
  · next his =>
    refine Or.inr (Or.inr (Or.inr ⟨v, hv, Or.inl ⟨type, valueType_eq_ok_iff.1 htype, ?_⟩⟩))
    rw [hstorage, his]
  · split at h
    · next hkind =>
      obtain hread | hconst := hkind
      · exact Or.inr (Or.inl hread)
      · exact Or.inr (Or.inr (Or.inl hconst))
    · obtain ⟨named, hnamed, h⟩ := bind_eq_ok_iff.1 h
      cases named with
      | true => exact isExempt_of_isNamedByUser hs hsingle hn hop hnamed
      | false => cases h

/-- The name of a node needs no declaration: where names are asked for, it begins with an underscore,
and there are fewer terms than the limit for names. -/
def AllowsName (o : Options) (names : NameTable) (name : Option Name) (terms : Nat) : Prop :=
  o.spillHeuristics.contains .largeTermsWithNamehints = true → ∀ hint, name = some hint →
    ∃ text, names.resolve hint = .ok text ∧ Text.beginsWith '_' text = true ∧
      terms < o.namehintTermLimit

theorem heuristicSpills_runs {size : Nat} {wanted : Bool} (hn : s.module.live? id = some n)
    (h : (heuristicSpills id size).Runs env s wanted s') :
    s = s' ∧ (wanted = false → AllowsName env.options s.names n.name size) := by
  obtain ⟨nd, hnd, -, rfl⟩ := Module.exists_of_live? hn
  obtain ⟨o, s₁, ho, h⟩ := runs_bind.1 h
  obtain ⟨rfl, rfl⟩ := runs_options.1 ho
  split at h
  · obtain ⟨nd', s₁, hnd', h⟩ := runs_bind.1 h
    obtain ⟨hget, rfl⟩ := runs_node.1 hnd'
    obtain rfl := Option.some.inj (hget.symm.trans hnd)
    split at h
    · next hint hhint =>
      obtain ⟨text, s₁, htext, h⟩ := runs_bind.1 h
      obtain ⟨hresolve, rfl⟩ := runs_resolve.1 htext
      split at h
      · obtain ⟨rfl, rfl⟩ := runs_pure.1 h
        exact ⟨rfl, fun hfalse => by cases hfalse⟩
      · next hbegins =>
        obtain ⟨rfl, rfl⟩ := runs_pure.1 h
        refine ⟨rfl, fun hfalse _ hint' hhint' => ?_⟩
        obtain rfl := Option.some.inj (hhint.symm.trans hhint')
        exact ⟨text, hresolve, by simpa using hbegins, by simpa using hfalse⟩
    · next hnone =>
      obtain ⟨rfl, rfl⟩ := runs_pure.1 h
      refine ⟨rfl, fun _ _ hint hhint => ?_⟩
      rw [show nd'.core.name = none from hnone] at hhint
      cases hhint
  · next hoff =>
    obtain ⟨rfl, rfl⟩ := runs_pure.1 h
    exact ⟨rfl, fun _ hon => absurd hon hoff⟩

/-- An expression is left alone because it is exempt, or because its size and its name allow it. -/
theorem shouldSpill_cases {memo memo' : CostMemo} {wanted : Bool} (hs : Sound s.module)
    (hsingle : s.module.SingleResults) (hn : s.module.live? id = some n)
    (hop : n.op.isExpression = true)
    (h : (shouldSpill memo id).Runs env s (wanted, memo') s') :
    (wanted = false ∧ memo' = memo ∧ s.module.IsExempt n) ∨
      ∃ v size, n.results = [v] ∧ CostMemo.cost s.module memo v = .ok (size, memo') ∧
        (wanted = false → size ≤ env.options.maximumTerms ∧
          AllowsName env.options s.names n.name size) := by
  have hlength := hsingle hn hop
  obtain ⟨nd, s₁, hnd, h⟩ := runs_bind.1 h
  obtain ⟨hget, rfl⟩ := runs_node.1 hnd
  obtain ⟨nd', hnd', -, rfl⟩ := Module.exists_of_live? hn
  obtain rfl := Option.some.inj (hget.symm.trans hnd')
  split at h
  · next hnil =>
    obtain ⟨he, rfl⟩ := runs_pure.1 h
    cases he
    exact Or.inl ⟨rfl, rfl, Or.inl hnil⟩
  · next v vs hresults =>
    have hone : nd.core.results = [v] := by
      cases vs with
      | nil => exact hresults
      | cons w vs =>
        rw [show nd.core.results = v :: w :: vs from hresults] at hlength
        exact absurd hlength (by simp)
    obtain ⟨may, s₁, hmay, h⟩ := runs_bind.1 h
    obtain ⟨hmayOk, rfl⟩ := runs_query.1 hmay
    cases may with
    | false =>
      obtain ⟨he, rfl⟩ := runs_pure.1 h
      cases he
      exact Or.inl ⟨rfl, rfl, isExempt_of_maySpill hs hsingle hn hop
        (hone ▸ List.mem_singleton_self v) hmayOk⟩
    | true =>
      obtain ⟨⟨size, memo₁⟩, s₁, hsize, h⟩ := runs_bind.1 h
      obtain ⟨hcost, rfl⟩ := runs_query.1 hsize
      obtain ⟨o, s₁, ho, h⟩ := runs_bind.1 h
      obtain ⟨rfl, rfl⟩ := runs_options.1 ho
      refine Or.inr ⟨v, size, hone, ?_⟩
      split at h
      · obtain ⟨he, rfl⟩ := runs_pure.1 h
        cases he
        exact ⟨hcost, fun hfalse => by cases hfalse⟩
      · next hle =>
        obtain ⟨b, s₁, hb, h⟩ := runs_bind.1 h
        obtain ⟨he, rfl⟩ := runs_pure.1 h
        cases he
        exact ⟨hcost, fun hfalse => ⟨by omega, (heuristicSpills_runs hn hb).2 hfalse⟩⟩

end Prep

end NetPrep
