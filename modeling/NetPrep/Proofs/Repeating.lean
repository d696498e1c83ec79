import Mathlib
import NetPrep.Proofs.Bounding
import NetPrep.Proofs.Integrity
import NetPrep.Proofs.Keeping.Temporary
import NetPrep.Proofs.Sizing

/-!
# Making a module readable again

A module that has been made readable stays as it is when that is done again. The second time starts
without known sizes, while the first time decided with sizes that were out of date. But numbers of terms
only get smaller, what has been given a temporary is exempt since, and what is exempt is recognized, so
that nothing is left to do. That no fault comes up the second time is part of it: each question has an
answer, the sizes are found, and the blocks are nested no deeper than before.
-/

namespace NetPrep

open Prepare Prep

namespace Module

variable {m : Module} {id user : NodeId} {n : Node} {v : ValueId} {u : Use}

/-- Numbers that are bounds at each node are bounds for the numbers of terms. -/
theorem CountsTerms.le_of_bound {f g : ValueId → Nat} (hf : m.CountsTerms f) (hw : WellFormed m)
    (hfeeds : WellFounded m.Feeds) (hport : ∀ v, 1 ≤ g v)
    (hnode : ∀ {id n v}, m.live? id = some n → v ∈ n.results → (n.operands.map g).sum ≤ g v)
    (hv : m.Usable v) : f v ≤ g v := by
  induction v using hfeeds.induction with
  | _ v ih =>
    obtain ⟨d, hd, hlive⟩ := hv
    cases d with
    | port i => exact hf.port hd ▸ hport v
    | result id i =>
      obtain ⟨n, hn⟩ := hlive rfl
      obtain ⟨n', hn', hi⟩ := hw.definition hd
      obtain rfl := Option.some.inj (hn'.symm.trans (core_of_live? hn))
      have hv := List.mem_of_getElem? hi
      by_cases hops : n'.operands = []
      · exact hf.leaf hn hv hops ▸ hport v
      · rw [hf.node hn hv hops]
        exact (List.sum_le_sum fun w hw' => ih w ⟨id, n', hn, hv, hw'⟩
          (hw.usable_operand hn hw')).trans (hnode hn hv)

theorem SingleResults.results (h : m.SingleResults) (hn : m.live? id = some n)
    (hop : n.op.isExpression = true) : n.results = [] ∨ ∃ v, n.results = [v] := by
  have hlength := h hn hop
  rcases hr : n.results with _ | ⟨v, _ | ⟨w, vs⟩⟩
  · exact Or.inl rfl
  · exact Or.inr ⟨v, rfl⟩
  · rw [hr, List.length_cons, List.length_cons] at hlength
    omega

/-! ## Users -/

theorem nodeUses_of_single {nd : Node} {x : Value} (hnd : m.node? id = some nd)
    (hresults : nd.results = [v]) (hx : m.value? v = some x) : m.nodeUses id = .ok x.uses := by
  refine bind_eq_ok_iff.2 ⟨nd, node_eq_ok_iff.2 hnd, bind_eq_ok_iff.2 ⟨[x.uses], ?_, ?_⟩⟩
  · rw [hresults, List.mapM_cons, List.mapM_nil]
    exact bind_eq_ok_iff.2 ⟨x.uses, bind_eq_ok_iff.2 ⟨x, value_eq_ok_iff.2 hx, rfl⟩, rfl⟩
  · rw [List.flatten_singleton]
    rfl

/-- The only use of the only result of a node is found. -/
theorem singleUser?_of_onlyUse (hs : Sound m) (hn : m.live? id = some n) (hresults : n.results = [v])
    (h : m.OnlyUse v u) : m.singleUser? id = .ok (some u.node) := by
  obtain ⟨nd, hnd, -, rfl⟩ := exists_of_live? hn
  obtain ⟨x, hx⟩ := exists_value?_iff.2
    (hs.lt_of_result (core_of_node? hnd) (hresults ▸ List.mem_singleton_self v))
  have huses : x.uses = [u] := by
    have hnodup := hs.uses_nodup hx
    have hmem : ∀ w, w ∈ x.uses ↔ w ∈ [u] := fun w => by
      rw [hs.mem_uses hx, h w, List.mem_singleton]
    exact List.perm_singleton.1 ((List.perm_ext_iff_of_nodup hnodup (List.nodup_singleton u)).2 hmem)
  unfold singleUser?
  rw [nodeUses_of_single hnd hresults hx, huses]
  rfl

/-! ## Nesting -/

/-- Graph blocks are nested in a block at most so deep, the block included. -/
def NestsWithin (m : Module) : Nat → BlockId → Prop
  | 0, _ => False
  | depth + 1, b => m.kind? b = some .procedural ∨ ∀ id n, m.live? id = some n → n.parent = b →
    ∀ c ∈ n.regions, m.NestsWithin depth c

theorem NestsWithin.sameTree {m' : Module} {depth : Nat} {b : BlockId} (h : m.NestsWithin depth b)
    (ht : m.SameTree m') (hk : ∀ b, m'.kind? b = m.kind? b) : m'.NestsWithin depth b := by
  induction depth generalizing b with
  | zero => exact h
  | succ depth ih =>
    refine h.imp (hk b).trans fun h id n' hn' hp c hc => ?_
    obtain ⟨n, hn, -, hregions, hparent⟩ := ht.owner_of hn' (List.ne_nil_of_mem hc)
    exact ih (h id n hn (hparent ▸ hp) c (hregions ▸ hc))

theorem NestsWithin.mono {depth depth' : Nat} {b : BlockId} (h : m.NestsWithin depth b)
    (hle : depth ≤ depth') : m.NestsWithin depth' b := by
  induction depth generalizing depth' b with
  | zero => exact h.elim
  | succ depth ih =>
    obtain ⟨depth', rfl⟩ := Nat.exists_eq_add_one_of_ne_zero (by omega : depth' ≠ 0)
    exact h.imp_right fun h id n hn hp c hc => ih (h id n hn hp c hc) (by omega)

end Module

theorem TypeTable.exists_isStorage {t : TypeTable} {type : TypeId}
    (h : ∃ ty, t.entry? type = some ty) : ∃ b, t.isStorage type = .ok b := by
  obtain ⟨ty, hty⟩ := h
  refine exists_bind_ok (exists_bind_ok ⟨ty, get_eq_ok_iff.2 hty⟩ fun ty _ => ?_) fun _ _ => ⟨_, rfl⟩
  cases ty <;> exact ⟨_, rfl⟩

namespace Sound

variable {m : Module} {id : NodeId} {n : Node}

/-- Whether a node has only one user is found out, and the user is there. -/
theorem exists_singleUser? (hs : Sound m) (hn : m.live? id = some n) :
    ∃ r, m.singleUser? id = .ok r ∧ ∀ user, r = some user → ∃ nu, m.live? user = some nu := by
  obtain ⟨uses, huses, hall⟩ := hs.exists_nodeUses hn
  unfold Module.singleUser?
  rw [huses, ok_bind]
  rcases uses with _ | ⟨u, _ | ⟨u', us⟩⟩
  · exact ⟨none, rfl, fun _ h => by cases h⟩
  · refine ⟨some u.node, rfl, fun _ h => ?_⟩
    cases h
    obtain ⟨v, -, nu, hnu, -⟩ := hall u List.mem_cons_self
    exact ⟨nu, hnu⟩
  · exact ⟨none, rfl, fun _ h => by cases h⟩

end Sound

namespace Prep

section
variable {α β : Type} {env : Env} {s s' : State} {f : β → α → Prep β} {l : List α} {b b' : β}

/-- What every step of a fold finds out, with a property of the state that the steps keep. -/
theorem Runs.foldlM_all {P : State → Prop} {Q : α → Prop} (h : (l.foldlM f b).Runs env s b' s')
    (hs : P s) (hf : ∀ a ∈ l, ∀ b s b' s', P s → (f b a).Runs env s b' s' → P s' ∧ Q a) :
    P s' ∧ ∀ a ∈ l, Q a := by
  induction l generalizing s b with
  | nil =>
    obtain ⟨rfl, rfl⟩ := runs_pure.1 h
    exact ⟨hs, fun _ ha => absurd ha List.not_mem_nil⟩
  | cons a l ih =>
    obtain ⟨b₁, s₁, h₁, h₂⟩ := runs_bind.1 h
    obtain ⟨hs₁, ha⟩ := hf a List.mem_cons_self _ _ _ _ hs h₁
    obtain ⟨hs', hl⟩ := ih h₂ hs₁ fun c hc => hf c (List.mem_cons_of_mem _ hc)
    exact ⟨hs', List.forall_mem_cons.2 ⟨ha, hl⟩⟩

/-- A fold whose steps can be taken, and leave the state. -/
theorem exists_foldlM {P : β → Prop} (hb : P b)
    (hf : ∀ a ∈ l, ∀ b, P b → ∃ b', (f b a).Runs env s b' s ∧ P b') :
    ∃ b', (l.foldlM f b).Runs env s b' s ∧ P b' := by
  induction l generalizing b with
  | nil => exact ⟨b, runs_pure.2 ⟨rfl, rfl⟩, hb⟩
  | cons a l ih =>
    obtain ⟨b₁, h₁, hb₁⟩ := hf a List.mem_cons_self b hb
    obtain ⟨b', h', hb'⟩ := ih hb₁ fun c hc => hf c (List.mem_cons_of_mem _ hc)
    exact ⟨b', runs_bind.2 ⟨b₁, s, h₁, h'⟩, hb'⟩

end

variable {m : Module} {names : NameTable} {id : NodeId} {n : Node} {v : ValueId}

/-! ## Whether a node may have a temporary -/

theorem exists_isNamedByUser (hs : Sound m) (hn : m.live? id = some n) :
    ∃ b, isNamedByUser m id = .ok b := by
  obtain ⟨r, hr, hlive⟩ := hs.exists_singleUser? hn
  unfold isNamedByUser
  rw [hr, ok_bind]
  cases r with
  | none => exact ⟨false, rfl⟩
  | some user =>
    obtain ⟨nu, hnu⟩ := hlive user rfl
    obtain ⟨nd, hnd, -, -⟩ := Module.exists_of_live? hnu
    refine exists_bind_ok ⟨nd, Module.node_eq_ok_iff.2 hnd⟩ fun nd _ => ?_
    dsimp only
    split
    · exact ⟨true, rfl⟩
    · split
      · obtain ⟨r', hr', hlive'⟩ := hs.exists_singleUser? hnu
        rw [hr', ok_bind]
        cases r' with
        | none => exact ⟨false, rfl⟩
        | some next =>
          obtain ⟨nx, hnx⟩ := hlive' next rfl
          obtain ⟨nd', hnd', -, -⟩ := Module.exists_of_live? hnx
          exact exists_bind_ok ⟨nd', Module.node_eq_ok_iff.2 hnd'⟩ fun _ _ => ⟨_, rfl⟩
      · exact ⟨false, rfl⟩

/-- A value whose only use is by an instance, or by a node that gives it a name, is found to be
named. -/
theorem isNamedByUser_of_onlyUse {user : Node} {u : Use} (hs : Sound m) (hn : m.live? id = some n)
    (hresults : n.results = [v]) (honly : m.OnlyUse v u) (huser : m.live? u.node = some user)
    (hop : (user.op.namesOperand || user.op.isInstance) = true) :
    isNamedByUser m id = .ok true := by
  obtain ⟨nd, hnd, -, rfl⟩ := Module.exists_of_live? huser
  refine bind_eq_ok_iff.2 ⟨_, Module.singleUser?_of_onlyUse hs hn hresults honly,
    bind_eq_ok_iff.2 ⟨nd, Module.node_eq_ok_iff.2 hnd, ?_⟩⟩
  dsimp only
  rw [if_pos (show (nd.op.namesOperand || nd.op.isInstance) = true from hop)]
  rfl

/-- So is one whose only use is by a bitcast whose value is named. -/
theorem isNamedByUser_of_bitcast {user : Node} {u : Use} {w : ValueId} (hs : Sound m)
    (hsingle : m.SingleResults) (hn : m.live? id = some n) (hresults : n.results = [v])
    (honly : m.OnlyUse v u) (huser : m.live? u.node = some user) (hop : user.op = .bitcast)
    (hw : w ∈ user.results) (hnamed : m.IsNamed w) : isNamedByUser m id = .ok true := by
  obtain ⟨u', user', honly', huser', hnames⟩ := hnamed
  have hone : user.results = [w] := by
    obtain hnil | ⟨w', hw'⟩ := hsingle.results huser (hop ▸ rfl)
    · exact absurd (hnil ▸ hw) List.not_mem_nil
    · rw [hw'] at hw ⊢
      rw [List.mem_singleton.1 hw]
  have hnext := Module.singleUser?_of_onlyUse hs huser hone honly'
  obtain ⟨nd, hnd, -, rfl⟩ := Module.exists_of_live? huser
  obtain ⟨nd', hnd', -, rfl⟩ := Module.exists_of_live? huser'
  have hcast : nd.op = .bitcast := hop
  refine bind_eq_ok_iff.2 ⟨_, Module.singleUser?_of_onlyUse hs hn hresults honly,
    bind_eq_ok_iff.2 ⟨nd, Module.node_eq_ok_iff.2 hnd, ?_⟩⟩
  dsimp only
  rw [hcast, if_neg (by decide), if_pos rfl, hnext, ok_bind]
  exact bind_eq_ok_iff.2 ⟨nd', Module.node_eq_ok_iff.2 hnd', congrArg Except.ok hnames⟩

theorem exists_maySpill (h : m.Orderly names) (hn : m.live? id = some n) (hv : v ∈ n.results) :
    ∃ b, maySpill m id v = .ok b := by
  obtain ⟨nd, hnd, -, rfl⟩ := Module.exists_of_live? hn
  obtain ⟨t, ht⟩ := (h.usable_of_mem_results hn hv).exists_type
  refine exists_bind_ok ⟨nd, Module.node_eq_ok_iff.2 hnd⟩ fun nd' _ =>
    exists_bind_ok ⟨t, valueType_eq_ok_iff.2 ht⟩ fun t' ht' => ?_
  obtain rfl := Option.some.inj (ht.symm.trans (valueType_eq_ok_iff.1 ht'))
  refine exists_bind_ok (TypeTable.exists_isStorage (h.entry ht)) fun storage _ => ?_
  split
  · exact ⟨false, rfl⟩
  · split
    · exact ⟨false, rfl⟩
    · exact exists_bind_ok (exists_isNamedByUser h.toSound hn) fun named _ => ⟨!named, rfl⟩

/-- An exempt expression with a result may not have a temporary. -/
theorem maySpill_of_isExempt (h : m.Orderly names) (hsingle : m.SingleResults)
    (hn : m.live? id = some n) (hresults : n.results = [v]) (hexempt : m.IsExempt n) :
    maySpill m id v = .ok false := by
  have hs := h.toSound
  have hv : v ∈ n.results := hresults ▸ List.mem_singleton_self v
  obtain ⟨t, ht⟩ := (hs.usable_of_mem_results hn hv).exists_type
  obtain ⟨storage, hstorage⟩ := TypeTable.exists_isStorage (h.entry ht)
  obtain ⟨named, hnamed⟩ := exists_isNamedByUser hs hn
  have hkind : storage = true ∨ n.op = .read ∨ n.op.isConstant = true ∨ named = true := by
    obtain hnil | hread | hconst | ⟨w, hw, hw'⟩ := hexempt
    · rw [hnil] at hresults
      cases hresults
    · exact Or.inr (Or.inl hread)
    · exact Or.inr (Or.inr (Or.inl hconst))
    · obtain rfl : w = v := by simpa [hresults] using hw
      obtain ⟨t', ht', his⟩ | hw' := hw'
      · obtain rfl := Option.some.inj (ht.symm.trans ht')
        exact Or.inl (Except.ok.inj (hstorage.symm.trans his))
      · refine Or.inr (Or.inr (Or.inr (Except.ok.inj (hnamed.symm.trans ?_))))
        obtain ⟨u, user, honly, huser, hop⟩ | ⟨u, user, honly, huser, hinst | ⟨hop, w', hw', hnamed⟩⟩
            := hw'
        · exact isNamedByUser_of_onlyUse hs hn hresults honly huser (by rw [hop, Bool.true_or])
        · exact isNamedByUser_of_onlyUse hs hn hresults honly huser (by rw [hinst, Bool.or_true])
        · exact isNamedByUser_of_bitcast hs hsingle hn hresults honly huser hop hw' hnamed
  obtain ⟨nd, hnd, -, rfl⟩ := Module.exists_of_live? hn
  refine bind_eq_ok_iff.2 ⟨nd, Module.node_eq_ok_iff.2 hnd,
    bind_eq_ok_iff.2 ⟨t, valueType_eq_ok_iff.2 ht, bind_eq_ok_iff.2 ⟨storage, hstorage, ?_⟩⟩⟩
  by_cases his : storage = true
  · rw [if_pos his]
    rfl
  · rw [if_neg his]
    by_cases hop : nd.op = .read ∨ nd.op.isConstant = true
    · rw [if_pos hop]
      rfl
    · obtain rfl : named = true := by
        obtain hk | hk | hk | hk := hkind
        · exact absurd hk his
        · exact absurd (Or.inl hk) hop
        · exact absurd (Or.inr hk) hop
        · exact hk
      rw [if_neg hop]
      exact bind_eq_ok_iff.2 ⟨true, hnamed, rfl⟩

/-! ## What is tidy is left alone -/

section
variable {env : Env} {s : State} {f : ValueId → Nat} {memo : CostMemo}

theorem heuristicSpills_of_allowsName {size : Nat} (hn : s.module.live? id = some n)
    (h : AllowsName env.options s.names n.name size) :
    (heuristicSpills id size).Runs env s false s := by
  obtain ⟨nd, hnd, -, rfl⟩ := Module.exists_of_live? hn
  refine runs_bind.2 ⟨_, s, runs_options.2 ⟨rfl, rfl⟩, ?_⟩
  split
  · next hon =>
    refine runs_bind.2 ⟨nd, s, runs_node.2 ⟨hnd, rfl⟩, ?_⟩
    cases hname : nd.name with
    | none => exact runs_pure.2 ⟨rfl, rfl⟩
    | some hint =>
      obtain ⟨text, htext, hbegins, hlt⟩ := h hon hint hname
      refine runs_bind.2 ⟨text, s, runs_resolve.2 ⟨htext, rfl⟩, ?_⟩
      rw [hbegins]
      exact runs_pure.2 ⟨decide_eq_false (by omega), rfl⟩
  · exact runs_pure.2 ⟨rfl, rfl⟩

/-- A tidy expression gets no temporary, and the sizes known then are exact again. -/
theorem shouldSpill_of_isTidy (h : s.Orderly) (hsingle : s.module.SingleResults)
    (hfeeds : WellFounded s.module.Feeds) (hf : s.module.CountsTerms f)
    (hn : s.module.live? id = some n) (hop : n.op.isExpression = true)
    (htidy : s.module.IsTidy s.names env.options f n)
    (hlt : n.op ≠ .read → ∀ v ∈ n.results, f v < limit64) (hmemo : memo.Exact s.module f) :
    ∃ memo', (shouldSpill memo id).Runs env s (false, memo') s ∧ memo'.Exact s.module f := by
  have hshape := hsingle.results hn hop
  obtain ⟨nd, hnd, -, rfl⟩ := Module.exists_of_live? hn
  have hget : (node id).Runs env s nd s := runs_node.2 ⟨hnd, rfl⟩
  obtain hnil | ⟨v, hresults⟩ := hshape
  · have hnil : nd.results = [] := hnil
    refine ⟨memo, runs_bind.2 ⟨nd, s, hget, ?_⟩, hmemo⟩
    rw [hnil]
    exact runs_pure.2 ⟨rfl, rfl⟩
  · have hone : nd.results = [v] := hresults
    have hmem : v ∈ nd.core.results := hresults ▸ List.mem_singleton_self v
    obtain ⟨may, hmay⟩ := exists_maySpill h hn hmem
    have hask : (query (maySpill · id v)).Runs env s may s := runs_query.2 ⟨hmay, rfl⟩
    cases may with
    | false =>
      refine ⟨memo, runs_bind.2 ⟨nd, s, hget, ?_⟩, hmemo⟩
      rw [hone]
      exact runs_bind.2 ⟨false, s, hask, runs_pure.2 ⟨rfl, rfl⟩⟩
    | true =>
      have hnot : ¬ s.module.IsExempt nd.core := fun hexempt => by
        have := maySpill_of_isExempt h hsingle hn hresults hexempt
        rw [hmay] at this
        cases this
      obtain ⟨w, hw, hle, hname⟩ := htidy.resolve_left hnot
      obtain rfl : w = v := List.singleton_inj.1 (hw.symm.trans hresults)
      obtain ⟨memo', hcost, hmemo'⟩ := CostMemo.exists_cost h.toWellFormed hfeeds hf
        (h.usable_of_mem_results hn hmem) (hlt (fun hread => hnot (Or.inr (Or.inl hread))) w hmem)
        hmemo
      refine ⟨memo', runs_bind.2 ⟨nd, s, hget, ?_⟩, hmemo'⟩
      rw [hone]
      refine runs_bind.2 ⟨true, s, hask, runs_bind.2 ⟨_, s, runs_query.2 ⟨hcost, rfl⟩,
        runs_bind.2 ⟨_, s, runs_options.2 ⟨rfl, rfl⟩, ?_⟩⟩⟩
      rw [if_neg (by omega)]
      exact runs_bind.2 ⟨false, s, heuristicSpills_of_allowsName hn hname, runs_pure.2 ⟨rfl, rfl⟩⟩

/-- A node is left alone if it is tidy, should it be an expression. -/
theorem prettifyNode_of_isTidy (ho : env.oracle = .systemVerilog) (h : s.Orderly)
    (hsingle : s.module.SingleResults) (hfeeds : WellFounded s.module.Feeds)
    (hf : s.module.CountsTerms f) (hn : s.module.live? id = some n)
    (htidy : n.op.isExpression = true → s.module.IsTidy s.names env.options f n)
    (hlt : n.op.isExpression = true → n.op ≠ .read → ∀ v ∈ n.results, f v < limit64)
    (hmemo : memo.Exact s.module f) :
    ∃ memo', (prettifyNode memo id).Runs env s memo' s ∧ memo'.Exact s.module f := by
  obtain ⟨nd, hnd, he, hcore⟩ := Module.exists_of_live? hn
  have hask : (isExpression id).Runs env s n.op.isExpression s := by
    rw [runs_isExpression, ho, Oracle.isExpression_eq_ok_iff]
    exact ⟨⟨nd, hnd, hcore ▸ rfl⟩, rfl⟩
  have hget : (node id).Runs env s nd s := runs_node.2 ⟨hnd, rfl⟩
  by_cases hop : n.op.isExpression = true
  · obtain ⟨memo', hdecide, hmemo'⟩ : ∃ memo', (shouldSpill memo id).Runs env s (false, memo') s ∧ _ :=
      shouldSpill_of_isTidy h hsingle hfeeds hf hn hop (htidy hop) (hlt hop) hmemo
    refine ⟨memo', runs_bind.2 ⟨nd, s, hget, ?_⟩, hmemo'⟩
    rw [he]
    refine runs_bind.2 ⟨_, s, hask, ?_⟩
    rw [hop]
    exact runs_bind.2 ⟨(false, memo'), s, hdecide, runs_pure.2 ⟨rfl, rfl⟩⟩
  · refine ⟨memo, runs_bind.2 ⟨nd, s, hget, ?_⟩, hmemo⟩
    rw [he]
    refine runs_bind.2 ⟨_, s, hask, ?_⟩
    rw [show n.op.isExpression = false by simpa using hop]
    exact runs_pure.2 ⟨rfl, rfl⟩

end

/-! ## Depth -/

theorem nestsWithin_of_prettifyBlock {env : Env} {s s' : State} {memo memo' : CostMemo}
    {depth : Nat} {b : BlockId} (ho : env.oracle = .systemVerilog) (hs : Sound s.module)
    (hb : s.module.Placed b) (hrun : (prettifyBlock depth memo b).Runs env s memo' s') :
    s.module.NestsWithin depth b := by
  induction depth generalizing s s' memo memo' b with
  | zero => exact absurd hrun runs_fault
  | succ depth ih =>
    obtain ⟨blk, s₁, hblk, hrun⟩ := runs_bind.1 hrun
    obtain ⟨hget, rfl⟩ := runs_query.1 hblk
    split at hrun
    · next hproc =>
      exact Or.inl ((block_isProcedural_iff (Module.block_eq_ok_iff.1 hget)).1 hproc)
    · obtain ⟨ids, s₁, hids, hrun⟩ := runs_bind.1 hrun
      obtain ⟨-, rfl⟩ := runs_query.1 hids
      obtain ⟨memo₁, s₁, hnodes, hrun⟩ := runs_bind.1 hrun
      obtain ⟨ids', s₂, hids', hrun⟩ := runs_bind.1 hrun
      obtain ⟨hlist, rfl⟩ := runs_query.1 hids'
      have he := (prettifies_of_foldlM (prettifyNode_runs ho) hs hnodes).edits hs
      rw [he.sound.blockNodes_eq (he.placed hb)] at hlist
      -- Making the nodes readable leaves the blocks; those of a node are looked into one by one.
      have hall := Runs.foldlM_all (P := fun t => s₁.module.Edits t.module)
        (Q := fun id => ∀ n, s₁.module.live? id = some n → ∀ c ∈ n.regions,
          s₁.module.NestsWithin depth c) hrun (.refl he.sound) ?_
      · refine Or.inr fun id n hn hp c hc => ?_
        obtain ⟨n', hn', -, hregions, hparent⟩ := he.sameTree.owner hn (List.ne_nil_of_mem hc)
        have hid : id ∈ ids' := Except.ok.inj hlist ▸
          he.sound.mem_nodesOf_iff.2 ⟨n', hn', hparent.trans hp⟩
        exact (hall.2 id hid n' hn' c (hregions ▸ hc)).sameTree he.sameTree.symm
          fun b => (he.kept.kind? b).symm
      · intro id _ memo t memo' t' ht hrun
        obtain ⟨nd, t₁, hget, hrun⟩ := runs_bind.1 hrun
        obtain ⟨hnd, rfl⟩ := runs_node.1 hget
        have hregions := Runs.foldlM_all (P := fun t' => t.module.Edits t'.module)
          (Q := fun c => s₁.module.Placed c → s₁.module.NestsWithin depth c) hrun (.refl ht.sound) ?_
        · refine ⟨ht.trans hregions.1, fun n hn c hc => ?_⟩
          obtain ⟨n', hn', -, hsame, -⟩ := ht.sameTree.owner hn (List.ne_nil_of_mem hc)
          obtain ⟨nd', hnd', -, rfl⟩ := Module.exists_of_live? hn'
          obtain rfl := Option.some.inj (hnd.symm.trans hnd')
          have hc' : c ∈ nd.regions := show c ∈ nd.core.regions from hsame ▸ hc
          exact hregions.2 c hc' (.region hn hc (he.sound.placed hn))
        · intro c _ memo t₁ memo' t₂ ht₁ hrun
          have hsound := ht₁.sound
          refine ⟨ht₁.trans ((prettifyBlock_runs ho hsound hrun).edits hsound), fun hc => ?_⟩
          have he₁ := ht.trans ht₁
          exact (ih hsound (he₁.placed hc) hrun).sameTree he₁.sameTree.symm
            fun b => (he₁.kept.kind? b).symm

theorem nestsWithin_of_prettify {env : Env} {s s' : State} {r : Unit}
    (ho : env.oracle = .systemVerilog) (hs : Sound s.module) (hrun : prettify.Runs env s r s') :
    s.module.NestsWithin env.fuel s.module.body := by
  simp only [prettify, runs_bind, runs_fuel, runs_query, runs_pure] at hrun
  obtain ⟨fuel, _, ⟨rfl, rfl⟩, body, _, ⟨hbody, rfl⟩, memo, s₁, hrun, -, rfl⟩ := hrun
  obtain rfl := Except.ok.inj hbody
  exact nestsWithin_of_prettifyBlock ho hs .body hrun

/-! ## The second time -/

section
variable {env : Env} {s s' : State} {f : ValueId → Nat} {memo memo' : CostMemo} {depth : Nat}
  {b : BlockId}

theorem prettifyNode_leads (ho : env.oracle = .systemVerilog) (hs : s.Orderly)
    (hrun : (prettifyNode memo id).Runs env s memo' s') : s.Leads s' := by
  obtain ⟨rfl, -⟩ | ⟨n, wanted, hn, -, -, ⟨-, rfl⟩ | ⟨-, hspill⟩⟩ := prettifyNode_cases ho hrun
  · exact .refl hs
  · exact .refl hs
  · exact (spill_keeps hs hn).leads hspill

theorem prettifyBlock_leads (ho : env.oracle = .systemVerilog) (hs : s.Orderly)
    (hrun : (prettifyBlock depth memo b).Runs env s memo' s') : s.Leads s' := by
  induction depth generalizing s s' memo memo' b with
  | zero => exact absurd hrun runs_fault
  | succ depth ih =>
    obtain ⟨blk, s₁, hblk, hrun⟩ := runs_bind.1 hrun
    obtain ⟨-, rfl⟩ := runs_query.1 hblk
    split at hrun
    · exact (runs_pure.1 hrun).2 ▸ .refl hs
    · obtain ⟨ids, s₁, hids, hrun⟩ := runs_bind.1 hrun
      obtain ⟨-, rfl⟩ := runs_query.1 hids
      obtain ⟨memo₁, s₁, hnodes, hrun⟩ := runs_bind.1 hrun
      obtain ⟨ids', s₂, hids', hrun⟩ := runs_bind.1 hrun
      obtain ⟨-, rfl⟩ := runs_query.1 hids'
      have h₁ := Runs.foldlM (P := fun _ t => s.Leads t) hnodes (.refl hs)
        fun _ _ _ _ _ _ ht hrun => ht.trans (prettifyNode_leads ho ht.orderly hrun)
      refine Runs.foldlM (P := fun _ t => s.Leads t) hrun h₁ fun id _ _ t _ t' ht hrun => ?_
      obtain ⟨nd, t₁, hget, hrun⟩ := runs_bind.1 hrun
      obtain ⟨-, rfl⟩ := runs_node.1 hget
      exact Runs.foldlM (P := fun _ t => s.Leads t) hrun ht
        fun _ _ _ _ _ _ ht hrun => ht.trans (ih ht.orderly hrun)

theorem prettify_leads {r : Unit} (ho : env.oracle = .systemVerilog) (hs : s.Orderly)
    (hrun : prettify.Runs env s r s') : s.Leads s' := by
  simp only [prettify, runs_bind, runs_fuel, runs_query, runs_pure] at hrun
  obtain ⟨fuel, _, ⟨-, rfl⟩, body, _, ⟨-, rfl⟩, memo, s₁, hrun, -, rfl⟩ := hrun
  exact prettifyBlock_leads ho hs hrun

/-- A block in which every expression is tidy is left alone, with the blocks nested in it. -/
theorem prettifyBlock_of_isTidy (ho : env.oracle = .systemVerilog) (h : s.Orderly)
    (hsingle : s.module.SingleResults) (hfeeds : WellFounded s.module.Feeds)
    (hf : s.module.CountsTerms f) (hb : s.module.Placed b) (hnests : s.module.NestsWithin depth b)
    (htidy : ∀ id n, s.module.live? id = some n → n.op.isExpression = true →
      s.module.GraphReaches b n.parent → s.module.IsTidy s.names env.options f n ∧
        (n.op ≠ .read → ∀ v ∈ n.results, f v < limit64))
    (hmemo : memo.Exact s.module f) :
    ∃ memo', (prettifyBlock depth memo b).Runs env s memo' s ∧ memo'.Exact s.module f := by
  induction depth generalizing b memo with
  | zero => exact hnests.elim
  | succ depth ih =>
    have hs := h.sound
    obtain ⟨blk, hblk⟩ := hs.exists_block_of_placed hb
    have hask : (query (·.block b)).Runs env s blk s :=
      runs_query.2 ⟨Module.block_eq_ok_iff.2 hblk, rfl⟩
    have hkind := block_isProcedural_iff hblk
    by_cases hproc : blk.isProcedural = true
    · refine ⟨memo, runs_bind.2 ⟨blk, s, hask, ?_⟩, hmemo⟩
      rw [if_pos hproc]
      exact runs_pure.2 ⟨rfl, rfl⟩
    · have hgraph : s.module.kind? b = some .graph := by
        rw [Module.kind?_of_block? hblk] at hkind ⊢
        cases hk : blk.kind with
        | graph => rfl
        | procedural => exact absurd (hkind.2 (congrArg some hk)) hproc
      have hlist : (query (·.blockNodes b)).Runs env s (s.module.nodesOf b) s :=
        runs_query.2 ⟨hs.blockNodes_eq hb, rfl⟩
      have hnested := hnests.resolve_left fun hk => hproc (hkind.2 hk)
      obtain ⟨memo₁, h₁, hmemo₁⟩ : ∃ memo₁, ((s.module.nodesOf b).foldlM prettifyNode memo).Runs env s
          memo₁ s ∧ memo₁.Exact s.module f :=
        exists_foldlM hmemo fun id hid memo hmemo => by
          obtain ⟨n, hn, rfl⟩ := hs.mem_nodesOf_iff.1 hid
          exact prettifyNode_of_isTidy ho h hsingle hfeeds hf hn
            (fun hop => (htidy id n hn hop (.self hgraph)).1)
            (fun hop => (htidy id n hn hop (.self hgraph)).2) hmemo
      obtain ⟨memo₂, h₂, hmemo₂⟩ : ∃ memo₂, ((s.module.nodesOf b).foldlM (fun memo id => do
          (← node id).regions.foldlM (prettifyBlock depth) memo) memo₁).Runs env s memo₂ s ∧
            memo₂.Exact s.module f :=
        exists_foldlM hmemo₁ fun id hid memo hmemo => by
          obtain ⟨n, hn, rfl⟩ := hs.mem_nodesOf_iff.1 hid
          obtain ⟨nd, hnd, -, rfl⟩ := Module.exists_of_live? hn
          obtain ⟨memo', hrun, hmemo'⟩ : ∃ memo', (nd.regions.foldlM (prettifyBlock depth) memo).Runs
              env s memo' s ∧ memo'.Exact s.module f :=
            exists_foldlM hmemo fun c hc memo hmemo =>
              ih (.region hn hc hb) (hnested id _ hn rfl c hc) (fun j nj hj hop hreach =>
                htidy j nj hj hop (.region hgraph hn hc hreach)) hmemo
          exact ⟨memo', runs_bind.2 ⟨nd, s, runs_node.2 ⟨hnd, rfl⟩, hrun⟩, hmemo'⟩
      refine ⟨memo₂, runs_bind.2 ⟨blk, s, hask, ?_⟩, hmemo₂⟩
      rw [if_neg hproc]
      exact runs_bind.2 ⟨_, s, hlist, runs_bind.2 ⟨memo₁, s, h₁, runs_bind.2 ⟨_, s, hlist, h₂⟩⟩⟩

end

end Prep

theorem Module.Prettifies.lessens {m m' : Module} (h : m.Prettifies m') (hs : Sound m) :
    m.Lessens m' := by
  induction h with
  | refl => exact .refl hs.toWellFormed
  | step hn hop h _ ih =>
    have he := h.edits hs
    exact (h.lessens hs).trans he.sound.toWellFormed (ih he.sound)

/-- Making a module readable a second time, with the same options and at least as many steps, changes
nothing and counts nothing: a module in which no value depends on itself, expressions have one result at
most and numbers of terms can be represented is left by the first time as it stays. -/
theorem prettify_twice {m m' : Module} {names names' : NameTable} {options : Options} {stats : Stats}
    {fuel fuel' : Nat} (hm : m.Orderly names)
    (hcycles : m.NoCycles) (hsingle : m.SingleResults)
    (hlt : ∀ f, m.CountsTerms f → ∀ v, m.Usable v → f v < limit64)
    (h : runWith fuel .prettify options .systemVerilog m names = .ok ⟨m', names', .ok stats⟩)
    (hfuel : fuel ≤ fuel') :
    runWith fuel' .prettify options .systemVerilog m' names' = .ok ⟨m', names', .ok .zero⟩ := by
  have hfeeds := hcycles.wellFounded hm.toWellFormed
  obtain ⟨name, -, hrun⟩ := runWith_eq_ok_iff.1 h
  have hleads := prettify_leads (s := ⟨m, names, .zero⟩) rfl hm hrun
  have hnests := nestsWithin_of_prettify rfl hm.toSound hrun
  have hless := (prettify_runs rfl hm.toSound hrun).lessens hm.toSound
  obtain ⟨memo, htidied⟩ := prettify_tidied rfl hm.toSound hfeeds hsingle hrun
  obtain ⟨f, hf⟩ := Module.exists_countsTerms hm.toWellFormed hfeeds
  obtain ⟨f', hf'⟩ := Module.exists_countsTerms hleads.orderly.toWellFormed htidied.wellFounded
  have hlt' : ∀ {id n'}, m'.live? id = some n' → n'.op.isExpression = true → n'.op ≠ .read →
      ∀ v ∈ n'.results, f' v < limit64 := by
    intro id n' hn' hop hread v hv'
    obtain ⟨n, hn⟩ := (htidied.back hn' hop).resolve_right hread
    obtain ⟨n₁, hn₁, -, hresults, -⟩ := hleads.edits.kept.node (Module.core_of_live? hn)
    obtain rfl := Option.some.inj (hn₁.symm.trans (Module.core_of_live? hn'))
    have husable := hm.usable_of_mem_results hn (hresults ▸ hv')
    exact (hless.terms hfeeds hf hf' husable).trans_lt (hlt f hf v husable)
  obtain ⟨name', hname'⟩ := hleads.orderly.self
  refine runWith_eq_ok_iff.2 ⟨name', hname', ?_⟩
  have hdepth : m'.NestsWithin fuel' m'.body := by
    rw [hleads.edits.kept.body]
    exact (hnests.mono hfuel).sameTree hleads.edits.sameTree hleads.edits.kept.kind?
  obtain ⟨memo', hrun', -⟩ : ∃ memo', (prettifyBlock fuel' .empty m'.body).Runs
      ⟨options, .systemVerilog, name', fuel'⟩ ⟨m', names', .zero⟩ memo' _ ∧ memo'.Exact m' f' :=
    prettifyBlock_of_isTidy rfl hleads.orderly htidied.single htidied.wellFounded hf' .body hdepth
      (fun id n' hn' hop hreach => ⟨htidied.isTidy hf' hn' hop hreach, hlt' hn' hop⟩)
      CostMemo.exact_empty
  exact runs_bind.2 ⟨fuel', _, runs_fuel.2 ⟨rfl, rfl⟩, runs_bind.2 ⟨m'.body, _,
    runs_query.2 ⟨rfl, rfl⟩, runs_bind.2 ⟨memo', _, hrun', runs_pure.2 ⟨rfl, rfl⟩⟩⟩⟩

/-- With a limit of three terms the doubled sums get wires the first time, and nothing happens the second
time. -/
theorem prettify_twice_doubled : Valid Module.doubled ∧ Module.doubled.NoCycles ∧
    Module.doubled.SingleResults ∧ ∃ m' names' stats,
      run .prettify { Options.default with maximumTerms := 3 } .systemVerilog .doubled
        Module.sketchNames = .ok ⟨m', names', .ok stats⟩ ∧
      m'.nodes.size = Module.doubled.nodes.size + 7 ∧
      run .prettify { Options.default with maximumTerms := 3 } .systemVerilog m' names' =
        .ok ⟨m', names', .ok .zero⟩ := by
  have hv : Valid Module.doubled := valid_of_isValid (by decide +kernel)
  have hm : Module.doubled.Orderly Module.sketchNames := Module.orderly_of_wellTyped hv.toWellTyped
    (Module.hasTypes_of_check (by decide +kernel)) (Module.named_of_isNamed (by decide +kernel))
  have hall : (Module.doubled.nodeIds.all fun id => (Module.doubled.live? id).all fun n =>
      (n.results.all fun v => (n.operands.all fun w => decide (w.index < v.index)) &&
        decide ((n.operands.map fun w => 2 ^ w.index).sum ≤ 2 ^ v.index)) &&
          decide (n.results.length ≤ 1)) = true := by decide +kernel
  have hnode : ∀ {id n}, Module.doubled.live? id = some n →
      (∀ v ∈ n.results, (∀ w ∈ n.operands, w.index < v.index) ∧
        (n.operands.map fun w => 2 ^ w.index).sum ≤ 2 ^ v.index) ∧ n.results.length ≤ 1 := by
    intro id n hn
    have hid := List.all_eq_true.1 hall id (Module.mem_nodeIds_iff.2 (Module.lt_of_live? hn))
    simpa [hn] using hid
  have hcycles : Module.doubled.NoCycles := Module.noCycles_of_lt fun ⟨_, _, hn, hv, hw⟩ =>
    ((hnode hn).1 _ hv).1 _ hw
  have hsingle : Module.doubled.SingleResults := fun hn _ => (hnode hn).2
  have hlt : ∀ f, Module.doubled.CountsTerms f → ∀ v, Module.doubled.Usable v → f v < limit64 := by
    intro f hf v husable
    have hle : f v ≤ 2 ^ v.index := hf.le_of_bound hv.toWellFormed
      (hcycles.wellFounded hv.toWellFormed) (fun _ => Nat.one_le_two_pow)
      (fun hn hv => ((hnode hn).1 _ hv).2) husable
    have hindex : v.index < 9 := (WellFormed.lt_of_usable husable).trans_eq (by decide +kernel)
    calc f v ≤ 2 ^ v.index := hle
      _ ≤ 2 ^ 9 := Nat.pow_le_pow_right (by decide) hindex.le
      _ < limit64 := by decide
  obtain ⟨m', names', stats, hrun, hp⟩ := exists_run_of_leaves
    (p := fun m' _ => m'.nodes.size == Module.doubled.nodes.size + 7)
    (show leaves .prettify { Options.default with maximumTerms := 3 } .doubled Module.sketchNames _ =
      true by decide +kernel)
  exact ⟨hv, hcycles, hsingle, m', names', stats, hrun, beq_iff_eq.1 hp,
    prettify_twice hm hcycles hsingle hlt hrun le_rfl⟩

end NetPrep
