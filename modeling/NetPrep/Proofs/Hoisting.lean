import Mathlib
import NetPrep.Prepare.Hoist
import NetPrep.Proofs.Inlining
import NetPrep.Proofs.Nesting

/-!
# Out of procedural code

Moving an expression out of a procedural block, and capturing the value of one with side effects, as
edits of a sound module.
-/

namespace NetPrep

open Prepare Prep

namespace Module

variable {m m' : Module} {id : NodeId} {n : Node}

/-- A node has an operand that is defined in its own block. -/
def Bound (m : Module) (n : Node) : Prop :=
  ∃ v ∈ n.operands, ∃ d i nd, m.def? v = some (.result d i) ∧ m.live? d = some nd ∧
    nd.parent = n.parent

/-- The node that defines a value sits in the block. -/
def DefinedIn (m : Module) (block : BlockId) (v : ValueId) : Prop :=
  ∃ d i nd, m.def? v = some (.result d i) ∧ m.live? d = some nd ∧ nd.parent = block

/-- The node that defines a value, if one does, sits in a graph block. -/
def FromGraph (m : Module) (v : ValueId) : Prop :=
  ∀ d i nd, m.def? v = some (.result d i) → m.live? d = some nd →
    m.kind? nd.parent = some .graph

theorem FromGraph.not_definedIn {block : BlockId} {v : ValueId} (h : m.FromGraph v)
    (hk : m.kind? block = some .procedural) : ¬ m.DefinedIn block v := by
  rintro ⟨d, i, nd, hdef, hnd, rfl⟩
  cases hk.symm.trans (h d i nd hdef hnd)

/-- A node is used once, by a blocking assignment to a register or a variable. -/
def IsCaptured (m : Module) (id : NodeId) : Prop :=
  ∃ u na dest d i nd, m.live? u.node = some na ∧ na.op = .blockingAssign ∧
    na.operands[0]? = some dest ∧ m.def? dest = some (.result d i) ∧ m.core d = some nd ∧
    (nd.op = .reg ∨ nd.op = .logic) ∧
    ∀ n, m.live? id = some n → ∀ u', (∃ v ∈ n.results, m.Uses u' v) ↔ u' = u

/-- A node moves before one of the nodes around it: the process, or the node that it sits in. -/
inductive Hoists (id : NodeId) (m m' : Module) : Prop
  | mk {n na : Node} {anchor : NodeId} (hn : m.live? id = some n) (ha : m.live? anchor = some na)
      (hreach : (reachOf m n.parent n.operands = .ok .graph ∧ m.ProcessOf id anchor) ∨
        (reachOf m n.parent n.operands = .ok .oneLevel ∧ m.OwnedBy id anchor))
      (hm : m.Moves m' na.parent (.before anchor) id) (hs : Sound m')

/-- The value of a node is stored before the process around it, and its uses read it there. -/
inductive Captures (id : NodeId) (m m' : Module) : Prop
  | mk {n np : Node} {result value storage : ValueId} {process decl read conn : NodeId}
      {type stype : TypeId} {m₁ m₂ m₃ : Module} (hn : m.live? id = some n)
      (hv : n.results = [result]) (htype : m.type? result = some type)
      (hprocess : m.ProcessOf id process) (hp : m.live? process = some np)
      (hdecl : m.Creates m₁ np.parent (.before process) decl
        (.fresh .reg [] [storage] np.parent n.loc) [stype])
      (hstype : m₁.types.get stype = .ok (.storage type)) (hs₁ : Sound m₁)
      (hread : m₁.Creates m₂ np.parent (.before process) read
        (.fresh .read [storage] [value] np.parent n.loc) [type]) (hs₂ : Sound m₂)
      (hr : m₂.Redirects m₃ (substitute result value)) (hs₃ : Sound m₃)
      (hconn : m₃.Creates m' n.parent (.after id) conn
        (.fresh .blockingAssign [storage, result] [] n.parent n.loc) []) (hs : Sound m')

/-- A declaration moves before the process around it. -/
inductive LeavesProcess (id : NodeId) (m m' : Module) : Prop
  | mk {n np : Node} {process : NodeId} (hn : m.live? id = some n)
      (hprocess : m.ProcessOf id process) (hp : m.live? process = some np)
      (hm : m.Moves m' np.parent (.before process) id) (hs : Sound m')

theorem Hoists.edits (h : m.Hoists id m') (hs : Sound m) (hn : m.live? id = some n)
    (hop : n.op.regionKinds = []) : Edits m m' := by
  obtain ⟨-, -, -, hm, hs'⟩ := h
  exact hm.edits hs hs' hn hop

theorem Captures.edits (h : m.Captures id m') : Edits m m' := by
  obtain ⟨-, -, -, -, -, hdecl, -, hs₁, hread, hs₂, hr, hs₃, hconn, hs'⟩ := h
  exact (((hdecl.edits hs₁).trans (hread.edits hs₂)).trans (hr.edits hs₃)).trans (hconn.edits hs')

theorem LeavesProcess.edits (h : m.LeavesProcess id m') (hs : Sound m) (hn : m.live? id = some n)
    (hop : n.op.regionKinds = []) : Edits m m' := by
  obtain ⟨-, -, -, hm, hs'⟩ := h
  exact hm.edits hs hs' hn hop

theorem ProcessOf.live {p : NodeId} (h : m.ProcessOf id p) : ∃ n, m.live? p = some n := by
  obtain ⟨_, _, h⟩ := h
  exact h.around.live

/-- The process around a node has regions, and so is not the node if that has none. -/
theorem ProcessOf.regions {p : NodeId} (h : m.ProcessOf id p) :
    ∃ n, m.live? p = some n ∧ n.regions ≠ [] := by
  obtain ⟨up, ho, h⟩ := h
  -- A node that is around another one has regions.
  have hown : ∀ {j : NodeId}, m.Around p j → p ≠ j → ∃ k, m.OwnedBy k p := by
    intro j h
    induction h with
    | self => exact fun hne => absurd rfl hne
    | @up j k h' hrest ih =>
      intro _
      by_cases hpk : p = k
      · exact ⟨j, hpk ▸ h'⟩
      · exact ih hpk
  have howner : ∃ k, m.OwnedBy k p := by
    by_cases hup : p = up
    · exact ⟨id, hup ▸ ho⟩
    · exact hown h.around hup
  obtain ⟨k, hk⟩ := howner
  exact hk.regions

end Module

namespace Prep

variable {env : Env} {s s' : State} {id : NodeId} {n : Node} {r : Bool}

/-- One more operand: a node of a graph block makes no difference, one of the block itself holds the
operation back, and any other one lets it move by one level at most. -/
theorem reachOf_cons_eq_ok {m : Module} {block : BlockId} {v : ValueId} {vs : List ValueId}
    {reach : Reach} (husable : m.Usable v) (h : reachOf m block (v :: vs) = .ok reach) :
    (m.FromGraph v ∧ reachOf m block vs = .ok reach) ∨
      (m.DefinedIn block v ∧ reach = .nowhere) ∨
      (¬ m.DefinedIn block v ∧ reach ≠ .graph ∧
        ∃ rest, reachOf m block vs = .ok rest ∧ (reach = .nowhere ↔ rest = .nowhere)) := by
  obtain ⟨d, hd, h⟩ := bind_eq_ok_iff.1 h
  cases d with
  | none =>
    refine Or.inl ⟨fun d i nd hdef => ?_, h⟩
    have := Module.definingNode?_eq_some_iff.2 ⟨i, hdef⟩
    rw [hd] at this
    cases this
  | some d =>
    obtain ⟨i, hdef⟩ := Module.definingNode?_eq_some_iff.1 hd
    obtain ⟨x, hx, hlive⟩ := husable
    rw [hdef] at hx
    cases hx
    obtain ⟨nd, hnd⟩ := hlive rfl
    have hself : ∀ {d' i' nd'}, m.def? v = some (.result d' i') → m.live? d' = some nd' →
        nd' = nd := fun hdef' hnd' => by
      rw [hdef] at hdef'
      cases hdef'
      exact Option.some.inj (hnd'.symm.trans hnd)
    obtain ⟨inside, hinside, h⟩ := bind_eq_ok_iff.1 h
    obtain ⟨k, hkd, hinside⟩ := Sound.inProcedural_eq_ok hnd hinside
    cases inside with
    | false =>
      have hkg : k = .graph := by
        cases k with
        | graph => rfl
        | procedural => cases hinside.2 rfl
      exact Or.inl ⟨fun d' i' nd' hdef' hnd' => by rw [hself hdef' hnd', hkd, hkg], h⟩
    | true =>
      simp only [if_true, bind_eq_ok_iff, Module.node_eq_ok_iff] at h
      obtain ⟨x, hx, h⟩ := h
      have hp : x.parent = nd.parent := by
        obtain ⟨x', hx', -, rfl⟩ := Module.exists_of_live? hnd
        obtain rfl : x = x' := by simpa using hx.symm.trans hx'
        rfl
      split at h
      · next hpb =>
        cases h
        exact Or.inr (Or.inl ⟨⟨d, i, nd, hdef, hnd, hp ▸ hpb⟩, rfl⟩)
      · next hpb =>
        obtain ⟨rest, hrest, h⟩ := bind_eq_ok_iff.1 h
        refine Or.inr (Or.inr ⟨?_, ?_⟩)
        · rintro ⟨d', i', nd', hdef', hnd', hp'⟩
          exact hpb (hp.trans ((hself hdef' hnd') ▸ hp'))
        · cases rest <;> cases h <;> exact ⟨by simp, _, hrest, by simp⟩

/-- How far out the operands of a node let it move. -/
theorem reachOf_eq_ok {m : Module} {block : BlockId} {vs : List ValueId} {reach : Reach}
    (husable : ∀ v ∈ vs, m.Usable v) (hk : m.kind? block = some .procedural)
    (h : reachOf m block vs = .ok reach) :
    (reach = .nowhere ↔ ∃ v ∈ vs, m.DefinedIn block v) ∧
      (reach = .graph → ∀ v ∈ vs, m.FromGraph v) := by
  induction vs generalizing reach with
  | nil =>
    cases h
    simp
  | cons v vs ih =>
    have hrest := fun {r} => @ih r fun w hw => husable w (List.mem_cons_of_mem _ hw)
    simp only [List.mem_cons, exists_eq_or_imp, forall_eq_or_imp]
    rcases reachOf_cons_eq_ok (husable v List.mem_cons_self) h with
      ⟨hgraph, h⟩ | ⟨hin, rfl⟩ | ⟨hout, hne, rest, h, hiff⟩
    · obtain ⟨hnowhere, hall⟩ := hrest h
      exact ⟨hnowhere.trans (or_iff_right (hgraph.not_definedIn hk)).symm,
        fun hr => ⟨hgraph, hall hr⟩⟩
    · exact ⟨iff_of_true rfl (Or.inl hin), by simp⟩
    · exact ⟨(hiff.trans (hrest h).1).trans (or_iff_right hout).symm, fun hr => absurd hr hne⟩

theorem hoist_runs (ho : env.oracle = .systemVerilog) (hs : Sound s.module)
    (hn : s.module.live? id = some n) (hreg : n.regions = [])
    (hk : s.module.kind? n.parent = some .procedural) (h : (hoist id).Runs env s r s') :
    (r = false ∧ s = s' ∧ (n.op.isAlwaysInline = true ∨ s.module.Bound n)) ∨
      (r = true ∧ s.module.Hoists id s'.module) := by
  obtain ⟨nd, hnd, -, rfl⟩ := Module.exists_of_live? hn
  have hmove : ∀ {anchor : NodeId} {t : Unit} {s₁ : State},
      (∃ na, s.module.live? anchor = some na ∧ na.regions ≠ []) →
      ((reachOf s.module nd.parent nd.operands = .ok .graph ∧ s.module.ProcessOf id anchor) ∨
        (reachOf s.module nd.parent nd.operands = .ok .oneLevel ∧ s.module.OwnedBy id anchor)) →
      (edit (·.moveNode id (.before anchor))).Runs env s t s₁ → s.module.Hoists id s₁.module := by
    rintro anchor t s₁ ⟨na, hna, hne⟩ hreach h
    obtain ⟨m', hm', rfl⟩ := runs_edit.1 h
    obtain ⟨hm, hs'⟩ := hs.moveBefore hn hreg hna hne hm'
    exact .mk hn hna hreach hm hs'
  simp only [hoist, runs_bind, runs_node] at h
  obtain ⟨nd', _, ⟨hnd', rfl⟩, inline, s₁, hinline, h⟩ := h
  obtain rfl : nd = nd' := by simpa using hnd.symm.trans hnd'
  rw [runs_isAlwaysInline, ho, Oracle.isAlwaysInline_eq_ok_iff] at hinline
  obtain ⟨⟨nd', hnd', hinline⟩, rfl⟩ := hinline
  obtain rfl : nd = nd' := by simpa using hnd.symm.trans hnd'
  split at h
  case' isTrue hin =>
    obtain ⟨storage, s₂, hstorage, h⟩ := runs_bind.1 h
    obtain rfl := (runs_query.1 hstorage).2
    split at h
    case' isTrue =>
      obtain ⟨rfl, rfl⟩ := runs_pure.1 h
      exact Or.inl ⟨rfl, rfl, Or.inl (hinline.trans hin)⟩
  -- Unless storage is read, the node is taken as far out as its operands allow.
  all_goals
    simp only [runs_bind, runs_query] at h
    obtain ⟨process, s₁, hprocess, reach, _, ⟨hreach, rfl⟩, h⟩ := h
    obtain ⟨rfl, hp⟩ := enclosingProcess_runs hs hn hprocess
    cases reach with
    | nowhere =>
      obtain ⟨rfl, rfl⟩ := runs_pure.1 h
      exact Or.inl ⟨rfl, rfl, Or.inr ((reachOf_eq_ok (fun v hv => by
        obtain ⟨i, hi⟩ := Module.exists_uses_of_mem hn hv
        exact hs.usable hi) hk hreach).1.1 rfl)⟩
    | oneLevel =>
      simp only [runs_bind, runs_query] at h
      obtain ⟨owner, _, ⟨howner, rfl⟩, h⟩ := h
      cases owner with
      | none =>
        obtain ⟨-, hgraph⟩ := hs.graph_of_parentNode?_none hn howner
        rw [hk] at hgraph
        cases hgraph
      | some owner =>
        simp only [runs_bind, runs_count, runs_pure] at h
        obtain ⟨t, s₁, hedit, _, _, rfl, rfl, rfl⟩ := h
        have ho := hs.ownedBy_of_parentNode? hn howner
        obtain ⟨no, hno, hne⟩ := ho.regions
        have hm := hmove ⟨no, hno, hne⟩ (Or.inr ⟨hreach, ho⟩) hedit
        exact Or.inr ⟨rfl, hm⟩
    | graph =>
      simp only [runs_bind, runs_count, runs_pure] at h
      obtain ⟨t, s₁, hedit, _, _, rfl, rfl, rfl⟩ := h
      obtain ⟨np, hnp, hne⟩ := hp.regions
      have hm := hmove ⟨np, hnp, hne⟩ (Or.inl ⟨hreach, hp⟩) hedit
      exact Or.inr ⟨rfl, hm⟩

theorem isCaptured_of_eq_ok {m : Module} (hs : Sound m) (h : isCaptured m id = .ok true) :
    m.IsCaptured id := by
  simp only [isCaptured, Module.singleUser?, bind_eq_ok_iff] at h
  obtain ⟨user, ⟨uses, huses, huser⟩, h⟩ := h
  cases user with
  | none => cases h
  | some user =>
    simp only [bind_eq_ok_iff, Module.node_eq_ok_iff] at h
    obtain ⟨x, hx, h⟩ := h
    obtain ⟨u, rfl, rfl⟩ : ∃ u, uses = [u] ∧ u.node = user := by
      split at huser
      · next u =>
        cases huser
        exact ⟨u, rfl, rfl⟩
      · cases huser
    obtain ⟨nd, hnd⟩ : ∃ nd, m.node? id = some nd := by
      simp only [Module.nodeUses, bind_eq_ok_iff, Module.node_eq_ok_iff] at huses
      exact huses.imp fun _ h => h.1
    have hmem := fun u' => hs.recorded.mem_nodeUses_iff (u := u') hnd huses
    obtain ⟨v, -, na, hna, -⟩ := (hmem u).1 (List.mem_singleton_self u)
    obtain ⟨x', hx', -, rfl⟩ := Module.exists_of_live? hna
    obtain rfl : x = x' := by simpa using hx.symm.trans hx'
    split at h
    · next hop =>
      simp only [bind_eq_ok_iff] at h
      obtain ⟨dest, hdest, dop, hdop, h⟩ := h
      obtain ⟨x', hx', hslot⟩ := operand_eq_ok_iff.1 hdest
      obtain rfl : x = x' := by simpa using hx.symm.trans hx'
      obtain ⟨d, i, x', hdef, hx', hreg⟩ : ∃ d i x', m.def? dest = some (.result d i) ∧
          m.node? d = some x' ∧ (x'.op = .reg ∨ x'.op = .logic) := by
        simp only [Module.definingOp?, bind_eq_ok_iff] at hdop
        obtain ⟨d, hd, hdop⟩ := hdop
        cases d with
        | none =>
          cases hdop
          cases h
        | some d =>
          simp only [bind_eq_ok_iff, Module.node_eq_ok_iff] at hdop
          obtain ⟨x', hx', hdop⟩ := hdop
          obtain ⟨i, hi⟩ := Module.definingNode?_eq_some_iff.1 hd
          refine ⟨d, i, x', hi, hx', ?_⟩
          cases hdop
          cases hop' : x'.op <;> rw [hop'] at h <;> first | exact Or.inl rfl | exact Or.inr rfl | cases h
      refine ⟨u, _, dest, d, i, _, hna, hop, hslot, hdef, Module.core_of_node? hx', hreg,
        fun n hn u' => ?_⟩
      obtain ⟨y, hy, -, rfl⟩ := Module.exists_of_live? hn
      obtain rfl : nd = y := by simpa using hnd.symm.trans hy
      exact (hmem u').symm.trans List.mem_singleton
    · cases h

theorem captureSideEffect_runs (hs : Sound s.module) (hn : s.module.live? id = some n)
    (h : (captureSideEffect id).Runs env s r s') :
    (r = false ∧ s = s' ∧ (s.module.IsCaptured id ∨ ∀ v, n.results ≠ [v])) ∨
      (r = true ∧ s.module.Captures id s'.module) := by
  obtain ⟨nd, hnd, -, rfl⟩ := Module.exists_of_live? hn
  obtain ⟨captured, s₁, hcaptured, h⟩ := runs_bind.1 h
  obtain ⟨hcap, rfl⟩ := runs_query.1 hcaptured
  split at h
  · next hc =>
    obtain ⟨rfl, rfl⟩ := runs_pure.1 h
    exact Or.inl ⟨rfl, rfl, Or.inl (isCaptured_of_eq_ok hs (hc ▸ hcap))⟩
  · simp only [runs_bind, runs_node] at h
    obtain ⟨nd', _, ⟨hnd', rfl⟩, h⟩ := h
    obtain rfl : nd = nd' := by simpa using hnd.symm.trans hnd'
    split at h
    · next result hv =>
      simp only [runs_bind, runs_query, runs_edit, runs_count, runs_pure, valueType_eq_ok_iff] at h
      obtain ⟨type, _, ⟨htype, rfl⟩, process, s₁, hprocess, ⟨decl, storage⟩, s₂, hdecl,
        ⟨read, value⟩, s₃, hread, _, _, ⟨m₄, hm₄, rfl⟩, conn, s₅, hconn, _, _, rfl, rfl, rfl⟩ := h
      obtain ⟨rfl, hp⟩ := enclosingProcess_runs hs hn hprocess
      obtain ⟨np, hnp⟩ := hp.live
      obtain ⟨vtype, stype, hvtype, hstype, hc₁, hs₁⟩ :=
        declareFor_runs hs (hs.in_before hnp) (hs.placed hnp) rfl hdecl
      obtain rfl := Option.some.inj (hvtype.symm.trans htype)
      have hstorage : s₂.module.Usable storage := hc₁.usable_result (i := 0) rfl
      have hnp₁ := hc₁.live hnp
      obtain ⟨hc₂, hs₂⟩ := create_runs hs₁ (hs₁.in_before hnp₁) (hs₁.placed hnp₁) rfl
        (by simpa using hstorage) hread
      obtain ⟨hr, hs₃⟩ := hs₂.replaceUses (hc₂.usable_result (i := 0) rfl) hm₄
      have hn₃ := hr.live (hc₂.live (hc₁.live hn))
      have hresult : m₄.Usable result := by
        have hdef := hs.result (Module.core_of_live? hn) (i := 0) (v := result)
          (by simp [Node.core, hv])
        refine ⟨_, hr.kept.def? (hc₂.kept.def? (hc₁.kept.def? hdef)), fun he => ?_⟩
        cases he
        exact ⟨_, hn₃⟩
      obtain ⟨hc₅, hs₅⟩ := createStatement_runs (s := { s₃ with module := m₄ }) hs₃
        (hs₃.in_after hn₃) (hs₃.placed hn₃) rfl
        (by simpa using ⟨hr.usable (hc₂.usable hstorage), hresult⟩) hconn
      exact Or.inr ⟨rfl, .mk hn hv htype hp hnp hc₁ hstype hs₁ hc₂ hs₂ hr hs₃ hc₅ hs₅⟩
    · next hne =>
      obtain ⟨rfl, rfl⟩ := runs_pure.1 h
      exact Or.inl ⟨rfl, rfl, Or.inr hne⟩

end Prep

end NetPrep
