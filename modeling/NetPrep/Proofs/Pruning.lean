import Mathlib
import NetPrep.Proofs.Breaking
import NetPrep.Proofs.Tidying
import NetPrep.Proofs.Traversal

/-!
# Which logic is removed

Dead logic is the least set of expressions without side effects that are used by dead logic only. The
list of nodes to erase begins with all dead logic that nothing uses, and goes on to hold it: erasing a
node makes new such logic among the definitions of its operands at most. So when the list is empty
there is none left, and then there is no dead logic at all.
-/

namespace NetPrep

open Prepare Prep

/-- An expression that can be evaluated or not without a difference. -/
def Op.isPure (op : Op) : Bool := op.isExpression && !op.hasSideEffects

namespace Module

variable {m m₁ m' : Module} {id j : NodeId} {n : Node} {gone gone' : List NodeId}

/-! ## Dead logic -/

/-- An expression without side effects all of whose uses are by such expressions. -/
inductive Dead (m : Module) : NodeId → Prop
  | intro {id : NodeId} {n : Node} (hn : m.live? id = some n) (hop : n.op.isPure = true)
      (huses : ∀ u, ∀ v ∈ n.results, m.Uses u v → m.Dead u.node) : m.Dead id

/-- Dead logic that nothing uses. -/
def Idle (m : Module) (id : NodeId) : Prop :=
  ∃ n, m.live? id = some n ∧ n.op.isPure = true ∧ ∀ u, ∀ v ∈ n.results, ¬ m.Uses u v

theorem Idle.dead (h : m.Idle id) : m.Dead id := by
  obtain ⟨n, hn, hop, hunused⟩ := h
  exact .intro hn hop fun u v hv hu => absurd hu (hunused u v hv)

theorem Dead.live (h : m.Dead id) : ∃ n, m.live? id = some n := by
  cases h with
  | intro hn _ _ => exact ⟨_, hn⟩

/-- Some dead logic is unused: users that are dead are used by dead logic in their turn, and this ends. -/
theorem Dead.exists_idle (h : m.Dead id) : ∃ j, m.Idle j := by
  induction h with
  | @intro id n hn hop _ ih =>
    by_cases hused : ∃ u, ∃ v ∈ n.results, m.Uses u v
    · obtain ⟨u, v, hv, hu⟩ := hused
      exact ih u v hv hu
    · refine ⟨id, n, hn, hop, fun u v hv hu => hused ⟨u, v, hv, hu⟩⟩

/-- Erasing a node that is dead and unused leaves the other dead logic dead, and makes nothing dead. -/
theorem Erases.dead_iff (h : m.Erases m₁ id) (hid : m.Idle id) : m₁.Dead j ↔ m.Dead j ∧ j ≠ id := by
  constructor
  · intro hj
    induction hj with
    | @intro j n hn hop _ ih =>
      obtain ⟨hne, hn⟩ := h.live_cases hn
      refine ⟨.intro hn hop fun u v hv hu => ?_, hne⟩
      by_cases hself : u.node = id
      · exact hself ▸ hid.dead
      · exact (ih u v hv (h.uses_iff.2 ⟨hu, hself⟩)).1
  · rintro ⟨hj, hne⟩
    induction hj with
    | @intro j n hn hop _ ih =>
      refine .intro (h.live hn hne) hop fun u v hv hu => ?_
      obtain ⟨hu, hself⟩ := h.uses_iff.1 hu
      exact ih u v hv hu hself

/-- Only the definitions of its operands can become unused when a node is erased. -/
theorem Erases.idle_cases (h : m.Erases m₁ id) (hw : WellFormed m) (hid : m.live? id = some n)
    (hj : m₁.Idle j) : m.Idle j ∨ ∃ v ∈ n.operands, ∃ i, m₁.def? v = some (.result j i) := by
  obtain ⟨nj, hnj, hop, hunused⟩ := hj
  obtain ⟨hne, hnj⟩ := h.live_cases hnj
  by_cases hused : ∃ u, ∃ v ∈ nj.results, m.Uses u v
  · obtain ⟨u, v, hv, hu⟩ := hused
    have hself : u.node = id := by
      by_contra hself
      exact hunused u v hv (h.uses_iff.2 ⟨hu, hself⟩)
    obtain ⟨n', hn', ho⟩ := hu
    obtain rfl := Option.some.inj (hid.symm.trans (hself ▸ hn'))
    obtain ⟨i, hdef⟩ := hw.exists_def hnj hv
    exact Or.inr ⟨v, List.mem_of_getElem? ho, i, (h.def? v).trans hdef⟩
  · exact Or.inl ⟨nj, hnj, hop, fun u v hv hu => hused ⟨u, v, hv, hu⟩⟩

/-- How many operands a node has; none if it is erased. -/
def arity (m : Module) (id : NodeId) : Nat := ((m.live? id).map (·.operands.length)).getD 0

/-! ## The list of nodes to erase -/

/-- The nodes to erase next and all that will be erased: the dead logic of the module, as far as it is
unused by now and as a whole. -/
structure Lists (m : Module) (worklist dead : List NodeId) : Prop where
  stored : ∀ id ∈ worklist, id.index < m.nodes.size
  idle : ∀ id, m.Idle id → id ∈ worklist
  nodup : dead.Nodup
  mem_iff : ∀ id, id ∈ dead ↔ m.Dead id

namespace Lists

variable {worklist ids dead : List NodeId}

/-- With nothing on the list there is no dead logic left. -/
theorem eq_nil (h : m.Lists [] dead) : dead = [] := by
  refine List.eq_nil_iff_forall_not_mem.2 fun id hid => ?_
  obtain ⟨j, hj⟩ := ((h.mem_iff id).1 hid).exists_idle
  exact List.not_mem_nil (h.idle j hj)

variable (h : m.Lists (id :: worklist) dead)

include h

/-- A node that is erased by now, or still used, is taken off the list. -/
theorem skip (hid : ¬ m.Idle id) : m.Lists worklist dead where
  stored j hj := h.stored j (List.mem_cons_of_mem _ hj)
  idle j hj := (List.mem_cons.1 (h.idle j hj)).resolve_left fun heq => hid (heq ▸ hj)
  nodup := h.nodup
  mem_iff := h.mem_iff

/-- A node of the list is erased, and those of its operands' definitions that are idle then go onto the
list. -/
theorem erase (he : m.Erases m₁ id) (hw : WellFormed m) (hid : m.Idle id) (hn : m.live? id = some n)
    (hold : ∀ j ∈ worklist, j ∈ ids) (hnew : ∀ j ∈ ids, j ∈ worklist ∨ m₁.Idle j)
    (hops : ∀ v ∈ n.operands, ∀ {j i}, m₁.def? v = some (.result j i) → m₁.Idle j → j ∈ ids) :
    m₁.Lists ids (dead.erase id) where
  stored j hj := by
    obtain hj | ⟨nj, hnj, -⟩ := hnew j hj
    · exact (h.stored j (List.mem_cons_of_mem _ hj)).trans_le he.kept.nodes_size
    · exact lt_of_live? hnj
  idle j hj := by
    obtain hj' | ⟨v, hv, i, hdef⟩ := he.idle_cases hw hn hj
    · obtain rfl | hj' := List.mem_cons.1 (h.idle j hj')
      · obtain ⟨nj, hnj, -⟩ := hj
        exact absurd rfl (he.live_cases hnj).1
      · exact hold j hj'
    · exact hops v hv hdef hj
  nodup := h.nodup.erase id
  mem_iff j := by rw [h.nodup.mem_erase_iff, h.mem_iff, he.dead_iff hid, and_comm]

end Lists

/-! ## Leaving nodes out -/

/-- A module without some of its nodes: all others are as they were, and where they were. -/
structure Omits (m m' : Module) (gone : List NodeId) : Prop where
  sound : Sound m'
  kept : m.Kept m'
  live? : ∀ id, m'.live? id = if id ∈ gone then none else m.live? id
  def? : ∀ v, m'.def? v = m.def? v
  type? : ∀ v, m'.type? v = m.type? v
  nodesOf : ∀ b, m'.nodesOf b = (m.nodesOf b).filter (· ∉ gone)
  types : m'.types = m.types

theorem Omits.refl (hs : Sound m) : m.Omits m [] where
  sound := hs
  kept := .refl m
  live? id := by simp
  def? _ := rfl
  type? _ := rfl
  nodesOf b := by simp
  types := rfl

/-- One node is erased first. -/
theorem Omits.cons (he : m.Erases m₁ id) (hw : WellFormed m) (h : m₁.Omits m' gone')
    (hgone : ∀ j, j ∈ gone ↔ j = id ∨ j ∈ gone') : m.Omits m' gone where
  sound := h.sound
  kept := he.kept.trans h.kept
  live? j := by
    rw [h.live?, he.live?]
    by_cases hid : j = id
    · simp [hgone, hid]
    · simp [hgone, hid]
  def? v := (h.def? v).trans (he.def? v)
  type? v := (h.type? v).trans (he.type? v)
  nodesOf b := by
    rw [h.nodesOf, he.nodesOf, (hw.nodup b).erase_eq_filter, List.filter_filter]
    refine List.filter_congr fun j _ => ?_
    rw [Bool.eq_iff_iff]
    simp [hgone, and_comm]
  types := h.types.trans he.types

/-- A module without its dead logic has no dead logic. -/
theorem Omits.not_dead (h : m.Omits m' gone) (hgone : ∀ id, id ∈ gone ↔ m.Dead id) : ¬ m'.Dead id := by
  have hlive : ∀ {j n}, m'.live? j = some n → j ∉ gone ∧ m.live? j = some n := fun {j n} hj => by
    rw [h.live?] at hj
    split at hj
    · cases hj
    · exact ⟨‹_›, hj⟩
  have hdead : m'.Dead id → m.Dead id := fun hid => by
    induction hid with
    | @intro j n hn hop _ ih =>
      refine .intro (hlive hn).2 hop fun u v hv hu => ?_
      by_cases hself : u.node ∈ gone
      · exact (hgone _).1 hself
      · obtain ⟨nu, hnu, ho⟩ := hu
        exact ih u v hv ⟨nu, by rw [h.live?, if_neg hself, hnu], ho⟩
  intro hid
  obtain ⟨n, hn⟩ := hid.live
  exact (hlive hn).1 ((hgone id).2 (hdead hid))

end Module

namespace Prep

variable {env : Env} {s : State} {id : NodeId} (ho : env.oracle = .systemVerilog)

/-! ## Questions -/

/-- A list is filtered by a test that changes nothing. -/
theorem exists_filterM {f : NodeId → Prep Bool} {p : NodeId → Prop} {ids : List NodeId}
    (hf : ∀ id ∈ ids, ∃ b, (f id).Runs env s b s ∧ (b = true ↔ p id)) :
    ∃ r, (ids.filterM f).Runs env s r s ∧ r.Sublist ids ∧ ∀ id, id ∈ r ↔ id ∈ ids ∧ p id := by
  suffices haux : ∀ acc, ∃ r : List NodeId, (ids.filterAuxM f acc).Runs env s (r.reverse ++ acc) s ∧
      r.Sublist ids ∧ ∀ id, id ∈ r ↔ id ∈ ids ∧ p id by
    obtain ⟨r, hr, hrest⟩ := haux []
    exact ⟨r, runs_bind.2 ⟨_, s, hr, by simp⟩, hrest⟩
  induction ids with
  | nil => exact fun acc => ⟨[], by simp [List.filterAuxM], .slnil, by simp⟩
  | cons id ids ih =>
    intro acc
    obtain ⟨b, hb, hp⟩ := hf id List.mem_cons_self
    obtain ⟨r, hr, hsub, hmem⟩ := ih (fun j hj => hf j (List.mem_cons_of_mem _ hj))
      (bif b then id :: acc else acc)
    cases b with
    | true =>
      refine ⟨id :: r, runs_bind.2 ⟨true, s, hb, by simpa using hr⟩, hsub.cons_cons id, fun j => ?_⟩
      have hid := hp.1 rfl
      simp only [List.mem_cons, hmem]
      constructor
      · rintro (rfl | ⟨hj, hpj⟩)
        · exact ⟨Or.inl rfl, hid⟩
        · exact ⟨Or.inr hj, hpj⟩
      · rintro ⟨rfl | hj, hpj⟩
        · exact Or.inl rfl
        · exact Or.inr ⟨hj, hpj⟩
    | false =>
      refine ⟨r, runs_bind.2 ⟨false, s, hb, hr⟩, hsub.cons id, fun j => ?_⟩
      have hid : ¬ p id := fun h => Bool.false_ne_true (hp.2 h)
      rw [hmem, List.mem_cons]
      refine ⟨fun ⟨hj, hpj⟩ => ⟨Or.inr hj, hpj⟩, ?_⟩
      rintro ⟨rfl | hj, hpj⟩
      · exact absurd hpj hid
      · exact ⟨hj, hpj⟩

include ho

/-- Whether a node that is stored is dead and unused has an answer. -/
theorem exists_isDead (hs : Sound s.module) (hid : id.index < s.module.nodes.size) :
    ∃ dead, (isDead id).Runs env s dead s ∧ (dead = true ↔ s.module.Idle id) := by
  obtain ⟨nd, hnd⟩ := Module.exists_node?_iff.2 hid
  have hnode : (node id).Runs env s nd s := runs_node.2 ⟨hnd, rfl⟩
  -- A node that is erased or does something is not idle.
  have hnot : (nd.erased = true ∨ nd.op.isPure = false) → ¬ s.module.Idle id := by
    rintro h ⟨n, hn, hop, -⟩
    obtain ⟨nd', hnd', he, rfl⟩ := Module.exists_of_live? hn
    obtain rfl := Option.some.inj (hnd.symm.trans hnd')
    obtain h | h := h
    · exact Bool.false_ne_true (he.symm.trans h)
    · exact Bool.false_ne_true (h.symm.trans hop)
  cases he : nd.erased with
  | true =>
    refine ⟨false, runs_bind.2 ⟨nd, s, hnode, ?_⟩, by simpa using hnot (Or.inl he)⟩
    rw [if_pos he]
    exact runs_pure.2 ⟨rfl, rfl⟩
  | false =>
    have hexpr : (isExpression id).Runs env s nd.op.isExpression s := by
      rw [runs_isExpression, ho, Oracle.isExpression_eq_ok_iff]
      exact ⟨⟨nd, hnd, rfl⟩, rfl⟩
    cases hop : nd.op.isExpression with
    | false =>
      refine ⟨false, runs_bind.2 ⟨nd, s, hnode, ?_⟩, by
        simpa using hnot (Or.inr (by simp [Op.isPure, hop]))⟩
      rw [if_neg (by simp [he])]
      exact runs_bind.2 ⟨_, s, hexpr, by simp [hop]⟩
    | true =>
      have hfree : (isMemoryEffectFree id).Runs env s (!nd.op.hasSideEffects) s := by
        rw [runs_isMemoryEffectFree, ho]
        refine ⟨bind_eq_ok_iff.2 ⟨nd, Module.node_eq_ok_iff.2 hnd, ?_⟩, rfl⟩
        have hcat : (nd.op.category == .expression || nd.op.category == .read) = true := hop
        simp [hcat, pure, Except.pure]
      cases heff : nd.op.hasSideEffects with
      | true =>
        refine ⟨false, runs_bind.2 ⟨nd, s, hnode, ?_⟩, by
          simpa using hnot (Or.inr (by simp [Op.isPure, heff]))⟩
        rw [if_neg (by simp [he])]
        refine runs_bind.2 ⟨_, s, hexpr, ?_⟩
        rw [hop]
        exact runs_bind.2 ⟨_, s, hfree, by simp [heff]⟩
      | false =>
        have hn := Module.live?_of_node? hnd he
        obtain ⟨unused, hunused, hiff⟩ := hs.exists_isUnused hn
        refine ⟨unused, runs_bind.2 ⟨nd, s, hnode, ?_⟩, ?_⟩
        · rw [if_neg (by simp [he])]
          refine runs_bind.2 ⟨_, s, hexpr, ?_⟩
          rw [hop]
          refine runs_bind.2 ⟨_, s, hfree, ?_⟩
          rw [heff]
          show (query (·.isUnused id)).Runs env s unused s
          exact runs_query.2 ⟨hunused, rfl⟩
        · rw [hiff]
          constructor
          · exact fun h => ⟨_, hn, by simp [Op.isPure, Node.core, hop, heff], h⟩
          · rintro ⟨n, hn', -, h⟩
            obtain rfl := Option.some.inj (hn.symm.trans hn')
            exact h

/-! ## The loop -/

/-- The idle ones among the nodes that define operands go onto the list, one for each operand at most. -/
theorem exists_pushDeadOperands (hs : Sound s.module) {vs : List ValueId}
    (hvs : ∀ v ∈ vs, ∃ d, s.module.def? v = some d) (worklist : List NodeId) :
    ∃ ids, (pushDeadOperands vs worklist).Runs env s ids s ∧
      ids.length ≤ worklist.length + vs.length ∧ (∀ id ∈ worklist, id ∈ ids) ∧
      (∀ id ∈ ids, id ∈ worklist ∨ s.module.Idle id) ∧
      ∀ v ∈ vs, ∀ {id i}, s.module.def? v = some (.result id i) → s.module.Idle id → id ∈ ids := by
  induction vs generalizing worklist with
  | nil => exact ⟨worklist, runs_pure.2 ⟨rfl, rfl⟩, le_rfl, fun _ h => h, fun _ h => Or.inl h, by simp⟩
  | cons v vs ih =>
    replace ih := ih fun w hw => hvs w (List.mem_cons_of_mem _ hw)
    obtain ⟨d, hd⟩ := hvs v List.mem_cons_self
    cases d with
    | port i =>
      obtain ⟨ids, hrun, hlen, hold, hnew, hpushed⟩ := ih worklist
      refine ⟨ids, runs_bind.2 ⟨none, s, ?_, hrun⟩, ?_, hold, hnew, ?_⟩
      · exact runs_query.2 ⟨Module.definingNode?_eq_none_iff.2 ⟨i, hd⟩, rfl⟩
      · rw [List.length_cons]
        omega
      · rintro w hw id k hdef hid
        obtain rfl | hw := List.mem_cons.1 hw
        · cases hd.symm.trans hdef
        · exact hpushed w hw hdef hid
    | result j i =>
      have hj : j.index < s.module.nodes.size := by
        obtain ⟨n, hn, -⟩ := hs.definition hd
        obtain ⟨nd, hnd, -⟩ := Option.map_eq_some_iff.1 hn
        exact Module.lt_of_node? hnd
      obtain ⟨dead, hdead, hiff⟩ := exists_isDead ho hs hj
      obtain ⟨ids, hrun, hlen, hold, hnew, hpushed⟩ := ih (if dead then j :: worklist else worklist)
      refine ⟨ids, runs_bind.2 ⟨some j, s, ?_, runs_bind.2 ⟨dead, s, hdead, hrun⟩⟩, ?_, ?_, ?_, ?_⟩
      · exact runs_query.2 ⟨Module.definingNode?_eq_some_iff.2 ⟨i, hd⟩, rfl⟩
      · refine hlen.trans ?_
        split <;> simp only [List.length_cons] <;> omega
      · exact fun id hid => hold id (by split <;> simp [hid])
      · intro id hid
        obtain hid | hid := hnew id hid
        · split at hid
          · next htrue =>
            obtain rfl | hid := List.mem_cons.1 hid
            · exact Or.inr (hiff.1 htrue)
            · exact Or.inl hid
          · exact Or.inl hid
        · exact Or.inr hid
      · rintro w hw id k hdef hid
        obtain rfl | hw := List.mem_cons.1 hw
        · obtain ⟨rfl, -⟩ : j = id ∧ i = k := by simpa using hd.symm.trans hdef
          exact hold j (by rw [if_pos (hiff.2 hid)]; exact List.mem_cons_self)
        · exact hpushed w hw hdef hid

/-- All dead logic is erased, and nothing else. The measure counts what is on the list, and for each
node that is still to be erased the operands whose definitions may be put onto it. -/
theorem exists_eraseDead (fuel erased : Nat) {worklist dead : List NodeId} {arity : NodeId → Nat}
    (hs : Sound s.module) (hl : s.module.Lists worklist dead)
    (harity : ∀ id n, s.module.live? id = some n → n.operands.length ≤ arity id)
    (hfuel : worklist.length + (dead.map arity).sum ≤ fuel) :
    ∃ m', (eraseDead fuel erased worklist).Runs env s (erased + dead.length)
        { s with module := m' } ∧ s.module.Omits m' dead := by
  induction fuel generalizing s erased worklist dead with
  | zero =>
    obtain rfl : worklist = [] := List.length_eq_zero_iff.1 (by omega)
    obtain rfl := hl.eq_nil
    exact ⟨s.module, runs_pure.2 ⟨rfl, rfl⟩, .refl hs⟩
  | succ fuel ih =>
    cases worklist with
    | nil =>
      obtain rfl := hl.eq_nil
      exact ⟨s.module, runs_pure.2 ⟨rfl, rfl⟩, .refl hs⟩
    | cons id worklist =>
      rw [List.length_cons] at hfuel
      obtain ⟨found, hfound, hiff⟩ := exists_isDead ho hs (hl.stored id List.mem_cons_self)
      cases found with
      | false =>
        obtain ⟨m', hrun, hrest⟩ :=
          ih erased hs (hl.skip fun hid => Bool.false_ne_true (hiff.2 hid)) harity (by omega)
        exact ⟨m', runs_bind.2 ⟨false, s, hfound, hrun⟩, hrest⟩
      | true =>
        have hid := hiff.1 rfl
        obtain ⟨n, hn, hop, hunused⟩ := hiff.1 rfl
        obtain ⟨nd, hnd, -, rfl⟩ := Module.exists_of_live? hn
        have hr := hs.toNested.regions_eq_nil hn
          (Op.regionKinds_of_isExpression (Bool.and_eq_true_iff.1 hop).1)
        obtain ⟨m₁, hm₁⟩ := hs.toWellFormed.exists_eraseNode hn hr fun v hv u => hunused u v hv
        obtain ⟨-, he, hs₁⟩ := hs.eraseNode hn hr hm₁
        have hdefined : ∀ v ∈ nd.operands, ∃ d, m₁.def? v = some d := fun v hv => by
          obtain ⟨d, hd, -⟩ := hs.toWellFormed.usable_operand hn hv
          exact ⟨d, (he.def? v).trans hd⟩
        obtain ⟨ids, hpush, hlen, hold, hnew, hops⟩ :=
          exists_pushDeadOperands (s := { s with module := m₁ }) ho hs₁ hdefined worklist
        have hl₁ : m₁.Lists ids (dead.erase id) :=
          hl.erase he hs.toWellFormed hid hn hold hnew hops
        -- The node gives back as many steps as it has operands.
        have hmem := (hl.mem_iff id).2 hid.dead
        have hsum := List.sum_map_erase arity hmem
        have hle : nd.core.operands.length ≤ arity id := harity id _ hn
        change nd.operands.length ≤ arity id at hle
        obtain ⟨m', hrun, hrest⟩ := ih (s := { s with module := m₁ }) (erased + 1) hs₁ hl₁
          (fun j nj hj => harity j nj (he.live_cases hj).2) (by omega)
        refine ⟨m', ?_, .cons he hs.toWellFormed hrest fun j => ?_⟩
        · have hcount : erased + dead.length = (erased + 1) + (dead.erase id).length := by
            have hlength := List.length_erase_of_mem hmem
            have hpos := List.length_pos_of_mem hmem
            omega
          rw [hcount]
          refine runs_bind.2 ⟨true, s, hfound, runs_bind.2 ⟨nd, s, runs_node.2 ⟨hnd, rfl⟩, ?_⟩⟩
          exact runs_bind.2 ⟨(), _, runs_edit.2 ⟨m₁, hm₁, rfl⟩, runs_bind.2 ⟨ids, _, hpush, hrun⟩⟩
        · by_cases hj : j = id
          · simp [hj, hmem]
          · simp [hj, List.mem_erase_of_ne hj]

/-- A module without dead logic is left as it is. -/
theorem pruneDeadLogic_of_not_dead (hs : Sound s.module) (hdead : ∀ id, ¬ s.module.Dead id) :
    pruneDeadLogic.Runs env s 0 s := by
  obtain ⟨ids, hids, -, hlive⟩ := Module.exists_liveNodes hs
  obtain ⟨r, hr, -, hmem⟩ := exists_filterM fun id hid => by
    obtain ⟨n, hn⟩ := (hlive id).1 hid
    exact exists_isDead ho hs (Module.lt_of_live? hn)
  obtain rfl : r = [] :=
    List.eq_nil_iff_forall_not_mem.2 fun id hid => hdead id ((hmem id).1 hid).2.dead
  refine runs_bind.2 ⟨ids, s, runs_query.2 ⟨hids, rfl⟩, runs_bind.2 ⟨[], s, hr, ?_⟩⟩
  refine runs_bind.2 ⟨env.fuel, s, runs_fuel.2 ⟨rfl, rfl⟩, runs_bind.2 ⟨0, s, ?_, ?_⟩⟩
  · cases env.fuel <;> exact runs_pure.2 ⟨rfl, rfl⟩
  · exact runs_bind.2 ⟨(), s, runs_count.2 rfl, runs_pure.2 ⟨rfl, rfl⟩⟩

end Prep

/-- Exactly the dead logic of a module is removed and counted, and doing so again removes nothing. The
list of nodes to erase takes no more steps than there are dead nodes and operands of such. -/
theorem pruneDeadLogic_exact {env : Env} {s : State} (ho : env.oracle = .systemVerilog)
    (hs : Sound s.module) :
    ∃ dead : List NodeId, dead.Nodup ∧ (∀ id, id ∈ dead ↔ s.module.Dead id) ∧
      (dead.length + (dead.map s.module.arity).sum ≤ env.fuel →
        ∃ m', s.module.Omits m' dead ∧
          let s' : State := { s with
            module := m', stats := { s.stats with pruned := s.stats.pruned + dead.length } }
          pruneDeadLogic.Runs env s dead.length s' ∧ pruneDeadLogic.Runs env s' 0 s') := by
  classical
  obtain ⟨ids, hids, hnodup, hlive⟩ := Module.exists_liveNodes hs
  have hdead : ∀ id, id ∈ ids.filter (s.module.Dead ·) ↔ s.module.Dead id := fun id => by
    rw [List.mem_filter, decide_eq_true_iff, hlive]
    exact ⟨And.right, fun h => ⟨h.live, h⟩⟩
  refine ⟨_, hnodup.filter _, hdead, fun hfuel => ?_⟩
  obtain ⟨r, hr, hsub, hmem⟩ := exists_filterM fun id hid => by
    obtain ⟨n, hn⟩ := (hlive id).1 hid
    exact exists_isDead ho hs (Module.lt_of_live? hn)
  have hl : s.module.Lists r.reverse (ids.filter (s.module.Dead ·)) := by
    refine ⟨fun id hid => ?_, fun id hid => ?_, hnodup.filter _, hdead⟩
    · obtain ⟨n, hn⟩ := (hlive id).1 ((hmem id).1 (List.mem_reverse.1 hid)).1
      exact Module.lt_of_live? hn
    · exact List.mem_reverse.2 ((hmem id).2 ⟨(hlive id).2 hid.dead.live, hid⟩)
  -- What is on the list at first is idle, so there is no more of it than dead logic.
  have hlen : r.reverse.length ≤ (ids.filter (s.module.Dead ·)).length := by
    rw [List.length_reverse]
    refine ((hnodup.sublist hsub).subperm fun id hid => ?_).length_le
    exact (hdead id).2 ((hmem id).1 hid).2.dead
  obtain ⟨m', hrun, hm'⟩ := exists_eraseDead ho env.fuel 0 hs hl
    (fun id n hn => (by rw [Module.arity, hn]; rfl : n.operands.length = s.module.arity id).le)
    (by omega)
  rw [Nat.zero_add] at hrun
  refine ⟨m', hm', ?_, ?_⟩
  · refine runs_bind.2 ⟨ids, s, runs_query.2 ⟨hids, rfl⟩, runs_bind.2 ⟨r, s, hr, ?_⟩⟩
    refine runs_bind.2 ⟨env.fuel, s, runs_fuel.2 ⟨rfl, rfl⟩, runs_bind.2 ⟨_, _, hrun, ?_⟩⟩
    exact runs_bind.2 ⟨(), _, runs_count.2 rfl, runs_pure.2 ⟨rfl, rfl⟩⟩
  · exact pruneDeadLogic_of_not_dead ho hm'.sound fun id => hm'.not_dead hdead

/-- Dead logic of two blocks that shares operands, beside logic that is used. -/
def Module.layered : Module :=
  .sketch [.int 8] [(.input, 0), (.output, 0)]
    [(.back ⟨0⟩, .xor, [0, 0], [0]), (.back ⟨0⟩, .add, [1, 0], [0]), (.back ⟨0⟩, .mul, [1, 2], [0]),
      (.back ⟨0⟩, .ifdef ⟨3⟩, [], []), (.back ⟨1⟩, .and, [1, 2], [0]), (.back ⟨0⟩, .or, [0, 0], [0]),
      (.back ⟨0⟩, .output, [5], [])]

def Module.layeredState : State := ⟨.layered, Module.sketchNames, .zero⟩

/-- Four nodes are dead: two that nothing uses, and two that are used by these only. -/
theorem pruneDeadLogic_layered : Sound Module.layered ∧ ∃ s',
    pruneDeadLogic.Runs sketchEnv Module.layeredState 4 s' ∧ pruneDeadLogic.Runs sketchEnv s' 0 s' ∧
      s'.module.nodesOf ⟨0⟩ = [⟨3⟩, ⟨5⟩, ⟨6⟩] ∧ s'.module.nodesOf ⟨1⟩ = [] := by
  have hs : Sound Module.layered := sound_of_isSound (by decide +kernel)
  obtain ⟨dead, hnodup, hdead, hall⟩ :=
    pruneDeadLogic_exact (s := Module.layeredState)
      (show sketchEnv.oracle = .systemVerilog from rfl) hs
  -- All nodes together, dead or not, have few enough operands.
  have htotal : Module.layered.nodeIds.length +
      (Module.layered.nodeIds.map Module.layered.arity).sum ≤ sketchEnv.fuel := by decide +kernel
  have hfuel : dead.length + (dead.map Module.layered.arity).sum ≤ sketchEnv.fuel := by
    have hnodes : dead ⊆ Module.layered.nodeIds := fun id hid => by
      obtain ⟨n, hn⟩ := ((hdead id).1 hid).live
      exact Module.mem_nodeIds_iff.2 (Module.lt_of_live? hn)
    obtain ⟨l, hl, hsub⟩ := hnodup.subperm hnodes
    have hsum := (hsub.map Module.layered.arity).sum_le_sum (by simp)
    rw [← hl.length_eq, ← (hl.map _).sum_eq]
    exact (Nat.add_le_add hsub.length_le hsum).trans htotal
  obtain ⟨m', -, hrun, hagain⟩ := hall hfuel
  obtain ⟨k, s', hs', hp⟩ := Prep.exists_runs_of_answers (p := fun k m' => decide
      (k = 4 ∧ m'.nodesOf ⟨0⟩ = [⟨3⟩, ⟨5⟩, ⟨6⟩] ∧ m'.nodesOf ⟨1⟩ = []))
    (show Prep.answers pruneDeadLogic sketchEnv Module.layeredState _ = true by decide +kernel)
  obtain ⟨rfl, hbody, hinner⟩ := of_decide_eq_true hp
  -- A run has one outcome only.
  have hsame := hrun.symm.trans hs'
  simp only [Except.ok.injEq, Prod.mk.injEq] at hsame
  obtain ⟨hfour, rfl⟩ := hsame
  rw [hfour] at hrun hagain
  exact ⟨hs, _, hrun, hagain, hbody, hinner⟩

end NetPrep
