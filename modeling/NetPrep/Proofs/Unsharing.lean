import Mathlib
import NetPrep.Proofs.Checking
import NetPrep.Proofs.Inlining
import NetPrep.Proofs.Multiplying

/-!
# One use for each node that is printed where it is used

Settling a node works through a list. What is to be shown at the end holds at each moment for the nodes
that neither are on the list nor are printed inside one that is. A step puts a node before one of its
users and lists what is printed inside it, which is less deep: so the list comes to an end.
-/

namespace NetPrep

open Prepare

namespace Module

variable {p : Label → Bool} {m₀ m m' m'' : Module} {id x j k root : NodeId} {n nj n' : Node}
  {v w : ValueId} {u q : Use} {b c : BlockId} {r : Nat} {T : NodeId → Prop} {W W' : List NodeId}

/-! ## The list -/

/-- A node that must be printed at each of its uses has a result that is used. -/
def Held (p : Label → Bool) (m : Module) (j : NodeId) : Prop :=
  ∃ n v u, m.live? j = some n ∧ p (m.label n) = true ∧ n.results = [v] ∧ m.Uses u v

/-- A node is on the list or printed inside one that is. -/
def Awaiting (p : Label → Bool) (m : Module) (W : List NodeId) (j : NodeId) : Prop :=
  ∃ k ∈ W, Relation.ReflTransGen (m.PastedIn p) j k

/-- How things stand with a list: the nodes that must come to stand beside their users either do or are
still to come. There are more and more of these nodes. -/
structure Stage (p : Label → Bool) (m₀ m : Module) (root : NodeId) (T : NodeId → Prop)
    (W : List NodeId) : Prop where
  unshares : Unshares p m₀ m
  sound : Sound m
  root : T root
  new : ∀ {j n}, m.live? j = some n → (∃ n₀, m₀.live? j = some n₀) ∨ T j
  closed : ∀ {j k}, T j → m.PastedIn p k j → T k
  held : ∀ {j}, T j → m.Held p j
  listed : ∀ j ∈ W, T j
  settled : ∀ {j}, T j → m.BesideUser p j ∨ m.Awaiting p W j

theorem Awaiting.mono (h : m.Awaiting p W j) (hW : ∀ k ∈ W, k ∈ W') : m.Awaiting p W' j := by
  obtain ⟨k, hk, hjk⟩ := h
  exact ⟨k, hW k hk, hjk⟩

namespace Puts

variable (h : m.Puts m' id n v u b x w)

include h

theorem held (hw : WellFormed m) (hj : m.Held p j) : m'.Held p j := by
  obtain ⟨nj, y, q, hnj, hp, hres, hq⟩ := hj
  obtain ⟨n', hn', hres', hlabel, -⟩ := h.exists_live hw hnj
  by_cases hu : q = u
  · -- The use now refers to the copy, but there is another one.
    subst hu
    obtain rfl := hq.unique h.slot
    obtain ⟨rfl, rfl, -⟩ | ⟨-, -, q', hne, hq'⟩ := h.node
    · exact ⟨n', w, q, hn', hlabel ▸ hp, hres'.trans hres, (h.onlyUse hw q).2 rfl⟩
    · exact ⟨n', y, q', hn', hlabel ▸ hp, hres'.trans hres, h.uses_of_ne hne hq'⟩
  · exact ⟨n', y, q, hn', hlabel ▸ hp, hres'.trans hres, h.uses_of_ne hu hq⟩

theorem held_self (hw : WellFormed m) (hp : p (m.label n) = true) : m'.Held p x :=
  ⟨_, w, u, h.live?_self, h.label_self ▸ hp, rfl, (h.onlyUse hw u).2 rfl⟩

/-- What is still to come with the source on the list is so afterwards. -/
theorem pending (hw : WellFormed m) (hid : id ∈ W) (hj : m.Awaiting p W j) : m'.Awaiting p W j := by
  obtain ⟨k, hk, hjk⟩ := hj
  induction hjk using Relation.ReflTransGen.head_induction_on with
  | refl => exact ⟨k, hk, .refl⟩
  | @head a c hac _ ih =>
    by_cases ha : a = id
    · exact ⟨id, hid, ha ▸ .refl⟩
    · obtain ⟨k', hk', hck⟩ := ih
      exact ⟨k', hk', .head (h.pastedIn hw hac ha) hck⟩

end Puts

namespace Stage

variable (h : Stage p m₀ m root T W)

include h

/-- A node of the list is put before a user, or a copy of it, and what is printed inside it is listed. -/
theorem put (hput : m.Puts m' id n v u b x w) (hid : id ∈ W') (hW : ∀ k ∈ W, k ∈ W')
    (hin : ∀ k, m.PastedIn p k id → k ∈ W') (hW' : ∀ k ∈ W', k ∈ W ∨ m'.PastedIn p k x) (hT : T id) :
    Stage p m₀ m' root (fun j => T j ∨ j = x) W' := by
  have hw := h.sound.toWellFormed
  have hp : p (m.label n) = true := by
    obtain ⟨n', -, -, hn', hp, -⟩ := h.held hT
    rwa [Option.some.inj (hput.source.symm.trans hn')]
  have hclosed : ∀ {j k}, T j ∨ j = x → m'.PastedIn p k j → T k ∨ k = x := fun {j k} hj hk => by
    obtain rfl | ⟨-, hin⟩ | hin := hput.pastedIn_cases hw hk
    · exact Or.inr rfl
    · exact Or.inl (h.closed hT hin)
    · refine Or.inl (h.closed (hj.elim (fun hj => hj) ?_) hin)
      rintro rfl
      obtain ⟨-, nj, -, -, ⟨hnj, -⟩, -⟩ := hin
      exact (hput.eq_of_live hnj).1 ▸ hT
  refine ⟨h.unshares.trans (.step hput hp (.refl _)), hput.sound, Or.inl h.root, fun {j n'} hj => ?_,
    hclosed, ?_, fun k hk => ?_, ?_⟩
  · obtain ⟨rfl, -⟩ | ⟨-, nj, hnj, -⟩ := hput.live_cases hj
    · exact Or.inr (Or.inr rfl)
    · exact (h.new hnj).imp_right Or.inl
  · rintro j (hj | rfl)
    · exact hput.held hw (h.held hj)
    · exact hput.held_self hw hp
  · exact (hW' k hk).elim (fun hk => Or.inl (h.listed k hk)) (hclosed (Or.inr rfl))
  · rintro j (hj | rfl)
    · obtain hbeside | hpending := h.settled hj
      · by_cases hself : j = id
        · exact Or.inr ⟨id, hid, hself ▸ .refl⟩
        by_cases hj : m.PastedIn p j id
        · exact Or.inr ⟨j, hin j hj, .refl⟩
        · exact Or.inl (hput.beside hw hp hbeside hself hj)
      · exact Or.inr (hput.pending hw hid (hpending.mono hW))
    · exact Or.inl (hput.beside_self hw hp)

end Stage

theorem Stage.exists_live (h : Stage p m₀ m root T W) (hj : j ∈ W) : ∃ n, m.live? j = some n := by
  obtain ⟨n, -, -, hn, -⟩ := h.held (h.listed j hj)
  exact ⟨n, hn⟩

/-- A node that stands beside its user leaves the list, once what is printed inside it is listed. -/
theorem Stage.pop (h : Stage p m₀ m root T (id :: W)) (hid : m.BesideUser p id)
    (hin : ∀ k, m.PastedIn p k id → k ∈ W) : Stage p m₀ m root T W where
  unshares := h.unshares
  sound := h.sound
  root := h.root
  new := h.new
  closed := h.closed
  held := h.held
  listed k hk := h.listed k (List.mem_cons_of_mem _ hk)
  settled {j} hj := by
    refine (h.settled hj).elim Or.inl fun ⟨k, hk, hjk⟩ => ?_
    obtain rfl | hk := List.mem_cons.1 hk
    · obtain rfl | ⟨i, hji, hik⟩ := hjk.cases_tail
      · exact Or.inl hid
      · exact Or.inr ⟨i, hin i hik, hji⟩
    · exact Or.inr ⟨k, hk, hjk⟩

end Module

namespace Prep

variable {p : Label → Bool} {m₀ : Module} {s s' s'' : State} {id root : NodeId} {n : Node} {v : ValueId}
  {T : NodeId → Prop} {W W' W'' : List NodeId} {r : Nat}

/-! ## The steps -/

/-- The nodes among the definitions of operands that must be printed where they are used are found, whatever
the setting. -/
theorem exists_alwaysInlineAmong {vs : List ValueId} (hvs : ∀ v ∈ vs, s.module.Usable v) :
    ∃ ids, (∀ k, k ∈ ids ↔
      s.module.Pasted p k ∧ ∃ v ∈ vs, ∃ i, s.module.def? v = some (.result k i)) ∧
    ∀ env : Env, env.oracle.Classifies p → (alwaysInlineAmong vs).Runs env s ids s := by
  induction vs with
  | nil => exact ⟨[], by simp, fun env _ => runs_pure.2 ⟨rfl, rfl⟩⟩
  | cons v vs ih =>
    obtain ⟨rest, hrest, hruns⟩ := ih fun w hw => hvs w (List.mem_cons_of_mem _ hw)
    obtain ⟨d, hd, hlive⟩ := hvs v List.mem_cons_self
    cases d with
    | port i =>
      refine ⟨rest, fun k => by simp [hrest, hd], fun env hp => ?_⟩
      simp only [alwaysInlineAmong, runs_bind]
      exact ⟨rest, s, hruns env hp, none, s,
        runs_query.2 ⟨Module.definingNode?_eq_none_iff.2 ⟨i, hd⟩, rfl⟩, runs_pure.2 ⟨rfl, rfl⟩⟩
    | result j i =>
      obtain ⟨nj, hnj⟩ := hlive rfl
      obtain ⟨nd, hnd, -, hcore⟩ := Module.exists_of_live? hnj
      have hdef : s.module.definingNode? v = .ok (some j) := Module.definingNode?_eq_some_iff.2 ⟨i, hd⟩
      have hpasted : s.module.Pasted p j ↔ p (s.module.label nd) = true := by
        subst hcore
        constructor
        · rintro ⟨n, hn, hp⟩
          rwa [← Option.some.inj (hnj.symm.trans hn)] at hp
        · exact fun hp => ⟨_, hnj, hp⟩
      refine ⟨if p (s.module.label nd) then j :: rest else rest, fun k => ?_, fun env hp => ?_⟩
      · have hk : (∃ i, s.module.def? v = some (.result k i)) ↔ k = j := by simp [hd, eq_comm]
        rw [List.exists_mem_cons_iff, hk]
        split
        · next hpj =>
          rw [List.mem_cons, hrest]
          constructor
          · rintro (rfl | ⟨hp, hmem⟩)
            · exact ⟨hpasted.2 hpj, Or.inl rfl⟩
            · exact ⟨hp, Or.inr hmem⟩
          · rintro ⟨hp, hmem⟩
            exact hmem.imp_right fun hmem => ⟨hp, hmem⟩
        · next hpj =>
          rw [hrest]
          refine and_congr_right fun hp => (or_iff_right ?_).symm
          rintro rfl
          exact hpj (hpasted.1 hp)
      · simp only [alwaysInlineAmong, runs_bind]
        refine ⟨rest, s, hruns env hp, some j, s, runs_query.2 ⟨hdef, rfl⟩, ?_⟩
        simp only [runs_bind]
        refine ⟨p (s.module.label nd), s, runs_isAlwaysInline.2 ⟨hp hnd, rfl⟩, ?_⟩
        split
        · exact runs_pure.2 ⟨rfl, rfl⟩
        · exact runs_pure.2 ⟨rfl, rfl⟩

/-- The nodes printed inside a node are found, whatever the setting. -/
theorem exists_alwaysInlineOperands (hw : WellFormed s.module) (hn : s.module.live? id = some n)
    (hp : p (s.module.label n) = true) : ∃ ids, (∀ k, k ∈ ids ↔ s.module.PastedIn p k id) ∧
      ∀ env : Env, env.oracle.Classifies p → (alwaysInlineOperands id).Runs env s ids s := by
  obtain ⟨ids, hids, hruns⟩ := exists_alwaysInlineAmong (p := p) fun v hv => hw.usable_operand hn hv
  refine ⟨ids, fun k => (hids k).trans ⟨?_, ?_⟩, fun env hc => ?_⟩
  · rintro ⟨⟨nk, hnk, hpk⟩, v, hv, i, hd⟩
    obtain ⟨n', hn', hi⟩ := hw.definition hd
    obtain rfl := Option.some.inj (hn'.symm.trans (Module.core_of_live? hnk))
    exact ⟨_, n, v, ⟨hnk, hpk⟩, ⟨hn, hp⟩, List.mem_of_getElem? hi, hv⟩
  · rintro ⟨nk, n', v, ⟨hnk, hpk⟩, ⟨hn', -⟩, hres, hop⟩
    obtain rfl := Option.some.inj (hn.symm.trans hn')
    obtain ⟨i, hdef⟩ := hw.exists_def hnk hres
    exact ⟨⟨nk, hnk, hpk⟩, v, hop, i, hdef⟩
  · obtain ⟨nd, hnd, -, rfl⟩ := Module.exists_of_live? hn
    simp only [alwaysInlineOperands, runs_bind]
    exact ⟨nd, s, runs_node.2 ⟨hnd, rfl⟩, hruns env hc⟩

/-- Nothing changes but the module, and the nodes that are made are counted. -/
def Duplicates (s s' : State) : Prop :=
  ∃ k, s'.module.nodes.size = s.module.nodes.size + k ∧ s' = { s with
    module := s'.module, stats := { s.stats with duplicated := s.stats.duplicated + k } }

theorem Duplicates.refl (s : State) : Duplicates s s := ⟨0, rfl, rfl⟩

theorem Duplicates.trans (h : Duplicates s s') (h' : Duplicates s' s'') : Duplicates s s'' := by
  obtain ⟨k, hsize, hs⟩ := h
  obtain ⟨k', hsize', hs'⟩ := h'
  refine ⟨k + k', by omega, ?_⟩
  rw [hs', hs]
  simp only [Nat.add_assoc]

/-- There is no room for the copies of the nodes that are printed where they are used. -/
def Crowds (p : Label → Bool) (m : Module) : Prop := ∃ m', m.Unshares p m' ∧ ¬ m'.Fits 1

/-- What becomes of a list: nodes of little depth are put in front of it. -/
structure Progress (p : Label → Bool) (r : Nat) (s : State) (W : List NodeId) (s' : State)
    (W' : List NodeId) : Prop where
  unshares : Module.Unshares p s.module s'.module
  duplicates : Duplicates s s'
  listed : ∃ more, W' = more ++ W ∧ ∀ k ∈ more, s'.module.Below p r k

namespace Progress

theorem refl (s : State) (W : List NodeId) : Progress p r s W s W :=
  ⟨.refl _, .refl s, [], rfl, by simp⟩

theorem trans (h : Progress p r s W s' W') (h' : Progress p r s' W' s'' W'') (hs : Sound s'.module)
    (hlive : ∀ k ∈ W', ∃ nk, s'.module.live? k = some nk) : Progress p r s W s'' W'' := by
  obtain ⟨more, rfl, hmore⟩ := h.listed
  obtain ⟨more', rfl, hmore'⟩ := h'.listed
  refine ⟨h.unshares.trans h'.unshares, h.duplicates.trans h'.duplicates, more' ++ more, by simp,
    fun k hk => ?_⟩
  obtain hk | hk := List.mem_append.1 hk
  · exact hmore' k hk
  · obtain ⟨nk, hnk⟩ := hlive k (List.mem_append_left _ hk)
    exact h'.unshares.keeps_below hs hnk (hmore k hk)

end Progress

/-- After a node is put before a user, what is printed inside it is found and listed. -/
theorem exists_progress_of_puts {x : NodeId} {w : ValueId} {u : Use} {b : BlockId}
    (h : Module.Stage p m₀ s.module root T (id :: W))
    (hput : s.module.Puts s'.module id n v u b x w) (hp : p (s.module.label n) = true)
    (hr : s.module.Below p (r + 1) id) (hdup : Duplicates s s') :
    ∃ ids, Module.Stage p m₀ s'.module root (fun j => T j ∨ j = x) (id :: (ids ++ W)) ∧
      Progress p r s W s' (ids ++ W) ∧ (∀ k, k ∈ ids ↔ s'.module.PastedIn p k x) ∧
      ∀ env : Env, env.oracle.Classifies p → (alwaysInlineOperands x).Runs env s' ids s' := by
  have hw := h.sound.toWellFormed
  obtain ⟨ids, hids, hruns⟩ := exists_alwaysInlineOperands hput.sound.toWellFormed hput.live?_self
    (hput.label_self.symm ▸ hp)
  refine ⟨ids, h.put hput List.mem_cons_self (fun k hk => ?_) (fun k hk => ?_) (fun k hk => ?_)
    (h.listed id List.mem_cons_self), ⟨.step hput hp (.refl _), hdup, ids, rfl, fun k hk => ?_⟩,
    hids, hruns⟩
  · exact List.mem_cons.2 ((List.mem_cons.1 hk).imp_right (List.mem_append_right _))
  · exact List.mem_cons_of_mem _ (List.mem_append_left _ ((hids k).2 (hput.pastedIn_self hw hk)))
  · obtain rfl | hk := List.mem_cons.1 hk
    · exact Or.inl List.mem_cons_self
    · exact (List.mem_append.1 hk).symm.imp (List.mem_cons_of_mem _) (hids k).1
  · have hx : s'.module.Below p (r + 1) x := (hput.covers hw hp).below (by rwa [if_pos rfl])
    exact hx k ((hids k).1 hk)

/-- Every use of a value but the last gets a copy of the node that defines it. -/
theorem cloneForUses_ends {c : Nat} {value : Value}
    (h : Module.Stage p m₀ s.module root T (id :: W)) (hn : s.module.live? id = some n)
    (hv : n.results = [v]) (hr : s.module.Below p (r + 1) id) (hvalue : s.module.value? v = some value)
    (hc : value.uses.length = c + 1) :
    Ends p (fun k => cloneForUses id v k W) s (fun W' s' =>
      (∃ T', Module.Stage p m₀ s'.module root T' (id :: W')) ∧ Progress p r s W s' W' ∧
      ∃ u, s'.module.OnlyUse v u) (Crowds p m₀) := by
  induction c generalizing s T W n value with
  | zero =>
    obtain ⟨u, huses⟩ := List.length_eq_one_iff.1 hc
    refine .succ ?_
    simp only [cloneForUses]
    refine .query (Module.value_eq_ok_iff.2 hvalue) ?_
    simp only [huses]
    refine .pure ⟨⟨T, h⟩, .refl s W, u, fun q => ?_⟩
    rw [← h.sound.mem_uses hvalue, huses, List.mem_singleton]
  | succ c ih =>
    have hw := h.sound.toWellFormed
    obtain ⟨u, us, huses⟩ := List.exists_cons_of_length_eq_add_one hc
    obtain ⟨u', us, rfl⟩ : ∃ u' us', us = u' :: us' :=
      List.exists_cons_of_length_eq_add_one (by simpa [huses] using hc)
    have hu : s.module.Uses u v := (hw.mem_uses hvalue).1 (by simp [huses])
    have hu' : u' ≠ u ∧ s.module.Uses u' v := by
      refine ⟨?_, (hw.mem_uses hvalue).1 (by simp [huses])⟩
      rintro rfl
      exact absurd (huses ▸ hw.uses_nodup hvalue) (by simp)
    obtain ⟨n', -, -, hn', hp, -⟩ := h.held (h.listed id List.mem_cons_self)
    obtain rfl := Option.some.inj (hn.symm.trans hn')
    have hapart := hr.not_mem_operands hn hp hv
    have hslot := hu
    obtain ⟨nu, hnu, -⟩ := hslot
    refine .succ ?_
    simp only [cloneForUses]
    refine .query (Module.value_eq_ok_iff.2 hvalue) ?_
    simp only [huses]
    have hkinds := h.sound.regionKinds_eq_nil hn (h.sound.regions_of_results hn hv)
    refine .editWith (hw.cloneNode_before_safe hn hkinds hnu fun hfits => hfits)
      (fun hfits => ⟨_, h.unshares, hfits⟩) fun x m₁ hclone => ?_
    obtain ⟨w, m₂, hcopy, hset, hput⟩ :=
      h.sound.exists_puts_of_clone hn hv hapart hu ⟨u', hu'⟩ hnu hclone
    refine .query hcopy (.edit_ok hset (.count ?_))
    have hx : x ≠ id := fun he => hu'.1 (((hput.eq_of_live (he ▸ hn)).2.2 u').1 hu'.2)
    let s₂ : State :=
      { s with module := m₂, stats := { s.stats with duplicated := s.stats.duplicated + 1 } }
    have hdup : Duplicates s s₂ := ⟨1, (Module.nodes_size_of_setOperand hset).trans
      (Module.nodes_size_of_cloneNode hclone), rfl⟩
    obtain ⟨ids, hstage, hprogress, -, hruns⟩ := exists_progress_of_puts h hput hp hr hdup
    obtain ⟨n₂, hn₂, hres, -⟩ := hput.exists_live hw hn
    obtain ⟨value₂, hvalue₂, hlen⟩ := hput.exists_uses_of_cons hw hx hvalue huses
    have hr₂ := hprogress.unshares.keeps_below h.sound hn hr
    have hc₂ : value₂.uses.length = c + 1 := by
      rw [huses] at hc
      exact hlen.trans (Nat.add_right_cancel hc)
    refine .step hruns ((ih (s := s₂) hstage hn₂ (hres.trans hv) hr₂ hvalue₂ hc₂).mono ?_)
    rintro W' s' ⟨hstage', hprogress', honly⟩
    refine ⟨hstage', hprogress.trans hprogress' hput.sound fun k hk => ?_, honly⟩
    exact hstage.exists_live (List.mem_cons_of_mem _ hk)

/-- A node of the list is settled: it has one use, and stands beside its user. -/
theorem settleInline_ends (h : Module.Stage p m₀ s.module root T (id :: W))
    (hr : s.module.Below p (r + 1) id) :
    Ends p (fun _ => settleInline id W) s (fun W' s' =>
      (∃ T', Module.Stage p m₀ s'.module root T' W') ∧ Progress p r s W s' W') (Crowds p m₀) := by
  have hw := h.sound.toWellFormed
  obtain ⟨n, v, u, hn, hp, hv, hu⟩ := h.held (h.listed id List.mem_cons_self)
  obtain ⟨nd, hnd, he, rfl⟩ := Module.exists_of_live? hn
  obtain ⟨value, hvalue⟩ := hw.exists_value hu
  have hne : value.uses ≠ [] := List.ne_nil_of_mem ((hw.mem_uses hvalue).2 hu)
  obtain ⟨c, hc⟩ := Nat.exists_eq_add_one_of_ne_zero (List.length_pos_iff.2 hne).ne'
  simp only [settleInline]
  refine .step (fun _ _ => runs_node.2 ⟨hnd, rfl⟩) ?_
  have hresults : nd.results = [v] := hv
  simp only [he, hresults]
  refine .fuel (.bind (cloneForUses_ends h hn hv hr hvalue hc) ?_)
  rintro W₁ s₁ ⟨⟨T₁, h₁⟩, hprogress, u₁, honly⟩
  have hw₁ := h₁.sound.toWellFormed
  obtain ⟨g, o, hcovers⟩ := hprogress.unshares.exists_covers h.sound
  obtain ⟨n₁, hn₁, hres, hlabel, -⟩ := hcovers.exists_live hn
  have hv₁ := hres.trans hv
  have hp₁ : p (s₁.module.label n₁) = true := hlabel ▸ hp
  have hr₁ := hprogress.unshares.keeps_below h.sound hn hr
  have hu₁ : s₁.module.Uses u₁ v := (honly u₁).2 rfl
  obtain ⟨value₁, hvalue₁⟩ := hw₁.exists_value hu₁
  have huses₁ : value₁.uses = [u₁] := by
    rw [← List.perm_singleton, List.perm_ext_iff_of_nodup (hw₁.uses_nodup hvalue₁) (by simp)]
    intro q
    rw [hw₁.mem_uses hvalue₁, List.mem_singleton]
    exact honly q
  refine .query (Module.value_eq_ok_iff.2 hvalue₁) ?_
  simp only [huses₁]
  have hslot := hu₁
  obtain ⟨nu, hnu, -⟩ := hslot
  refine .edit (hw₁.moveNode_before_safe hn₁ hnu fun hfits => hfits)
    (fun hfits => ⟨_, h₁.unshares, fun hmore => hfits hmore.zero⟩) fun m₂ hmove => ?_
  have hapart := hr₁.not_mem_operands hn₁ hp₁ hv₁
  have hput := h₁.sound.puts_of_move hn₁ hv₁ hapart honly hnu hmove
  let s₂ : State := { s₁ with module := m₂ }
  have hdup : Duplicates s₁ s₂ := ⟨0, Module.nodes_size_of_moveNode hmove, rfl⟩
  obtain ⟨ids, hstage, hprogress₂, hids, hruns⟩ := exists_progress_of_puts h₁ hput hp₁ hr₁ hdup
  have hpop := hstage.pop (hput.beside_self hw₁ hp₁) fun k hk =>
    List.mem_append_left _ ((hids k).2 hk)
  refine .step hruns (.pure ⟨⟨_, hpop⟩, hprogress.trans hprogress₂ h₁.sound fun k hk => ?_⟩)
  exact h₁.exists_live (List.mem_cons_of_mem _ hk)

/-- A list of nodes of little depth comes to an end, and leads to what comes after it. -/
theorem settleAllInline_ends {good : Unit → State → Prop} {L : List NodeId}
    (h : Module.Stage p m₀ s.module root T (L ++ W)) (hr : ∀ k ∈ L, s.module.Below p r k)
    (hrest : ∀ s' T', Module.Stage p m₀ s'.module root T' W → s.module.Unshares p s'.module →
      Duplicates s s' → Ends p (fun k => settleAllInline k W) s' good (Crowds p m₀)) :
    Ends p (fun k => settleAllInline k (L ++ W)) s good (Crowds p m₀) := by
  induction r generalizing s T L W with
  | zero =>
    cases L with
    | nil => exact hrest s T h (.refl _) (.refl s)
    | cons id L => exact (hr id List.mem_cons_self).elim
  | succ r ihr =>
    induction L generalizing s T with
    | nil => exact hrest s T h (.refl _) (.refl s)
    | cons id L ihL =>
      refine .succ ?_
      simp only [List.cons_append, settleAllInline]
      refine .bind (settleInline_ends h (hr id List.mem_cons_self)) ?_
      rintro W₁ s₁ ⟨⟨T₁, h₁⟩, hprogress⟩
      obtain ⟨more, rfl, hmore⟩ := hprogress.listed
      -- First comes what is printed inside the node, then the rest of the list.
      refine ihr h₁ hmore fun s₂ T₂ h₂ hunshares hdup => ihL h₂ (fun k hk => ?_) ?_
      · obtain ⟨nk, hnk⟩ := h.exists_live (List.mem_cons_of_mem _ (List.mem_append_left _ hk))
        exact (hprogress.unshares.trans hunshares).keeps_below h.sound hnk
          (hr k (List.mem_cons_of_mem _ hk))
      · exact fun s₃ T₃ h₃ hunshares₃ hdup₃ => hrest s₃ T₃ h₃
          ((hprogress.unshares.trans hunshares).trans hunshares₃)
          ((hprogress.duplicates.trans hdup).trans hdup₃)

/-! ## The node and all that it leads to -/

/-- The node that is settled, the nodes that are new, and what is printed inside them. -/
inductive Reached (p : Label → Bool) (m₀ m : Module) (root : NodeId) : NodeId → Prop
  | root : Reached p m₀ m root root
  | new {j : NodeId} {n : Node} (hj : m.live? j = some n) (hnew : m₀.live? j = none) :
      Reached p m₀ m root j
  | inner {j k : NodeId} (hj : Reached p m₀ m root j) (hk : m.PastedIn p k j) : Reached p m₀ m root k

/-- Every use has its own copy of what is printed there, and nothing else is any different. -/
structure Unshared (p : Label → Bool) (s s' : State) (root : NodeId) : Prop where
  sound : Sound s'.module
  beside : ∀ {j}, Reached p s.module s'.module root j → s'.module.BesideUser p j
  uses : ∀ {u v}, s.module.Uses u v →
    ∃ v', s'.module.Uses u v' ∧ Module.Mirrors p s.module s'.module v v'
  duplicates : Duplicates s s'
  plain : ∀ {j n}, s.module.live? j = some n → p (s.module.label n) = false →
    ∃ n', s'.module.live? j = some n' ∧ s'.module.label n' = s.module.label n ∧ n'.parent = n.parent
  order : ∀ {j k nj nk b}, s.module.live? j = some nj → p (s.module.label nj) = false →
    s.module.live? k = some nk → p (s.module.label nk) = false →
    (Precedes (s'.module.nodesOf b) j k ↔ Precedes (s.module.nodesOf b) j k)

theorem unshared_of_stage (h : Module.Stage p s.module s'.module root T []) (hs : Sound s.module)
    (hsingle : s.module.SinglePasted p)
    (hacyclic : ∀ j, ¬ Relation.TransGen (s.module.PastedIn p) j j) (hdup : Duplicates s s') :
    Unshared p s s' root where
  sound := h.sound
  beside {j} hj := by
    have hT : T j := by
      induction hj with
      | root => exact h.root
      | new hj hnew =>
        refine (h.new hj).resolve_left fun ⟨n₀, hn₀⟩ => ?_
        simp [hnew] at hn₀
      | inner _ hk ih => exact h.closed ih hk
    refine (h.settled hT).resolve_right fun ⟨k, hk, _⟩ => ?_
    exact absurd hk List.not_mem_nil
  uses hu := by
    obtain ⟨g, o, hcovers⟩ := h.unshares.exists_covers hs
    exact hcovers.exists_uses hs.toWellFormed hsingle hacyclic hu
  duplicates := hdup
  plain hj hp := h.unshares.plain hs hj hp
  order hj hpj hk hpk := h.unshares.precedes_iff hs hj hpj hk hpk

/-- A node that is used can be settled, where what must be printed at each of its uses has one result and
none of it is printed inside itself. -/
theorem stage_of_uses {u : Use} (hs : Sound s.module) (hsingle : s.module.SinglePasted p)
    (hn : s.module.live? id = some n) (hp : p (s.module.label n) = true) (hv : v ∈ n.results)
    (hu : s.module.Uses u v) : Module.Stage p s.module s.module id
      (Relation.ReflTransGen (s.module.PastedIn p) · id) [id] where
  unshares := .refl _
  sound := hs
  root := .refl
  new hj := Or.inl ⟨_, hj⟩
  closed hj hk := .head hk hj
  held {j} hj := by
    obtain rfl | ⟨c, ⟨nj, nc, y, ⟨hnj, hpj⟩, ⟨hnc, -⟩, hy, hop⟩, -⟩ := hj.cases_head
    · obtain ⟨w, hw⟩ := hsingle hn hp
      obtain rfl : v = w := by simpa [hw] using hv
      exact ⟨n, v, u, hn, hp, hw, hu⟩
    · obtain ⟨w, hw⟩ := hsingle hnj hpj
      obtain rfl : y = w := by simpa [hw] using hy
      obtain ⟨i, hi⟩ := Module.exists_uses_of_mem hnc hop
      exact ⟨nj, y, ⟨c, i⟩, hnj, hpj, hw, hi⟩
  listed j hj := List.mem_singleton.1 hj ▸ .refl
  settled hj := Or.inr ⟨id, List.mem_singleton_self id, hj⟩

/-- A node that must be printed at each of its uses gets a copy for each use, in one and the same way
whatever the setting, if only enough steps are allowed and there is room for the copies. -/
theorem unshared_of_inlineEverywhere {u : Use} (hs : Sound s.module)
    (hsingle : s.module.SinglePasted p)
    (hacyclic : ∀ j, ¬ Relation.TransGen (s.module.PastedIn p) j j)
    (hn : s.module.live? id = some n) (hp : p (s.module.label n) = true) (hv : v ∈ n.results)
    (hu : s.module.Uses u v) :
    ∃ bound,
      (∃ s', Unshared p s s' id ∧ ∀ env : Env, env.oracle.Classifies p → bound ≤ env.fuel →
        (inlineEverywhere id).Runs env s () s') ∨
      (¬ s.module.Fits (s.module.copies p + 1) ∧ ∀ env : Env, env.oracle.Classifies p →
        bound ≤ env.fuel → inlineEverywhere id env s = .error .overflow) := by
  have hends : Ends p (fun _ => inlineEverywhere id) s (fun _ s' => Unshared p s s' id)
      (Crowds p s.module) := by
    simp only [inlineEverywhere]
    refine .fuel (settleAllInline_ends (L := [id]) (W := [])
      (stage_of_uses hs hsingle hn hp hv hu) (fun k _ => Module.below_of_acyclic hacyclic k) ?_)
    intro s' T' h' _ hdup
    simp only [settleAllInline]
    exact .pure (unshared_of_stage h' hs hsingle hacyclic hdup)
  obtain ⟨bound, ⟨_, s', hgood, hruns⟩ | ⟨⟨m', hm', hcrowds⟩, herr⟩⟩ := hends
  · exact ⟨bound, Or.inl ⟨s', hgood, fun env hc hfuel => hruns env bound hc hfuel le_rfl⟩⟩
  · exact ⟨bound, Or.inr ⟨fun hfits => hcrowds (hm'.fits hs hacyclic hfits),
      fun env hc hfuel => herr env bound hc hfuel le_rfl⟩⟩

end Prep

/-- The SystemVerilog emitter tells by the operation what must be printed where it is used. -/
def Label.isAlwaysInline (l : Label) : Bool := l.op.isAlwaysInline

theorem Oracle.classifies_systemVerilog : systemVerilog.Classifies Label.isAlwaysInline :=
  fun hn => isAlwaysInline_eq_ok_iff.2 ⟨_, hn, rfl⟩

/-- An emitter that answers by mnemonic tells by the operation too, in whatever way. -/
theorem Oracle.Classifies.withAnswers {oracle : Oracle} {p : Label → Bool} (h : oracle.Classifies p)
    (answer : Query → String → Option Bool) : (oracle.withAnswers answer).Classifies fun l =>
      (answer .isAlwaysInline l.op.mnemonic).getD (p l) := by
  intro m id n hn
  simp only [Oracle.withAnswers, Module.node_eq_ok_iff.2 hn, ok_bind, Module.label]
  cases answer .isAlwaysInline n.op.mnemonic with
  | none => exact h hn
  | some b => rfl

/-- An element of stored words that is read and assigned. A sum uses what is read twice, and the
assignment in a process once. -/
def Module.shared : Module :=
  .sketch [.int 8, .array ⟨0⟩ 4, .storage ⟨1⟩, .storage ⟨0⟩] [(.input, 0), (.output, 0)]
    [(.back ⟨0⟩, .reg, [], [2]), (.back ⟨0⟩, .elementStorage, [1, 0], [3]),
      (.back ⟨0⟩, .read, [2], [0]), (.back ⟨0⟩, .add, [3, 3], [0]), (.back ⟨0⟩, .initial, [], []),
      (.back ⟨1⟩, .blockingAssign, [2, 3], []), (.back ⟨0⟩, .output, [4], [])]

/-- Two more reads with an element each, and an element for the assignment to assign. -/
theorem unshared_of_inlineEverywhere_shared : Sound Module.shared ∧
    Module.shared.copies Label.isAlwaysInline = 5 ∧ ∃ s',
      Prep.Unshared Label.isAlwaysInline ⟨.shared, Module.sketchNames, .zero⟩ s' ⟨2⟩ ∧
      ∃ bound, ∀ fuel, bound ≤ fuel → (Prep.inlineEverywhere ⟨2⟩).Runs
        ⟨.default, .systemVerilog, "top", fuel⟩ ⟨.shared, Module.sketchNames, .zero⟩ () s' := by
  have hs : Sound Module.shared := sound_of_isSound (by decide +kernel)
  have hcopies : Module.shared.copies Label.isAlwaysInline = 5 := by decide +kernel
  have hfits : Module.shared.Fits (Module.shared.copies Label.isAlwaysInline + 1) := by
    rw [hcopies]
    unfold Module.Fits
    decide +kernel
  have hall : (Module.shared.nodeIds.all fun j => (Module.shared.live? j).all fun n =>
      (!n.op.isAlwaysInline || n.results.length == 1) &&
        Module.shared.nodeIds.all fun k => (Module.shared.live? k).all fun nk =>
          n.results.all fun v => !nk.operands.contains v || decide (j.index < k.index)) = true := by
    decide +kernel
  have hnode : ∀ {j n}, Module.shared.live? j = some n →
      (n.op.isAlwaysInline = true → n.results.length = 1) ∧
        ∀ {k nk v}, Module.shared.live? k = some nk → v ∈ n.results → v ∈ nk.operands →
          j.index < k.index := by
    intro j n hn
    have hj := List.all_eq_true.1 hall j (Module.mem_nodeIds_iff.2 (Module.lt_of_live? hn))
    simp only [hn, Option.all_some, Bool.and_eq_true, Bool.or_eq_true, Bool.not_eq_true',
      beq_iff_eq] at hj
    refine ⟨fun hop => hj.1.resolve_left (by simp [hop]), fun {k nk v} hk hv hop => ?_⟩
    have hjk := List.all_eq_true.1 hj.2 k (Module.mem_nodeIds_iff.2 (Module.lt_of_live? hk))
    simp only [hk, Option.all_some] at hjk
    simpa [hop] using List.all_eq_true.1 hjk v hv
  have hsingle : Module.shared.SinglePasted Label.isAlwaysInline := fun hn hp =>
    List.length_eq_one_iff.1 ((hnode hn).1 hp)
  have hacyclic : ∀ j, ¬ Relation.TransGen (Module.shared.PastedIn Label.isAlwaysInline) j j :=
    Module.acyclic_of_lt fun ⟨_, _, _, ⟨hn, _⟩, ⟨hk, _⟩, hv, hop⟩ => (hnode hn).2 hk hv hop
  obtain ⟨n, hn, hread⟩ := (Option.any_eq_true _ _).1
    (show (Module.shared.live? ⟨2⟩).any (fun n => n.op == .read && n.results == [⟨3⟩]) = true by
      decide +kernel)
  obtain ⟨hop, hresults⟩ : n.op = .read ∧ n.results = [⟨3⟩] := by simpa using hread
  obtain ⟨nu, hnu, hslot⟩ := (Option.any_eq_true _ _).1
    (show (Module.shared.live? ⟨3⟩).any (fun n => n.operands[0]? == some ⟨3⟩) = true by
      decide +kernel)
  have huse : Module.shared.Uses ⟨⟨3⟩, 0⟩ ⟨3⟩ := ⟨nu, hnu, beq_iff_eq.1 hslot⟩
  obtain ⟨bound, ⟨s', hgood, hruns⟩ | ⟨hcrowded, -⟩⟩ := Prep.unshared_of_inlineEverywhere
    (s := ⟨.shared, Module.sketchNames, .zero⟩) hs hsingle hacyclic hn
    (show n.op.isAlwaysInline = true by rw [hop]; rfl) (v := ⟨3⟩) (by simp [hresults]) huse
  · exact ⟨hs, hcopies, s', hgood, bound, fun fuel hfuel =>
      hruns _ Oracle.classifies_systemVerilog hfuel⟩
  · exact absurd hfits hcrowded

end NetPrep
