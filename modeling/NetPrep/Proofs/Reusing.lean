import Mathlib
import NetPrep.Proofs.Spilling

/-!
# Using an assignment that is there

Where an expression is assigned to a declaration anyway, its other uses can read that one. A read that
is made for a use is settled at once.
-/

namespace NetPrep

open Prepare Prep

namespace Module

variable {m m' : Module}

/-- Uses of a value read storage instead, and each read is settled at once. -/
inductive ReadsSettled (old storage : ValueId) (type : TypeId) (loc : Loc) :
    List Use → Module → Module → Prop
  | nil (m : Module) : ReadsSettled old storage type loc [] m m
  | cons {u : Use} {us : List Use} {read : NodeId} {m m₁ m₂ m' : Module}
      (h : ReadFor old storage type loc u read m m₁)
      (hsettle : m₁.Settles (· = read) m₂)
      (hrest : ReadsSettled old storage type loc us m₂ m') :
      ReadsSettled old storage type loc (u :: us) m m'

variable {old storage v : ValueId} {type : TypeId} {loc : Loc} {us : List Use} {T : NodeId → Prop}
  {id : NodeId}

theorem ReadsSettled.kept (h : ReadsSettled old storage type loc us m m') : m.Kept m' := by
  induction h with
  | nil => exact .refl _
  | cons h hsettle _ ih => exact (h.kept.trans hsettle.inlines.kept).trans ih

theorem ReadsSettled.sound (h : ReadsSettled old storage type loc us m m') (hs : Sound m) :
    Sound m' := by
  induction h with
  | nil => exact hs
  | cons h hsettle _ ih => exact ih (hsettle.inlines.sound h.sound)

theorem ReadsSettled.edits (h : ReadsSettled old storage type loc us m m') (hs : Sound m) :
    Edits m m' := by
  induction h with
  | nil => exact .refl hs
  | cons h hsettle _ ih =>
    have h₁ := hsettle.inlines.edits h.sound
    exact (h.edits.trans h₁).trans (ih h₁.sound)

/-- Settling keeps every node. -/
theorem InlineStep.live {j : NodeId} {n : Node} (h : InlineStep id m m') (hj : m.live? j = some n) :
    ∃ n', m'.live? j = some n' ∧ n'.op = n.op ∧ n'.results = n.results ∧
      (n.op.isAlwaysInline = false → n'.parent = n.parent) := by
  cases h with
  | clone _ _ _ _ _ _ hc _ hr _ => exact ⟨_, hr.live (hc.live hj), rfl, rfl, fun _ => rfl⟩
  | move hn hop _ _ _ _ hm _ =>
    refine ⟨_, hm.live hj, rfl, rfl, fun hfalse => ?_⟩
    have hji : j ≠ id := by
      rintro rfl
      rw [hn] at hj
      cases hj
      rw [hop] at hfalse
      cases hfalse
    simp [hji]

theorem Inlines.live {j : NodeId} {n : Node} (h : Inlines T m m') (hj : m.live? j = some n) :
    ∃ n', m'.live? j = some n' ∧ n'.op = n.op ∧ n'.results = n.results ∧
      (n.op.isAlwaysInline = false → n'.parent = n.parent) := by
  induction h generalizing n with
  | refl => exact ⟨n, hj, rfl, rfl, fun _ => rfl⟩
  | step _ hstep _ ih =>
    obtain ⟨n₁, hj₁, hop₁, hr₁, hp₁⟩ := hstep.live hj
    obtain ⟨n₂, hj₂, hop₂, hr₂, hp₂⟩ := ih hj₁
    exact ⟨n₂, hj₂, hop₂.trans hop₁, hr₂.trans hr₁,
      fun hfalse => (hp₂ (hop₁ ▸ hfalse)).trans (hp₁ hfalse)⟩

theorem Inlines.usable (h : Inlines T m m') (hv : m.Usable v) : m'.Usable v :=
  hv.mono h.kept fun hj => by
    obtain ⟨n', hj', -⟩ := h.live hj
    exact ⟨n', hj'⟩

/-- Settling keeps the uses of what is not printed at its uses. -/
theorem InlineStep.uses_iff {w : Use} {d : NodeId} {nd : Node} {i : Nat} (hs : Sound m)
    (h : InlineStep id m m') (hv : m.def? v = some (.result d i)) (hd : m.core d = some nd)
    (hop : nd.op.isAlwaysInline = false) (hw : ∃ n, m.live? w.node = some n) :
    m'.Uses w v ↔ m.Uses w v := by
  cases h with
  | @clone copyId n nu x copy u _ m₁ hn hop' hx hu hnu _ hc _ hr _ =>
    have hvx : v ≠ x := by
      rintro rfl
      have hdef := hs.result (Module.core_of_live? hn) (i := 0) (v := v) (by simp [hx])
      rw [hv] at hdef
      cases hdef
      rw [Module.core_of_live? hn] at hd
      cases hd
      rw [hop'] at hop
      cases hop
    have hvc : v ≠ copy := by
      rintro rfl
      have hdef := hc.def?_result (i := 0) (v := v) rfl
      rw [hc.kept.def? hv] at hdef
      cases hdef
      rw [hc.fresh] at hd
      obtain ⟨nd', hnd', -⟩ := Option.map_eq_some_iff.1 hd
      exact Nat.lt_irrefl _ (lt_of_node? hnd')
    obtain ⟨nw, hnw⟩ := hw
    have hnode : w.node ≠ copyId := hc.ne hnw
    rw [hr.uses_pointAt_iff (hc.uses_iff.2 (Or.inl hu)), hc.uses_iff]
    split
    · next hwu =>
      subst hwu
      refine ⟨fun h => absurd h hvc, ?_⟩
      rintro ⟨n', hn', hv'⟩
      obtain ⟨n'', hn'', hx'⟩ := hu
      rw [hn'] at hn''
      cases hn''
      exact absurd (Option.some.inj (hv'.symm.trans hx')) hvx
    · simp [hnode]
  | move _ _ _ _ _ _ hm _ => exact hm.uses_iff

theorem Inlines.uses {w : Use} {d : NodeId} {nd : Node} {i : Nat} (hs : Sound m)
    (h : m.Inlines T m') (hv : m.def? v = some (.result d i)) (hd : m.core d = some nd)
    (hop : nd.op.isAlwaysInline = false) (hw : m.Uses w v) : m'.Uses w v := by
  induction h generalizing nd with
  | refl => exact hw
  | step _ hstep _ ih =>
    obtain ⟨n, hn, hslot⟩ := hw
    have hw₁ := (hstep.uses_iff hs hv hd hop ⟨n, hn⟩).2 ⟨n, hn, hslot⟩
    obtain ⟨nd₁, hd₁, hop₁, -⟩ := hstep.kept.node hd
    exact ih hstep.sound (hstep.kept.def? hv) hd₁ (hop₁ ▸ hop) hw₁

theorem ReadsSettled.live {j : NodeId} {n : Node} (h : ReadsSettled old storage type loc us m m')
    (hj : m.live? j = some n) : ∃ n', m'.live? j = some n' ∧ n'.op = n.op ∧
      n'.results = n.results ∧ (n.op.isAlwaysInline = false → n'.parent = n.parent) := by
  induction h generalizing n with
  | nil => exact ⟨n, hj, rfl, rfl, fun _ => rfl⟩
  | cons h hsettle _ ih =>
    obtain ⟨ops, hj₁⟩ := h.live hj
    obtain ⟨n₂, hj₂, hop₂, hr₂, hp₂⟩ := hsettle.inlines.live hj₁
    obtain ⟨n₃, hj₃, hop₃, hr₃, hp₃⟩ := ih hj₂
    exact ⟨n₃, hj₃, hop₃.trans hop₂, hr₃.trans hr₂,
      fun hfalse => (hp₃ (hop₂ ▸ hfalse)).trans (hp₂ hfalse)⟩

theorem ReadsSettled.usable (h : ReadsSettled old storage type loc us m m') (hv : m.Usable v) :
    m'.Usable v :=
  hv.mono h.kept fun hj => by
    obtain ⟨n', hj', -⟩ := h.live hj
    exact ⟨n', hj'⟩

/-- An assignment of a value and the other uses of the value read what is assigned. -/
inductive Reuses (id : NodeId) (m m' : Module) : Prop
  | mk {n na : Node} {result target : ValueId} {assignment : NodeId} {uses others : List Use}
      {type ttype : TypeId} {m₁ : Module} (hn : m.live? id = some n) (hv : n.results = [result])
      (huses : ∀ u, u ∈ uses ↔ m.Uses u result)
      (hothers : ∀ u, u ∈ others ↔ u ∈ uses ∧ u ≠ ⟨assignment, 1⟩)
      (hne : others ≠ [])
      (hassign : ∀ u ∈ others, ∀ nu, m.live? u.node = some nu → nu.op ≠ .assign)
      (ha : m.live? assignment = some na) (hop : na.op = .assign)
      (hroot : ∀ blk, m.blockCore na.parent = some blk → blk.parent = none)
      (hsource : na.operands[1]? = some result) (htarget : na.operands[0]? = some target)
      (httype : m.type? target = some ttype)
      (htype : m.types.get ttype = .ok (.storage type))
      (hreads : ReadsSettled result target type na.loc others m m₁)
      (hdecl : m₁ = m' ∨ ∃ d, IsInline m₁ d ∧ (∃ i, m₁.def? target = some (.result d i)) ∧
        m₁.Settles (· = d) m')

theorem Reuses.edits (h : m.Reuses id m') (hs : Sound m) : Edits m m' := by
  obtain ⟨-, -, -, -, -, -, -, -, -, -, -, -, -, hreads, hdecl⟩ := h
  have h₁ := hreads.edits hs
  obtain rfl | ⟨d, -, -, hsettle⟩ := hdecl
  · exact h₁
  · exact h₁.trans (hsettle.inlines.edits h₁.sound)

/-- Reusing an assignment keeps every node, and the places of those that are not printed at their
uses. -/
theorem Reuses.live {j : NodeId} {n : Node} (h : m.Reuses id m') (hj : m.live? j = some n) :
    ∃ n', m'.live? j = some n' ∧ n'.op = n.op ∧ n'.results = n.results ∧
      (n.op.isAlwaysInline = false → n'.parent = n.parent) := by
  obtain ⟨-, -, -, -, -, -, -, -, -, -, -, -, -, hreads, hdecl⟩ := h
  obtain ⟨n₁, hj₁, hop₁, hr₁, hp₁⟩ := hreads.live hj
  rcases hdecl with rfl | ⟨d, -, -, hsettle⟩
  · exact ⟨n₁, hj₁, hop₁, hr₁, hp₁⟩
  · obtain ⟨n₂, hj₂, hop₂, hr₂, hp₂⟩ := hsettle.inlines.live hj₁
    exact ⟨n₂, hj₂, hop₂.trans hop₁, hr₂.trans hr₁,
      fun hfalse => (hp₂ (hop₁ ▸ hfalse)).trans (hp₁ hfalse)⟩

end Module

namespace Prep

variable {env : Env} {s s' : State} {id : NodeId} {v : ValueId} {n : Node}

/-- What is known of the assignment among the uses of a value, once it is found. -/
theorem splitAssignment_eq_some {m : Module} {assignment : Option NodeId} {us others : List Use}
    {a : NodeId} (h : splitAssignment m assignment us = .ok (some (some a, others))) :
    (assignment = some a ∧ others = us ∨
      assignment = none ∧ (∃ n, m.node? a = some n ∧ n.op = .assign) ∧
        m.parentNode? a = .ok none ∧ ⟨a, 1⟩ ∈ us ∧ others = us.erase ⟨a, 1⟩) ∧
    ∀ u ∈ others, ∀ n, m.node? u.node = some n → n.op ≠ .assign := by
  induction us generalizing assignment others with
  | nil =>
    cases h
    exact ⟨Or.inl ⟨rfl, rfl⟩, by simp⟩
  | cons u us ih =>
    simp only [splitAssignment, bind_eq_ok_iff, Module.node_eq_ok_iff] at h
    obtain ⟨n, hn, h⟩ := h
    split at h
    · next hop =>
      cases assignment with
      | some a' => cases h
      | none =>
        simp only [Option.isSome_none, Bool.false_eq_true, if_false, bind_eq_ok_iff] at h
        obtain ⟨p, hp, h⟩ := h
        cases p with
        | some p => cases h
        | none =>
          simp only [Option.isSome_none, Bool.false_eq_true, if_false] at h
          split at h
          · cases h
          · next hoperand =>
            obtain ⟨hcases, hrest⟩ := ih h
            rcases hcases with ⟨ha, rfl⟩ | ⟨ha, -⟩
            · obtain rfl := Option.some.inj ha
              obtain ⟨j, k⟩ := u
              obtain rfl : k = 1 := by simpa using hoperand
              exact ⟨Or.inr ⟨rfl, ⟨n, hn, hop⟩, hp, by simp, by simp⟩, hrest⟩
            · cases ha
    · next hop =>
      simp only [bind_eq_ok_iff] at h
      obtain ⟨r, hr, h⟩ := h
      cases r with
      | none => cases h
      | some r =>
        obtain ⟨assignment', others'⟩ := r
        cases h
        obtain ⟨hcases, hrest⟩ := ih hr
        refine ⟨?_, ?_⟩
        · rcases hcases with ⟨ha, rfl⟩ | ⟨ha, ⟨na, hna, hopa⟩, hp, hmem, rfl⟩
          · exact Or.inl ⟨ha, rfl⟩
          · refine Or.inr ⟨ha, ⟨na, hna, hopa⟩, hp, by simp [hmem], ?_⟩
            have hne : u ≠ ⟨a, 1⟩ := by
              rintro rfl
              rw [hn] at hna
              cases hna
              exact hop hopa
            rw [List.erase_cons_tail (by simpa using hne)]
        · intro w hw nw hnw
          rcases List.mem_cons.1 hw with rfl | hw
          · rw [hn] at hnw
            cases hnw
            exact hop
          · exact hrest w hw nw hnw

/-- The uses of a value are one assignment of it, in the body of the module, and others that are no
assignments. -/
structure SingleAssignment (m : Module) (v : ValueId) (a : NodeId) (na : Node)
    (others : List Use) : Prop where
  live : m.live? a = some na
  op : na.op = .assign
  root : ∀ blk, m.blockCore na.parent = some blk → blk.parent = none
  source : na.operands[1]? = some v
  mem_iff : ∀ u, u ∈ others ↔ m.Uses u v ∧ u ≠ ⟨a, 1⟩
  nodup : others.Nodup
  rest : ∀ u ∈ others, ∀ nu, m.live? u.node = some nu → nu.op ≠ .assign

theorem singleAssignment_of_split {m : Module} {a : NodeId} {x : Value} {others : List Use}
    (hs : Sound m) (hx : m.value? v = some x)
    (h : splitAssignment m none x.uses = .ok (some (some a, others))) :
    ∃ na, m.node? a = some na ∧ SingleAssignment m v a na.core others := by
  obtain ⟨hcases, hassign⟩ := splitAssignment_eq_some h
  obtain ⟨-, ⟨na, hna, hop⟩, hroot, hmem, rfl⟩ := hcases.resolve_left (by simp)
  have hnodup := hs.uses_nodup hx
  obtain ⟨na', hlive, hslot⟩ := (hs.mem_uses hx).1 hmem
  obtain ⟨na₁, hna₁, -, rfl⟩ := Module.exists_of_live? hlive
  obtain rfl : na = na₁ := by simpa using hna.symm.trans hna₁
  refine ⟨na, hna, hlive, hop, fun blk hblk => ?_, hslot, fun u => ?_, hnodup.erase _,
    fun u hu nu hnu => ?_⟩
  · obtain ⟨b, hb, rfl⟩ := Option.map_eq_some_iff.1 hblk
    simp only [Module.parentNode?, bind_eq_ok_iff, Module.node_eq_ok_iff,
      Module.block_eq_ok_iff] at hroot
    obtain ⟨na₂, hna₂, b', hb', hret⟩ := hroot
    obtain rfl : na = na₂ := by simpa using hna.symm.trans hna₂
    obtain rfl : b = b' := by simpa using hb.symm.trans hb'
    exact Except.ok.inj hret
  · rw [hnodup.mem_erase_iff, and_comm, hs.mem_uses hx]
  · obtain ⟨nu', hnu', -, rfl⟩ := Module.exists_of_live? hnu
    exact hassign u hu nu' hnu'

/-- Letting uses read storage, and settling the reads. -/
theorem readsSettled_runs (ho : env.oracle = .systemVerilog) {old storage : ValueId} {type : TypeId}
    {loc : Loc} {d : NodeId} {nd : Node} {i : Nat} {us : List Use} {r : Unit} (hs : Sound s.module)
    (hold : s.module.def? old = some (.result d i)) (hd : s.module.core d = some nd)
    (hop : nd.op.isAlwaysInline = false) (hus : ∀ u ∈ us, s.module.Uses u old) (hnd : us.Nodup)
    (hstorage : s.module.Usable storage)
    (h : (us.forM fun u => do inlineEverywhere (← readFor u storage type loc)).Runs env s r s') :
    s.module.ReadsSettled old storage type loc us s'.module := by
  induction us generalizing s nd with
  | nil =>
    obtain rfl := runs_forM_nil.1 h
    exact .nil _
  | cons u us ih =>
    obtain ⟨s₁, h₁, h₂⟩ := runs_forM_cons.1 h
    simp only [runs_bind] at h₁
    obtain ⟨read, s₀, h₀, h₁⟩ := h₁
    have hread := readFor_eq hs (hus u (by simp)) hstorage h₀
    have hsettle := inlineEverywhere_runs ho hread.sound hread.isInline h₁
    have hs₁ := hsettle.inlines.sound hread.sound
    obtain ⟨hu, hnd⟩ := List.nodup_cons.1 hnd
    have hkept := hread.kept.trans hsettle.inlines.kept
    obtain ⟨nd₀, hd₀, hop₀, -⟩ := hread.kept.node hd
    obtain ⟨nd₁, hd₁, hop₁, -⟩ := hkept.node hd
    refine .cons hread hsettle (ih hs₁ (hkept.def? hold) hd₁ (hop₁ ▸ hop) (fun w hw => ?_) hnd
      (hsettle.inlines.usable (hread.usable hstorage)) h₂)
    have hw₀ := hread.uses (hus w (List.mem_cons_of_mem _ hw)) fun he => hu (he ▸ hw)
    exact hsettle.inlines.uses hread.sound (hread.kept.def? hold) hd₀ (hop₀ ▸ hop) hw₀

theorem storedType?_eq_some_iff {t : TypeTable} {type element : TypeId} :
    t.storedType? type = .ok (some element) ↔ t.get type = .ok (.storage element) := by
  simp only [TypeTable.storedType?, bind_eq_ok_iff]
  constructor
  · rintro ⟨ty, hty, h⟩
    cases ty <;> simp_all [pure, Except.pure]
  · intro h
    exact ⟨_, h, rfl⟩

/-- The type of what storage holds. -/
theorem elementTypeOf_runs {storage : ValueId} {type : TypeId}
    (h : (elementTypeOf storage).Runs env s type s') : s = s' ∧ ∃ stype,
      s.module.type? storage = some stype ∧ s.module.types.get stype = .ok (.storage type) := by
  simp only [elementTypeOf, runs_bind, runs_query, bind_eq_ok_iff, valueType_eq_ok_iff] at h
  obtain ⟨t, _, ⟨⟨stype, hstype, ht⟩, rfl⟩, h⟩ := h
  cases t with
  | none =>
    simp only [runs_bind, runs_moduleName] at h
    obtain ⟨_, _, -, h⟩ := h
    exact absurd h runs_fail
  | some t =>
    obtain ⟨rfl, rfl⟩ := runs_pure.1 h
    exact ⟨rfl, stype, hstype, storedType?_eq_some_iff.1 ht⟩

theorem reuseAssigned_runs (ho : env.oracle = .systemVerilog) {reused : Bool} (hs : Sound s.module)
    (hn : s.module.live? id = some n) (hop : n.op.isAlwaysInline = false)
    (h : (reuseAssigned id).Runs env s reused s') :
    (reused = false ∧ s = s') ∨ (reused = true ∧ s.module.Reuses id s'.module) := by
  obtain ⟨nd, hnd, -, rfl⟩ := Module.exists_of_live? hn
  simp only [reuseAssigned, runs_bind, runs_node] at h
  obtain ⟨nd', _, ⟨hnd', rfl⟩, h⟩ := h
  obtain rfl : nd = nd' := by simpa using hnd.symm.trans hnd'
  split at h
  · next result hresult =>
    simp only [runs_bind, runs_query, bind_eq_ok_iff, Module.value_eq_ok_iff] at h
    obtain ⟨split, _, ⟨⟨x, hx, hsplit⟩, rfl⟩, h⟩ := h
    split at h
    · next a others =>
      obtain ⟨na, hna, hone⟩ := singleAssignment_of_split hs hx hsplit
      have hnot : ∀ {w}, (pure false : Prep Bool).Runs env s w s' →
          (w = false ∧ s = s') ∨ (w = true ∧ s.module.Reuses id s'.module) := fun h => by
        obtain ⟨rfl, rfl⟩ := runs_pure.1 h
        exact Or.inl ⟨rfl, rfl⟩
      split at h
      · exact hnot h
      · next hothers =>
        simp only [runs_bind, runs_query] at h
        obtain ⟨source, _, ⟨hsource, rfl⟩, sop, _, ⟨hsop, rfl⟩, h⟩ := h
        split at h
        · exact hnot h
        · simp only [runs_bind, runs_query, runs_node] at h
          obtain ⟨target, _, ⟨htarget, rfl⟩, type, s₁, htype, na', _, ⟨hna', rfl⟩, _, s₂, hreads, d,
            _, ⟨hd, rfl⟩, h⟩ := h
          obtain ⟨rfl, ttype, httype, hget⟩ := elementTypeOf_runs htype
          obtain rfl : na = na' := by simpa using hna.symm.trans hna'
          have hdef := hs.result (Module.core_of_node? hnd) (i := 0) (v := result)
            (by simp [Node.core, hresult])
          have hslot : na.operands[0]? = some target := by
            obtain ⟨na₂, hna₂, hv⟩ := operand_eq_ok_iff.1 htarget
            obtain rfl : na = na₂ := by simpa using hna.symm.trans hna₂
            exact hv
          have hr := readsSettled_runs ho hs hdef (Module.core_of_node? hnd) hop
            (fun u hu => ((hone.mem_iff u).1 hu).1) hone.nodup
            (hs.usable (u := ⟨a, 0⟩) ⟨na.core, hone.live, hslot⟩) hreads
          have hmk : ∀ {m'}, (s₂.module = m' ∨ ∃ d, IsInline s₂.module d ∧
              (∃ i, s₂.module.def? target = some (.result d i)) ∧
              s₂.module.Settles (· = d) m') → s.module.Reuses id m' :=
            .mk hn hresult (fun u => hs.mem_uses hx)
              (fun u => by rw [hone.mem_iff, hs.mem_uses hx]) (by simpa using hothers) hone.rest
              hone.live hone.op hone.root hone.source hslot httype hget hr
          refine Or.inr ?_
          cases d with
          | none =>
            simp only [runs_bind, runs_pure, runs_count] at h
            obtain ⟨_, _, rfl, rfl, rfl⟩ := h
            exact ⟨rfl, hmk (Or.inl rfl)⟩
          | some d =>
            simp only [runs_bind, runs_isAlwaysInline, ho, Oracle.isAlwaysInline_eq_ok_iff] at h
            obtain ⟨b, _, ⟨⟨nd', hnd', hb⟩, rfl⟩, h⟩ := h
            cases b with
            | false =>
              simp only [Bool.false_eq_true, if_false, runs_bind, runs_count, runs_pure] at h
              obtain ⟨_, _, rfl, rfl, rfl⟩ := h
              exact ⟨rfl, hmk (Or.inl rfl)⟩
            | true =>
              simp only [if_true, runs_bind, runs_count, runs_pure] at h
              obtain ⟨_, s₃, hinline, _, _, rfl, rfl, rfl⟩ := h
              have hin : IsInline s₂.module d := ⟨_, Module.core_of_node? hnd', hb⟩
              have hsettle := inlineEverywhere_runs ho (hr.sound hs) hin hinline
              exact ⟨rfl, hmk (Or.inr ⟨d, hin, Module.definingNode?_eq_some_iff.1 hd, hsettle⟩)⟩
    · obtain ⟨rfl, rfl⟩ := runs_pure.1 h
      exact Or.inl ⟨rfl, rfl⟩
  · obtain ⟨rfl, rfl⟩ := runs_pure.1 h
    exact Or.inl ⟨rfl, rfl⟩

end Prep

end NetPrep
