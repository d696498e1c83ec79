import Mathlib
import NetPrep.Proofs.Keeping.Inline

/-!
# Temporaries

Giving a value a declaration of its own misuses nothing, and neither does reading a declaration that is
assigned anyway. A name for a temporary is made from names that have strings behind them.
-/

namespace NetPrep

open Prepare Prep

namespace Prep

variable {env : Env} {s s' : State} {id : NodeId} {n : Node} {v result : ValueId}

/-! ## Names -/

theorem resolve?_keeps {name : Option Name} (hs : s.Orderly)
    (hname : ∀ x, name = some x → s.names.Knows x) : (resolve? name).Keeps env s := by
  cases name with
  | none => exact .pure hs none
  | some name => exact .bind (.resolve hs (hname name rfl)) fun _ _ _ hl => .pure hl.orderly _

theorem directName?_keeps (hs : s.Orderly) (hv : s.module.Usable v) :
    (directName? v).Keeps env s := by
  refine .value hs hv fun x _ _ hdef => ?_
  cases hx : x.definition with
  | port index =>
    refine .tell rfl (resolve?_keeps hs fun name hname => ?_)
    obtain ⟨p, hp, rfl⟩ := Option.map_eq_some_iff.1 hname
    exact hs.port p (List.mem_of_mem_filter (List.mem_of_getElem? hp))
  | result d i =>
    obtain ⟨y, hy, hlive⟩ := hv
    obtain ⟨n, hn⟩ : ∃ n, s.module.live? d = some n := hlive (i := i) (by
      rw [← hx, Option.some.inj (hy.symm.trans hdef)])
    obtain ⟨nd, hnd, -, rfl⟩ := Module.exists_of_live? hn
    refine .node hnd ?_
    cases hhint : nd.name with
    | some hint =>
      exact .bind (.resolve hs (hs.hint hn hhint)) fun _ _ _ hl => .pure hl.orderly _
    | none =>
      dsimp only
      split
      · next hop =>
        have hpos := hs.operands_pos (n := nd.core) hn hop fun _ _ hshape => hshape
        have hu : s.module.Uses ⟨d, 0⟩ nd.operands[0] :=
          ⟨nd.core, hn, List.getElem?_eq_getElem hpos⟩
        refine .operand hu (.definingNode? (hs.usable hu) (.pure hs none) fun decl ndecl _ _ hd => ?_)
        obtain ⟨nd', hnd', -, rfl⟩ := Module.exists_of_live? hd
        exact .node hnd' (resolve?_keeps hs fun name hname => hs.hint hd hname)
      · exact .pure hs none

theorem directNames_keeps {vs : List ValueId} (hs : s.Orderly)
    (hvs : ∀ v ∈ vs, s.module.Usable v) : (directNames vs).Keeps env s := by
  induction vs generalizing s with
  | nil => exact .pure hs []
  | cons v vs ih =>
    refine .bind (directName?_keeps hs (hvs v (by simp))) fun name s₁ hrun hl => ?_
    have hrest : (directNames vs).Keeps env s₁ := ih hl.orderly fun w hw => by
      rw [(Silent.directName? v).module_eq hrun]
      exact hvs w (List.mem_cons_of_mem _ hw)
    cases name with
    | none => exact hrest
    | some name => exact .bind hrest fun _ _ _ hl₂ => .pure hl₂.orderly _

theorem nameBase?_keeps (hs : s.Orderly) (hn : s.module.live? id = some n)
    (hv : s.module.Usable v) : (nameBase? id v).Keeps env s := by
  obtain ⟨nd, hnd, -, rfl⟩ := Module.exists_of_live? hn
  refine .node hnd ?_
  split
  · exact directName?_keeps hs hv
  · next low hop =>
    have hpos := hs.operands_pos (n := nd.core) hn hop fun _ _ hshape => hshape
    have hu : s.module.Uses ⟨id, 0⟩ nd.operands[0] := ⟨nd.core, hn, List.getElem?_eq_getElem hpos⟩
    refine .operand hu (.bind (directName?_keeps hs (hs.usable hu)) fun name s₁ _ hl => ?_)
    cases name <;> exact .pure hl.orderly _
  · refine .bind (directNames_keeps hs fun w hw => hs.usable_operand hn hw) fun names s₁ _ hl => ?_
    cases names <;> exact .pure hl.orderly _

theorem structuralName?_keeps (hs : s.Orderly) (hv : s.module.Usable v) :
    (structuralName? v).Keeps env s := by
  refine .definingNode? hv (.pure hs none) fun d n i _ hn => ?_
  obtain ⟨nd, hnd, -, rfl⟩ := Module.exists_of_live? hn
  refine .node hnd ?_
  cases nd.name with
  | some hint => exact .pure hs _
  | none =>
    refine .bind (nameBase?_keeps hs hn hv) fun base s₁ _ hl => ?_
    cases base with
    | none => exact .pure hl.orderly _
    | some base => exact .bind (.intern hl.orderly _) fun _ _ _ hl₂ => .pure hl₂.orderly _

/-- The name that is found has a string behind it. -/
theorem structuralName?_knows {name : Option Name} (hs : s.Orderly)
    (hv : s.module.Usable v) (h : (structuralName? v).Runs env s name s') {x : Name}
    (hx : name = some x) : s'.names.Knows x := by
  subst hx
  simp only [structuralName?, runs_bind, runs_query] at h
  obtain ⟨d, _, ⟨hd, rfl⟩, h⟩ := h
  cases d with
  | none => exact absurd (runs_pure.1 h).1 (by simp)
  | some d =>
    simp only [runs_bind, runs_node] at h
    obtain ⟨nd, _, ⟨hnd, rfl⟩, h⟩ := h
    cases hhint : nd.name with
    | some hint =>
      rw [hhint] at h
      obtain ⟨hname, rfl⟩ := runs_pure.1 h
      obtain rfl := Option.some.inj hname
      obtain ⟨i, hdef⟩ := Module.definingNode?_eq_some_iff.1 hd
      obtain ⟨d', hd', hlive⟩ := hv
      obtain ⟨n, hn⟩ := hlive (Option.some.inj (hd'.symm.trans hdef))
      obtain ⟨nd', hnd', -, rfl⟩ := Module.exists_of_live? hn
      obtain rfl := Option.some.inj (hnd.symm.trans hnd')
      exact hs.hint hn hhint
    | none =>
      simp only [hhint, runs_bind] at h
      obtain ⟨base, s₂, -, h⟩ := h
      cases base with
      | none => exact absurd (runs_pure.1 h).1 (by simp)
      | some base =>
        simp only [runs_bind, runs_intern, runs_pure, Option.some.injEq] at h
        obtain ⟨name, _, ⟨rfl, rfl⟩, rfl, rfl⟩ := h
        exact NameTable.knows_intern _ _

/-! ## Spilling -/

theorem readsFor_keeps {storage : ValueId} {type : TypeId} {loc : Loc} {us : List Use}
    (hs : s.Orderly) (hus : ∀ u ∈ us, s.module.Uses u v) (hnd : us.Nodup)
    (htype : s.module.type? v = some type) (hstorage : s.module.Usable storage) :
    (us.forM fun u => do let _ ← readFor u storage type loc).Keeps env s := by
  induction us generalizing s with
  | nil => exact .pure hs ()
  | cons u us ih =>
    change ((readFor u storage type loc >>= fun _ => pure ()) >>= fun _ => us.forM _).Keeps env s
    rw [bind_assoc]
    obtain ⟨hu, hnd⟩ := List.nodup_cons.1 hnd
    refine .readFor hs (hus u (by simp)) htype hstorage fun read s₁ hread hl => ?_
    rw [pure_bind]
    refine ih hl.orderly (fun w hw => ?_) hnd (hl.edits.kept.type? htype) (hread.usable hstorage)
    exact hread.uses (hus w (List.mem_cons_of_mem _ hw)) fun he => hu (he ▸ hw)

theorem spillResult_keeps {name : Option Name} {atFront : Bool} (hs : s.Orderly)
    (hn : s.module.live? id = some n) (hres : result ∈ n.results)
    (hname : ∀ x, name = some x → s.names.Knows x) :
    (spillResult id result name atFront).Keeps env s := by
  have husable := hs.usable_of_mem_results hn hres
  obtain ⟨type, htype⟩ := husable.exists_type
  have hplaced := hs.placed hn
  obtain ⟨nd, hnd, -, rfl⟩ := Module.exists_of_live? hn
  refine .node hnd (.block hs hplaced fun blk _ => .valueType htype ?_)
  generalize blk.isProcedural = procedural
  refine .declareFor hs rfl hplaced (by cases procedural <;> rfl) htype hname
    fun decl storage stype s₁ hget hc hl₁ => ?_
  have hs₁ := hl₁.orderly
  refine .value hs₁ (hc.usable husable) fun x hx hmem _ => ?_
  have hstorage : s₁.module.Usable storage := hc.usable_result (i := 0) rfl
  have hnodup := hs₁.uses_nodup hx
  refine .bind (readsFor_keeps hs₁ (fun u hu => (hmem u).1 hu) hnodup
    (hc.kept.type? htype) hstorage) fun _ s₂ hrun hl₂ => ?_
  have hreads := readsFor_runs hs₁.sound (fun u hu => (hmem u).1 hu) hnodup hstorage hrun
  have hs₂ := hl₂.orderly
  obtain ⟨ops, hid₂⟩ := hreads.live (hc.live hn)
  obtain ⟨ops', hdecl₂⟩ := hreads.live hc.live?_self
  have hafter := hs₂.sound.in_after hid₂
  have hplaced₂ := hs₂.placed hid₂
  refine .connect hs₂ hafter hplaced₂ (by cases procedural <;> simp) (hreads.usable hstorage) (hreads.usable (hc.usable husable))
    (hreads.kept.type? (hc.type?_result (i := 0) rfl)) (hreads.kept.types hget)
    (hreads.kept.type? (hc.kept.type? htype)) fun conn s₃ hconn hl₃ => ?_
  have hs₃ := hl₃.orderly
  cases atFront with
  | true => exact .counts hs₃ fun s => { s with temporaries := s.temporaries + 1 }
  | false =>
    have hid₃ := hconn.live hid₂
    have hne : id ≠ decl := hc.ne hn
    refine .moveNode hs₃ (hconn.live hdecl₂) rfl (hs₃.sound.in_after hid₃) (hs₃.placed hid₃) (by simp)
      (by simpa using hne) fun s₄ _ hl₄ => .counts hl₄.orderly _

theorem spill_keeps {atFront : Bool} (hs : s.Orderly) (hn : s.module.live? id = some n) :
    (spill id atFront).Keeps env s := by
  obtain ⟨nd, hnd, -, rfl⟩ := Module.exists_of_live? hn
  refine .node hnd ?_
  split
  · next v hv =>
    have hmem : v ∈ nd.core.results := by simp [Node.core, hv]
    have husable := hs.usable_of_mem_results hn hmem
    refine .bind (structuralName?_keeps hs husable) fun name s₁ hrun hl₁ => ?_
    have hmodule := (Silent.structuralName? v).module_eq hrun
    have hknows := fun x => structuralName?_knows hs husable hrun (x := x)
    refine .setName hl₁.orderly (hmodule ▸ Module.lt_of_live? hn) (by simp) fun s₂ hr hl₂ => ?_
    rw [hmodule] at hr
    exact spillResult_keeps hl₂.orderly (hr.live hn) (by simpa using hmem)
      fun x hx => hl₂.names (hknows x hx)
  · refine .forM (P := fun s => ∃ n, s.module.live? id = some n ∧ n.results = nd.results) hs
      ⟨nd.core, hn, rfl⟩ fun v hv s hs hlive => ?_
    obtain ⟨n, hn, hresults⟩ := hlive
    have hmem : v ∈ n.results := hresults ▸ hv
    refine ⟨spillResult_keeps hs hn hmem (by simp), fun s' hrun _ => ?_⟩
    obtain ⟨ops, hn'⟩ := (spillResult_runs hs.sound hn hmem hrun).live hn
    exact ⟨_, hn', hresults⟩

/-! ## Using an assignment that is there -/

theorem readsSettled_keeps (ho : env.oracle = .systemVerilog) {storage : ValueId} {type : TypeId}
    {loc : Loc} {us : List Use} (hs : s.Orderly) (hn : s.module.live? id = some n)
    (hop : n.op.isAlwaysInline = false) (hv : v ∈ n.results) (hus : ∀ u ∈ us, s.module.Uses u v)
    (hnd : us.Nodup) (htype : s.module.type? v = some type) (hstorage : s.module.Usable storage) :
    (us.forM fun u => do inlineEverywhere (← readFor u storage type loc)).Keeps env s := by
  induction us generalizing s n with
  | nil => exact .pure hs ()
  | cons u us ih =>
    change ((readFor u storage type loc >>= inlineEverywhere) >>= fun _ => us.forM _).Keeps env s
    rw [bind_assoc]
    obtain ⟨hu, hnd⟩ := List.nodup_cons.1 hnd
    refine .readFor hs (hus u (by simp)) htype hstorage fun read s₁ hread hl₁ => ?_
    refine .bind (inlineEverywhere_keeps ho hl₁.orderly hread.isInline) fun _ s₂ hrun hl₂ => ?_
    have hsettle := inlineEverywhere_runs ho hread.sound hread.isInline hrun
    obtain ⟨ops, hn₁⟩ := hread.live hn
    obtain ⟨n₂, hn₂, hop₂, hres₂, -⟩ := hsettle.inlines.live hn₁
    obtain ⟨i, hdef⟩ := hs.exists_def hn hv
    refine ih hl₂.orderly hn₂ (hop₂ ▸ hop) (hres₂ ▸ hv) (fun w hw => ?_) hnd
      ((hread.kept.trans hsettle.inlines.kept).type? htype) (hsettle.inlines.usable (hread.usable hstorage))
    have hw₁ := hread.uses (hus w (List.mem_cons_of_mem _ hw)) fun he => hu (he ▸ hw)
    exact hsettle.inlines.uses hread.sound (hread.kept.def? hdef)
      (Module.core_of_live? hn₁) hop hw₁

theorem reuseAssigned_keeps (ho : env.oracle = .systemVerilog) (hs : s.Orderly)
    (hn : s.module.live? id = some n) (hop : n.op.isAlwaysInline = false) :
    (reuseAssigned id).Keeps env s := by
  obtain ⟨nd, hnd, -, rfl⟩ := Module.exists_of_live? hn
  refine .node hnd ?_
  split
  · next result hresult =>
    have hmem : result ∈ nd.core.results := by simp [Node.core, hresult]
    have hnot : (pure false : Prep Bool).Keeps env s := .pure hs false
    obtain ⟨d, hd, -⟩ := hs.usable_of_mem_results hn hmem
    obtain ⟨x, hx, -⟩ := Option.map_eq_some_iff.1 hd
    have huses : ∀ u, u ∈ x.uses ↔ s.module.Uses u result := fun u => hs.mem_uses hx
    refine .ask (.bind_eq (Module.value_eq_ok_iff.2 hx)
      (hs.splitAssignment_tame fun u hu => ⟨result, (huses u).1 hu⟩)) fun r hr => ?_
    rw [Module.value_eq_ok_iff.2 hx, ok_bind] at hr
    split
    · next a others =>
      obtain ⟨na, hna, hone⟩ := singleAssignment_of_split hs.sound hx hr
      -- The assignment connects its target to a value of the type of the result.
      have hsource : s.module.Uses ⟨a, 1⟩ result := ⟨_, hone.live, hone.source⟩
      obtain ⟨target, source, stype, type, hops, hstype, htype, hget⟩ :=
        hs.exists_assign hone.live hone.op
      obtain rfl : result = source := by
        have hslot := hone.source
        rw [hops] at hslot
        exact (Option.some.inj hslot).symm
      have htarget : s.module.Uses ⟨a, 0⟩ target := ⟨_, hone.live, by rw [hops]; rfl⟩
      split
      · exact hnot
      · refine .operand hsource (.definingOp? (hs.usable hsource) fun op => ?_)
        split
        · exact hnot
        · refine .operand htarget (.elementTypeOf hstype hget (.node hna ?_))
          have husable := hs.usable htarget
          have hothers : ∀ u ∈ others, s.module.Uses u result := fun u hu =>
            ((hone.mem_iff u).1 hu).1
          refine .bind (readsSettled_keeps ho hs hn hop hmem hothers hone.nodup htype husable)
            fun _ s₁ hrun hl => ?_
          obtain ⟨i, hdef⟩ := hs.exists_def hn hmem
          have hreads := readsSettled_runs ho hs.sound hdef
            (Module.core_of_live? hn) hop hothers hone.nodup husable hrun
          have hs₁ := hl.orderly
          have hend : ∀ {s : State}, s.Orderly →
              (count (fun s => { s with reused := s.reused + 1 }) >>= fun _ =>
                pure true : Prep Bool).Keeps env s := fun hs =>
                .count hs fun hs => .pure hs true
          refine .definingNode? (hreads.usable husable) (hend hs₁) fun decl ndecl _ _ hdecl => ?_
          obtain ⟨nd', hnd', -⟩ := Module.exists_of_live? hdecl
          refine .isAlwaysInline ho hnd' ?_
          split
          · next hin =>
            exact .bind (inlineEverywhere_keeps ho hs₁ ⟨_, Module.core_of_node? hnd', hin⟩)
              fun _ _ _ hl₂ => hend hl₂.orderly
          · exact hend hs₁
    · exact hnot
  · exact .pure hs false

end Prep

end NetPrep
