import Mathlib
import NetPrep.Proofs.Inlining
import NetPrep.Proofs.Naming
import NetPrep.Proofs.Nesting

/-!
# Temporaries

Giving a value a declaration of its own, as edits of a sound module: the declaration, a read for each
use, and the connection that stores the value.
-/

namespace NetPrep

open Prepare Prep

namespace Module

variable {m m' m'' : Module}

/-- A use of a value reads storage instead. -/
inductive ReadFor (old storage : ValueId) (type : TypeId) (loc : Loc) (u : Use) (read : NodeId)
    (m m' : Module) : Prop
  | mk {nu : Node} {value : ValueId} {m₁ : Module} (hu : m.Uses u old)
      (hnu : m.live? u.node = some nu)
      (hc : m.Creates m₁ nu.parent (.before u.node) read
        (.fresh .read [storage] [value] nu.parent loc) [type])
      (hs₁ : Sound m₁) (hr : m₁.Redirects m' (pointAt u value)) (hs : Sound m')

namespace ReadFor

variable {old storage : ValueId} {type : TypeId} {loc : Loc} {u w : Use} {v : ValueId}
  {read : NodeId}

theorem kept (h : ReadFor old storage type loc u read m m') : m.Kept m' := by
  obtain ⟨-, -, hc, -, hr, -⟩ := h
  exact hc.kept.trans hr.kept

theorem edits (h : ReadFor old storage type loc u read m m') : Edits m m' := by
  obtain ⟨-, -, hc, hs₁, hr, hs⟩ := h
  exact (hc.edits hs₁).trans (hr.edits hs)

theorem sound (h : ReadFor old storage type loc u read m m') : Sound m' := by
  obtain ⟨-, -, -, -, -, hs⟩ := h
  exact hs

/-- Another use than the one that reads storage stays a use. -/
theorem uses (h : ReadFor old storage type loc u read m m') (hw : m.Uses w v) (hne : w ≠ u) :
    m'.Uses w v := by
  obtain ⟨hu, -, hc, -, hr, -⟩ := h
  rw [hr.uses_pointAt_iff (hc.uses_iff.2 (Or.inl hu)), if_neg hne]
  exact hc.uses_iff.2 (Or.inl hw)

theorem usable (h : ReadFor old storage type loc u read m m') (hv : m.Usable v) : m'.Usable v := by
  obtain ⟨-, -, hc, -, hr, -⟩ := h
  exact hr.usable (hc.usable hv)

theorem live (h : ReadFor old storage type loc u read m m') {j : NodeId} {n : Node}
    (hj : m.live? j = some n) : ∃ ops, m'.live? j = some { n with operands := ops } := by
  obtain ⟨-, -, hc, -, hr, -⟩ := h
  exact ⟨_, hr.live (hc.live hj)⟩

theorem isInline (h : ReadFor old storage type loc u read m m') : IsInline m' read := by
  obtain ⟨-, -, hc, -, hr, -⟩ := h
  exact ⟨_, core_of_live? (hr.live hc.live?_self), rfl⟩

end ReadFor

/-- Uses of a value read storage instead, one after another. -/
inductive ReadsFor (old storage : ValueId) (type : TypeId) (loc : Loc) :
    List Use → Module → Module → Prop
  | nil (m : Module) : ReadsFor old storage type loc [] m m
  | cons {u : Use} {us : List Use} {read : NodeId} {m m₁ m' : Module}
      (h : ReadFor old storage type loc u read m m₁)
      (hrest : ReadsFor old storage type loc us m₁ m') :
      ReadsFor old storage type loc (u :: us) m m'

theorem ReadsFor.kept {old storage : ValueId} {type : TypeId} {loc : Loc} {us : List Use}
    (h : ReadsFor old storage type loc us m m') : m.Kept m' := by
  induction h with
  | nil => exact .refl _
  | cons h _ ih => exact h.kept.trans ih

theorem ReadsFor.sound {old storage : ValueId} {type : TypeId} {loc : Loc} {us : List Use}
    (h : ReadsFor old storage type loc us m m') (hs : Sound m) : Sound m' := by
  induction h with
  | nil => exact hs
  | cons h _ ih => exact ih h.sound

theorem ReadsFor.edits {old storage : ValueId} {type : TypeId} {loc : Loc} {us : List Use}
    (h : ReadsFor old storage type loc us m m') (hs : Sound m) : Edits m m' := by
  induction h with
  | nil => exact .refl hs
  | cons h _ ih => exact h.edits.trans (ih h.sound)

theorem ReadsFor.live {old storage : ValueId} {type : TypeId} {loc : Loc} {us : List Use}
    {j : NodeId} {n : Node} (h : ReadsFor old storage type loc us m m') (hj : m.live? j = some n) :
    ∃ ops, m'.live? j = some { n with operands := ops } := by
  induction h generalizing n with
  | nil => exact ⟨_, hj⟩
  | cons h _ ih =>
    obtain ⟨ops, hj'⟩ := h.live hj
    have hrest := ih hj'
    exact hrest

theorem ReadsFor.usable {old storage v : ValueId} {type : TypeId} {loc : Loc} {us : List Use}
    (h : ReadsFor old storage type loc us m m') (hv : m.Usable v) : m'.Usable v :=
  hv.mono h.kept fun hj => by
    obtain ⟨ops, hj'⟩ := h.live hj
    exact ⟨_, hj'⟩

end Module

namespace Prep

variable {env : Env} {s s' : State} {old storage : ValueId} {type : TypeId} {loc : Loc}

/-- Letting one use read storage. -/
theorem readFor_eq {u : Use} {read : NodeId} (hs : Sound s.module) (hu : s.module.Uses u old)
    (hstorage : s.module.Usable storage)
    (h : (readFor u storage type loc).Runs env s read s') :
    s.module.ReadFor old storage type loc u read s'.module := by
  obtain ⟨nu, hnu, hslot⟩ := hu
  obtain ⟨value, m₁, hc, hs₁, -, hr, hs'⟩ := readFor_runs hs hnu hstorage h
  exact ⟨⟨nu, hnu, hslot⟩, hnu, hc, hs₁, hr, hs'⟩

theorem readsFor_runs {us : List Use} {r : Unit} (hs : Sound s.module)
    (hus : ∀ u ∈ us, s.module.Uses u old) (hnd : us.Nodup) (hstorage : s.module.Usable storage)
    (h : (us.forM fun u => do let _ ← readFor u storage type loc).Runs env s r s') :
    s.module.ReadsFor old storage type loc us s'.module := by
  induction us generalizing s with
  | nil =>
    obtain rfl := runs_forM_nil.1 h
    exact .nil _
  | cons u us ih =>
    obtain ⟨s₁, h₁, h₂⟩ := runs_forM_cons.1 h
    simp only [runs_bind, runs_pure] at h₁
    obtain ⟨read, _, h₁, -, rfl⟩ := h₁
    have hread := readFor_eq hs (hus u (by simp)) hstorage h₁
    obtain ⟨hu, hnd⟩ := List.nodup_cons.1 hnd
    refine .cons hread (ih hread.sound (fun w hw => ?_) hnd (hread.usable hstorage) h₂)
    exact hread.uses (hus w (List.mem_cons_of_mem _ hw)) fun he => hu (he ▸ hw)

end Prep

namespace Module

/-- The operations that declare and connect a temporary in a block. -/
def temporaryOps (m : Module) (b : BlockId) : Op × Op :=
  if m.kind? b = some .procedural then (.logic, .blockingAssign) else (.wire, .assign)

theorem temporaryOps_cases (m : Module) (b : BlockId) :
    m.temporaryOps b = (.logic, .blockingAssign) ∨ m.temporaryOps b = (.wire, .assign) := by
  unfold temporaryOps
  split
  · exact Or.inl rfl
  · exact Or.inr rfl

/-- The operations of a temporary have no regions. -/
theorem temporaryOps_regionKinds (m : Module) (b : BlockId) :
    (m.temporaryOps b).1.regionKinds = [] ∧ (m.temporaryOps b).2.regionKinds = [] := by
  obtain h | h := m.temporaryOps_cases b <;> exact h ▸ ⟨rfl, rfl⟩

/-- A result of a node flows into a declaration with a name, and its uses read that. -/
inductive SpillsResult (id : NodeId) (result : ValueId) (name : Option Name) (atFront : Bool)
    (m m' : Module) : Prop
  | mk {n : Node} {type stype : TypeId} {decl conn : NodeId}
      {storage : ValueId} {uses : List Use} {m₁ m₂ m₃ : Module} (hn : m.live? id = some n)
      (hres : result ∈ n.results) (htype : m.type? result = some type)
      (hdecl : m.Creates m₁ n.parent (.front n.parent) decl
        { Node.fresh (m.temporaryOps n.parent).1 [] [storage] n.parent n.loc with name } [stype])
      (hstype : m₁.types.get stype = .ok (.storage type)) (hs₁ : Sound m₁)
      (huses : ∀ u, u ∈ uses ↔ m₁.Uses u result) (hnd : uses.Nodup)
      (hreads : ReadsFor result storage type n.loc uses m₁ m₂)
      (hconn : m₂.Creates m₃ n.parent (.after id) conn
        (.fresh (m.temporaryOps n.parent).2 [storage, result] [] n.parent n.loc) [])
      (hs₃ : Sound m₃)
      (hmove : if atFront then m' = m₃ else m₃.Moves m' n.parent (.after id) decl ∧ Sound m')

/-- The results of a node flow into declarations one after another. -/
inductive SpillsResults (id : NodeId) (atFront : Bool) : List ValueId → Module → Module → Prop
  | nil (m : Module) : SpillsResults id atFront [] m m
  | cons {v : ValueId} {vs : List ValueId} {m m₁ m' : Module}
      (h : SpillsResult id v none atFront m m₁) (hrest : SpillsResults id atFront vs m₁ m') :
      SpillsResults id atFront (v :: vs) m m'

/-- A node flows into declarations; a single one takes its name. -/
inductive Spills (id : NodeId) (atFront : Bool) (m m' : Module) : Prop
  | single {n : Node} {v : ValueId} {name : Option Name} {m₁ : Module} (hn : m.live? id = some n)
      (hv : n.results = [v]) (hl : m.Relabels m₁ id (fun _ => none) (fun t => t)) (hs₁ : Sound m₁)
      (h : SpillsResult id v name atFront m₁ m') (hname : ∀ hint, n.name = some hint → name = some hint)
  | all {n : Node} (hn : m.live? id = some n) (h : SpillsResults id atFront n.results m m')
      (hmany : ∀ v, n.results ≠ [v])

variable {m m' : Module} {id : NodeId} {v : ValueId} {name : Option Name} {atFront : Bool}

theorem SpillsResult.kept (h : m.SpillsResult id v name atFront m') : m.Kept m' := by
  obtain ⟨-, -, -, hdecl, -, -, -, -, hreads, hconn, -, hmove⟩ := h
  have hkept := (hdecl.kept.trans hreads.kept).trans hconn.kept
  cases atFront with
  | true => exact hmove ▸ hkept
  | false => exact hkept.trans hmove.1.kept

theorem SpillsResult.sound (h : m.SpillsResult id v name atFront m') : Sound m' := by
  obtain ⟨-, -, -, -, -, -, -, -, -, -, hs₃, hmove⟩ := h
  cases atFront with
  | true => exact hmove ▸ hs₃
  | false => exact hmove.2

theorem SpillsResult.edits (h : m.SpillsResult id v name atFront m') : Edits m m' := by
  obtain ⟨-, -, -, hdecl, -, hs₁, -, -, hreads, hconn, hs₃, hmove⟩ := h
  have h₃ := ((hdecl.edits hs₁).trans (hreads.edits hs₁)).trans (hconn.edits hs₃)
  cases atFront with
  | true => exact hmove ▸ h₃
  | false =>
    obtain ⟨ops, hd⟩ := hreads.live hdecl.live?_self
    exact h₃.trans (hmove.1.edits hs₃ hmove.2 (hconn.live hd) (m.temporaryOps_regionKinds _).1)

theorem SpillsResults.edits {vs : List ValueId} (h : SpillsResults id atFront vs m m')
    (hs : Sound m) : Edits m m' := by
  induction h with
  | nil => exact .refl hs
  | cons h _ ih => exact h.edits.trans (ih h.sound)

theorem Spills.edits (h : m.Spills id atFront m') (hs : Sound m) : Edits m m' := by
  cases h with
  | single _ _ hl hs₁ h => exact (hl.edits hs₁).trans h.edits
  | all _ h => exact h.edits hs

/-- A node that is there changes its operands at most. -/
theorem SpillsResult.live {j : NodeId} {n : Node} (h : m.SpillsResult id v name atFront m')
    (hj : m.live? j = some n) : ∃ ops, m'.live? j = some { n with operands := ops } := by
  obtain ⟨-, -, -, hdecl, -, -, -, -, hreads, hconn, -, hmove⟩ := h
  obtain ⟨ops, hj₂⟩ := hreads.live (hdecl.live hj)
  have hj₃ := hconn.live hj₂
  cases atFront with
  | true => exact ⟨ops, hmove ▸ hj₃⟩
  | false =>
    refine ⟨ops, ?_⟩
    rw [hmove.1.live hj₃, if_neg (hdecl.ne hj)]

theorem SpillsResults.live {j : NodeId} {n : Node} {vs : List ValueId}
    (h : SpillsResults id atFront vs m m') (hj : m.live? j = some n) :
    ∃ ops, m'.live? j = some { n with operands := ops } := by
  induction h generalizing n with
  | nil => exact ⟨_, hj⟩
  | cons h _ ih =>
    obtain ⟨ops, hj₁⟩ := h.live hj
    have hrest := ih hj₁
    exact hrest

/-- Spilling a node keeps every node in its place. -/
theorem Spills.live {j : NodeId} {n : Node} (h : m.Spills id atFront m')
    (hj : m.live? j = some n) : ∃ n', m'.live? j = some n' ∧ n'.op = n.op ∧
      n'.results = n.results ∧ n'.parent = n.parent := by
  cases h with
  | single hn hv hl hs₁ h =>
    obtain ⟨ops, hj'⟩ := h.live (hl.live hj)
    exact ⟨_, hj', rfl, rfl, rfl⟩
  | all hn h =>
    obtain ⟨ops, hj'⟩ := h.live hj
    exact ⟨_, hj', rfl, rfl, rfl⟩

end Module

namespace Prep

variable {env : Env} {s s' : State} {id : NodeId} {result : ValueId} {n : Node}

theorem spillResult_runs {name : Option Name} {atFront : Bool} {r : Unit} (hs : Sound s.module)
    (hn : s.module.live? id = some n) (hres : result ∈ n.results)
    (h : (spillResult id result name atFront).Runs env s r s') :
    s.module.SpillsResult id result name atFront s'.module := by
  simp only [spillResult, runs_bind, runs_node, runs_query, Module.block_eq_ok_iff,
    valueType_eq_ok_iff, Module.value_eq_ok_iff] at h
  obtain ⟨nd, _, ⟨hnd, rfl⟩, blk, _, ⟨hblk, rfl⟩, type, _, ⟨htype, rfl⟩, ⟨decl, storage⟩, s₁, hdecl,
    x, _, ⟨hx, rfl⟩, _, s₂, hreads, conn, s₃, hconn, hrest⟩ := h
  obtain ⟨nd', hnd', -, rfl⟩ := Module.exists_of_live? hn
  obtain rfl : nd = nd' := by simpa using hnd.symm.trans hnd'
  have hops : s.module.temporaryOps nd.parent =
      (if blk.isProcedural then (Op.logic, Op.blockingAssign) else (.wire, .assign)) := by
    unfold Module.temporaryOps
    simp only [← block_isProcedural_iff hblk]
  have hop₁ : (if blk.isProcedural then Op.logic else Op.wire) =
      (s.module.temporaryOps nd.parent).1 := by
    rw [hops]
    split <;> rfl
  have hop₂ : (if blk.isProcedural then Op.blockingAssign else Op.assign) =
      (s.module.temporaryOps nd.parent).2 := by
    rw [hops]
    split <;> rfl
  rw [hop₁] at hdecl
  rw [hop₂] at hconn
  obtain ⟨hreg₁, hreg₂⟩ := s.module.temporaryOps_regionKinds nd.parent
  have hplaced := hs.placed hn
  obtain ⟨vtype, stype, hvtype, hstype, hc₁, hs₁⟩ :=
    declareFor_runs hs (p := .front nd.parent) (b := nd.parent) rfl hplaced hreg₁ hdecl
  obtain rfl := Option.some.inj (hvtype.symm.trans htype)
  have huses : ∀ u, u ∈ x.uses ↔ s₁.module.Uses u result := fun u => hs₁.mem_uses hx
  have hstorage : s₁.module.Usable storage := hc₁.usable_result (i := 0) rfl
  have hr := readsFor_runs hs₁ (fun u hu => (huses u).1 hu) (hs₁.uses_nodup hx) hstorage hreads
  have hs₂ := hr.sound hs₁
  obtain ⟨ops, hid₂⟩ := hr.live (hc₁.live hn)
  have hresult : s₂.module.Usable result := by
    obtain ⟨i, hdef⟩ := hs.exists_def hn hres
    refine ⟨_, hr.kept.def? (hc₁.kept.def? hdef), fun he => ?_⟩
    cases he
    exact ⟨_, hid₂⟩
  obtain ⟨hc₃, hs₃⟩ := createStatement_runs hs₂ (hs₂.in_after hid₂) (hs₂.placed hid₂) hreg₂
    (by simpa using ⟨hr.usable hstorage, hresult⟩) hconn
  refine .mk hn hres htype hc₁ hstype hs₁ huses (hs₁.uses_nodup hx) hr hc₃ hs₃ ?_
  cases atFront with
  | true =>
    obtain ⟨-, -, -, rfl⟩ := by simpa using hrest
    rfl
  | false =>
    simp only [Bool.not_false, if_true, runs_bind, runs_edit, runs_count] at hrest
    obtain ⟨_, _, ⟨m₄, hmove, rfl⟩, rfl⟩ := hrest
    obtain ⟨ops', hdecl₂⟩ := hr.live hc₁.live?_self
    have hne : id ≠ decl := hc₁.ne hn
    have hid₃ := hc₃.live hid₂
    have hafter := hs₃.in_after hid₃
    have hplaced₃ := hs₃.placed hid₃
    exact hs₃.moveNode (hc₃.live hdecl₂) rfl hafter hplaced₃ (by simp) (by simpa using hne) hmove

/-- The name for the temporary of a node with a hint is the hint. -/
theorem structuralName?_of_hint {name : Option Name} {hint : Name} (hs : Sound s.module)
    (hn : s.module.live? id = some n) (hres : result ∈ n.results) (hhint : n.name = some hint)
    (h : (structuralName? result).Runs env s name s') : name = some hint := by
  obtain ⟨nd, hnd, -, rfl⟩ := Module.exists_of_live? hn
  obtain ⟨i, hdef⟩ := hs.toWellFormed.exists_def hn hres
  simp only [structuralName?, runs_bind, runs_query] at h
  obtain ⟨_, _, ⟨hd, rfl⟩, h⟩ := h
  obtain rfl := Except.ok.inj ((Module.definingNode?_eq_some_iff.2 ⟨i, hdef⟩).symm.trans hd)
  simp only [runs_bind, runs_node] at h
  obtain ⟨nd', _, ⟨hnd', rfl⟩, h⟩ := h
  obtain rfl := Option.some.inj (hnd.symm.trans hnd')
  rw [show nd.name = some hint from hhint] at h
  exact (runs_pure.1 h).1.symm

theorem spill_runs {atFront : Bool} {r : Unit} (hs : Sound s.module)
    (hn : s.module.live? id = some n) (h : (spill id atFront).Runs env s r s') :
    s.module.Spills id atFront s'.module := by
  obtain ⟨nd, hnd, -, rfl⟩ := Module.exists_of_live? hn
  simp only [spill, runs_bind, runs_node] at h
  obtain ⟨nd', _, ⟨hnd', rfl⟩, h⟩ := h
  obtain rfl : nd = nd' := by simpa using hnd.symm.trans hnd'
  split at h
  · next v hv =>
    simp only [runs_bind, runs_edit] at h
    obtain ⟨name, s₁, hname, _, _, ⟨m₂, hm₂, rfl⟩, h⟩ := h
    have hmodule := (Silent.structuralName? v).module_eq hname
    rw [hmodule] at hm₂
    obtain ⟨hl, hs₂⟩ := hs.setName hm₂
    have hmem : v ∈ nd.core.results := by simp [Node.core, hv]
    exact .single hn hv hl hs₂ (spillResult_runs (s := { s₁ with module := m₂ }) hs₂ (hl.live hn) hmem h)
      fun hint hhint => structuralName?_of_hint hs hn hmem hhint hname
  · next hmany =>
    have hall : ∀ {vs : List ValueId} {s : State} {n : Node}, Sound s.module →
        s.module.live? id = some n → (∀ v ∈ vs, v ∈ n.results) →
        (vs.forM fun v => spillResult id v none atFront).Runs env s r s' →
        s.module.SpillsResults id atFront vs s'.module := by
      intro vs
      induction vs with
      | nil =>
        intro s n _ _ _ h
        obtain rfl := runs_forM_nil.1 h
        exact .nil _
      | cons v vs ih =>
        intro s n hs hn hvs h
        obtain ⟨s₁, h₁, h₂⟩ := runs_forM_cons.1 h
        have hspill := spillResult_runs hs hn (hvs v (by simp)) h₁
        obtain ⟨ops, hn₁⟩ := hspill.live hn
        have hrest := ih hspill.sound hn₁ (fun w hw => hvs w (List.mem_cons_of_mem _ hw)) h₂
        exact .cons hspill hrest
    exact .all hn (hall hs hn (fun v hv => hv) h) hmany

end Prep

end NetPrep
