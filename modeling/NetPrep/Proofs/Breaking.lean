import Mathlib
import NetPrep.Proofs.Integrity
import NetPrep.Proofs.Scope
import NetPrep.Proofs.Unfailing

/-!
# Breaking forward references

Breaking the forward references of a block leaves no use in it that comes before the definition. It
takes the declaration that an early read is of along to the front of the block, also out of a block
further out; where such a declaration is used in its new block only, every use stays in the block of
the definition or further in.
-/

namespace NetPrep

open Prepare Prep

namespace Module

variable {m m' : Module} {d id decl : NodeId} {n nd : Node} {b block : BlockId} {ids : List NodeId}
  {u : Use} {v : ValueId} {P Q : NodeId → Prop}

/-! ## Order -/

/-- A block some of whose nodes, those listed, may still be used early. -/
structure Breaking (block : BlockId) (ids : List NodeId) (m : Module) : Prop extends Sound m where
  candid : m.Candid
  here : ∀ {j}, j ∈ ids → j ∈ m.nodesOf block
  early : ∀ {u v d}, m.Early block u v d → d ∈ ids

theorem Placeable.not_user (hm : m.Candid) (hn : m.live? id = some n) (hp : m.Placeable n)
    (hu : m.Uses u v) : u.node ≠ id := by
  rintro rfl
  obtain ⟨nu, hnu, hget⟩ := hu
  obtain rfl := Option.some.inj (hn.symm.trans hnu)
  rw [(hm hn).alone ((hm hn).placeable_iff.1 hp)] at hget
  cases hget

/-- Resolving a node makes no use early, and its own uses are not early then. -/
theorem Resolves.early (h : m.Resolves block id m') (hm : Breaking block (id :: ids) m)
    (he : m'.Early block u v d) : d ≠ id ∧ m.Early block u v d := by
  have hs := hm.toSound
  cases h with
  | front hn hplace hmove hs' =>
    refine (hmove.early_cases hs hn (hs.regions_of_placeable hn hplace) he).resolve_right ?_
    exact hplace.not_user hm.candid hn (hmove.uses_iff.1 he.uses)
  | @read n nd decl storage i m₁ hn hop hstorage hdef hd hplace hm₁ hs₁ hmove hs' =>
    have hu := hmove.uses_iff.1 he.uses
    have hreg := hs.regions_of_placeable hd hplace
    obtain ⟨hne, he₁⟩ := (hmove.early_cases hs₁ (hm₁.live hd) hreg he).resolve_right
      (hplace.not_user hm.candid hd (hm₁.uses_iff.1 hu))
    refine (hm₁.early_cases hs hn (hs.toNested.regions_eq_nil hn (by rw [hop]; rfl)) he₁).resolve_right
      fun huser => hne ?_
    -- The read uses nothing but the declaration, which is in front of it.
    obtain ⟨nu, hnu, hget⟩ := hm₁.uses_iff.1 hu
    rw [huser] at hnu
    obtain rfl := Option.some.inj (hn.symm.trans hnu)
    obtain ⟨w, hw⟩ := (hm.candid hn).read hop
    have hmem := List.mem_of_getElem? hget
    rw [hw] at hstorage hmem
    obtain rfl : w = storage := by simpa using hstorage
    obtain rfl := List.mem_singleton.1 hmem
    obtain ⟨j, a, hdef', -⟩ := he
    rw [hmove.def?, hm₁.def?, hdef] at hdef'
    cases hdef'
    rfl
  | spill hnot h => exact h.early hs (hm.here List.mem_cons_self) he

theorem Resolves.breaking (h : m.Resolves block id m') (hm : Breaking block (id :: ids) m) :
    Breaking block ids m' where
  toSound := (h.edits hm.toSound).sound
  candid := by
    cases h with
    | front _ _ hmove _ => exact hmove.candid hm.candid
    | read _ _ _ _ _ _ hm₁ _ hmove _ => exact hmove.candid (hm₁.candid hm.candid)
    | spill _ h => exact h.candid hm.candid
  here hj := by
    obtain ⟨n, hn, hp⟩ := hm.toWellFormed.mem_nodesOf_iff.1 (hm.here (List.mem_cons_of_mem _ hj))
    obtain ⟨n', hn', -, -, hp'⟩ := h.live hn
    exact (h.edits hm.toSound).sound.toWellFormed.mem_nodesOf_iff.2
      ⟨n', hn', hp'.elim (·.trans hp) fun h => h⟩
  early he := by
    obtain ⟨hne, he₀⟩ := h.early hm he
    exact (List.mem_cons.1 (hm.early he₀)).resolve_left hne

/-- After the run, no use is early. -/
theorem ResolvesAll.breaking (h : ResolvesAll block ids m m') (hm : Breaking block ids m) :
    Breaking block [] m' := by
  induction h with
  | nil => exact hm
  | cons h _ ih => exact ih (h.breaking hm)

/-! ## Scope -/

/-- What a node computes is used in a block only, or further in. -/
def OnlyIn (m : Module) (block : BlockId) (d : NodeId) : Prop :=
  ∀ ⦃u v i nu⦄, m.Uses u v → m.def? v = some (.result d i) → m.live? u.node = some nu →
    m.Inside block nu.parent

/-- What some nodes read stands in a block, or is used in it only, if it can stand anywhere. -/
def Contained (m : Module) (block : BlockId) (P : NodeId → Prop) : Prop :=
  ∀ ⦃id n v d i nd⦄, P id → m.live? id = some n → n.op = .read → v ∈ n.operands →
    m.def? v = some (.result d i) → m.live? d = some nd → nd.op.standsAlone = true →
      nd.parent = block ∨ m.OnlyIn block d

theorem Contained.mono (h : m.Contained block P) (hPQ : ∀ j, Q j → P j) : m.Contained block Q :=
  fun _ _ _ _ _ _ hQ => h (hPQ _ hQ)

/-- A node comes into the block. -/
theorem Moves.contained {pos : Position} (h : m.Moves m' block pos id) (hn : m.live? id = some n)
    (hr : n.regions = []) (hc : m.Contained block P) : m'.Contained block P := by
  intro j nj v d i nd hP hj hop hv hdef hd hdecl
  obtain ⟨nj₀, hj₀, rfl⟩ := h.live_cases hj
  obtain ⟨nd₀, hd₀, rfl⟩ := h.live_cases hd
  rw [h.def?] at hdef
  by_cases hdid : d = id
  · exact Or.inl (if_pos hdid)
  · refine (hc hP hj₀ hop hv hdef hd₀ hdecl).imp (fun hp => (if_neg hdid).trans hp) fun honly => ?_
    intro u w k nu hu hw hnu
    obtain ⟨nu₀, hnu₀, rfl⟩ := h.live_cases hnu
    rw [h.uses_iff] at hu
    rw [h.def?] at hw
    by_cases huid : u.node = id
    · simpa [huid] using Inside.self
    · simpa [huid] using (h.sameTree hn hr).inside (honly hu hw hnu₀)

/-- Temporaries come into the block, and change the uses of no declaration. -/
theorem Spills.contained (h : m.Spills id true m') (hs : Sound m) (hn : m.live? id = some n)
    (hid : n.parent = block) (hop : n.op.standsAlone = false)
    (hP : ∀ j, P j → ∃ n, m.live? j = some n) (hc : m.Contained block P) :
    m'.Contained block P := by
  have he := h.edits hs
  -- A use of an old declaration is an old use.
  have hold : ∀ {u v d i nd nd'}, m'.Uses u v → m'.def? v = some (.result d i) →
      m.live? d = some nd → m'.live? d = some nd' → nd.op.standsAlone = true →
      m.def? v = some (.result d i) ∧ m.Uses u v := by
    intro u v d i nd nd' hu hdef hd hd' hdecl
    obtain ⟨nd₁, hd₁, -, hres, -⟩ := h.live hd
    obtain ⟨nd₂, hd₂, hget⟩ := he.sound.toWellFormed.definition hdef
    obtain rfl := Option.some.inj ((core_of_live? hd₁).symm.trans hd₂)
    have hdef₀ := hs.toWellFormed.result (core_of_live? hd) (hres ▸ hget)
    refine ⟨hdef₀, (h.uses_iff hs hn ⟨_, hdef₀, fun heq => ⟨nd, by cases heq; exact hd⟩⟩ ?_).1 hu⟩
    intro hmem
    obtain rfl := hs.toWellFormed.eq_of_def hn hmem hdef₀
    obtain rfl := Option.some.inj (hn.symm.trans hd)
    exact absurd (hop.symm.trans hdecl) Bool.false_ne_true
  intro j nj' v d i nd' hPj hj' hread hv hdef hd' hdecl
  obtain ⟨nd, hd⟩ | hp := h.back hn hd'
  · obtain ⟨nj, hj⟩ := hP j hPj
    obtain ⟨nj₁, hj₁, hopj, -, -⟩ := h.live hj
    obtain rfl := Option.some.inj (hj₁.symm.trans hj')
    obtain ⟨nd₁, hd₁, hopd, -, hpd⟩ := h.live hd
    obtain rfl := Option.some.inj (hd₁.symm.trans hd')
    obtain ⟨k, hk⟩ := exists_uses_of_mem hj' hv
    obtain ⟨hdef₀, nj₂, hj₂, hget⟩ := hold hk hdef hd hd' (hopd ▸ hdecl)
    obtain rfl := Option.some.inj (hj.symm.trans hj₂)
    refine (hc hPj hj (hopj ▸ hread) (List.mem_of_getElem? hget) hdef₀ hd (hopd ▸ hdecl)).imp
      (fun hp => hpd.trans hp) fun honly u w l nu hu hw hnu => ?_
    obtain ⟨hw₀, hu₀⟩ := hold hu hw hd hd' (hopd ▸ hdecl)
    have ⟨nu₀, hnu₀, _⟩ := hu₀
    obtain ⟨nu₁, hnu₁, -, -, hpu⟩ := h.live hnu₀
    obtain rfl := Option.some.inj (hnu₁.symm.trans hnu)
    exact hpu ▸ he.sameTree.inside (honly hu₀ hw₀ hnu₀)
  · exact Or.inl ((hp hdecl).trans hid)

/-- Resolving a node keeps every use in scope, as long as no declaration is taken away from its
users. -/
theorem Resolves.inScope (h : m.Resolves block id m') (hm : Breaking block (id :: ids) m)
    (hin : m.InScope) (hc : m.Contained block (· ∈ id :: ids)) :
    m'.InScope ∧ m'.Contained block (· ∈ ids) := by
  have hs := hm.toSound
  have hmono : ∀ {m : Module}, m.Contained block (· ∈ id :: ids) → m.Contained block (· ∈ ids) :=
    fun hc => hc.mono fun j hj => List.mem_cons_of_mem _ hj
  obtain ⟨n, hn, hp⟩ := hs.toWellFormed.mem_nodesOf_iff.1 (hm.here List.mem_cons_self)
  cases h with
  | front hn' hplace hmove hs' =>
    have hr := hs.regions_of_placeable hn' hplace
    obtain rfl := Option.some.inj (hn.symm.trans hn')
    exact ⟨hmove.inScope_of_parent hin hn hr hp, hmove.contained hn hr (hmono hc)⟩
  | @read n' nd decl storage i m₁ hn' hop hstorage hdef hd hplace hm₁ hs₁ hmove hs' =>
    obtain rfl := Option.some.inj (hn.symm.trans hn')
    have hr := hs.toNested.regions_eq_nil hn (by rw [hop]; rfl)
    have hrd := hs.regions_of_placeable hd hplace
    have hdef₁ := (hm₁.def? storage).trans hdef
    have hd₁ := hm₁.live hd
    have hin₁ := hm₁.inScope_of_parent hin hn hr hp
    have hc₁ := hm₁.contained hn hr hc
    refine ⟨?_, hmove.contained hd₁ hrd (hmono hc₁)⟩
    have halone := (hm.candid hd).placeable_iff.1 hplace
    obtain hpd | honly := hc₁ List.mem_cons_self (hm₁.live hn) hop
      (List.mem_of_getElem? hstorage) hdef₁ hd₁ halone
    · exact hmove.inScope_of_parent hin₁ hd₁ hrd hpd
    · refine hmove.inScope hin₁ hd₁ hrd (fun v hv => ?_) fun hu hw hnu => honly hu hw hnu
      rw [(hm.candid hd).alone halone] at hv
      cases hv
  | spill hnot h =>
    refine ⟨h.inScope hs hin, h.contained hs hn hp ?_ (fun j hj => ?_) (hmono hc)⟩
    · exact Bool.eq_false_of_not_eq_true fun ha => hnot n hn ((hm.candid hn).placeable_iff.2 ha)
    · obtain ⟨nj, hnj, -⟩ := hs.toWellFormed.mem_nodesOf_iff.1 (hm.here (List.mem_cons_of_mem _ hj))
      exact ⟨nj, hnj⟩

theorem ResolvesAll.inScope (h : ResolvesAll block ids m m') (hm : Breaking block ids m)
    (hin : m.InScope) (hc : m.Contained block (· ∈ ids)) : m'.InScope := by
  induction h with
  | nil => exact hin
  | cons h _ ih =>
    obtain ⟨hin₁, hc₁⟩ := h.inScope hm hin hc
    exact ih (h.breaking hm) hin₁ hc₁

/-- The declarations that early reads of a block are of stand in the block, or are used in it only. -/
def Secluded (m : Module) (block : BlockId) : Prop :=
  ∀ ⦃id n v d i nd⦄, m.UsedEarly block id → m.live? id = some n → n.op = .read → v ∈ n.operands →
    m.def? v = some (.result d i) → m.live? d = some nd → nd.op.isDeclaration = true →
      nd.parent = block ∨ m.OnlyIn block d

/-- Whether declarations are used in a block only. -/
def keepsDeclarations (m : Module) (block : BlockId) : Bool := m.nodeIds.all fun id =>
  match m.live? id with
  | some n => n.parent == block || n.operands.all fun v =>
    match m.def? v with
    | some (.result d _) => (m.live? d).all fun nd => !nd.op.isDeclaration
    | _ => true
  | none => true

theorem secluded_of_keepsDeclarations (h : m.keepsDeclarations block = true) :
    m.Secluded block := by
  intro _ _ _ d _ nd _ _ _ _ _ hd hdecl
  refine Or.inr fun u w j nu hu hdef hnu => ?_
  have ⟨nu', hnu', hget⟩ := hu
  obtain rfl := Option.some.inj (hnu.symm.trans hnu')
  have hcheck := List.all_eq_true.1 h u.node (mem_nodeIds_iff.2 (lt_of_live? hnu))
  rw [hnu, Bool.or_eq_true_iff, beq_iff_eq] at hcheck
  obtain rfl | hops := hcheck
  · exact .self
  · have hw := List.all_eq_true.1 hops w (List.mem_of_getElem? hget)
    simp [hdef, hd, hdecl] at hw

/-- No read is of a constant. -/
theorem Secluded.contained (h : m.Secluded block) (hm : WellTyped m) :
    m.Contained block (m.UsedEarly block) := by
  intro id n v d i nd hid hn hop hmem hdef hd halone
  refine h hid hn hop hmem hdef hd ((Bool.or_eq_true_iff.1 halone).resolve_left fun hc => ?_)
  obtain ⟨os, rs, hos, -, hfits⟩ := hm.typed hn
  rw [hop] at hfits
  obtain ⟨s, r, rfl, -, hst⟩ := TypeTable.fits_read hfits
  obtain ⟨type, hs, htype⟩ := exists_type_of_mem hos hmem
  obtain rfl := List.mem_singleton.1 hs
  obtain ⟨os', rs', -, hrs', hfits'⟩ := hm.typed hd
  obtain ⟨-, r', rfl, hint⟩ := TypeTable.fits_constant hc hfits'
  obtain ⟨nd', hd', hget⟩ := hm.definition hdef
  obtain rfl := Option.some.inj ((core_of_live? hd).symm.trans hd')
  obtain ⟨type', hr', htype'⟩ := exists_type_of_mem hrs' (List.mem_of_getElem? hget)
  obtain rfl := List.mem_singleton.1 hr'
  obtain rfl := Option.some.inj (htype.symm.trans htype')
  rw [TypeTable.elementOf?_of_isInt hint] at hst
  cases hst

theorem inScope_of_wellScoped (hm : WellScoped m) : m.InScope := by
  intro u v nu hu hnu d i nd hdef hd
  obtain ⟨nd', a, hd', haround, hmem, -⟩ := hm.inScope hu hdef
  obtain rfl := Option.some.inj (hd.symm.trans hd')
  obtain ⟨na, hna, hp⟩ := hm.toWellFormed.mem_nodesOf_iff.1 hmem
  exact hp ▸ haround.inside hna hnu

theorem breaking_of_wellTyped (hm : WellTyped m) (hids : outOfOrder m block = .ok ids) :
    Breaking block ids m where
  toSound := hm.toSound
  candid _ _ hn := (hm.typed hn).evident
  here hj := (outOfOrder_eq_ok hm.toSound hids).1.subset hj
  early he := ((outOfOrder_eq_ok hm.toSound hids).2 _).2 ((usedEarly_iff hm.toWellFormed).2 ⟨_, _, he⟩)

end Module

/-- Breaking the forward references of a block of a well-typed module stops for want of room at most. It
leaves no node of the block that is used before it, and if it takes no declaration away from nodes
outside the block that use it, every use is still in the block of its definition or further in. -/
theorem inOrder_of_resolveForwardReferences {env : Env} {s : State} {block : BlockId}
    (ho : env.oracle = .systemVerilog) (hw : WellTyped s.module) (ht : s.module.HasTypes)
    (hn : s.module.Named s.names) (hb : s.module.Placed block) :
    (∀ f, resolveForwardReferences block env s = .error f → f.IsLimit) ∧
    ∀ r s', resolveForwardReferences block env s = .ok (r, s') → r = .ok () ∧
      (∀ id, ¬ s'.module.UsedEarly block id) ∧
        (s.module.Secluded block → s.module.InScope → s'.module.InScope) := by
  have hkeeps := resolveForwardReferences_keeps ho (s.module.orderly_of_wellTyped hw ht hn) hb
  refine ⟨hkeeps.tame, fun r s' h => ?_⟩
  cases r with
  | error e => exact absurd h (Unfailing.resolveForwardReferences block env s e s')
  | ok r =>
    have hrun : (resolveForwardReferences block).Runs env s () s' := h
    simp only [resolveForwardReferences, runs_bind, runs_query] at hrun
    obtain ⟨ids, _, ⟨hids, rfl⟩, hrun⟩ := hrun
    obtain ⟨hsub, hmem⟩ := outOfOrder_eq_ok hw.toSound hids
    have hm := Module.breaking_of_wellTyped hw hids
    have hall := resolveForwardReferences_runs ho hw.toSound hb
      (fun j hj => hw.toSound.live_of_mem (hsub.subset hj)) hrun
    have hm' := hall.breaking hm
    refine ⟨rfl, fun id hearly => ?_, fun hsec hin => ?_⟩
    · obtain ⟨u, v, he⟩ := (Module.usedEarly_iff hm'.toWellFormed).1 hearly
      exact absurd (hm'.early he) List.not_mem_nil
    · exact hall.inScope hm hin ((hsec.contained hw).mono fun j hj => (hmem j).1 hj)

/-- Storage that is read in a conditional block before the read, and outside of it if wanted. -/
def Module.borrowed (outside : List Module.Sketch) : Module :=
  .sketch [.int 8, .storage ⟨0⟩] [(.input, 0), (.output, 0)]
    ([(.back ⟨0⟩, .wire, [], [1]), (.back ⟨0⟩, .ifdef ⟨3⟩, [], []), (.back ⟨1⟩, .read, [1], [0]),
      (.front ⟨1⟩, .xor, [2, 0], [0])] ++ outside ++ [(.back ⟨0⟩, .output, [0], [])])

def Module.borrowedState (outside : List Module.Sketch) : State :=
  ⟨.borrowed outside, Module.sketchNames, .zero⟩

def sketchEnv : Env := ⟨.default, .systemVerilog, "top", 32⟩

/-- The storage goes to the front of the only block that uses it. -/
theorem inOrder_borrowed : Valid (Module.borrowed []) ∧ (Module.borrowed []).HasTypes ∧
    (Module.borrowed []).Named Module.sketchNames ∧ (Module.borrowed []).Placed ⟨1⟩ ∧
      (Module.borrowed []).Secluded ⟨1⟩ ∧ ∃ s',
        resolveForwardReferences ⟨1⟩ sketchEnv (Module.borrowedState []) = .ok (.ok (), s') ∧
          s'.module.nodesOf ⟨1⟩ = [⟨0⟩, ⟨2⟩, ⟨3⟩] ∧ (∀ id, ¬ s'.module.UsedEarly ⟨1⟩ id) ∧
            s'.module.InScope := by
  have hv : Valid (Module.borrowed []) := valid_of_isValid (by decide +kernel)
  have ht : (Module.borrowed []).HasTypes := Module.hasTypes_of_check (by decide +kernel)
  have hn : (Module.borrowed []).Named Module.sketchNames :=
    Module.named_of_isNamed (by decide +kernel)
  have hb : (Module.borrowed []).Placed ⟨1⟩ :=
    Module.placed_of_reaches (show Module.reaches _ 2 _ = true by decide +kernel)
  have hsec : (Module.borrowed []).Secluded ⟨1⟩ :=
    Module.secluded_of_keepsDeclarations (by decide +kernel)
  obtain ⟨s', hs', hlist⟩ := exists_ok_of_leaves (p := fun m' => m'.nodesOf ⟨1⟩ == [⟨0⟩, ⟨2⟩, ⟨3⟩])
    (show leaves (resolveForwardReferences ⟨1⟩) sketchEnv (Module.borrowedState []) _ = true
      by decide +kernel)
  obtain ⟨-, hall⟩ := inOrder_of_resolveForwardReferences (s := Module.borrowedState [])
    (show sketchEnv.oracle = .systemVerilog from rfl) hv.toWellTyped ht hn hb
  obtain ⟨-, horder, hscope⟩ := hall _ _ hs'
  exact ⟨hv, ht, hn, hb, hsec, s', hs', beq_iff_eq.1 hlist, horder,
    hscope hsec (Module.inScope_of_wellScoped hv.toWellScoped)⟩

/-- Storage that is used outside of the block too is taken out of its scope. -/
theorem not_inScope_borrowed :
    let outside : List Module.Sketch := [(.back ⟨0⟩, .read, [1], [0])]
    Valid (Module.borrowed outside) ∧ (Module.borrowed outside).HasTypes ∧
      (Module.borrowed outside).Named Module.sketchNames ∧ (Module.borrowed outside).Placed ⟨1⟩ ∧
        (Module.borrowed outside).kind? ⟨1⟩ = some .graph ∧ ∃ s',
          resolveForwardReferences ⟨1⟩ sketchEnv (Module.borrowedState outside) = .ok (.ok (), s') ∧
            ¬ s'.module.InScope := by
  intro outside
  have hv : Valid (Module.borrowed outside) := valid_of_isValid (by decide +kernel)
  have ht : (Module.borrowed outside).HasTypes := Module.hasTypes_of_check (by decide +kernel)
  have hn : (Module.borrowed outside).Named Module.sketchNames :=
    Module.named_of_isNamed (by decide +kernel)
  have hb : (Module.borrowed outside).Placed ⟨1⟩ :=
    Module.placed_of_reaches (show Module.reaches _ 2 _ = true by decide +kernel)
  have hk : (Module.borrowed outside).kind? ⟨1⟩ = some .graph := by decide +kernel
  obtain ⟨s', hs', hp⟩ := exists_ok_of_leaves (p := fun m' => m'.isUse ⟨⟨4⟩, 0⟩ ⟨1⟩ &&
      m'.def? ⟨1⟩ == some (.result ⟨0⟩ 0) && (m'.live? ⟨0⟩).map (·.parent) == some ⟨1⟩ &&
      (m'.live? ⟨4⟩).map (·.parent) == some ⟨0⟩ && m'.body == ⟨0⟩)
    (show leaves (resolveForwardReferences ⟨1⟩) sketchEnv (Module.borrowedState outside) _ = true
      by decide +kernel)
  simp only [Bool.and_eq_true, beq_iff_eq, Module.isUse_iff, Option.map_eq_some_iff] at hp
  obtain ⟨⟨⟨⟨hu, hdef⟩, nd, hd, hpd⟩, nu, hnu, hpu⟩, hbody⟩ := hp
  refine ⟨hv, ht, hn, hb, hk, s', hs', fun hin => ?_⟩
  have hl := (resolveForwardReferences_keeps (s := Module.borrowedState outside)
    (show sketchEnv.oracle = .systemVerilog from rfl)
    (Module.orderly_of_wellTyped hv.toWellTyped ht hn) hb).leads hs'
  have hinside := hin hu hnu ⟨0⟩ 0 nd hdef hd
  -- The body is around every block, so the storage would be back in it.
  have hout := (hl.edits.placed hb).inside
  rw [hpd, hpu] at hinside
  rw [hbody] at hout
  have heq := hl.edits.sound.inside_antisymm hinside hout
  cases heq

end NetPrep
