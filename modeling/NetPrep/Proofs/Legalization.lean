import Mathlib
import NetPrep.Proofs.Scanning

/-!
# Legalizing the blocks of a module

A block is legalized after the blocks in it: its nodes are scanned, and then put in order.
`Module.Legalizes` is this walk as a tree of runs. A node with regions stays where it is throughout.
-/

namespace NetPrep

open Prepare Prep

namespace Module

variable {o : Options} {m m' m'' : Module} {id : NodeId} {n : Node} {b c block : BlockId}

/-- The regions of a node. -/
def regionsOf (m : Module) (id : NodeId) : List BlockId := ((m.core id).map (·.regions)).getD []

theorem regionsOf_of_live? (hn : m.live? id = some n) : m.regionsOf id = n.regions := by
  simp [regionsOf, core_of_live? hn]

theorem Kept.regionsOf (h : m.Kept m') (hn : m.live? id = some n) :
    m'.regionsOf id = m.regionsOf id := by
  obtain ⟨n', hn', -, -, hr, -⟩ := h.node (core_of_live? hn)
  rw [regionsOf_of_live? hn, Module.regionsOf, hn']
  exact hr

/-- What is nested in a block is nested in a region of one of its nodes. -/
theorem Inside.cases_regions (h : m.Inside b c) (hw : WellFormed m) :
    c = b ∨ ∃ r ∈ (m.nodesOf b).flatMap m.regionsOf, m.Inside r c := by
  induction h with
  | self => exact Or.inl rfl
  | @region id n c hn hc _ ih =>
    right
    rcases ih with hp | ⟨r, hr, hin⟩
    · refine ⟨c, List.mem_flatMap.2 ⟨id, hp ▸ hw.mem_nodesOf hn, ?_⟩, .self⟩
      rwa [regionsOf_of_live? hn]
    · exact ⟨r, hr, .region hn hc hin⟩

/-! ## The walk -/

/-- A block is put in order. -/
inductive Orders (block : BlockId) (m m' : Module) : Prop
  | empty (hk : m.kind? block = some .procedural) (hnil : m.nodesOf block = []) (h : m = m')
  | declarations {scope : BlockId} {first : NodeId} (hk : m.kind? block = some .procedural)
      (hfirst : (m.nodesOf block).head? = some first)
      (hscope : m.declarationScope first = .ok scope)
      (h : PlacesDeclarations scope none (m.nodesOf block) m m')
  | definitions {ids : List NodeId} (hk : m.kind? block = some .graph)
      (hids : outOfOrder m block = .ok ids) (h : ResolvesAll block ids m m')

/-- Blocks are legalized one after another, each after the blocks in it. -/
inductive Legalizes (o : Options) : List BlockId → Module → Module → Prop
  | nil (m : Module) : Legalizes o [] m m
  | cons {block : BlockId} {blocks : List BlockId} {m m₁ m₂ m₃ m' : Module}
      (hblock : m.Placed block)
      (hinner : Legalizes o ((m.nodesOf block).flatMap m.regionsOf) m m₁)
      (hscan : Scans o block .empty (m₁.nodesOf block).head? m₁ m₂)
      (horder : Orders block m₂ m₃)
      (hrest : Legalizes o blocks m₃ m') : Legalizes o (block :: blocks) m m'

theorem Legalizes.append {bs cs : List BlockId} (h : Legalizes o bs m m')
    (h' : Legalizes o cs m' m'') : Legalizes o (bs ++ cs) m m'' := by
  induction h with
  | nil => exact h'
  | cons hblock hinner hscan horder _ _ ih => exact .cons hblock hinner hscan horder (ih h')

theorem Orders.edits (h : Orders block m m') (hs : Sound m) : Edits m m' := by
  cases h with
  | empty _ _ h => exact h ▸ .refl hs
  | declarations _ _ _ h => exact h.edits hs
  | definitions _ _ h => exact h.edits hs

theorem Legalizes.edits {bs : List BlockId} (h : Legalizes o bs m m') (hs : Sound m) :
    Edits m m' := by
  induction h with
  | nil => exact .refl hs
  | cons _ _ hscan horder _ ihinner ihrest =>
    have h₁ := ihinner hs
    have h₂ := hscan.edits h₁.sound
    have h₃ := horder.edits h₂.sound
    exact ((h₁.trans h₂).trans h₃).trans (ihrest h₃.sound)

end Module

namespace Prep

variable {env : Env} {s s' : State} {id : NodeId} {n : Node} {block : BlockId} {r : Unit}

theorem blockNodes_eq_ok {m : Module} {l : List NodeId} (h : m.blockNodes block = .ok l) :
    m.nodesOf block = l := by
  simp [Module.nodesOf, h, Except.toOption]

theorem resolveForwardReferences_runs (ho : env.oracle = .systemVerilog) (hs : Sound s.module)
    (hblock : s.module.Placed block) {ids : List NodeId}
    (hids : ∀ j ∈ ids, ∃ n, s.module.live? j = some n)
    (h : (ids.forM (resolveForwardReference block)).Runs env s r s') :
    s.module.ResolvesAll block ids s'.module := by
  induction ids generalizing s with
  | nil =>
    obtain rfl := runs_forM_nil.1 h
    exact .nil _
  | cons id ids ih =>
    obtain ⟨s₁, h₁, h⟩ := runs_forM_cons.1 h
    obtain ⟨n, hn⟩ := hids id (by simp)
    have hstep := resolveForwardReference_runs ho hs hblock hn h₁
    have he := hstep.edits hs
    refine .cons hstep (ih he.sound (he.placed hblock) (fun j hj => ?_) h)
    obtain ⟨nj, hnj⟩ := hids j (List.mem_cons_of_mem _ hj)
    obtain ⟨nj', hnj', -⟩ := hstep.live hnj
    exact ⟨nj', hnj'⟩

theorem orderBlock_runs (ho : env.oracle = .systemVerilog) (hs : Sound s.module)
    (hblock : s.module.Placed block) (h : (orderBlock block).Runs env s r s') :
    s.module.Orders block s'.module := by
  simp only [orderBlock, runs_bind, runs_query, Module.block_eq_ok_iff] at h
  obtain ⟨blk, _, ⟨hblk, rfl⟩, h⟩ := h
  have hkind := Module.kind?_of_block? hblk
  split at h
  · next hp =>
    have hk := (block_isProcedural_iff hblk).1 hp
    simp only [reorderDeclarations, runs_bind, runs_query, Module.block_eq_ok_iff] at h
    obtain ⟨blk', _, ⟨hblk', rfl⟩, h⟩ := h
    have hfirst := hs.linked.first hblk'
    split at h
    · next hnone =>
      obtain ⟨-, rfl⟩ := runs_pure.1 h
      rw [hnone] at hfirst
      exact .empty hk (List.head?_eq_none_iff.1 hfirst.symm) rfl
    · next first hsome =>
      rw [hsome] at hfirst
      simp only [runs_bind, runs_query] at h
      obtain ⟨scope, _, ⟨hscope, rfl⟩, nodes, _, ⟨hnodes, rfl⟩, h⟩ := h
      obtain rfl := blockNodes_eq_ok hnodes
      obtain ⟨n, hn, -⟩ := hs.toWellFormed.mem_nodesOf_iff.1 (List.mem_of_head? hfirst.symm)
      refine .declarations hk hfirst.symm hscope (placeDeclarations_runs hs
        (hs.placed_of_scopeWithin hn hscope) (fun j hj => ?_) (hs.nodup block)
        (fun p hp => by cases hp) h)
      obtain ⟨nj, hnj, -⟩ := hs.toWellFormed.mem_nodesOf_iff.1 hj
      exact ⟨nj, hnj⟩
  · next hp =>
    have hk : s.module.kind? block = some .graph := by
      rw [hkind]
      cases hb : blk.kind with
      | graph => rfl
      | procedural => simp [Block.isProcedural, hb] at hp
    simp only [resolveForwardReferences, runs_bind, runs_query] at h
    obtain ⟨ids, _, ⟨hids, rfl⟩, h⟩ := h
    obtain ⟨hsub, -⟩ := outOfOrder_eq_ok hs hids
    refine .definitions hk hids (resolveForwardReferences_runs ho hs hblock (fun j hj => ?_) h)
    obtain ⟨nj, hnj, -⟩ := hs.toWellFormed.mem_nodesOf_iff.1 (hsub.subset hj)
    exact ⟨nj, hnj⟩

/-- Steps over blocks that each legalize a block legalize them all. -/
theorem legalizes_of_forM {f : BlockId → Prep Unit} {bs : List BlockId}
    (hf : ∀ {s s' : State} {b : BlockId}, Sound s.module → s.module.Placed b →
      (f b).Runs env s () s' → s.module.Legalizes env.options [b] s'.module)
    (hs : Sound s.module) (hbs : ∀ b ∈ bs, s.module.Placed b)
    (h : (bs.forM f).Runs env s r s') : s.module.Legalizes env.options bs s'.module := by
  induction bs generalizing s with
  | nil =>
    obtain rfl := runs_forM_nil.1 h
    exact .nil _
  | cons b bs ih =>
    obtain ⟨s₁, h₁, h⟩ := runs_forM_cons.1 h
    have hb := hf hs (hbs b (by simp)) h₁
    have he := hb.edits hs
    exact hb.append (ih he.sound (fun c hc => he.placed (hbs c (List.mem_cons_of_mem _ hc))) h)

/-- The same for the regions of nodes that are listed beforehand. -/
theorem legalizes_of_regions {f : BlockId → Prep Unit} {ids : List NodeId} {m : Module}
    (hf : ∀ {s s' : State} {b : BlockId}, Sound s.module → s.module.Placed b →
      (f b).Runs env s () s' → s.module.Legalizes env.options [b] s'.module)
    (hids : ∀ j ∈ ids, ∃ n, m.live? j = some n) (he : m.Edits s.module)
    (h : (ids.forM fun id => do (← node id).regions.forM f).Runs env s r s') :
    s.module.Legalizes env.options (ids.flatMap m.regionsOf) s'.module := by
  induction ids generalizing s with
  | nil =>
    obtain rfl := runs_forM_nil.1 h
    exact .nil _
  | cons id ids ih =>
    obtain ⟨s₁, h₁, h⟩ := runs_forM_cons.1 h
    simp only [runs_bind, runs_node] at h₁
    obtain ⟨nd, _, ⟨hnd, rfl⟩, h₁⟩ := h₁
    obtain ⟨n, hn⟩ := hids id (by simp)
    have hregions : nd.regions = m.regionsOf id := by
      rw [← he.kept.regionsOf hn, Module.regionsOf, Module.core_of_node? hnd]
      rfl
    rw [hregions, Module.regionsOf_of_live? hn] at h₁
    have hstep := legalizes_of_forM hf he.sound (fun b hb => by
      obtain ⟨n', hn', -, hr, -⟩ := he.sameTree.owner hn (List.ne_nil_of_mem hb)
      exact .region hn' (hr ▸ hb) (he.sound.toNested.placed hn')) h₁
    rw [List.flatMap_cons, Module.regionsOf_of_live? hn]
    exact hstep.append (ih (fun j hj => hids j (List.mem_cons_of_mem _ hj))
      (he.trans (hstep.edits he.sound)) h)

theorem legalizeBlock_runs (ho : env.oracle = .systemVerilog) {depth : Nat} (hs : Sound s.module)
    (hblock : s.module.Placed block) (h : (legalizeBlock depth block).Runs env s r s') :
    s.module.Legalizes env.options [block] s'.module := by
  induction depth generalizing s s' block with
  | zero => exact absurd h runs_fault
  | succ depth ih =>
    obtain ⟨nodes, s₀, hquery, h⟩ := runs_bind.1 h
    obtain ⟨hnodes, rfl⟩ := runs_query.1 hquery
    obtain rfl := blockNodes_eq_ok hnodes
    obtain ⟨_, s₁, hregions, h⟩ := runs_bind.1 h
    have hinner := legalizes_of_regions (fun hs hb h => ih hs hb h) (fun j hj => by
      obtain ⟨n, hn, -⟩ := hs.toWellFormed.mem_nodesOf_iff.1 hj
      exact ⟨n, hn⟩) (.refl hs) hregions
    have he := hinner.edits hs
    simp only [runs_bind, runs_fuel, runs_query, Module.block_eq_ok_iff] at h
    obtain ⟨fuel, _, ⟨-, rfl⟩, blk, _, ⟨hblk, rfl⟩, _, s₂, hscan, h⟩ := h
    rw [he.sound.linked.first hblk] at hscan
    have hscans := scan_runs ho he.sound (fun c hc => List.mem_of_head? hc) hscan
    have he' := hscans.edits he.sound
    have horders := orderBlock_runs ho he'.sound (he'.placed (he.placed hblock)) h
    exact .cons hblock hinner hscans horders (.nil _)

/-- Legalizing a module legalizes its body. -/
theorem legalize_runs (ho : env.oracle = .systemVerilog) (hs : Sound s.module)
    (h : legalize.Runs env s r s') : s.module.Legalizes env.options [s.module.body] s'.module := by
  simp only [legalize, runs_bind, runs_fuel, runs_query] at h
  obtain ⟨fuel, _, ⟨-, rfl⟩, body, _, ⟨hbody, rfl⟩, h⟩ := h
  cases hbody
  exact legalizeBlock_runs ho hs .body h

end Prep

end NetPrep
