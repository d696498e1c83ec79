import Mathlib
import NetPrep.Proofs.Answers
import NetPrep.Proofs.Legalization
import NetPrep.Proofs.Keeping.Temporary

/-!
# The order of a block

Putting the nodes of a block in order misuses nothing: a declaration is moved to the scope that was
found for it, and a node that is used too early to the front of the block that it is in.
-/

namespace NetPrep

open Prepare Prep

/-- What goes next in a scope has a place there. -/
theorem Module.declarationPlace_in {m : Module} {scope : BlockId} {placed : Option NodeId}
    (h : ∀ p, placed = some p → p ∈ m.nodesOf scope) :
    (declarationPlace scope placed).In m.nodesOf scope := by
  cases placed with
  | none => rfl
  | some p => exact h p rfl

namespace Prep

variable {env : Env} {s s' : State} {id : NodeId} {n : Node} {scope block : BlockId}

/-! ## Declarations -/

theorem placeDeclarations_keeps {placed : Option NodeId} {ids : List NodeId} (hs : s.Orderly)
    (hscope : s.module.Placed scope) (hids : ∀ j ∈ ids, ∃ n, s.module.live? j = some n)
    (hnodup : ids.Nodup)
    (hplaced : ∀ p, placed = some p → p ∉ ids ∧ p ∈ s.module.nodesOf scope) :
    (placeDeclarations scope placed ids).Keeps env s := by
  induction ids generalizing s placed with
  | nil => exact .pure hs ()
  | cons id ids ih =>
    obtain ⟨n, hn⟩ := hids id (by simp)
    obtain ⟨nd, hnd, -, rfl⟩ := Module.exists_of_live? hn
    obtain ⟨hnot, hnodup⟩ := List.nodup_cons.1 hnodup
    have hids' : ∀ j ∈ ids, ∃ n, s.module.live? j = some n := fun j hj =>
      hids j (List.mem_cons_of_mem _ hj)
    refine .node hnd ?_
    split
    · next hop =>
      have hop' : nd.core.op = .logic := hop
      split
      · have hne : ∀ p, placed = some p → p ≠ id := fun p hp he =>
          (hplaced p hp).1 (by simp [he])
        refine .moveNode (p := Module.declarationPlace scope placed) (b := scope) hs hn
          (hs.regions_eq_nil hn (by rw [hop']; rfl))
          (Module.declarationPlace_in fun p hp => (hplaced p hp).2) hscope
          (by cases placed <;> simp [Module.declarationPlace])
          (by cases placed with
            | none => simp [Module.declarationPlace]
            | some p => simpa [Module.declarationPlace] using hne p rfl)
          fun s₁ hm hl => ih hl.orderly (hl.edits.placed hscope) (fun j hj => ?_) hnodup ?_
        · obtain ⟨nj, hnj⟩ := hids' j hj
          exact ⟨_, hm.live hnj⟩
        · rintro p ⟨⟩
          exact ⟨hnot, hl.orderly.mem_nodesOf_iff.2 ⟨_, hm.live hn, if_pos rfl⟩⟩
      · next hstay =>
        obtain ⟨hparent, -⟩ := not_or.1 hstay
        rw [not_not] at hparent
        refine ih hs hscope hids' hnodup ?_
        rintro p ⟨⟩
        exact ⟨hnot, hs.mem_nodesOf_iff.2 ⟨_, hn, hparent⟩⟩
    · exact ih hs hscope hids' hnodup fun p hp =>
        ⟨fun hm => (hplaced p hp).1 (List.mem_cons_of_mem _ hm), (hplaced p hp).2⟩

theorem reorderDeclarations_keeps (hs : s.Orderly) (hb : s.module.Placed block) :
    (reorderDeclarations block).Keeps env s := by
  refine .block hs hb fun blk hblk => ?_
  have hfirst := hs.linked.first hblk
  split
  · exact .pure hs ()
  · next first hsome =>
    rw [hsome] at hfirst
    obtain ⟨n, hn⟩ := hs.toSound.live_of_mem (List.mem_of_head? hfirst.symm)
    refine .ask (hs.toSound.scopeWithin_tame hn) fun scope hscope =>
      .tell (hs.toSound.blockNodes_eq hb) ?_
    exact placeDeclarations_keeps hs (hs.toSound.placed_of_scopeWithin hn hscope)
      (fun j hj => hs.toSound.live_of_mem hj) (hs.nodup block) fun p hp => by cases hp

/-! ## Definitions -/

/-- What is moved to the front of a block has no regions. -/
theorem moveFront_keeps {f : Unit → Prep Unit} (hs : s.Orderly) (hb : s.module.Placed block)
    (hn : s.module.live? id = some n) (hreg : n.regions = [])
    (hf : ∀ s₁, s.module.Moves s₁.module block (.front block) id → s.Leads s₁ →
      (f ()).Keeps env s₁) : (edit (·.moveNode id (.front block)) >>= f).Keeps env s :=
  .moveNode (b := block) hs hn hreg rfl hb (by simp) (by simp) hf

/-- A node that can stand anywhere goes to the front; so does a read, with what it reads before it;
any other gets a temporary. -/
theorem bringForward_keeps {p : Bool} (hs : s.Orderly) (hb : s.module.Placed block)
    (hn : s.module.live? id = some n) (hplace : p = true → s.module.Placeable n) :
    (if p then
        edit (·.moveNode id (.front block))
      else do
        match ← query (readDeclaration? · id) with
        | some decl =>
          edit (·.moveNode id (.front block))
          edit (·.moveNode decl (.front block))
        | none => spill id true : Prep Unit).Keeps env s := by
  split
  · next hp =>
    exact .last (moveFront_keeps hs hb hn (hs.toSound.regions_of_placeable hn (hplace hp))
      fun _ _ hl => .pure hl.orderly ())
  · refine .ask (hs.readDeclaration?_tame hn) fun decl hdecl => ?_
    cases decl with
    | none => exact spill_keeps hs hn
    | some decl =>
      obtain ⟨storage, i, nd, hop, -, -, hd, hpl⟩ := readDeclaration?_eq_some hs.toSound hn hdecl
      have hreg : n.regions = [] := hs.regions_eq_nil hn (by rw [hop]; rfl)
      refine moveFront_keeps hs hb hn hreg fun s₁ hm hl => .last ?_
      have hreg' : nd.regions = [] := hs.toSound.regions_of_placeable hd hpl
      exact moveFront_keeps hl.orderly (hl.edits.placed hb) (hm.live hd) hreg'
        fun _ _ hl => .pure hl.orderly ()

theorem resolveForwardReference_keeps (ho : env.oracle = .systemVerilog) (hs : s.Orderly)
    (hb : s.module.Placed block) (hn : s.module.live? id = some n) :
    (resolveForwardReference block id).Keeps env s := by
  obtain ⟨nd, hnd, -, rfl⟩ := Module.exists_of_live? hn
  refine .count hs fun hs => .ask (hs.isMovableDeclaration_tame hn) fun movable hmovable => ?_
  have hmov := isMovableDeclaration_eq_ok hnd hmovable
  cases movable with
  | true =>
    exact bringForward_keeps (p := true) hs hb hn fun _ => Or.inr (hmov.1 rfl)
  | false => exact .isConstantExpression ho hnd (bringForward_keeps hs hb hn Or.inl)

/-- The nodes of a graph block that are used too early are brought forward. -/
theorem resolveForwardReferences_keeps (ho : env.oracle = .systemVerilog) (hs : s.Orderly)
    (hb : s.module.Placed block) : (resolveForwardReferences block).Keeps env s := by
  refine .ask (hs.toSound.outOfOrder_tame hb) fun ids hids => ?_
  obtain ⟨hsub, -⟩ := outOfOrder_eq_ok hs.toSound hids
  refine .forM (P := fun t => t.module.Placed block ∧ ∀ j ∈ ids, ∃ n, t.module.live? j = some n) hs
    ⟨hb, fun j hj => hs.toSound.live_of_mem (hsub.subset hj)⟩ fun id hid t ht ⟨hbt, hall⟩ => ?_
  obtain ⟨n, hn⟩ := hall id hid
  refine ⟨resolveForwardReference_keeps ho ht hbt hn, fun t' h hl =>
    ⟨hl.edits.placed hbt, fun j hj => ?_⟩⟩
  obtain ⟨nj, hnj⟩ := hall j hj
  obtain ⟨nj', hnj', -⟩ := (resolveForwardReference_runs ho ht.toSound hbt hn h).live hnj
  exact ⟨nj', hnj'⟩

/-- A block is put in order. -/
theorem orderBlock_keeps (ho : env.oracle = .systemVerilog) (hs : s.Orderly)
    (hb : s.module.Placed block) : (orderBlock block).Keeps env s := by
  refine .block hs hb fun blk _ => ?_
  split
  · exact reorderDeclarations_keeps hs hb
  · exact resolveForwardReferences_keeps ho hs hb

end Prep

end NetPrep
