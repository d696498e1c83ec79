import Mathlib
import NetPrep.Proofs.Handling

/-!
# Legalizing a block

The scan of a block as a run of steps, one for each node that it comes to. A node that is not moved
stays ahead of the scan or behind it.
-/

namespace NetPrep

open Prepare Prep

namespace Module

variable {o : Options} {m m' m'' : Module} {block : BlockId} {id : NodeId} {n : Node}

/-- The node that the scan of a block goes on with: what follows the node that was handled, if that is
still there, else a neighbour of the gap that it left. -/
def Follows (block : BlockId) (id : NodeId) (next : Option NodeId) (m m' : Module) : Prop :=
  ∀ l x r, m.nodesOf block = l ++ id :: x :: r → x ∈ m'.nodesOf block → next = some x

/-- A step of the scan of a block: a node is handled, and the scan goes on with the follower that it
had, or from the first node in its place. -/
structure ScanStep (o : Options) (block : BlockId) (id : NodeId) (visited visited' : IdMap Unit)
    (next : Option NodeId) (m m' : Module) : Prop where
  live : ∃ n, m.live? id = some n ∧ n.parent = block ∧ n.op.category ≠ .foreign
  handled : (m.Handled o id m' .next ∧ Follows block id next m m') ∨
    ∃ target, next = some target ∧ m.Handled o id m' (.rewind target)
  mem : ∀ y, next = some y → y ∈ m'.nodesOf block
  visited : (visited' = visited ∧ (m.HasOp (·.isAlwaysInline = true) id →
      m.kind? block = some .procedural ∨ visited.contains id.index = true ∨ m'.live? id = none)) ∨
    (visited' = visited.insert id.index () ∧ m.HasOp (·.isAlwaysInline = true) id ∧
      m.Inlines (Settled m (· = id)) m')

/-- A scan of a block from a node on. -/
inductive Scans (o : Options) (block : BlockId) : IdMap Unit → Option NodeId → Module → Module → Prop
  | done (visited : IdMap Unit) (m : Module) : Scans o block visited none m m
  | step {visited visited' : IdMap Unit} {id : NodeId} {next : Option NodeId} {m m₁ m' : Module}
      (h : ScanStep o block id visited visited' next m m₁)
      (hrest : Scans o block visited' next m₁ m') : Scans o block visited (some id) m m'

theorem ScanStep.handles {visited visited' : IdMap Unit} {next : Option NodeId}
    (h : ScanStep o block id visited visited' next m m') :
    (m.Rules id m' ∧ Follows block id next m m') ∨
      ∃ target m₁, next = some target ∧ m.Stores id m₁ ∧ m₁.Replaces id target m' := by
  rcases h.handled with ⟨hhandled, hfollows⟩ | ⟨target, hnext, hhandled⟩
  · obtain ⟨-, hrules⟩ | ⟨_, _, hflow, -⟩ := hhandled.rules
    · exact Or.inl ⟨hrules, hfollows⟩
    · cases hflow
  · obtain ⟨hflow, -⟩ | ⟨_, m₁, hflow, hst, hrep⟩ := hhandled.rules
    · cases hflow
    · cases hflow
      exact Or.inr ⟨_, m₁, hnext, hst, hrep⟩

theorem ScanStep.edits {visited visited' : IdMap Unit} {next : Option NodeId}
    (h : ScanStep o block id visited visited' next m m') (hs : Sound m) : Edits m m' := by
  rcases h.handles with ⟨hrules, -⟩ | ⟨target, m₁, -, hst, hrep⟩
  · exact hrules.edits hs
  · have h₁ := hst.rules.edits hs
    obtain ⟨n, hn, -⟩ := hrep.isExpression
    exact h₁.trans (hrep.edits h₁.sound hn).1

theorem Scans.edits {visited : IdMap Unit} {cursor : Option NodeId}
    (h : Scans o block visited cursor m m') (hs : Sound m) : Edits m m' := by
  induction h with
  | done => exact .refl hs
  | step h _ ih =>
    have h₁ := h.edits hs
    exact h₁.trans (ih h₁.sound)

end Module

/-- What takes the place of a node that was stored before is in its block. -/
theorem Module.Replaces.after_stores {m m₁ m' : Module} {id target : NodeId} {n : Node}
    (h : m₁.Replaces id target m') (hst : m.Stores id m₁) (hs : Sound m)
    (hn : m.live? id = some n) : m.Edits m' ∧ target ∈ m'.nodesOf n.parent := by
  have he := hst.rules.edits hs
  obtain ⟨n₁, hn₁, -, hinline⟩ := h.isExpression
  have hop : m.HasOp (·.isAlwaysInline = false) id :=
    .of_kept ⟨n₁, core_of_live? hn₁, hinline⟩ he.kept hn
  obtain ⟨n₂, hn₂, -, hp₂⟩ := hst.live hn (hop.of_live hn)
  obtain rfl := Option.some.inj (hn₁.symm.trans hn₂)
  obtain ⟨he₁, nt, hnt, hpt⟩ := h.edits he.sound hn₁
  exact ⟨he.trans he₁, he₁.sound.toWellFormed.mem_nodesOf_iff.2 ⟨nt, hnt, hpt.trans hp₂⟩⟩

namespace Prep

variable {env : Env} {s s' : State} {id : NodeId} {n : Node} {block : BlockId}

theorem isIn_eq_ok {m : Module} {b : Bool} (hs : Sound m) (h : isIn m block id = .ok b) :
    b = true ↔ id ∈ m.nodesOf block := by
  simp only [isIn, bind_eq_ok_iff, Module.node_eq_ok_iff] at h
  obtain ⟨nd, hnd, h⟩ := h
  rw [← Except.ok.inj h, hs.toWellFormed.mem_nodesOf_iff]
  simp only [Bool.and_eq_true, Bool.not_eq_true', beq_iff_eq]
  constructor
  · rintro ⟨he, hp⟩
    exact ⟨_, Module.live?_of_node? hnd he, hp⟩
  · rintro ⟨n, hn, hp⟩
    obtain ⟨nd', hnd', he, rfl⟩ := Module.exists_of_live? hn
    obtain rfl : nd = nd' := by simpa using hnd.symm.trans hnd'
    exact ⟨he, hp⟩

/-- The follower of a node of a block is in the block. -/
theorem next_mem {m : Module} {nd : Node} {y : NodeId} (hs : Sound m) (hid : id ∈ m.nodesOf block)
    (hnd : m.node? id = some nd) (hy : nd.next = some y) : y ∈ m.nodesOf block := by
  obtain ⟨l, r, hl⟩ := List.append_of_mem hid
  obtain ⟨-, hnext⟩ := hs.linked.link hl hnd
  rw [hy] at hnext
  rw [hl]
  exact List.mem_append_right _ (List.mem_cons_of_mem _ (List.mem_of_head? hnext.symm))

/-- Where the scan goes on is in the block, and it is the former follower if that is still there. -/
theorem successor?_eq_ok {m : Module} {prev next r : Option NodeId} (hs : Sound m)
    (h : successor? m block id prev next = .ok r) :
    (∀ y, r = some y → y ∈ m.nodesOf block) ∧
      ∀ x, next = some x → x ∈ m.nodesOf block → r = some x := by
  obtain ⟨b, hb, h⟩ := bind_eq_ok_iff.1 h
  have hnext : b = true ↔ ∃ x, next = some x ∧ x ∈ m.nodesOf block := by
    cases next with
    | none =>
      cases hb
      simp
    | some x =>
      rw [isIn_eq_ok hs hb]
      simp
  cases b with
  | true =>
    cases h
    obtain ⟨x, rfl, hx⟩ := hnext.1 rfl
    exact ⟨fun y hy => by cases hy; exact hx, fun y hy _ => hy⟩
  | false =>
    refine ⟨?_, fun x hx hmem => absurd (hnext.2 ⟨x, hx, hmem⟩) (by simp)⟩
    simp only [Bool.false_eq_true, if_false] at h
    obtain ⟨b, hb, h⟩ := bind_eq_ok_iff.1 h
    have hid := isIn_eq_ok hs hb
    have hfirst : ∀ {r}, (do return (← m.block block).first : Except Fault _) = .ok r →
        ∀ y, r = some y → y ∈ m.nodesOf block := by
      rintro r h y rfl
      simp only [bind_eq_ok_iff, Module.block_eq_ok_iff] at h
      obtain ⟨blk, hblk, h⟩ := h
      have hhead := hs.linked.first hblk
      rw [Except.ok.inj h] at hhead
      exact List.mem_of_head? hhead.symm
    cases b with
    | true =>
      simp only [if_true, bind_eq_ok_iff, Module.node_eq_ok_iff] at h
      obtain ⟨nd, hnd, h⟩ := h
      rintro y rfl
      exact next_mem hs (hid.1 rfl) hnd (Except.ok.inj h)
    | false =>
      simp only [Bool.false_eq_true, if_false] at h
      cases prev with
      | none => exact hfirst h
      | some p =>
        simp only [bind_eq_ok_iff] at h
        obtain ⟨b, hb, h⟩ := h
        have hp := isIn_eq_ok hs hb
        cases b with
        | true =>
          simp only [if_true, bind_eq_ok_iff, Module.node_eq_ok_iff] at h
          obtain ⟨nd, hnd, h⟩ := h
          rintro y rfl
          exact next_mem hs (hp.1 rfl) hnd (Except.ok.inj h)
        | false =>
          simp only [Bool.false_eq_true, if_false] at h
          exact hfirst h

theorem scan_runs (ho : env.oracle = .systemVerilog) {fuel : Nat} {visited : IdMap Unit}
    {cursor : Option NodeId} {r : Unit} (hs : Sound s.module)
    (hcursor : ∀ c, cursor = some c → c ∈ s.module.nodesOf block)
    (h : (scan block fuel visited cursor).Runs env s r s') :
    Module.Scans env.options block visited cursor s.module s'.module := by
  induction fuel generalizing s visited cursor with
  | zero =>
    cases cursor with
    | none =>
      obtain ⟨-, rfl⟩ := runs_pure.1 h
      exact .done _ _
    | some id => exact absurd h runs_fault
  | succ fuel ih =>
    cases cursor with
    | none =>
      obtain ⟨-, rfl⟩ := runs_pure.1 h
      exact .done _ _
    | some id =>
      obtain ⟨n, hn, hp⟩ := hs.toWellFormed.mem_nodesOf_iff.1 (hcursor id rfl)
      obtain ⟨nd, hnd, -, rfl⟩ := Module.exists_of_live? hn
      simp only [scan, runs_bind, runs_node] at h
      obtain ⟨nd', _, ⟨hnd', rfl⟩, ⟨flow, visited'⟩, s₁, hnode, h⟩ := h
      obtain rfl : nd = nd' := by simpa using hnd.symm.trans hnd'
      obtain ⟨hforeign, hhandled, hvisited⟩ := legalizeNode_runs ho hs hn hp hnode
      have hvis : (visited' = visited ∧ (s.module.HasOp (·.isAlwaysInline = true) id →
          s.module.kind? block = some .procedural ∨ visited.contains id.index = true ∨
            s₁.module.live? id = none)) ∨ (visited' = visited.insert id.index () ∧
          s.module.HasOp (·.isAlwaysInline = true) id ∧
          s.module.Inlines (Settled s.module (· = id)) s₁.module) := by
        rcases hvisited with ⟨rfl, hv⟩ | ⟨rfl, hop, -, hsettle⟩
        · exact Or.inl ⟨rfl, fun hi => hv (hi.of_live hn)⟩
        · exact Or.inr ⟨rfl, ⟨_, Module.core_of_live? hn, hop⟩, hsettle.inlines⟩
      cases flow with
      | next =>
        obtain ⟨-, hrules⟩ | ⟨_, _, hflow, -⟩ := hhandled.rules
        · obtain ⟨next, s₂, hquery, h⟩ := runs_bind.1 h
          obtain ⟨hnext, rfl⟩ := runs_query.1 hquery
          have hs₁ := (hrules.edits hs).sound
          obtain ⟨hmem, hfollow⟩ := successor?_eq_ok hs₁ hnext
          refine .step ⟨⟨_, hn, hp, hforeign⟩, Or.inl ⟨hhandled, fun l x r hl hx => ?_⟩, hmem, hvis⟩
            (ih hs₁ hmem h)
          obtain ⟨-, hlink⟩ := hs.linked.link hl hnd
          exact hfollow x hlink hx
        · cases hflow
      | rewind target =>
        obtain ⟨hflow, -⟩ | ⟨_, m₁, hflow, hst, hrep⟩ := hhandled.rules
        · cases hflow
        · cases hflow
          have hrep' := hrep.after_stores hst hs hn
          have hmem : ∀ c, some target = some c → c ∈ s₁.module.nodesOf block := by
            rintro c ⟨⟩
            exact hp ▸ hrep'.2
          exact .step ⟨⟨_, hn, hp, hforeign⟩, Or.inr ⟨target, rfl, hhandled⟩, hmem, hvis⟩
            (ih hrep'.1.sound hmem h)

end Prep

end NetPrep
