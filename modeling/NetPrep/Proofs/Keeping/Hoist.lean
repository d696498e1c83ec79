import Mathlib
import NetPrep.Proofs.Keeping

/-!
# Out of procedural code

Moving an expression out of a procedural block, and capturing its value before the process around it,
misuse nothing: what is around a node has regions, so that it is another node.
-/

namespace NetPrep

open Prepare Prep

namespace Prep

variable {env : Env} {s s' : State} {id anchor : NodeId} {n na : Node}

theorem captureSideEffect_keeps (hs : s.Orderly) (hn : s.module.live? id = some n) :
    (captureSideEffect id).Keeps env s := by
  refine .ask (hs.isCaptured_tame hn) fun captured _ => ?_
  split
  · exact .pure hs false
  · obtain ⟨nd, hnd, -, rfl⟩ := Module.exists_of_live? hn
    refine .node hnd ?_
    split
    · next result hv =>
      have hmem : result ∈ nd.core.results := by simp [Node.core, hv]
      have husable := hs.usable_of_mem_results hn hmem
      obtain ⟨type, htype⟩ := husable.exists_type
      refine .valueType htype (.enclosingProcess hs hn fun process np _ hnp _ => ?_)
      refine .declareFor hs (hs.sound.in_before hnp) (hs.placed hnp) rfl htype (by simp)
        fun decl storage stype s₁ hget hc₁ hl₁ => ?_
      have hs₁ := hl₁.orderly
      have hstorage : s₁.module.Usable storage := hc₁.usable_result (i := 0) rfl
      have hnp₁ := hc₁.live hnp
      refine .createRead hs₁ (hs₁.sound.in_before hnp₁) (hs₁.placed hnp₁) hstorage
        (hc₁.kept.type? htype) fun read value s₂ hc₂ hl₂ => ?_
      have hs₂ := hl₂.orderly
      refine .replaceUses hs₂ (hc₂.usable_result (i := 0) rfl)
        (hc₂.kept.type? (hc₁.kept.type? htype)) (hc₂.type?_result (i := 0) rfl)
        fun s₃ hr hl₃ => ?_
      have hs₃ := hl₃.orderly
      have hid₃ := hr.live (hc₂.live (hc₁.live hn))
      have hafter := hs₃.sound.in_after hid₃
      have hplaced := hs₃.placed hid₃
      have hkept := hc₂.kept.trans hr.kept
      exact .connect hs₃ hafter hplaced (Or.inr rfl) (hr.usable (hc₂.usable hstorage))
        (hr.usable (hc₂.usable (hc₁.usable husable))) (hkept.type? (hc₁.type?_result (i := 0) rfl))
        (hkept.types hget) (hkept.type? (hc₁.kept.type? htype))
        fun conn s₄ _ hl₄ => .count hl₄.orderly fun hs => .pure hs true
    · exact .pure hs false

/-- A node without regions is moved before one with regions. -/
theorem moveBefore_keeps (hs : s.Orderly) (hn : s.module.live? id = some n) (hreg : n.regions = [])
    (ha : s.module.live? anchor = some na) (hne : na.regions ≠ []) {f : Unit → Prep Bool}
    (hf : ∀ s₁, s₁.Orderly → (f ()).Keeps env s₁) :
    (edit (·.moveNode id (.before anchor)) >>= f).Keeps env s := by
  have hself : anchor ≠ id := by
    rintro rfl
    obtain rfl := Option.some.inj (hn.symm.trans ha)
    exact hne hreg
  exact .moveNode hs hn hreg (hs.sound.in_before ha) (hs.placed ha) (by simpa using hself) (by simp)
    fun s₁ _ hl => hf s₁ hl.orderly

theorem hoist_keeps (hs : s.Orderly) (ho : env.oracle = .systemVerilog)
    (hn : s.module.live? id = some n) (hreg : n.regions = []) : (hoist id).Keeps env s := by
  obtain ⟨nd, hnd, -, rfl⟩ := Module.exists_of_live? hn
  refine .node hnd (.isAlwaysInline ho hnd ?_)
  have hmove : ∀ {anchor : NodeId} {na : Node}, s.module.live? anchor = some na → na.regions ≠ [] →
      (do
        edit (·.moveNode id (.before anchor))
        count fun s => { s with hoisted := s.hoisted + 1 }
        return true : Prep Bool).Keeps env s := fun ha hne =>
    moveBefore_keeps hs hn hreg ha hne fun _ hs => .count hs fun hs => .pure hs true
  split
  case' isTrue =>
    refine .ask (hs.dealsInStorage_tame hn rfl) fun storage _ => ?_
    split
    case' isTrue => exact .pure hs false
  -- Unless storage is read, the node is taken as far out as its operands allow.
  all_goals
    refine .enclosingProcess hs hn fun process np _ hnp hne =>
      .ask (hs.reachOf_tame fun v hv => hs.usable_operand hn hv) fun reach _ => ?_
    cases reach with
    | nowhere => exact .pure hs false
    | oneLevel =>
      refine .parentNode? hs hn (.pure hs false) fun owner howner => ?_
      obtain ⟨nowner, hnowner, hne'⟩ := howner.regions
      exact hmove hnowner hne'
    | graph => exact hmove hnp hne

end Prep

end NetPrep
