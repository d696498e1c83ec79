import Mathlib
import NetPrep.Netlist.Dump
import NetPrep.Proofs.Agreement
import NetPrep.Proofs.Safety

/-!
# The dump shows texts, not names

Two states that are alike have the same dump, each with its own table.
-/

namespace NetPrep

open Prepare

variable {base : Origin} {s t : State}

namespace Alike

theorem resolve_eq (h : Alike base s t) {name : Name} (hn : base.Knows name) :
    t.names.resolve name = s.names.resolve name := hn.resolve_eq h.inherits h.inherits'

theorem types_eq (h : Alike base s t) : t.module.types = s.module.types := by
  rw [h.right]
  rfl

/-- What is made of a node that is looked up. -/
theorem node_bind (h : Alike base s t) {α : Type} {id : NodeId} {k k' : Node → Except Fault α}
    (hk : ∀ n n' : Node, s.module.node id = .ok n → n' = n.rename (s.names.translate t.names) →
      s.names.SameText t.names n.name n'.name → k' n' = k n) :
    (t.module.node id >>= k') = s.module.node id >>= k := by
  cases hn : s.module.node id with
  | error e =>
    have hright : (s.module.rename (s.names.translate t.names)).node id = _ :=
      Module.node_recast _ s.module id
    rw [← h.right, hn] at hright
    rw [hright]
    rfl
  | ok n =>
    obtain ⟨n', hn', heq, htext⟩ := h.node hn
    rw [hn']
    exact hk n n' hn heq htext

/-! ## Types and attributes -/

theorem numberBlock_eq (h : Alike base s t) (fuel : Nat) (numbering : Dump.Numbering)
    (block : BlockId) :
    Dump.numberBlock t.module fuel numbering block =
      Dump.numberBlock s.module fuel numbering block := by
  induction fuel generalizing numbering block with
  | zero => rfl
  | succ fuel ih =>
    have hregions : Dump.numberBlock t.module fuel = Dump.numberBlock s.module fuel := by
      funext numbering block
      exact ih numbering block
    have hblock : t.module.blockNodes block = s.module.blockNodes block :=
      h.query_eq (q := (·.blockNodes block)) fun _ m => Module.blockNodes_recast _ m block
    have hvalue : t.module.value = s.module.value :=
      funext fun v => h.query_eq (q := (·.value v)) fun _ m => Module.value_recast _ m v
    simp only [Dump.numberBlock, hblock, hregions, hvalue]
    refine bind_congr fun ids => ?_
    congr 1
    funext numbering id
    exact h.node_bind fun n n' _ heq _ => by rw [heq]; rfl

theorem label_eq (h : Alike base s t) (numbering : Dump.Numbering) (v : ValueId) :
    Dump.label t.module t.names numbering v = Dump.label s.module s.names numbering v := by
  have hvalue : t.module.value v = s.module.value v :=
    h.query_eq (q := (·.value v)) fun _ m => Module.value_recast _ m v
  unfold Dump.label
  rw [hvalue]
  refine bind_congr fun x => ?_
  cases x.definition with
  | result => rfl
  | port index =>
    have hname : t.module.inputName? index = s.module.inputName? index := by
      rw [h.right]
      rfl
    dsimp only
    rw [hname]
    cases hport : s.module.inputName? index with
    | none => rfl
    | some name =>
      obtain ⟨p, hp, rfl⟩ := Option.map_eq_some_iff.1 hport
      have hp : p ∈ s.module.ports := (List.mem_filter.1 (List.mem_of_getElem? hp)).1
      simp only [h.resolve_eq (h.closed.port p hp)]

end Alike

end NetPrep
