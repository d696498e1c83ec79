import Mathlib
import NetPrep.Proofs.Blindness
import NetPrep.Proofs.Dumping

/-!
# A module among others

Preparing a module comes to the same whether the table of names is the one that the module came with
or has grown since, as it does when other modules are prepared before.
-/

namespace NetPrep

open Prepare

instance (t : NameTable) (name : Name) : Decidable (t.Knows name) :=
  decidable_of_iff ((t.resolve name).toOption.isSome) (by
    unfold NameTable.Knows
    cases t.resolve name <;> simp [Except.toOption])

/-- A table knows every name in a module, those of its nodes included. -/
structure Module.NamedIn (t : NameTable) (m : Module) : Prop where
  title : t.Knows m.name
  port : ∀ p ∈ m.ports, t.Knows p.name
  field : ∀ fields, .record fields ∈ m.types.entries.toList → ∀ f ∈ fields, t.Knows f.1
  operation : ∀ n ∈ m.nodes.toList, ∀ name ∈ n.op.names, t.Knows name
  hint : ∀ n ∈ m.nodes.toList, ∀ name ∈ n.name, t.Knows name
  file : ∀ n ∈ m.nodes.toList, ∀ file ∈ n.loc.file, t.Knows file

namespace Module.NamedIn

variable {t names : NameTable} {m : Module}

/-- The table and the name that the module came with. -/
def origin (h : m.NamedIn t) : Origin := ⟨t, m.name, h.title⟩

theorem closed (h : m.NamedIn t) : m.Closed h.origin where
  name := rfl
  port := h.port
  field := h.field
  node n hn := ⟨h.operation n hn, h.file n hn⟩

/-- Names that both tables know alike are not translated. -/
theorem rename_eq {s s' : NameTable} (h : m.NamedIn t) (hs : t.Within s) (hs' : t.Within s') :
    m.rename (s.translate s') = m := by
  have hnodes : m.nodes.map (Node.recast (.rename (s.translate s'))) = m.nodes := by
    refine Array.ext (by simp) fun i hi _ => ?_
    rw [Array.getElem_map]
    have hnode := h.hint _ (Array.mem_toList_iff.2 (Array.getElem_mem (by simpa using hi)))
    generalize m.nodes[i] = n at hnode
    have hname : n.name.bind (s.translate s') = n.name := by
      cases hn : n.name with
      | none => rfl
      | some name =>
        obtain ⟨text, htext⟩ := hnode name hn
        exact NameTable.translate_eq_some_iff.2 ⟨text, hs _ _ htext, hs' _ _ htext⟩
    change { n with name := n.name.bind (s.translate s') } = n
    rw [hname]
  unfold rename recast
  rw [hnodes]
  rfl

/-- The states that the preparation of the module begins with. -/
theorem alike (h : m.NamedIn t) (hw : t.Within names) :
    Alike h.origin ⟨m, t, .zero⟩ ⟨m, names, .zero⟩ where
  right := (h.rename_eq (.refl t) hw).symm
  left := (h.rename_eq hw (.refl t)).symm
  stats := rfl
  inherits := .refl t
  inherits' := hw
  closed := h.closed

end Module.NamedIn

namespace Prepare

end Prepare

end NetPrep
