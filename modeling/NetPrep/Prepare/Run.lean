import NetPrep.Design
import NetPrep.Prepare.DeadLogic
import NetPrep.Prepare.Legalize
import NetPrep.Prepare.Prettify

/-!
# Preparing a module

Preparation of a module is a sequence of passes: dead logic is removed, the module is legalized, and
then made readable. A pass that fails leaves the module with the changes made until then.
-/

namespace NetPrep

namespace Prepare

/-- What can be run on a module. -/
inductive Pass where
  | legalize
  | prettify
  /-- The removal of dead logic, then both. -/
  | prepare
deriving DecidableEq, Repr

/-- What a pass does. -/
def Pass.action : Pass → Prep Unit
  | .legalize => Prep.legalize
  | .prettify => Prep.prettify
  | .prepare => do
    let _ ← Prep.pruneDeadLogic
    Prep.legalize
    Prep.prettify

/-- More steps than any loop takes in practice. -/
def defaultFuel : Nat := 0x4000000000000000

/-- What a pass leaves behind: the module as it was changed, the names, and the counts of what was
done or the reason why it stopped. -/
structure Outcome where
  module : Module
  names : NameTable
  result : Except Failure Stats

/-- Runs a pass on a module, with so many steps for each loop. -/
def runWith (fuel : Nat) (pass : Pass) (options : Options) (oracle : Oracle) (m : Module)
    (names : NameTable) : Except Fault Outcome := do
  let moduleName ← names.resolve m.name
  let (result, state) ← pass.action ⟨options, oracle, moduleName, fuel⟩ ⟨m, names, .zero⟩
  return ⟨state.module, state.names, result.map fun _ => state.stats⟩

/-- Runs a pass on a module. -/
def run (pass : Pass) (options : Options) (oracle : Oracle) (m : Module) (names : NameTable) :
    Except Fault Outcome :=
  runWith defaultFuel pass options oracle m names

end Prepare

end NetPrep
