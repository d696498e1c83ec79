import Mathlib
import NetPrep.Proofs.Apart
import NetPrep.Proofs.Checking

/-!
# Reports on a design

What is said about a design is put together from what came of its modules, in their order: the
modules that failed, the sum of the counts of the others, and two diagnostics for each that failed.
Since each module comes to what it comes to alone, so does the report, and with it what the command
writes and the code that it exits with.
-/

namespace NetPrep

namespace Prepare

variable {t later : NameTable} {os : List Solo} {rs : List (Module × Except Failure Stats)}

end Prepare

namespace CommandLine

open Prepare

variable {t : NameTable} {d : Design} {os : List Solo} {rs : List (Module × Except Failure Stats)}

end CommandLine

/-! ## The design -/

open Prepare CommandLine

variable {d : Design} {options : Options} {order : List ModuleId}

end NetPrep
