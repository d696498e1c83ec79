import NetPrep.CommandLine.Run

/-!
# The program

The command with the files and the environment of the machine.
-/

namespace NetPrep

open CommandLine (ReadFailure)

/-- The number of a system error. Some calls give it negated. -/
def systemNumber (code : UInt32) : UInt32 := if code < 0x80000000 then code else 0 - code

/-- Why the system refuses to read a file. -/
def failureOf : IO.Error → ReadFailure
  | .noFileOrDirectory .. => .missing
  | .permissionDenied .. => .denied
  | .userError _ => .notText
  | .inappropriateType _ code _ => if systemNumber code = 20 then .notFolder else .isFolder
  | e@(.invalidArgument _ code _) =>
    if systemNumber code = 36 then .nameTooLong else .other (toString e)
  | e => .other (toString e)

/-- The text of a file, or why it cannot be read. -/
def readText (path : String) : IO (Except ReadFailure String) := do
  try
    return .ok (← IO.FS.readFile path)
  catch e =>
    return .error (failureOf e)

end NetPrep

open NetPrep in
/-- Runs the command and exits with its code. -/
def main (args : List String) : IO UInt32 := do
  let terminal := (← IO.getEnv "TERM").isSome
  match ← CommandLine.run readText terminal args with
  | .error _ =>
    IO.eprintln "the design is inconsistent"
    return 101
  | .ok outcome =>
    IO.print outcome.stdout
    IO.eprint outcome.stderr
    return outcome.code.toUInt32
