import BinaryLambda.CommandLine.Run

set_option autoImplicit false

/-!
# The program

Reads what the options ask for, runs the program and prints its outcome.
-/

namespace BinaryLambda.CommandLine

/-- The bytes of a file, if it can be opened. -/
def readBytes? (path : String) : IO (Option ByteArray) := do
  try
    return some (← IO.FS.readBinFile path)
  catch _ => return none

/-- Whether reports are coloured: on a terminal, unless the environment says
otherwise. -/
def wantsPaint : IO Bool := do
  if ((← IO.getEnv "NO_COLOR").getD "") ≠ "" then return false
  if ((← IO.getEnv "FORCE_COLOR").getD "") ≠ "" then return true
  if (← IO.getEnv "TERM") == some "dumb" then return false
  (← IO.getStdout).isTty

/-- The sources that the options ask for; no other is read. -/
def readSources (arguments : List String) : IO Sources := do
  match Options.read arguments with
  | .error _ => return ⟨fun _ => none, ""⟩
  | .ok o =>
    match o.wantedFile? with
    | some path =>
      let bytes ← readBytes? path
      return ⟨fun _ => bytes, ""⟩
    | none =>
      if o.terms.isEmpty then return ⟨fun _ => none, ← (← IO.getStdin).readToEnd⟩
      else return ⟨fun _ => none, ""⟩

end BinaryLambda.CommandLine

/-- The program. -/
def main (arguments : List String) : IO UInt32 := do
  let sources ← BinaryLambda.CommandLine.readSources arguments
  let painted ← BinaryLambda.CommandLine.wantsPaint
  let outcome := BinaryLambda.CommandLine.run painted arguments sources
  IO.print outcome.stdout
  IO.eprint outcome.stderr
  if let .failed (.other kind text) := outcome.ending then
    IO.eprintln s!"{kind}: {text}"
  return outcome.ending.status.toUInt32
