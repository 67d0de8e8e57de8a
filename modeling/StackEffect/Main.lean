import StackEffect.Command.Run

/-!
# Main — the command line
-/

namespace StackEffect

/-- Reads a file. -/
def readSource (path : String) : IO (Except FileError String) := do
  try
    return .ok (← IO.FS.readFile path)
  catch
    | .noFileOrDirectory .. => return .error .missing
    | .inappropriateType _ _ details =>
      return .error (if details = "not a directory" then .notFolder else .isFolder)
    | .permissionDenied .. => return .error (.refused "permission denied")
    | e => return .error (.refused e.toString)

/-- Whether the output takes colors. -/
def colorEnabled : IO Bool := do
  if (← IO.getEnv "NO_COLOR").isSome then return false
  (← IO.getStdout).isTty

end StackEffect

/-- Runs the command on the arguments. -/
def main (args : List String) : IO UInt32 := do
  let outcome ← StackEffect.Command.run StackEffect.readSource args (← StackEffect.colorEnabled)
  IO.print outcome.out
  IO.eprint outcome.err
  return outcome.code.toUInt32
