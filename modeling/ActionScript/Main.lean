import ActionScript.Command

/-!
# The program

Reads the file that the arguments name, runs the command and prints what it has to say.
-/

set_option autoImplicit false

open ActionScript

/-- Reads a source file. -/
def readSource (path : String) : IO (Except ReadError Text) := do
  try
    match String.fromUTF8? (← IO.FS.readBinFile path) with
    | some text => return .ok text.toList
    | none => return .error .notText
  catch
    | .noFileOrDirectory .. => return .error .notFound
    | .permissionDenied .. => return .error .denied
    | .inappropriateType _ 20 _ => return .error .notDirectory
    | .inappropriateType .. => return .error .isDirectory
    | .invalidArgument _ 36 _ => return .error .nameTooLong
    | e => return .error (.other (toString e))

/-- Runs the command line. -/
def main (args : List String) : IO UInt32 := do
  let outcome ←
    match Command.ofArguments? args with
    | some c => pure (c.run (← readSource c.path))
    | none => pure Command.usage
  (← IO.getStdout).putStr outcome.stdout
  (← IO.getStderr).putStr outcome.stderr
  return outcome.exit.toUInt32
