import StackMachine.CommandLine.Run

/-!
# The command line

Reads the files that the arguments name, runs the command on them and writes out its outcome.
-/

namespace StackMachine.CommandLine

/-- The cause that stands for a failed read. -/
def readFailure : IO.Error → ReadError
  | .noFileOrDirectory .. => .notFound
  | .inappropriateType _ 21 _ => .directory
  | .invalidArgument .. => .nameTooLong
  | _ => .notDirectory

def readBytes (path : String) : IO (Except ReadError ByteArray) := do
  try return .ok (← IO.FS.readBinFile path)
  catch e => return .error (readFailure e)

def commandFiles (args : List String) : List String :=
  match Command.parse args with
  | .ok command => command.files
  | .error _ => []

/-- The surroundings of a command; a run that is given up ends with the code of an abort signal. -/
def run (args : List String) : IO UInt32 := do
  let contents ← (commandFiles args).mapM fun path => do return (path, ← readBytes path)
  let w : Surroundings :=
    { read := fun path => (contents.lookup path).getD (.error .notFound)
      logFilter := ← IO.getEnv "RUST_LOG"
      host := .lending 0x7a315c000000 0x1000000000000000 }
  let outcome := execute w args
  IO.print outcome.stdout
  IO.eprint outcome.stderrText
  return UInt32.ofNat (outcome.exit.code?.getD 134)

end StackMachine.CommandLine

def main (args : List String) : IO UInt32 := StackMachine.CommandLine.run args
