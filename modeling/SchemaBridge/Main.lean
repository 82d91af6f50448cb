import SchemaBridge.Command.Session

/-!
# The command line program

Reads the files and the environment, and writes what `Command.run` answers: the log and the
failure to standard error, the result to standard output.
-/

namespace SchemaBridge

/-- What is found under a path of the file system. -/
def readFileState (path : String) : IO Command.FileState := do
  try
    return .content (← IO.FS.readBinFile path)
  catch
    | .noFileOrDirectory .. | .inappropriateType .. => return .notFile
    | e => return .unreadable (toString e)

end SchemaBridge

/-- Runs the program on the words after its name. -/
def main (words : List String) : IO UInt32 := do
  let environment ← IO.getEnv "LOG_LEVEL"
  let outcome ← SchemaBridge.Command.run SchemaBridge.readFileState environment words
  for event in outcome.log do
    IO.eprintln (SchemaBridge.Command.logLine event)
  IO.print outcome.stdout
  IO.eprint outcome.stderr
  return outcome.exitCode.toUInt32
