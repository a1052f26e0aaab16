import Raft.CommandLine

/-!
# The executable
-/

/-- Runs the program on its arguments. -/
def main (args : List String) : IO UInt32 := do
  let outcome := Raft.CommandLine.run args
  (← IO.getStdout).putStr outcome.output
  (← IO.getStderr).putStr outcome.errors
  return outcome.code.toUInt32
