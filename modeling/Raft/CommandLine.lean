import Raft.CommandLine.Report

/-!
# The program

`CommandLine.run` maps the arguments to all that the program does: the exit code and what it
writes. The code is 0 on success, 1 if the cluster could not be run, and 2 if the arguments are
faulty.
-/

namespace Raft.CommandLine

/-- What the program does. -/
structure Outcome where
  code : Nat
  output : String := ""
  errors : String := ""
  deriving DecidableEq

/-- Runs the program. -/
def run (args : List String) : Outcome :=
  match parse args with
  | .error usage => { code := 2, errors := usage ++ "\n" }
  | .ok (.show text) => { code := 0, output := text }
  | .ok (.localCluster plan) =>
    match runCluster plan with
    | .ok report => { code := 0, output := report.text plan.format }
    | .error fault => { code := 1, errors := "Error: " ++ fault.text ++ "\n" }

end Raft.CommandLine
