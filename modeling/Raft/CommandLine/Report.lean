import Raft.CommandLine.LocalCluster
import Raft.Wire.Write

/-!
# Reports

How the outcome of a run is written: as a table, or as a JSON text.
-/

namespace Raft.CommandLine

open Json (Value)

/-- The JSON form of a node's state. -/
def NodeReport.toJson (r : NodeReport) : Value :=
  .record
    [("node_id", r.id.toJson), ("role", r.role.toJson), ("term", .natural r.term),
      ("leader", .option PeerId.toJson r.leader), ("commit_index", .natural r.commitIndex),
      ("last_index", .natural r.lastIndex), ("snapshot_index", .natural r.snapshotIndex),
      ("applied", .natural r.applied)]

/-- The JSON form of the cluster's state. -/
def ClusterReport.toJson (r : ClusterReport) : Value :=
  .record
    [("committed_commands", .natural r.committed), ("nodes", .list NodeReport.toJson r.nodes)]

/-- A line of the table. The last column has no fixed width. -/
def tableRow (id role term leader commit last snapshot applied : String) : String :=
  padRight 6 id ++ " " ++ padRight 10 role ++ " " ++ padRight 6 term ++ " " ++
    padRight 8 leader ++ " " ++ padRight 8 commit ++ " " ++ padRight 8 last ++ " " ++
    padRight 9 snapshot ++ " " ++ applied ++ "\n"

/-- The line of a node. -/
def NodeReport.tableRow (r : NodeReport) : String :=
  let leader := match r.leader with
    | some l => toString l.number
    | none => "-"
  CommandLine.tableRow (toString r.id.number) r.role.label (toString r.term) leader
    (toString r.commitIndex) (toString r.lastIndex) (toString r.snapshotIndex)
    (toString r.applied)

/-- A line of one repeated character. -/
def rule (width : Nat) (c : Char) : String := String.ofList (List.replicate width c) ++ "\n"

/-- The table of the cluster's state. -/
def ClusterReport.table (r : ClusterReport) : String :=
  "Local Cluster\n" ++ rule 40 '=' ++
    s!"Committed commands: {r.committed}\n\n" ++
    tableRow "ID" "ROLE" "TERM" "LEADER" "COMMIT" "LAST" "SNAPSHOT" "APPLIED" ++
    rule 70 '-' ++
    String.join (r.nodes.map NodeReport.tableRow)

/-- The text of a report. -/
def ClusterReport.text (r : ClusterReport) : Format → String
  | .table => r.table
  | .json => ((Json.Utf8.decode r.toJson.renderPretty).getD "") ++ "\n"

/-- How a fault is shown, as a cause with its quoted wording. -/
def ClusterFault.text : ClusterFault → String
  | noNodes => "\"--nodes must be at least 1\""
  | options cause => "Config(\"" ++ cause.message ++ "\")"

end Raft.CommandLine
