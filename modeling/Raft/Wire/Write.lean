import Raft.Json.Value
import Raft.Message

/-!
# The wire format, writing

The JSON form of everything that goes over the network. A record is an object with its fields,
and one of several alternatives is the object with its name as the only key, or just the name if
it has no contents. Names are those of the protocol.
-/

namespace Raft

open Json (Value)

/-- A peer is its number. -/
def PeerId.toJson (p : PeerId) : Value := .natural p.number

/-- A byte is a number. -/
def byteToJson (b : UInt8) : Value := .natural b.toNat

/-- Bytes are a list of numbers. -/
def bytesToJson (b : Bytes) : Value := .list byteToJson b

/-- A set is the ascending list of its members. -/
def PeerSet.toJson (s : PeerSet) : Value := .list PeerId.toJson s.toList

/-- The JSON form of a configuration. -/
def Configuration.toJson : Configuration → Value
  | .stable n ms =>
    .tagged "Stable" (.record [("sequence", .natural n), ("members", ms.toJson)])
  | .joint n old new =>
    .tagged "Joint" (.record
      [("sequence", .natural n), ("old_members", old.toJson), ("new_members", new.toJson)])

/-- The JSON form of a command. -/
def Command.toJson : Command → Value
  | .noop => .text "Noop"
  | .configuration c => .tagged "Configuration" c.toJson
  | .application payload => .tagged "Application" (bytesToJson payload)

/-- The JSON form of an entry. -/
def Entry.toJson (e : Entry) : Value :=
  .record
    [("term", .natural e.term), ("index", .natural e.index), ("command", e.command.toJson),
      ("client", .option PeerId.toJson e.client)]

/-- The JSON form of what a snapshot covers. -/
def SnapshotMeta.toJson (m : SnapshotMeta) : Value :=
  .record
    [("last_included_index", .natural m.index), ("last_included_term", .natural m.term),
      ("config", m.config.toJson)]

/-- The JSON form of a snapshot. -/
def Snapshot.toJson (s : Snapshot) : Value :=
  .record [("meta", s.about.toJson), ("data", bytesToJson s.data)]

/-- The JSON form of a client's request. -/
def Request.toJson (r : Request) : Value :=
  .record [("client", r.client.toJson), ("command", r.command.toJson)]

/-- The name of a role on the wire. -/
def Role.name : Role → String
  | .init => "Init"
  | .follower => "Follower"
  | .candidate => "Candidate"
  | .leader => "Leader"

/-- The JSON form of a role. -/
def Role.toJson (r : Role) : Value := .text r.name

/-- The name of a timer on the wire. -/
def Timer.name : Timer → String
  | .election => "Election"
  | .heartbeat => "Heartbeat"
  | .discovery => "Discovery"

/-- The JSON form of a timer. -/
def Timer.toJson (t : Timer) : Value := .text t.name

/-- The JSON form of a message. -/
def Message.toJson (m : Message) : Value :=
  match m with
  | .requestVote term candidate lastTerm lastIndex =>
    .tagged m.name (.record
      [("term", .natural term), ("candidate", candidate.toJson),
        ("last_log_term", .natural lastTerm), ("last_log_index", .natural lastIndex)])
  | .grantVote term => .tagged m.name (.record [("term", .natural term)])
  | .declineVote term => .tagged m.name (.record [("term", .natural term)])
  | .appendEntries leader term prevTerm prevIndex entries commit =>
    .tagged m.name (.record
      [("member", leader.toJson), ("term", .natural term), ("prev_log_term", .natural prevTerm),
        ("prev_log_index", .natural prevIndex), ("entries", .list Entry.toJson entries),
        ("leader_commit", .natural commit)])
  | .appendAccepted term lastIndex =>
    .tagged m.name (.record [("term", .natural term), ("last_index", .natural lastIndex)])
  | .appendRejected term => .tagged m.name (.record [("term", .natural term)])
  | .installSnapshot leader term s =>
    .tagged m.name (.record
      [("leader", leader.toJson), ("term", .natural term), ("snapshot", s.toJson)])
  | .snapshotAccepted term lastIndex =>
    .tagged m.name (.record [("term", .natural term), ("last_index", .natural lastIndex)])
  | .snapshotRejected term => .tagged m.name (.record [("term", .natural term)])
  | .changeConfiguration c => .tagged m.name (.record [("new_config", c.toJson)])
  | .requestConfiguration => .text m.name
  | .discover => .text m.name
  | .discovered member => .tagged m.name (.record [("member", member.toJson)])
  | .memberAdded member required =>
    .tagged m.name (.record
      [("member", member.toJson), ("keep_init_until", .natural required)])
  | .submit r => .tagged m.name r.toJson
  | .respond index result =>
    .tagged m.name (.record [("index", .natural index), ("result", bytesToJson result)])
  | .whoLeads => .text m.name
  | .leaderIs leader pending =>
    .tagged m.name (.record
      [("leader", .option PeerId.toJson leader), ("pending", .option Request.toJson pending)])
  | .askRole => .text m.name
  | .roleIs role => .tagged m.name (.record [("state", role.toJson)])

end Raft
