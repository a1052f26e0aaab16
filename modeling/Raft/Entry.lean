import Raft.Configuration

/-!
# What the log holds

* `Command`, the payload of a log entry;
* `Entry`, a command with its term and position;
* `Snapshot`, a checkpoint that stands for every entry up to its boundary.
-/

namespace Raft

/-- A command that is replicated. -/
inductive Command
  /-- Changes nothing. A new leader appends one so that earlier entries can commit. -/
  | noop
  /-- A change of the members. -/
  | configuration (config : Configuration)
  /-- A payload for the application's state machine. -/
  | application (payload : Bytes)
  deriving DecidableEq

/-- The configuration that a command carries. -/
def Command.configuration? : Command → Option Configuration
  | .configuration c => some c
  | _ => none

/-- A log entry. `client` is whom to answer once the leader has applied it. -/
structure Entry where
  term : Nat
  index : Nat
  command : Command
  client : Option PeerId := none
  deriving DecidableEq

/-- What a snapshot covers: the position and the term of its last entry, and the configuration
in force there. -/
structure SnapshotMeta where
  index : Nat
  term : Nat
  config : Configuration
  deriving DecidableEq

/-- A checkpoint: `data` is the state machine after every entry up to `about.index`. -/
structure Snapshot where
  about : SnapshotMeta
  data : Bytes
  deriving DecidableEq

end Raft
