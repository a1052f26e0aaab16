import Raft.Log
import Raft.Message
import Raft.Options
import Raft.Progress
import Raft.Standing

/-!
# The state of a node

`Node` is all that one member of the cluster knows. Its `standing` and its `log` are what the
protocol rests on. The rest is kept for the role it plays at present.
-/

namespace Raft

/-- The state of one node. -/
structure Node where
  id : PeerId
  role : Role := .init
  standing : Standing := {}
  log : Log := {}
  /-- The next entry to send to each peer, while leading. -/
  nextIndex : Progress := {}
  /-- The last entry known to be on each peer, while leading. -/
  matchIndex : Progress := {}
  /-- Who last sent valid entries, to redirect clients. -/
  leader : Option PeerId := none
  /-- Who granted a vote in the present election. -/
  granted : PeerSet := .empty
  /-- Whether a capture of the state machine is under way. -/
  capturing : Bool := false
  /-- Whom a node that joins has asked for the configuration. -/
  configAskedOf : Option PeerId := none
  /-- The configuration in force before the log carried one. It is in force again when the last
  entry with a configuration is cut off. -/
  initialConfig : Option Configuration := none
  settings : Settings := {}
  deriving DecidableEq

namespace Node

/-- A node that knows nothing yet. -/
def fresh (id : PeerId) (settings : Settings) : Node := { id, settings }

/-- A node that starts from a snapshot, whose configuration is in force. -/
def ofSnapshot (id : PeerId) (settings : Settings) (s : Snapshot) : Node :=
  { id, settings, standing := { config := s.about.config }, log := .ofSnapshot s }

/-- The current term. -/
def term (n : Node) : Nat := n.standing.term

/-- The configuration in force. -/
def config (n : Node) : Configuration := n.standing.config

/-- The members of the configuration in force. -/
def members (n : Node) : PeerSet := n.standing.members

/-- Whom to redirect clients to. -/
def leaderHint (n : Node) : Option PeerId :=
  match n.role with
  | .leader => some n.id
  | .follower => n.leader
  | .init => none
  | .candidate => none

/-- Whether the candidate is outside a configuration that has members: a node that was removed
and never learnt of it. -/
def isForeign (n : Node) (candidate : PeerId) : Bool :=
  !n.members.isEmpty && !n.members.contains candidate

/-- Whether a log that ends with the given term and index is at least as recent as this node's.
-/
def isCurrentLog (n : Node) (lastTerm lastIndex : Nat) : Bool :=
  decide (n.log.lastTerm < lastTerm ∨
    (lastTerm = n.log.lastTerm ∧ n.log.lastIndex ≤ lastIndex))

end Node

end Raft
