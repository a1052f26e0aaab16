import Raft.Entry

/-!
# What nodes and clients exchange

* `Message`, everything that goes over the network;
* `Input`, one event for a node to process;
* `Effect`, what a node asks its surroundings to do.
-/

namespace Raft

/-- The part that a node plays. -/
inductive Role
  | init
  | follower
  | candidate
  | leader
  deriving DecidableEq

/-- How a role is shown to people. -/
def Role.label : Role → String
  | .init => "init"
  | .follower => "follower"
  | .candidate => "candidate"
  | .leader => "leader"

/-- A command with the client that submitted it, kept together so that it can be sent again to
another node. -/
structure Request where
  client : PeerId
  command : Command
  deriving DecidableEq

/-- Everything that peers and clients send. -/
inductive Message
  | requestVote (term : Nat) (candidate : PeerId) (lastTerm lastIndex : Nat)
  | grantVote (term : Nat)
  | declineVote (term : Nat)
  | appendEntries (leader : PeerId) (term prevTerm prevIndex : Nat) (entries : List Entry)
      (commit : Nat)
  | appendAccepted (term lastIndex : Nat)
  | appendRejected (term : Nat)
  | installSnapshot (leader : PeerId) (term : Nat) (snapshot : Snapshot)
  | snapshotAccepted (term lastIndex : Nat)
  | snapshotRejected (term : Nat)
  | changeConfiguration (config : Configuration)
  | requestConfiguration
  | discover
  | discovered (member : PeerId)
  | memberAdded (member : PeerId) (required : Nat)
  | submit (request : Request)
  | respond (index : Nat) (result : Bytes)
  | whoLeads
  | leaderIs (leader : Option PeerId) (pending : Option Request)
  | askRole
  | roleIs (role : Role)
  deriving DecidableEq

/-- The term that a message carries. -/
def Message.term? : Message → Option Nat
  | .requestVote t _ _ _ => some t
  | .grantVote t => some t
  | .declineVote t => some t
  | .appendEntries _ t _ _ _ _ => some t
  | .appendAccepted t _ => some t
  | .appendRejected t => some t
  | .installSnapshot _ t _ => some t
  | .snapshotAccepted t _ => some t
  | .snapshotRejected t => some t
  | _ => none

/-- The name of a message on the wire. -/
def Message.name : Message → String
  | .requestVote .. => "RequestVote"
  | .grantVote .. => "VoteCandidate"
  | .declineVote .. => "DeclineCandidate"
  | .appendEntries .. => "AppendEntries"
  | .appendAccepted .. => "AppendSuccessful"
  | .appendRejected .. => "AppendRejected"
  | .installSnapshot .. => "InstallSnapshot"
  | .snapshotAccepted .. => "InstallSnapshotSuccessful"
  | .snapshotRejected .. => "InstallSnapshotRejected"
  | .changeConfiguration .. => "ChangeConfiguration"
  | .requestConfiguration => "RequestConfiguration"
  | .discover => "RaftMembersDiscoveryRequest"
  | .discovered .. => "RaftMembersDiscoveryResponse"
  | .memberAdded .. => "RaftMemberAdded"
  | .submit .. => "ClientMessage"
  | .respond .. => "ClientResponse"
  | .whoLeads => "WhoIsTheLeader"
  | .leaderIs .. => "LeaderIs"
  | .askRole => "AskForState"
  | .roleIs .. => "IAmInState"

/-- The timers of a node. Each runs at most once at a time. -/
inductive Timer
  | election
  | heartbeat
  | discovery
  deriving DecidableEq

/-- One event for a node to process. -/
inductive Input
  | message (sender : PeerId) (message : Message)
  | timeout (timer : Timer)
  /-- Capture the state machine at the commit index and compact the log. -/
  | compactLog
  /-- The outcome of an earlier request to capture the state machine. -/
  | snapshotPrepared (snapshot : Option Snapshot)
  /-- The state machine could not be captured. -/
  | snapshotFailed (reason : String)
  deriving DecidableEq

/-- What a transition asks the surroundings to do, in order. -/
inductive Effect
  | send (receiver : PeerId) (message : Message)
  /-- Deliver the message as though `sender` had sent it. -/
  | forward (sender receiver : PeerId) (message : Message)
  | arm (timer : Timer)
  | cancel (timer : Timer)
  /-- Apply a committed entry, and answer its client if `respond` is set. -/
  | apply (entry : Entry) (respond : Bool)
  /-- Replace the state machine's state by that of the snapshot. -/
  | restore (snapshot : Snapshot)
  /-- Capture the state machine. -/
  | prepareSnapshot (about : SnapshotMeta)
  deriving DecidableEq

end Raft
