import Raft.Node.Election
import Raft.Node.Following
import Raft.Node.Joining

/-!
# The transition function

`step` processes one input. It touches no network, clock or application: what is to be done
there is returned as a list of effects.

An input can raise follow-ups, such as a message that is considered again after stepping down.
They are processed within the same step, at most `followUpLimit` inputs in all. A step that
breaks an internal contract has no result, and the caller keeps the state as it was.
-/

namespace Raft

/-- The most inputs that one step processes. -/
def followUpLimit : Nat := 64

namespace Turn

/-- A reply to a node's own request. A newer term makes the node a follower, an older one is
ignored, and `act` says what a reply of the current term does. A node that is still looking for
the cluster has asked for nothing. -/
def onReply (t : Turn) (term : Nat) (act : Turn → Except Violation Turn) :
    Except Violation Turn :=
  if t.node.role = .init then .ok t
  else if t.node.term < term then t.stepDownTo term
  else if term < t.node.term then .ok t
  else act t

/-- A peer holds the leader's log up to `lastIndex`. -/
def onAccepted (t : Turn) (sender : PeerId) (term lastIndex : Nat) : Except Violation Turn :=
  t.onReply term fun t =>
    if t.node.role = .leader then (t.recordProgress sender lastIndex).map advanceCommit
    else .ok t

/-- A peer could not use what the leader sent, which then tries an earlier place. -/
def onRejected (t : Turn) (sender : PeerId) (term : Nat) : Except Violation Turn :=
  t.onReply term fun t =>
    if t.node.role = .leader then
      { t with
        node := { t.node with nextIndex := t.node.nextIndex.backOff sender } }.sendEntries sender
    else .ok t

/-- A vote was granted. -/
def onVoteGranted (t : Turn) (sender : PeerId) (term : Nat) : Except Violation Turn :=
  t.onReply term fun t => if t.node.role = .candidate then t.countVote sender else .ok t

/-- A message that only a leader sends, to a node that does not follow one. A candidate gives way
to a leader of its own or a newer term. A leader gives way to a newer one only, and shows its
own entries to any other. -/
def onRival (t : Turn) (sender leader : PeerId) (term : Nat) (m refusal : Message) :
    Except Violation Turn :=
  if t.node.term < term ∨ (term = t.node.term ∧ t.node.role = .candidate) then
    (t.stepDownTo term).map (·.redeliver sender m)
  else if t.node.role = .leader then t.sendEntries leader
  else .ok (t.send sender refusal)

/-- A leader sends entries. -/
def onAppendEntries (t : Turn) (sender leader : PeerId) (term prevTerm prevIndex : Nat)
    (entries : List Entry) (commit : Nat) : Except Violation Turn :=
  match t.node.role with
  | .init => .ok (t.joinLeader leader)
  | .follower => .ok (t.acceptEntries sender leader term prevTerm prevIndex entries commit)
  | _ =>
    t.onRival sender leader term (.appendEntries leader term prevTerm prevIndex entries commit)
      (.appendRejected t.node.term)

/-- A leader sends its snapshot. -/
def onInstallSnapshot (t : Turn) (sender leader : PeerId) (term : Nat) (s : Snapshot) :
    Except Violation Turn :=
  match t.node.role with
  | .init => .ok t
  | .follower => .ok (t.acceptSnapshot sender leader term s)
  | _ =>
    t.onRival sender leader term (.installSnapshot leader term s) (.snapshotRejected t.node.term)

/-- A client submits a command, which only a leader can take. -/
def onSubmit (t : Turn) (sender : PeerId) (r : Request) : Except Violation Turn :=
  if t.node.role = .leader then t.appendRequest r
  else .ok (t.send sender (.leaderIs t.node.leaderHint (some r)))

/-- A client asks who leads. A follower passes the question on to the leader it knows. -/
def onWhoLeads (t : Turn) (sender : PeerId) : Turn :=
  match t.node.role, t.node.leader with
  | .follower, some leader =>
    if leader = t.node.id then t.send sender (.leaderIs t.node.leaderHint none)
    else t.forward sender leader .whoLeads
  | _, _ => t.send sender (.leaderIs t.node.leaderHint none)

/-- Processes a message. -/
def onMessage (t : Turn) (sender : PeerId) : Message → Except Violation Turn
  | .requestVote term candidate lastTerm lastIndex =>
    t.onVoteRequest sender term candidate lastTerm lastIndex
  | .grantVote term => t.onVoteGranted sender term
  | .declineVote term => t.onReply term .ok
  | .appendEntries leader term prevTerm prevIndex entries commit =>
    t.onAppendEntries sender leader term prevTerm prevIndex entries commit
  | .appendAccepted term lastIndex => t.onAccepted sender term lastIndex
  | .appendRejected term => t.onRejected sender term
  | .installSnapshot leader term s => t.onInstallSnapshot sender leader term s
  | .snapshotAccepted term lastIndex => t.onAccepted sender term lastIndex
  | .snapshotRejected term => t.onRejected sender term
  | .changeConfiguration c => .ok (t.onChangeConfiguration sender c)
  | .requestConfiguration => .ok (t.onRequestConfiguration sender)
  | .discover => .ok (t.send sender (.discovered t.node.id))
  | .discovered member => .ok (t.onDiscovered member)
  | .memberAdded member required => .ok (t.addMember member required)
  | .submit r => t.onSubmit sender r
  | .whoLeads => .ok (t.onWhoLeads sender)
  | .askRole => .ok (t.send sender (.roleIs t.node.role))
  | .respond .. => .ok t
  | .leaderIs .. => .ok t
  | .roleIs .. => .ok t

/-- A timer has run out. One that does not belong to the present role is ignored. -/
def onTimeout (t : Turn) : Timer → Except Violation Turn
  | .election => t.onElectionTimeout
  | .heartbeat =>
    if t.node.role = .leader then t.replicate.map (·.arm .heartbeat) else .ok t
  | .discovery => if t.node.role = .init then .ok t.onDiscoveryTimeout else .ok t

/-- Processes one input. -/
def dispatch (t : Turn) : Input → Except Violation Turn
  | .message sender m => t.onMessage sender m
  | .timeout timer => t.onTimeout timer
  | .compactLog => t.capture
  | .snapshotPrepared s => .ok (t.finishCapture s)
  | .snapshotFailed _ => .ok (t.finishCapture none)

/-- Processes the pending inputs, at most `budget` of them. -/
def settle : Nat → Turn → Except Violation Turn
  | budget, t =>
    match t.pending with
    | [] => .ok t
    | input :: rest =>
      match budget with
      | 0 => .error (.tooManyFollowUps followUpLimit)
      | budget + 1 => do settle budget (← { t with pending := rest }.dispatch input)

end Turn

/-- The whole transition on one input, with all that follows from it. -/
def Node.process (n : Node) (input : Input) : Except Violation Turn :=
  Turn.settle followUpLimit { node := n, pending := [input] }

/-- Processes one input, with all that follows from it. -/
def step (n : Node) (input : Input) : Except Violation (Node × List Effect) :=
  (n.process input).map fun t => (t.node, t.effects)

end Raft
