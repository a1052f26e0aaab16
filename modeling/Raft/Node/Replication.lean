import Raft.Node.Commit

/-!
# Leading: replication and commitment

* `Node.nextMessage`, what a leader sends to a peer: the snapshot if the peer's next entry is
  compacted away, and else the entries from there on;
* `Turn.replicate`, that message for every other member;
* `Turn.advanceCommit`, the commit rule: what a quorum holds is committed if its newest entry is
  of the current term;
* `Turn.appendRequest`, a command enters the log, and a configuration in it is in force at once;
* `Turn.lead`, taking up the role of leader.
-/

namespace Raft

namespace Node

/-- The entries from position `start` on for a peer, with the term of the entry before them. -/
def appendMessage (n : Node) (peer : PeerId) (start : Nat) : Except Violation Message :=
  if n.log.nextIndex < start then .error (.nextBeyondLog peer start n.log.nextIndex)
  else
    let batch := n.log.batchFrom start n.settings.batchSize
    let prevIndex := match batch with
      | e :: _ => e.index - 1
      | [] => start - 1
    match n.log.termAt? prevIndex with
    | none => .error (.noTerm prevIndex)
    | some prevTerm =>
      .ok (.appendEntries n.id n.term prevTerm prevIndex batch n.log.committed)

/-- What a leader sends to a peer to bring it up to date. -/
def nextMessage (n : Node) (peer : PeerId) : Except Violation Message :=
  let start := n.nextIndex.get peer
  match n.log.snapshot with
  | none => n.appendMessage peer start
  | some s =>
    if start ≤ s.about.index then .ok (.installSnapshot n.id n.term s)
    else n.appendMessage peer start

/-- Whether the log records `c` as committed: in its newest entry with `c`, or else in the
snapshot. -/
def hasCommitted (n : Node) (c : Configuration) : Bool :=
  match n.log.entries.reverse.find? (·.command = .configuration c) with
  | some e => decide (e.index ≤ n.log.committed)
  | none => n.log.snapshot.isSome

end Node

namespace Turn

/-- Sends a peer what brings it up to date. -/
def sendEntries (t : Turn) (peer : PeerId) : Except Violation Turn :=
  (t.node.nextMessage peer).map (t.send peer)

/-- Sends every other member what brings it up to date. -/
def replicate (t : Turn) : Except Violation Turn :=
  (t.node.standing.membersWithout t.node.id).toList.foldlM sendEntries t

/-- Takes note that a peer holds the log up to `lastIndex`. -/
def recordProgress (t : Turn) (peer : PeerId) (lastIndex : Nat) : Except Violation Turn :=
  if t.node.log.lastIndex < lastIndex then
    .error (.acknowledgedBeyondLog peer lastIndex t.node.log.lastIndex)
  else
    .ok { t with
      node := { t.node with
        nextIndex := t.node.nextIndex.raise peer (lastIndex + 1)
        matchIndex := t.node.matchIndex.raise peer lastIndex } }

/-- Once the joint configuration in force is committed, submits its stable successor. -/
def finishChange (t : Turn) : Turn :=
  let c := t.node.config
  if c.isJoint ∧ t.node.hasCommitted c then
    t.enqueue (.submit ⟨t.node.id, .configuration c.settled⟩)
  else t

/-- Commits what a quorum holds, provided that its newest entry is of the current term. -/
def advanceCommit (t : Turn) : Turn :=
  let q := t.node.matchIndex.quorumIndex t.node.config
  if t.node.log.committed < q ∧ t.node.log.termAt? q = some t.node.term then
    (t.commitUntil q true).finishChange
  else t.finishChange

/-- Appends an entry to the leader's own log. -/
def appendOwn (t : Turn) (command : Command) (client : Option PeerId) : Turn :=
  let index := t.node.log.nextIndex
  let t := t.appendEntry { term := t.node.term, index, command, client }
  { t with node := { t.node with matchIndex := t.node.matchIndex.set t.node.id index } }

/-- Puts the configuration of a command in force if it is newer than the present one. -/
def adoptNewer (t : Turn) (command : Command) : Turn :=
  match command.configuration? with
  | some c => if c.isNewerThan t.node.config then t.useConfig c else t
  | none => t

/-- Leaves the lead if the configuration in force has no place for this node. -/
def leaveIfRemoved (t : Turn) : Turn :=
  if t.node.config.finalMembers.contains t.node.id then t else t.stepDown t.node.term

/-- A leader takes a command into its log and starts to replicate it. -/
def appendRequest (t : Turn) (r : Request) : Except Violation Turn := do
  let t ← ((t.appendOwn r.command (some r.client)).adoptNewer r.command).replicate
  return t.advanceCommit.leaveIfRemoved

/-- Takes up the role of leader. An empty entry of the new term lets earlier entries commit. -/
def lead (t : Turn) : Except Violation Turn := do
  let t := (t.withStanding Standing.resign).goto .leader
  let t := { t with
    node := { t.node with
      leader := some t.node.id
      nextIndex := .uniform t.node.log.lastIndex
      matchIndex := .uniform 0 } }
  let t ← (t.appendOwn .noop none).replicate
  return (t.arm .heartbeat).advanceCommit

end Turn

end Raft
