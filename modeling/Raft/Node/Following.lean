import Raft.Node.Commit

/-!
# Following a leader

* `Turn.onAppendEntries`, a leader sends entries, or none to show that it is there;
* `Turn.onInstallSnapshot`, a leader sends its snapshot.

A follower takes them if the term is current. Where the batch does not fit the log it says so,
and the leader tries an earlier place. The configuration in force always is the newest one in
the log (`syncConfig`), also after the end of the log was cut off.
-/

namespace Raft

namespace Turn

/-- Puts the configuration in force that the log calls for: the newest one in it, or the one from
before the log had any. A node that waited for a configuration then has one. -/
def syncConfig (t : Turn) : Turn :=
  match t.node.log.latestConfiguration? with
  | some c =>
    let t := { t with node := { t.node with configAskedOf := none } }
    if c = t.node.config then t else t.useConfig c
  | none =>
    match t.node.initialConfig with
    | some c => if c = t.node.config then t else t.useConfig c
    | none => t

/-- Acknowledges a leader of the current term. -/
def follow (t : Turn) (leader : PeerId) : Turn :=
  { t with node := { t.node with leader := some leader } }.arm .election

/-- Merges a batch that fits the log, and commits what is known to be the leader's too. -/
def takeEntries (t : Turn) (sender : PeerId) (prevIndex : Nat) (entries : List Entry)
    (commit : Nat) : Turn :=
  let last := match entries.getLast? with
    | some e => e.index
    | none => prevIndex
  let t := if entries.isEmpty then t else (t.mergeEntries entries prevIndex).syncConfig
  (t.commitUntil (min commit last) false).send sender (.appendAccepted t.node.term last)

/-- A follower receives entries. -/
def acceptEntries (t : Turn) (sender leader : PeerId) (term prevTerm prevIndex : Nat)
    (entries : List Entry) (commit : Nat) : Turn :=
  let t := t.withStanding (·.advanceTo term)
  if term < t.node.term then t.send sender (.appendRejected t.node.term)
  else
    let t := t.follow leader
    if t.node.log.matchesAt prevTerm prevIndex then t.takeEntries sender prevIndex entries commit
    else t.send sender (.appendRejected t.node.term)

/-- Replaces the state machine and the log by a snapshot that reaches beyond the commit index. -/
def takeSnapshot (t : Turn) (s : Snapshot) : Turn :=
  if t.node.log.committed < s.about.index then
    ((t.emit (.restore s)).withLog (·.compact s)).syncConfig
  else t

/-- A follower receives a snapshot. -/
def acceptSnapshot (t : Turn) (sender leader : PeerId) (term : Nat) (s : Snapshot) : Turn :=
  let t := t.withStanding (·.advanceTo term)
  if term < t.node.term then t.send sender (.snapshotRejected t.node.term)
  else
    let t := (t.follow leader).takeSnapshot s
    t.send sender (.snapshotAccepted t.node.term s.about.index)

end Turn

end Raft
