import Raft.Node.Turn

/-!
# Committing and compacting

* `Turn.commitUntil` moves the commit index and has every newly committed application command
  applied, in order;
* `Turn.capture` asks for the state machine to be captured at the commit index;
* `Turn.finishCapture` compacts the log with the outcome.

A commit sets off a capture as soon as the live committed entries reach the threshold of the
settings.
-/

namespace Raft

namespace Node

/-- The configuration that a snapshot at position `i` records. -/
def configurationAt (n : Node) (i : Nat) : Configuration :=
  ((n.log.configurationAt? i).or n.initialConfig).getD n.config

/-- What a snapshot at the commit index covers. There is none to take before the node takes part
in the cluster, while another one is under way, and when nothing was committed since the last. -/
def snapshotDue? (n : Node) : Except Violation (Option SnapshotMeta) :=
  let i := n.log.committed
  if n.role = .init ∨ n.capturing = true ∨ i = 0 ∨ i ≤ n.log.prevIndex then .ok none
  else
    match n.log.termAt? i with
    | none => .error (.noCommittedTerm i)
    | some term => .ok (some { index := i, term := term, config := n.configurationAt i })

/-- Whether the live committed entries reach the threshold of the settings. -/
def isCompactionDue (n : Node) : Bool :=
  decide (n.settings.compactionThreshold ≠ 0 ∧ n.role ≠ .init ∧
    n.settings.compactionThreshold ≤ n.log.committed - n.log.prevIndex)

end Node

/-- The effect of committing an entry: an application command is applied, and its client is
answered if `respond` is set and there is one. -/
def Entry.applied? (e : Entry) (respond : Bool) : Option Effect :=
  match e.command with
  | .application _ => some (.apply e (respond && e.client.isSome))
  | .configuration _ => none
  | .noop => none

namespace Turn

/-- Asks for the state machine to be captured at the commit index, if that is due. -/
def capture (t : Turn) : Except Violation Turn :=
  match t.node.snapshotDue? with
  | .error v => .error v
  | .ok none => .ok t
  | .ok (some about) =>
    .ok ({ t with node := { t.node with capturing := true } }.emit (.prepareSnapshot about))

/-- Asks for a capture once enough was committed. If it is not possible now, nothing happens. -/
def considerCompaction (t : Turn) : Turn :=
  if t.node.isCompactionDue then
    match t.capture with
    | .ok t' => t'
    | .error _ => t
  else t

/-- Commits everything up to position `i`, as far as the log reaches. -/
def commitUntil (t : Turn) (i : Nat) (respond : Bool) : Turn :=
  let log := t.node.log
  let target := min i log.lastIndex
  if target ≤ log.committed then t
  else
    let effects := (log.slice log.committed target).filterMap (·.applied? respond)
    { t with
      node := { t.node with log := log.commit target }
      effects := t.effects ++ effects }.considerCompaction

/-- Ends a capture, and compacts the log if it brought a snapshot. -/
def finishCapture (t : Turn) (s : Option Snapshot) : Turn :=
  let log := match s with
    | some s => t.node.log.compact s
    | none => t.node.log
  { t with node := { t.node with capturing := false, log := log } }

end Turn

end Raft
