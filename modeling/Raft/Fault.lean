import Raft.Ident

/-!
# Causes of failure

* `Violation`, why a transition is given up;
* `OptionsFault`, why a node cannot be started;
* `Fault`, everything that a caller of the library can be told.

The wording is in `Fault.message` alone.
-/

namespace Raft

/-- A broken internal contract. The transition in which it shows is given up. -/
inductive Violation
  /-- A term lower than the present one was to be adopted. -/
  | termRegression (current proposed : Nat)
  /-- A peer acknowledged an entry that the leader does not have. -/
  | acknowledgedBeyondLog (peer : PeerId) (index last : Nat)
  /-- The next entry for a peer lies beyond the end of the leader's log. -/
  | nextBeyondLog (peer : PeerId) (index stop : Nat)
  /-- The entry before a batch has no known term. -/
  | noTerm (index : Nat)
  /-- The last committed entry has no known term. -/
  | noCommittedTerm (index : Nat)
  /-- One input raised more follow-up events than `limit`. -/
  | tooManyFollowUps (limit : Nat)
  deriving DecidableEq

/-- Options that a node cannot run with. -/
inductive OptionsFault
  | electionRange (low high : Nat)
  | heartbeat (interval : Nat)
  | discovery
  | batch
  | inbox
  /-- The given state is that of another node. -/
  | foreignState (state options : PeerId)
  deriving DecidableEq

/-- Why a state machine could not be captured or restored. -/
inductive SnapshotFault
  /-- The data is not a captured state. -/
  | unreadable
  | unavailable (reason : String)
  deriving DecidableEq

/-- What a caller can be told instead of a result. -/
inductive Fault
  | notLeader (leader : Option PeerId)
  | illegalTransition (cause : Violation)
  | snapshot (cause : SnapshotFault)
  /-- The peer got no reply in time. -/
  | timeout (peer : PeerId)
  /-- The peer's inbox is closed. -/
  | channelClosed (peer : PeerId)
  | options (cause : OptionsFault)
  deriving DecidableEq

/-- The wording of a broken contract. -/
def Violation.message : Violation → String
  | termRegression current proposed =>
    "term would move backwards from " ++ Term.label current ++ " to " ++ Term.label proposed
  | acknowledgedBeyondLog peer index last =>
    peer.label ++ s!" reports index {index} beyond leader log {last}"
  | nextBeyondLog peer index stop =>
    s!"next index {index} for " ++ peer.label ++ s!" is beyond log end {stop}"
  | noTerm index => s!"no term known for index {index}"
  | noCommittedTerm index => s!"no term for committed index {index}"
  | tooManyFollowUps limit => s!"more than {limit} follow-up events in a single step"

/-- The wording of what is wrong with a node's options. -/
def OptionsFault.message : OptionsFault → String
  | electionRange low high => s!"invalid election timeout range {low}..={high} ms"
  | heartbeat interval =>
    s!"heartbeat interval {interval} ms must be non-zero and below the election timeout"
  | discovery => "discovery interval must be non-zero"
  | batch => "max_entries_batch must be non-zero"
  | inbox => "inbox_capacity must be non-zero"
  | foreignState state options =>
    "state belongs to " ++ state.label ++ " but config is for " ++ options.label

/-- The wording of a failure to capture or restore a state machine. -/
def SnapshotFault.message : SnapshotFault → String
  | unreadable => "the data is not a captured state"
  | unavailable reason => reason

/-- The full wording of a fault. -/
def Fault.message : Fault → String
  | notLeader none => "Not the leader, current leader is None"
  | notLeader (some p) => s!"Not the leader, current leader is Some(PeerId({p.number}))"
  | illegalTransition cause => "Illegal transition: " ++ cause.message
  | snapshot cause => "Snapshot error: " ++ cause.message
  | timeout peer => "Timed out: " ++ peer.label ++ " got no reply in time"
  | channelClosed peer => "Channel closed: inbox of " ++ peer.label ++ " closed"
  | options cause => "Invalid configuration: " ++ cause.message

end Raft
