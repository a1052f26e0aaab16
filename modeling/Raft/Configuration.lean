import Raft.PeerSet

/-!
# Cluster configurations

A `Configuration` names the voting members: one settled set (`stable`), or the old and the new
set of a change in progress (`joint`). Each carries a sequence number, which grows along a
chain of changes (`sequence_lt_transitionTo`, `sequence_lt_settled`).

Elections and heartbeats address `members`, the union of both sides. What counts as a quorum of
a joint configuration is decided per side, see `Raft.Progress.quorumIndex`.
-/

namespace Raft

/-- The voting members, settled or while they change. -/
inductive Configuration
  | stable (sequence : Nat) (members : PeerSet)
  | joint (sequence : Nat) (oldMembers newMembers : PeerSet)
  deriving DecidableEq

namespace Configuration

/-- The configuration of a node that knows no members. -/
def unconfigured : Configuration := stable 0 .empty

instance : Inhabited Configuration := ⟨unconfigured⟩

/-- Position in the chain of changes. -/
def sequence : Configuration → Nat
  | stable n _ => n
  | joint n _ _ => n

/-- Every peer that votes. -/
def members : Configuration → PeerSet
  | stable _ ms => ms
  | joint _ old new => old.union new

/-- The members that remain once a change in progress is complete. -/
def finalMembers : Configuration → PeerSet
  | stable _ ms => ms
  | joint _ _ new => new

/-- Whether a change of members is in progress. -/
def isJoint : Configuration → Bool
  | stable _ _ => false
  | joint _ _ _ => true

/-- Whether `c` comes later in the chain of changes than `d`. -/
def isNewerThan (c d : Configuration) : Bool := decide (d.sequence < c.sequence)

/-- The joint configuration that leads from the present members of `c` to those of `target`. -/
def transitionTo (c target : Configuration) : Configuration :=
  joint (max c.sequence target.sequence + 1) c.members target.finalMembers

/-- The stable configuration that a change ends in. -/
def settled : Configuration → Configuration
  | stable n ms => stable n ms
  | joint n _ new => stable (n + 1) new

theorem sequence_lt_transitionTo (c target : Configuration) :
    c.sequence < (c.transitionTo target).sequence :=
  Nat.lt_succ_of_le (Nat.le_max_left ..)

theorem sequence_lt_settled {c : Configuration} (h : c.isJoint = true) :
    c.sequence < c.settled.sequence := by
  cases c with
  | stable n ms => simp [isJoint] at h
  | joint n old new => exact Nat.lt_succ_self n

theorem isJoint_settled (c : Configuration) : c.settled.isJoint = false := by
  cases c <;> rfl

/-- The numbers of the members in ascending order, with commas between them. -/
def listing (s : PeerSet) : String :=
  ",".intercalate (s.toList.map fun p => toString p.number)

/-- How a configuration is shown to people. -/
def label : Configuration → String
  | stable n ms =>
    let members := listing ms
    s!"stable#{n}[{members}]"
  | joint n old new =>
    let before := listing old
    let after := listing new
    s!"joint#{n}[{before}]->[{after}]"

end Configuration

end Raft
