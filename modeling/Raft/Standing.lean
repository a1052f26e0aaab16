import Raft.Configuration
import Raft.Fault

/-!
# A node's standing in elections

`Standing` is the part of a node's state that elections rest on: the current term, the
configuration in force, the vote given in this term and the votes received in it.

* `advanceTo` adopts a newer term, which clears the vote, and ignores any other
  (`term_le_advanceTo`);
* `startElection`, `voteFor`, `countVote`, `voteForSelf`, `resign` and `reconfigure` are the other
  changes, and `Event` with `Standing.apply` is their closed list.
-/

namespace Raft

/-- Term, configuration and vote record of a node. -/
structure Standing where
  term : Nat := 0
  config : Configuration := .unconfigured
  votedFor : Option PeerId := none
  /-- Votes received. Means something only while campaigning. -/
  votes : Nat := 0
  deriving DecidableEq

namespace Standing

instance : Inhabited Standing := ⟨{}⟩

/-- The members of the configuration in force. -/
def members (s : Standing) : PeerSet := s.config.members

/-- The members of the configuration in force, but for `p`. -/
def membersWithout (s : Standing) (p : PeerId) : PeerSet := s.config.members.erase p

/-- One vote per term. It may be repeated for the same candidate. -/
def canVoteFor (s : Standing) (term : Nat) (candidate : PeerId) : Bool :=
  term == s.term && (s.votedFor.isNone || s.votedFor == some candidate)

/-- Whether more votes than half of the number of members came in. -/
def hasMajority (s : Standing) : Bool := decide (s.config.members.size / 2 < s.votes)

/-- Adopts a newer term, in which nobody has a vote yet. A term that is not newer changes
nothing, so a vote cast in the present term is never forgotten. -/
def advanceTo (s : Standing) (term : Nat) : Standing :=
  if s.term < term then { term := term, config := s.config } else s

/-- Enters the next term as a candidate, with no votes so far. -/
def startElection (s : Standing) : Standing := { term := Term.next s.term, config := s.config }

/-- Records the vote of this term. -/
def voteFor (s : Standing) (candidate : PeerId) : Standing :=
  { s with votedFor := some candidate }

/-- Counts one more vote received. -/
def countVote (s : Standing) : Standing := { s with votes := s.votes + 1 }

/-- A candidate's vote for itself. -/
def voteForSelf (s : Standing) (me : PeerId) : Standing := (s.voteFor me).countVote

/-- Forgets the votes received. -/
def resign (s : Standing) : Standing := { s with votes := 0 }

/-- Puts another configuration in force. -/
def reconfigure (s : Standing) (c : Configuration) : Standing := { s with config := c }

theorem term_le_advanceTo (s : Standing) (t : Nat) : s.term ≤ (s.advanceTo t).term := by
  unfold advanceTo
  split
  · exact Nat.le_of_lt ‹_›
  · exact Nat.le_refl _

theorem le_term_advanceTo (s : Standing) (t : Nat) : t ≤ (s.advanceTo t).term := by
  unfold advanceTo
  split
  · exact Nat.le_refl _
  · exact Nat.le_of_not_lt ‹_›

theorem term_advanceTo {s : Standing} {t : Nat} (h : s.term ≤ t) : (s.advanceTo t).term = t := by
  unfold advanceTo
  split
  · rfl
  · exact Nat.le_antisymm h (Nat.le_of_not_lt ‹_›)

theorem advanceTo_of_le {s : Standing} {t : Nat} (h : t ≤ s.term) : s.advanceTo t = s :=
  if_neg (Nat.not_lt.2 h)

@[simp] theorem config_advanceTo (s : Standing) (t : Nat) : (s.advanceTo t).config = s.config := by
  unfold advanceTo
  split <;> rfl

/-- The changes that a standing can undergo. -/
inductive Event
  | updateTerm (term : Nat)
  | becomeFollower (term : Option Nat)
  | becomeLeader
  | startElection
  | keep
  | voteFor (candidate : PeerId)
  | countVote
  | voteForSelf (me : PeerId)
  | reconfigure (term : Option Nat) (config : Configuration)
  deriving DecidableEq

/-- Adopts a term that must not be lower than the present one. -/
def adopt (s : Standing) (term : Nat) : Except Violation Standing :=
  if term < s.term then .error (.termRegression s.term term) else .ok (s.advanceTo term)

/-- Carries out one change. -/
def apply (s : Standing) : Event → Except Violation Standing
  | .updateTerm t => s.adopt t
  | .becomeFollower none => .ok s.resign
  | .becomeFollower (some t) => (s.adopt t).map resign
  | .becomeLeader => .ok s.resign
  | .startElection => .ok s.startElection
  | .keep => .ok s
  | .voteFor candidate => .ok (s.voteFor candidate)
  | .countVote => .ok s.countVote
  | .voteForSelf me => .ok (s.voteForSelf me)
  | .reconfigure none c => .ok (s.reconfigure c)
  | .reconfigure (some t) c => .ok ((s.advanceTo t).reconfigure c)

end Standing

end Raft
