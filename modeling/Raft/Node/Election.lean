import Raft.Node.Replication

/-!
# Elections

* `Turn.onElectionTimeout`, a follower or a candidate has waited long enough;
* `Turn.onVoteRequest`, another node asks for a vote;
* `Turn.countVote`, a candidate has received a vote.

A vote is granted once per term, to members only, and only if the candidate's log is at least as
recent as that of the voter.
-/

namespace Raft

namespace Turn

/-- A node that waits for the configuration it has asked for asks again, and does not campaign.
The result is `none` if it does not wait for one. -/
def askAgain? (t : Turn) : Option Turn :=
  t.node.configAskedOf.map fun p => t.send p .requestConfiguration

/-- The request for a vote that a candidate sends. -/
def voteRequest (n : Node) : Message :=
  .requestVote n.term n.id n.log.lastTerm n.log.lastIndex

/-- Leads if the votes received are a majority. -/
def leadIfElected (t : Turn) : Except Violation Turn :=
  if t.node.standing.hasMajority then t.lead else .ok t

/-- Asks every other member for its vote and votes for itself. -/
def campaign (t : Turn) : Except Violation Turn :=
  let others := (t.node.standing.membersWithout t.node.id).toList
  let t := others.foldl (fun t p => t.send p (voteRequest t.node)) t
  leadIfElected { t with
    node := { t.node with
      standing := t.node.standing.voteForSelf t.node.id
      granted := .singleton t.node.id } }

/-- The election timer of a follower has run out. Only a member stands for election. -/
def beginElection (t : Turn) : Except Violation Turn :=
  let t := t.arm .election
  match t.askAgain? with
  | some t => .ok t
  | none =>
    if t.node.members.contains t.node.id then
      ((t.withStanding Standing.startElection).goto .candidate).campaign
    else .ok t

/-- The election timer of a candidate has run out. It tries again if there is anybody else. -/
def retryElection (t : Turn) : Except Violation Turn :=
  match t.askAgain? with
  | some t => .ok (t.arm .election)
  | none =>
    if 1 < t.node.members.size then
      ((t.withStanding Standing.startElection).arm .election).campaign
    else .ok (t.stepDown t.node.term)

/-- The election timer has run out. -/
def onElectionTimeout (t : Turn) : Except Violation Turn :=
  match t.node.role with
  | .follower => t.beginElection
  | .candidate => t.retryElection
  | .init => .ok t
  | .leader => .ok t

/-- A follower answers a request for its vote. -/
def answerVoteRequest (t : Turn) (sender : PeerId) (term : Nat) (candidate : PeerId)
    (lastTerm lastIndex : Nat) : Turn :=
  if t.node.isForeign candidate then t.send sender (.declineVote t.node.term)
  else
    let t := t.withStanding (·.advanceTo term)
    if t.node.standing.canVoteFor term candidate ∧ t.node.isCurrentLog lastTerm lastIndex then
      ((t.withStanding (·.voteFor candidate)).arm .election).send sender (.grantVote t.node.term)
    else t.send sender (.declineVote t.node.term)

/-- Another node asks for a vote. A candidate or leader considers it only if it is for a newer
term, and then as a follower. -/
def onVoteRequest (t : Turn) (sender : PeerId) (term : Nat) (candidate : PeerId)
    (lastTerm lastIndex : Nat) : Except Violation Turn :=
  match t.node.role with
  | .init => .ok t
  | .follower => .ok (t.answerVoteRequest sender term candidate lastTerm lastIndex)
  | _ =>
    if t.node.term < term ∧ ¬ t.node.isForeign candidate then
      (t.stepDownTo term).map
        (·.redeliver sender (.requestVote term candidate lastTerm lastIndex))
    else .ok (t.send sender (.declineVote t.node.term))

/-- A candidate counts a vote of the current term, once for each member. -/
def countVote (t : Turn) (voter : PeerId) : Except Violation Turn :=
  if t.node.members.contains voter ∧ ¬ t.node.granted.contains voter then
    leadIfElected { t with
      node := { t.node with
        standing := t.node.standing.countVote
        granted := t.node.granted.insert voter } }
  else .ok t

end Turn

end Raft
