import Mathlib.Data.Prod.Lex
import Raft.Proofs.TermGate

/-!
# Who gets a vote

`Node.Favours` is the rule: the candidate may stand, the vote is still free in the candidate's term,
and the candidate's log is not behind the node's own, where logs are compared by the term of their
last entry first.

A follower answers at once. A candidate and a leader answer a request of a newer term as the
follower that they become, and they decline any other. Either way a request for a vote ends in one
of two ways:

* `Turn.Grants`, the vote is recorded, and the reply says so;
* `Turn.Declines`, no vote is recorded, and the reply carries the node's term.

`Node.exists_answer` says which, and `exists_vote_reply` what this means for a transition.
-/

namespace Raft

/-! ### The rule -/

/-- Whether an effect answers a request for a vote. -/
def Effect.isVoteReply : Effect → Bool
  | .send _ (.grantVote _) => true
  | .send _ (.declineVote _) => true
  | .forward _ _ (.grantVote _) => true
  | .forward _ _ (.declineVote _) => true
  | _ => false

theorem Effect.IsTimer.isVoteReply {e : Effect} (h : e.IsTimer) : e.isVoteReply = false := by
  cases e with
  | send | forward => cases h
  | _ => rfl

/-- The rule for votes. The node that is asked favours the candidate. -/
structure Node.Favours (n : Node) (term : Nat) (candidate : PeerId) (lastTerm lastIndex : Nat) :
    Prop where
  /-- The candidate may stand. -/
  member : n.members = .empty ∨ candidate ∈ n.members
  /-- The node has not voted for anybody else in the candidate's term. -/
  free : n.term < term ∨ (term = n.term ∧ n.role = .follower ∧
    (n.standing.votedFor = none ∨ n.standing.votedFor = some candidate))
  /-- The candidate's log is at least as recent. -/
  current : toLex (n.log.lastTerm, n.log.lastIndex) ≤ toLex (lastTerm, lastIndex)

instance (n : Node) (term : Nat) (candidate : PeerId) (lastTerm lastIndex : Nat) :
    Decidable (n.Favours term candidate lastTerm lastIndex) :=
  decidable_of_iff
    ((n.members = .empty ∨ candidate ∈ n.members) ∧
      (n.term < term ∨ (term = n.term ∧ n.role = .follower ∧
        (n.standing.votedFor = none ∨ n.standing.votedFor = some candidate))) ∧
      toLex (n.log.lastTerm, n.log.lastIndex) ≤ toLex (lastTerm, lastIndex))
    ⟨fun h => ⟨h.1, h.2.1, h.2.2⟩, fun h => ⟨h.member, h.free, h.current⟩⟩

variable {n : Node} {term : Nat} {candidate : PeerId} {lastTerm lastIndex : Nat}

theorem Node.isCurrentLog_iff (n : Node) (lastTerm lastIndex : Nat) :
    n.isCurrentLog lastTerm lastIndex = true ↔
    toLex (n.log.lastTerm, n.log.lastIndex) ≤ toLex (lastTerm, lastIndex) := by
  rw [isCurrentLog, decide_eq_true_iff, Prod.Lex.toLex_le_toLex, eq_comm (a := lastTerm)]

/-- After a newer term has been taken up, the vote is free. -/
theorem Standing.canVoteFor_advanceTo (s : Standing) (term : Nat) (candidate : PeerId) :
    (s.advanceTo term).canVoteFor term candidate = true ↔
      s.term < term ∨ (term = s.term ∧ (s.votedFor = none ∨ s.votedFor = some candidate)) := by
  by_cases hlt : s.term < term
  · simp [advanceTo, canVoteFor, hlt]
  · simp [advanceTo, canVoteFor, hlt]

theorem Standing.votedFor_advanceTo (s : Standing) :
    (s.advanceTo term).votedFor =
      if s.term < (s.advanceTo term).term then none else s.votedFor := by
  by_cases hlt : s.term < term
  · simp [advanceTo, hlt]
  · simp [advanceTo, hlt]

/-! ### The two ways -/

namespace Turn

variable {t u v : Turn} {sender : PeerId}

/-- The replies to requests for votes among the effects of a turn. -/
def replies (t : Turn) : List Effect := t.effects.filter Effect.isVoteReply

theorem replies_emit {e : Effect} (h : e.isVoteReply = true) :
    (t.emit e).replies = t.replies ++ [e] := by simp [replies, emit, h]

theorem replies_emit_of_not {e : Effect} (h : e.isVoteReply = false) :
    (t.emit e).replies = t.replies := by simp [replies, emit, h]

/-- From `t` to `u` the vote has been given. -/
structure Grants (t u : Turn) (sender : PeerId) (term : Nat) (candidate : PeerId) : Prop where
  replies : u.replies = t.replies ++ [.send sender (.grantVote term)]
  term : u.node.term = term
  votedFor : u.node.standing.votedFor = some candidate

/-- From `t` to `u` the vote has been refused. -/
structure Declines (t u : Turn) (sender candidate : PeerId) : Prop where
  replies : u.replies = t.replies ++ [.send sender (.declineVote u.node.term)]
  le : t.node.term ≤ u.node.term
  votedFor : u.node.standing.votedFor =
    if t.node.term < u.node.term then none else t.node.standing.votedFor
  foreign : t.node.isForeign candidate = true → u.node = t.node

theorem declines_send :
    t.Declines (t.send sender (.declineVote t.node.term)) sender candidate where
  replies := replies_emit rfl
  le := Nat.le_refl _
  votedFor := (if_neg (Nat.lt_irrefl t.node.term)).symm
  foreign _ := rfl

theorem pending_answerVoteRequest (t : Turn) (sender : PeerId) (term : Nat) (candidate : PeerId)
    (lastTerm lastIndex : Nat) :
    (t.answerVoteRequest sender term candidate lastTerm lastIndex).pending = t.pending := by
  unfold answerVoteRequest
  split
  next => rfl
  next =>
    simp only
    split <;> rfl

/-- A follower goes by the rule. -/
theorem answerVoteRequest_cases (hrole : t.node.role = .follower) (sender : PeerId) (term : Nat)
    (candidate : PeerId) (lastTerm lastIndex : Nat) :
    (t.node.Favours term candidate lastTerm lastIndex ∧
      t.Grants (t.answerVoteRequest sender term candidate lastTerm lastIndex) sender term
        candidate) ∨
    (¬ t.node.Favours term candidate lastTerm lastIndex ∧
      t.Declines (t.answerVoteRequest sender term candidate lastTerm lastIndex) sender
        candidate) := by
  unfold answerVoteRequest
  by_cases hforeign : t.node.isForeign candidate = true
  · rw [if_pos hforeign]
    refine .inr ⟨fun h => ?_, declines_send⟩
    rw [Node.isForeign_eq_false.2 h.member] at hforeign
    cases hforeign
  · rw [if_neg hforeign]
    have hmember := Node.isForeign_eq_false.1 (Bool.eq_false_iff.2 hforeign)
    have hfree := t.node.standing.canVoteFor_advanceTo term candidate
    have hcurrent := t.node.isCurrentLog_iff lastTerm lastIndex
    simp only
    split
    next h =>
      obtain ⟨hvote, hlog⟩ := h
      have hterm : term = (t.node.standing.advanceTo term).term := by
        rw [Standing.canVoteFor, Bool.and_eq_true, beq_iff_eq] at hvote
        exact hvote.1
      refine .inl ⟨⟨hmember, (hfree.1 hvote).imp_right fun h => ⟨h.1, hrole, h.2⟩,
        hcurrent.1 hlog⟩, ?_, hterm.symm, rfl⟩
      have hsent : (t.withStanding (·.advanceTo term)).node.term = term := hterm.symm
      rw [hsent, send, replies_emit rfl, arm, replies_emit_of_not rfl]
      rfl
    next h =>
      refine .inr ⟨fun hfavours => h ⟨hfree.2 ?_, hcurrent.2 hfavours.current⟩, ?_⟩
      · exact hfavours.free.imp_right fun h => ⟨h.1, h.2.2⟩
      · exact {
          replies := replies_emit rfl
          le := Standing.term_le_advanceTo _ _
          votedFor := Standing.votedFor_advanceTo _
          foreign := fun h => absurd h hforeign }

/-- Only timers are set when a role is left. -/
theorem replies_stepDown (t : Turn) (term : Nat) : (t.stepDown term).replies = t.replies := by
  obtain ⟨es, heffects, htimers⟩ :=
    (t.withStanding fun s => (s.advanceTo term).resign).emits_goto .follower
  have hnone : es.filter Effect.isVoteReply = [] :=
    List.filter_eq_nil_iff.2 fun e he => Bool.eq_false_iff.1 (htimers e he).isVoteReply
  unfold replies stepDown
  rw [heffects, List.filter_append, hnone, List.append_nil]
  rfl

theorem votedFor_stepDown (hlt : t.node.term < term) :
    (t.stepDown term).node.standing.votedFor = none := by
  have hterm : (t.node.standing.advanceTo term).term = term :=
    Standing.term_advanceTo (Nat.le_of_lt hlt)
  rw [node_stepDown]
  show (t.node.standing.advanceTo term).votedFor = none
  rw [Standing.votedFor_advanceTo, hterm]
  exact if_pos hlt

/-- A node that steps down for a candidate who may stand favours it as before. -/
theorem favours_stepDown (hlt : t.node.term < term) :
    (t.stepDown term).node.Favours term candidate lastTerm lastIndex ↔
      t.node.Favours term candidate lastTerm lastIndex := by
  have hmembers : (t.stepDown term).node.members = t.node.members := by
    rw [node_stepDown]
    exact congrArg Configuration.members (Standing.config_advanceTo ..)
  have hlog : (t.stepDown term).node.log = t.node.log := by
    rw [node_stepDown]
    rfl
  constructor
  · rintro ⟨hmember, -, hcurrent⟩
    exact ⟨hmembers ▸ hmember, .inl hlt, hlog ▸ hcurrent⟩
  · rintro ⟨hmember, -, hcurrent⟩
    refine ⟨hmembers ▸ hmember, .inr ⟨(term_stepDown (Nat.le_of_lt hlt)).symm,
      role_stepDown t term, .inl ?_⟩, hlog ▸ hcurrent⟩
    exact votedFor_stepDown hlt

/-- What a node answers after it has stepped down for a newer term is its answer. -/
theorem Grants.of_stepDown (h : (t.stepDown term).Grants u sender term candidate) :
    t.Grants u sender term candidate where
  replies := by rw [h.replies, replies_stepDown]
  term := h.term
  votedFor := h.votedFor

theorem Declines.of_stepDown (hlt : t.node.term < term)
    (hforeign : t.node.isForeign candidate = false)
    (h : (t.stepDown term).Declines u sender candidate) : t.Declines u sender candidate := by
  have hterm := term_stepDown (Nat.le_of_lt hlt)
  have hle := h.le
  rw [hterm] at hle
  constructor
  case replies => rw [h.replies, replies_stepDown]
  case le => omega
  case votedFor =>
    rw [h.votedFor, votedFor_stepDown hlt, if_pos (Nat.lt_of_lt_of_le hlt hle), ite_self]
  case foreign =>
    intro h
    rw [hforeign] at h
    cases h

end Turn

/-! ### The whole transition -/

section Answer

variable (sender : PeerId) (term : Nat) (candidate : PeerId) (lastTerm lastIndex : Nat)

theorem Turn.onVoteRequest_of_follower {t : Turn} (hrole : t.node.role = .follower) :
    t.onVoteRequest sender term candidate lastTerm lastIndex =
      .ok (t.answerVoteRequest sender term candidate lastTerm lastIndex) := by
  rw [onVoteRequest, hrole]

/-- A node that does not follow anybody steps down for a newer term first. -/
theorem Turn.onVoteRequest_of_ne {t : Turn} (hinit : t.node.role ≠ .init)
    (hfollower : t.node.role ≠ .follower) :
    t.onVoteRequest sender term candidate lastTerm lastIndex =
      if t.node.term < term ∧ ¬ t.node.isForeign candidate then
        .ok ((t.stepDown term).redeliver sender
          (.requestVote term candidate lastTerm lastIndex))
      else .ok (t.send sender (.declineVote t.node.term)) := by
  unfold onVoteRequest
  split
  next h => exact absurd h hinit
  next h => exact absurd h hfollower
  next =>
    split
    next h =>
      rw [stepDownTo_eq_of_le (Nat.le_of_lt h.1)]
      rfl
    next => rfl

/-- The follower that a node becomes for a newer term considers the request again. -/
theorem Node.process_of_stepDown (hinit : n.role ≠ .init) (hfollower : n.role ≠ .follower)
    (hlt : n.term < term) (hforeign : n.isForeign candidate = false) :
    n.process (.message sender (.requestVote term candidate lastTerm lastIndex)) =
      .ok ((n.turn.stepDown term).answerVoteRequest sender term candidate lastTerm lastIndex) := by
  have hpending : (n.turn.stepDown term).pending = [] := (Turn.clean_stepDown n.turn term).pending
  have hfirst := Turn.onVoteRequest_of_ne (t := n.turn) sender term candidate lastTerm lastIndex
    hinit hfollower
  have hgive : n.turn.node.term < term ∧ ¬ n.turn.node.isForeign candidate = true :=
    ⟨hlt, Bool.eq_false_iff.1 hforeign⟩
  rw [if_pos hgive, Turn.redeliver, hpending] at hfirst
  refine Node.process_of_next hfirst ?_ ?_
  · rw [← hpending]
    exact Turn.onVoteRequest_of_follower sender term candidate lastTerm lastIndex
      (Turn.role_stepDown n.turn term)
  · rw [Turn.pending_answerVoteRequest, hpending]

/-- A node that takes part answers every request for its vote, and it goes by the rule. -/
theorem Node.exists_answer (hinit : n.role ≠ .init) :
    ∃ u, n.process (.message sender (.requestVote term candidate lastTerm lastIndex)) = .ok u ∧
      ((n.Favours term candidate lastTerm lastIndex ∧ n.turn.Grants u sender term candidate) ∨
        (¬ n.Favours term candidate lastTerm lastIndex ∧ n.turn.Declines u sender candidate)) := by
  by_cases hfollower : n.role = .follower
  · have hanswer := Turn.onVoteRequest_of_follower (t := n.turn) sender term candidate lastTerm
      lastIndex hfollower
    have hcases := Turn.answerVoteRequest_cases (t := n.turn) hfollower sender term candidate
      lastTerm lastIndex
    exact ⟨_, Node.process_of_done hanswer (Turn.pending_answerVoteRequest ..), hcases⟩
  by_cases hgive : n.term < term ∧ ¬ n.isForeign candidate = true
  · obtain ⟨hlt, hforeign⟩ := hgive
    replace hforeign := Bool.eq_false_iff.2 hforeign
    have hcases := Turn.answerVoteRequest_cases (Turn.role_stepDown n.turn term) sender term
      candidate lastTerm lastIndex
    refine ⟨_, Node.process_of_stepDown sender term candidate lastTerm lastIndex hinit hfollower hlt
      hforeign, ?_⟩
    rw [Turn.favours_stepDown (t := n.turn) hlt] at hcases
    exact hcases.imp (And.imp_right (·.of_stepDown)) (And.imp_right (·.of_stepDown hlt hforeign))
  · have hanswer := Turn.onVoteRequest_of_ne (t := n.turn) sender term candidate lastTerm lastIndex
      hinit hfollower
    have hkeep : ¬ (n.turn.node.term < term ∧ ¬ n.turn.node.isForeign candidate = true) := hgive
    rw [if_neg hkeep] at hanswer
    refine ⟨_, Node.process_of_done hanswer rfl, .inr ⟨fun h => ?_, Turn.declines_send⟩⟩
    rcases h.free with hlt | ⟨-, h', -⟩
    · exact hgive ⟨hlt, Bool.eq_false_iff.1 (Node.isForeign_eq_false.2 h.member)⟩
    · exact hfollower h'

end Answer

/-- A node that takes part answers every request for its vote with one reply, and it goes by the
rule. It has voted for the candidate then, in the candidate's term. Otherwise it has not voted, and
a candidate who may not stand changes nothing. -/
theorem exists_vote_reply (hrole : n.role ≠ .init) (sender : PeerId) (term : Nat)
    (candidate : PeerId) (lastTerm lastIndex : Nat) :
    ∃ m es, step n (.message sender (.requestVote term candidate lastTerm lastIndex)) =
        .ok (m, es) ∧
      (n.Favours term candidate lastTerm lastIndex →
        es.filter Effect.isVoteReply = [.send sender (.grantVote term)] ∧
          m.standing.votedFor = some candidate ∧ m.term = term) ∧
      (¬ n.Favours term candidate lastTerm lastIndex →
        es.filter Effect.isVoteReply = [.send sender (.declineVote m.term)] ∧
          m.standing.votedFor = (if n.term < m.term then none else n.standing.votedFor) ∧
          (¬ (n.members = .empty ∨ candidate ∈ n.members) → m = n)) := by
  obtain ⟨u, hu, hcases⟩ := Node.exists_answer sender term candidate lastTerm lastIndex hrole
  refine ⟨u.node, u.effects, step_of_process hu, fun hfavours => ?_, fun hnot => ?_⟩
  · rcases hcases with ⟨-, h⟩ | ⟨hnot, -⟩
    · exact ⟨h.replies, h.votedFor, h.term⟩
    · exact absurd hfavours hnot
  · rcases hcases with ⟨hfavours, -⟩ | ⟨-, h⟩
    · exact absurd hfavours hnot
    · refine ⟨h.replies, h.votedFor, fun hmember => h.foreign ?_⟩
      rw [← Node.isForeign_eq_false] at hmember
      exact Bool.of_not_eq_false hmember

/-- The leader `incumbent` gives its vote to member 3, which stands for election in a newer term. -/
theorem exists_vote_reply_incumbent : ∃ m es,
    step incumbent (.message ⟨3⟩ (.requestVote 4 ⟨3⟩ 0 0)) = .ok (m, es) ∧
      es.filter Effect.isVoteReply = [.send ⟨3⟩ (.grantVote 4)] ∧
      m.standing.votedFor = some ⟨3⟩ ∧ m.term = 4 := by
  obtain ⟨m, es, hstep, hgrants, -⟩ := exists_vote_reply (n := incumbent) (by decide) ⟨3⟩ 4 ⟨3⟩ 0 0
  exact ⟨m, es, hstep, hgrants (by decide)⟩

end Raft
