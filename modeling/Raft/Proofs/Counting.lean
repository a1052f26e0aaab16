import Raft.Proofs.Contracts
import Raft.Proofs.Settling
import Raft.Proofs.Stages

/-!
# Every vote counts, and only once

A candidate keeps a number of votes and a set of voters, and both are changed in several places. For
a node from its start on they never come apart, and they leave nobody out: the voters are exactly
the members whose vote for the present term has come in while the node stood for this term.

* `Node.StandsWith`, what lasts as long as a candidacy does, and `standsWith_of_vote`, a vote that
  comes in is part of it;
* `exists_step_of_vote`, a candidate never fails to process a vote, so none gets lost that way;
* `Life.counts_voters`, the votes of a candidate are those of its voters.
-/

namespace Raft

variable {i : Input} {n m : Node} {es : List Effect} {js : List Input}

/-! ### What lasts as long as a candidacy -/

/-- The node takes part, in the term `t` at least. For as long as it stands for this term, the
configuration `c` is in force and the votes of `s` are counted. -/
structure Node.StandsWith (t : Nat) (c : Configuration) (s : PeerSet) (n : Node) : Prop where
  role : n.role ≠ .init
  term : t ≤ n.term
  config : n.role = .candidate → n.term = t → n.config = c
  granted : n.role = .candidate → n.term = t → ∀ v ∈ s, v ∈ n.granted

section

variable {t : Nat} {c : Configuration} {s : PeerSet}

theorem Node.StandsWith.start (hrole : n.role = .candidate) :
    n.StandsWith n.term n.config n.granted :=
  ⟨by simp [hrole], Nat.le_refl _, fun _ _ => rfl, fun _ _ _ hv => hv⟩

theorem Node.StandsWith.of_role (h : n.role = .follower ∨ n.role = .leader) (hterm : t ≤ n.term) :
    n.StandsWith t c s := by
  obtain ⟨hinit, hcandidate⟩ := Node.role_ne h
  exact ⟨hinit, hterm, fun hrole => absurd hrole hcandidate, fun hrole => absurd hrole hcandidate⟩

/-- A node stands for one term only once: whoever stands again does so for a newer one. -/
theorem Act.standsWith (a : Act i n es js m) (h : n.StandsWith t c s) : m.StandsWith t c s := by
  obtain ⟨-, hshift⟩ := a.shift
  cases hshift with
  | keep hm =>
    refine ⟨hm.role ▸ h.role, hm.term ▸ h.term, fun hrole hterm => ?_, fun hrole hterm => ?_⟩
    · have hn : n.role = .candidate := hm.role ▸ hrole
      exact (a.config_eq_of_candidate hn hrole).trans (h.config hn (hm.term ▸ hterm))
    · rw [hm.granted]
      exact h.granted (hm.role ▸ hrole) (hm.term ▸ hterm)
  | settle hrole hterm => exact .of_role (.inl hrole) (hterm ▸ h.term)
  | observe hrole hlt => exact .of_role (.inl hrole) (Nat.le_trans h.term (Nat.le_of_lt hlt))
  | grant _ hrole _ hm =>
    subst hm
    exact .of_role (.inl hrole) h.term
  | campaign _ _ hm =>
    subst hm
    have hlt : t < Term.next n.term := Nat.lt_succ_of_le h.term
    exact ⟨nofun, Nat.le_of_lt hlt, fun _ heq => absurd heq (Nat.ne_of_gt hlt),
      fun _ heq => absurd heq (Nat.ne_of_gt hlt)⟩
  | count _ _ _ _ hm =>
    subst hm
    exact ⟨h.role, h.term, h.config, fun hrole hterm v hv =>
      PeerSet.mem_insert.2 (.inr (h.granted hrole hterm v hv))⟩
  | elect _ _ _ hm =>
    subst hm
    exact .of_role (.inr rfl) h.term
  | await _ hrole => exact absurd hrole h.role

theorem Acts.standsWith (h : Acts i n es js m) (hn : n.StandsWith t c s) : m.StandsWith t c s :=
  (h.keeps (Node.StandsWith t c s) (fun _ => True) hn
    fun hn a => ⟨a.standsWith hn, fun _ _ => trivial⟩).1

theorem Course.standsWith {is : List Input} (h : Course is n es m) (hn : n.StandsWith t c s) :
    m.StandsWith t c s :=
  h.keeps (Node.StandsWith t c s) (fun _ => True) hn (fun _ _ => trivial)
    fun hn _ a => ⟨a.standsWith hn, fun _ _ => trivial⟩

end

/-- Whatever a candidate processes, its candidacy goes on as it was, or it is over. -/
theorem standsWith_of_step (h : step n i = .ok (m, es)) (hrole : n.role = .candidate) :
    m.StandsWith n.term n.config n.granted :=
  (step_course h).standsWith (.start hrole)

/-! ### A vote that comes in -/

/-- A vote of the present term is nothing but counted. -/
theorem dispatch_grantVote (hrole : n.role = .candidate) (voter : PeerId) :
    n.turn.dispatch (.message voter (.grantVote n.term)) = n.turn.countVote voter := by
  have hturn : n.turn.node.role = .candidate := hrole
  have hterm : ¬ n.turn.node.term < n.term := Nat.lt_irrefl _
  have hterm' : ¬ n.term < n.turn.node.term := Nat.lt_irrefl _
  simp [Turn.dispatch, Turn.onMessage, Turn.onVoteGranted, Turn.onReply, hturn, hterm, hterm']

/-- The vote of a member is counted, and stays so for as long as the candidacy lasts. -/
theorem standsWith_of_vote {voter : PeerId}
    (h : step n (.message voter (.grantVote n.term)) = .ok (m, es)) (hrole : n.role = .candidate)
    (hmem : voter ∈ n.members) :
    m.StandsWith n.term n.config (n.granted.insert voter) := by
  obtain ⟨t, ht, rfl, rfl⟩ := exists_process_of_step h
  obtain ⟨u, hu, hsettle⟩ := Node.exists_dispatch ht
  rw [dispatch_grantVote hrole] at hu
  obtain ⟨_, -, hcourse⟩ := Turn.settle_course hsettle
  refine hcourse.standsWith ?_
  unfold Turn.countVote at hu
  split at hu
  next =>
    have hdeed := (Turn.contends_leadIfElected (i := .message voter (.grantVote n.term))
      (by exact hrole) (.inr ⟨voter, rfl⟩)).attempt.deed hu
    obtain ⟨_, _, -, -, hacts⟩ := hdeed.performs
    exact hacts.standsWith (.start (n := { n with
      standing := n.standing.countVote
      granted := n.granted.insert voter }) hrole)
  next hold =>
    -- a member whose vote is not new has been counted already
    obtain rfl := Except.ok.inj hu
    have hin : voter ∈ n.granted := by simpa [Node.turn, hmem] using hold
    refine { Node.StandsWith.start hrole with granted := fun _ _ v hv => ?_ }
    rcases PeerSet.mem_insert.1 hv with rfl | hv
    · exact hin
    · exact hv

/-! ### No vote gets lost -/

namespace Turn

variable {t u : Turn}

/-- After an entry of its own a leader has something to send to everybody, if it reckons nobody to
be beyond the end of its log. -/
theorem exists_replicate_append (hlog : t.node.log.Contiguous)
    (hnext : ∀ p, t.node.nextIndex.get p ≤ t.node.log.lastIndex + 1) (command : Command)
    (client : Option PeerId) :
    ∃ u, ((t.appendOwn command client).adoptNewer command).replicate = .ok u := by
  obtain ⟨u, hu, -⟩ := succeeds_replicate
    (t := (t.appendOwn command client).adoptNewer command) fun p => by
      refine Node.exists_nextMessage ?_ ?_
      · rw [log_append]
        exact hlog.append rfl
      · rw [(t.same_append command client).nextIndex, log_append, Log.lastIndex_append]
        exact Nat.le_succ_of_le (hnext p)
  exact ⟨u, hu⟩

theorem exists_appendRequest (hlog : t.node.log.Contiguous)
    (hnext : ∀ p, t.node.nextIndex.get p ≤ t.node.log.lastIndex + 1) (r : Request) :
    ∃ u, t.appendRequest r = .ok u := by
  obtain ⟨v, hv⟩ := exists_replicate_append hlog hnext r.command (some r.client)
  rw [appendRequest_eq, hv]
  exact ⟨_, rfl⟩

/-- A new leader assumes that everybody is at the end of its log. -/
theorem exists_lead (hlog : t.node.log.Contiguous) : ∃ u, t.lead = .ok u := by
  have helected : t.elected.node.log = t.node.log := by
    simp [elected, node_goto, Node.inRole, withStanding]
  have hnext : ∀ p, t.elected.node.nextIndex.get p ≤ t.elected.node.log.lastIndex + 1 := by
    simp [elected, node_goto, Node.inRole, withStanding]
  obtain ⟨v, hv⟩ := exists_replicate_append (helected ▸ hlog) hnext .noop none
  rw [lead_eq]
  exact ⟨_, congrArg (Except.map _) hv⟩

theorem exists_countVote (hlog : t.node.log.Contiguous) (voter : PeerId) :
    ∃ u, t.countVote voter = .ok u := by
  unfold countVote
  split
  next =>
    unfold leadIfElected
    split
    next => exact exists_lead hlog
    next => exact ⟨_, rfl⟩
  next => exact ⟨t, rfl⟩

/-- What a node raises for itself it can process. -/
theorem exists_dispatch_of_raised {j : Input} (hj : i.Raises t.node j)
    (hlog : t.node.log.Contiguous) (hwithin : t.node.WithinLog) : ∃ u, t.dispatch j = .ok u := by
  have hsubmit : ∀ sender r, ∃ u, t.onSubmit sender r = .ok u := by
    intro sender r
    unfold onSubmit
    split
    next hrole => exact exists_appendRequest hlog (hwithin.next hrole) r
    next => exact ⟨_, rfl⟩
  cases hj with
  | found => exact ⟨_, rfl⟩
  | settled | proposed => exact hsubmit ..

end Turn

/-- A candidate never fails to process a vote. If it is elected with it, it can also process what
follows from that. -/
theorem exists_step_of_vote (hlog : n.log.Anchored) (hrole : n.role = .candidate)
    (voter : PeerId) : ∃ m es, step n (.message voter (.grantVote n.term)) = .ok (m, es) := by
  suffices ∃ t, n.process (.message voter (.grantVote n.term)) = .ok t by
    obtain ⟨t, ht⟩ := this
    exact ⟨_, _, step_of_process ht⟩
  obtain ⟨u, hu⟩ := Turn.exists_countVote (t := n.turn) hlog.contiguous voter
  rw [← dispatch_grantVote hrole] at hu
  cases Turn.ends_dispatch hu with
  | still _ hpending => exact ⟨u, Node.process_of_done hu hpending⟩
  | again _ hi => exact hi.elim
  | @raised j _ hj hpending =>
    obtain ⟨_, _, -, -, hacts⟩ := Turn.performs_dispatch hu
    have hwithin : u.node.WithinLog :=
      (hacts.keeps Node.WithinLog (fun _ => True) (.of_role (by simp [Node.turn, hrole]))
        fun hn a => ⟨a.reckoning.withinLog hn nofun, fun _ _ => trivial⟩).1
    obtain ⟨v, hv⟩ := Turn.exists_dispatch_of_raised (t := { u with pending := [] }) hj
      (Turn.anchored_dispatch hu hlog).contiguous hwithin
    have hfinal : j.IsFinal u.node := hj.isFinal.2 id
    refine ⟨v, Node.process_of_next (j := j) (u := u) ?_ hv ?_⟩
    · rw [hu]
      exact congrArg (fun js => Except.ok { u with pending := js }) hpending
    · exact Turn.pending_of_isFinal (t := { u with pending := [] }) hfinal hv

/-! ### The vote of its own -/

/-- A node that looks for the cluster has not voted, and a candidate that has voted for itself
counts that vote. -/
structure Node.CountsItself (n : Node) : Prop where
  init : n.role = .init → n.standing.votedFor = none
  own : n.role = .candidate → n.standing.votedFor = some n.id → n.id ∈ n.granted

theorem Node.CountsItself.of_role (h : n.role = .follower ∨ n.role = .leader) :
    n.CountsItself where
  init hrole := absurd hrole (Node.role_ne h).1
  own hrole := absurd hrole (Node.role_ne h).2

theorem Act.countsItself (a : Act i n es js m) (h : n.CountsItself) : m.CountsItself := by
  obtain ⟨hid, hshift⟩ := a.shift
  cases hshift with
  | keep hm =>
    refine ⟨fun hrole => hm.votedFor.trans (h.init (hm.role ▸ hrole)), fun hrole hvoted => ?_⟩
    rw [hm.votedFor, hid] at hvoted
    rw [hid, hm.granted]
    exact h.own (hm.role ▸ hrole) hvoted
  | settle hrole | observe hrole => exact .of_role (.inl hrole)
  | grant _ hrole _ hm =>
    subst hm
    exact .of_role (.inl hrole)
  | campaign _ _ hm =>
    subst hm
    exact ⟨nofun, fun _ _ => PeerSet.mem_singleton.2 rfl⟩
  | count _ hrole _ _ hm =>
    subst hm
    exact ⟨fun hinit => (nomatch hinit.symm.trans hrole),
      fun _ hvoted => PeerSet.mem_insert.2 (.inr (h.own hrole hvoted))⟩
  | elect _ _ _ hm =>
    subst hm
    exact .of_role (.inr rfl)
  | await _ hrole hm =>
    subst hm
    exact ⟨nofun, fun _ hvoted => nomatch (h.init hrole).symm.trans hvoted⟩

/-! ### From the start on -/

namespace Life

variable (l : Life)

theorem id_after (k : Nat) : (l.after k).id = l.start.id := by
  induction k with
  | zero => rfl
  | succ k ih => exact (l.id_after_succ k).trans ih

theorem countsItself_after (k : Nat) : (l.after k).CountsItself := by
  refine l.keeps Node.CountsItself ?_ (fun h a => a.countsItself h) k
  rcases l.isNew with ⟨id, settings, h⟩ | ⟨id, settings, s, h⟩ <;>
  · rw [h]
    exact ⟨fun _ => rfl, nofun⟩

theorem standsWith_after_succ {k : Nat} (hrole : (l.after k).role = .candidate) :
    (l.after (k + 1)).StandsWith (l.after k).term (l.after k).config (l.after k).granted := by
  rcases l.after_succ_cases k with heq | ⟨i, es, -, hstep⟩
  · rw [heq]
    exact .start hrole
  · exact standsWith_of_step hstep hrole

/-- A candidate counts every member whose vote has come in, before or just now. -/
theorem mem_granted_of_received {k : Nat} (hrole : (l.after k).role = .candidate) {v : PeerId}
    (hmem : v ∈ (l.after k).members) (h : l.Received v (l.after k).term k) :
    v ∈ (l.after k).granted := by
  induction k with
  | zero =>
    obtain ⟨j, hj, -⟩ := h
    exact absurd hj (Nat.not_lt_zero j)
  | succ k ih =>
    obtain ⟨⟨hbefore, hterm⟩, hvote⟩ := l.received_succ.1 h
    rw [← hterm] at hvote
    have hgoes := l.standsWith_after_succ hbefore
    have hmembers : (l.after (k + 1)).members = (l.after k).members :=
      congrArg Configuration.members (hgoes.config hrole hterm.symm)
    rw [hmembers] at hmem
    rcases hvote with hreceived | hi
    · exact hgoes.granted hrole hterm.symm v (ih hbefore hmem hreceived)
    · obtain ⟨m, es, hstep⟩ := exists_step_of_vote (l.anchored_after k) hbefore v
      have hm : l.after (k + 1) = m :=
        (Node.foldl_next_succ hi l.start).trans (Node.next_eq hstep)
      rw [← hm] at hstep
      exact (standsWith_of_vote hstep hbefore hmem).granted hrole hterm.symm v
        (PeerSet.mem_insert.2 (.inl rfl))

/-- As long as a node is a candidate, the number of its votes is the number of its voters. These
are, besides the node itself, exactly the members of the configuration in force whose vote for the
present term has come in while the node stood for it: no vote counts twice, and none of another
term or of somebody else counts at all. The node itself is one of them exactly if it has voted for
itself, provided that nobody sends votes in its name. -/
theorem counts_voters (hnobody : ∀ t, .message l.start.id (.grantVote t) ∉ l.inputs) {k : Nat}
    (hrole : (l.after k).role = .candidate) :
    (l.after k).standing.votes = (l.after k).granted.size ∧
      (∀ v, v ≠ (l.after k).id → (v ∈ (l.after k).granted ↔
        v ∈ (l.after k).members ∧ l.Received v (l.after k).term k)) ∧
      ((l.after k).id ∈ (l.after k).granted ↔
        (l.after k).standing.votedFor = some (l.after k).id) := by
  refine ⟨(l.tally_after k).votes hrole, fun v hother => ⟨fun hv => ⟨?_, ?_⟩, ?_⟩, ?_, ?_⟩
  · exact ((l.tally_after k).voters hrole v hv).resolve_left hother
  · exact (l.hasVote_of_granted hrole hv).resolve_left fun hself => hother hself.1
  · rintro ⟨hmem, hreceived⟩
    exact l.mem_granted_of_received hrole hmem hreceived
  · intro hown
    rcases l.hasVote_of_granted hrole hown with ⟨-, hvoted⟩ | ⟨j, -, hj, -⟩
    · exact hvoted
    · rw [l.id_after k] at hj
      exact absurd (List.mem_of_getElem? hj) (hnobody _)
  · exact (l.countsItself_after k).own hrole

/-- One of five nodes stands for election. Before that node 3 votes for it without being asked.
Afterwards it gets the vote of node 2 twice, that of a stranger, and one of node 3 for the term
before. -/
def canvassing : Life where
  start := .fresh ⟨1⟩ { seeds := .ofList [⟨2⟩, ⟨3⟩, ⟨4⟩, ⟨5⟩] }
  isNew := .inl ⟨_, _, rfl⟩
  inputs :=
    [.message ⟨2⟩ (.changeConfiguration (.stable 1 (.ofList [⟨1⟩, ⟨2⟩, ⟨3⟩, ⟨4⟩, ⟨5⟩]))),
      .message ⟨3⟩ (.grantVote 0), .timeout .election, .message ⟨2⟩ (.grantVote 1),
      .message ⟨2⟩ (.grantVote 1), .message ⟨9⟩ (.grantVote 1), .message ⟨3⟩ (.grantVote 0)]

/-- It has two votes, its own and that of node 2. -/
theorem counts_voters_canvassing : (canvassing.after 7).role = .candidate ∧
    (canvassing.after 7).standing.votes = 2 ∧
    (∀ v, v ≠ ⟨1⟩ →
      (v = ⟨2⟩ ↔ v ∈ (canvassing.after 7).members ∧ canvassing.Received v 1 7)) ∧
    (canvassing.after 7).standing.votedFor = some ⟨1⟩ := by
  have hrole : (canvassing.after 7).role = .candidate := by decide +kernel
  have hnobody : ∀ t, .message ⟨1⟩ (.grantVote t) ∉ canvassing.inputs := by simp [canvassing]
  obtain ⟨hvotes, hvoters, hown⟩ := canvassing.counts_voters hnobody hrole
  have hid : (canvassing.after 7).id = ⟨1⟩ := canvassing.id_after 7
  have hterm : (canvassing.after 7).term = 1 := by decide +kernel
  have hgranted : (canvassing.after 7).granted = .ofList [⟨1⟩, ⟨2⟩] := by decide +kernel
  rw [hid, hterm, hgranted] at hvoters
  rw [hid, hgranted] at hown
  rw [hgranted] at hvotes
  refine ⟨hrole, hvotes, fun v hv => ?_, hown.1 (by simp)⟩
  rw [← hvoters v hv]
  simp [hv]

end Life

end Raft
