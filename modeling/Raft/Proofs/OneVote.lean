import Raft.Proofs.VoteRule

/-!
# One vote in each term

A `Stretch` is one node from some moment on, in whatever state it is then, with all that it
processes from then on. Its term never decreases, and while the term stays the vote given in it
stays too (`Node.Keeps`). Every vote of a term is on record at some moment at which the node is in
this term (`Stretch.exists_moment`), so all of them go to the same peer (`Stretch.one_vote`).

A candidate of a term that has begun since has voted for itself. In the term of the start there can
be a candidate that has not voted: one that has met a leader before it knew any members, and waits
for the configuration. It does not stand for election, and once it is a follower its vote is still
free (`Stretch.not_one_vote_joiner`).
-/

namespace Raft

/-! ### What a transition does to the vote -/

/-- What later states of a node have kept of the state `n`: the term has not decreased, and a vote
of this term stands as long as the term does. -/
structure Node.Keeps (n m : Node) : Prop where
  id : m.id = n.id
  le : n.term ≤ m.term
  votedFor : m.term = n.term → ∀ p, n.standing.votedFor = some p → m.standing.votedFor = some p

/-- A candidate of a term after `t` has voted for itself, and so has a leader of such a term. A node
that has not found the cluster has begun no term. -/
structure Node.Stands (t : Nat) (n : Node) : Prop where
  init : n.role = .init → n.term = t
  vote : n.role = .candidate ∨ n.role = .leader → t < n.term →
    n.standing.votedFor = some n.id

variable {i : Input} {n m k : Node} {es : List Effect} {js : List Input}

theorem Node.Keeps.refl (n : Node) : n.Keeps n := ⟨rfl, Nat.le_refl _, fun _ _ h => h⟩

theorem Node.Keeps.trans (h : n.Keeps m) (h' : m.Keeps k) : n.Keeps k where
  id := h'.id.trans h.id
  le := Nat.le_trans h.le h'.le
  votedFor hterm p hp := by
    have hle := h.le
    have hle' := h'.le
    exact h'.votedFor (by omega) p (h.votedFor (by omega) p hp)

theorem Act.keeps_vote (a : Act i n es js m) : n.Keeps m := by
  obtain ⟨hid, hshift⟩ := a.shift
  cases hshift with
  | keep h => exact ⟨hid, Nat.le_of_eq h.term.symm, fun _ p hp => h.votedFor.trans hp⟩
  | settle _ hterm hvoted =>
    exact ⟨hid, Nat.le_of_eq hterm.symm, fun _ p hp => hvoted.trans hp⟩
  | observe _ hlt =>
    exact ⟨hid, Nat.le_of_lt hlt, fun heq => absurd heq (Nat.ne_of_gt hlt)⟩
  | grant _ _ hvote hm =>
    subst hm
    refine ⟨hid, Nat.le_refl _, fun _ p hp => ?_⟩
    rcases hvote with hnone | hsome
    · cases hp.symm.trans hnone
    · exact hsome.symm.trans hp
  | campaign _ _ hm =>
    subst hm
    have hlt : n.term < Term.next n.term := Nat.lt_succ_self _
    exact ⟨hid, Nat.le_of_lt hlt, fun heq => absurd heq (Nat.ne_of_gt hlt)⟩
  | count _ _ _ _ hm | elect _ _ _ hm | await _ _ hm =>
    subst hm
    exact ⟨hid, Nat.le_refl _, fun _ _ hp => hp⟩

theorem keeps_vote_of_step (h : step n i = .ok (m, es)) : n.Keeps m :=
  step_keeps n.Keeps (fun _ => True) h (.refl n) trivial
    fun hn _ a => ⟨hn.trans a.keeps_vote, fun _ _ => trivial⟩

theorem Node.Stands.of_follower {t : Nat} (h : m.role = .follower) : m.Stands t where
  init hrole := nomatch h.symm.trans hrole
  vote hrole := by
    rw [h] at hrole
    rcases hrole with hrole | hrole <;> cases hrole

theorem Act.stands {t : Nat} (a : Act i n es js m) (h : n.Stands t) : m.Stands t := by
  obtain ⟨hid, hshift⟩ := a.shift
  cases hshift with
  | keep hm =>
    constructor
    case init =>
      intro hrole
      rw [hm.term]
      exact h.init (hm.role ▸ hrole)
    case vote =>
      intro hrole hlt
      rw [hm.votedFor, hid]
      exact h.vote (hm.role ▸ hrole) (hm.term ▸ hlt)
  | settle hrole | observe hrole => exact .of_follower hrole
  | grant _ hrole _ hm => exact .of_follower (hm ▸ hrole)
  | campaign _ _ hm =>
    subst hm
    exact ⟨nofun, fun _ _ => rfl⟩
  | count _ hrole _ _ hm =>
    subst hm
    exact ⟨fun hinit => (nomatch hinit.symm.trans hrole), fun _ => h.vote (.inl hrole)⟩
  | elect _ hrole _ hm =>
    subst hm
    exact ⟨nofun, fun _ => h.vote (.inl hrole)⟩
  | await _ hrole hm =>
    subst hm
    -- a node that waits for the configuration is still in the term of the start
    exact ⟨nofun, fun _ hlt => absurd (h.init hrole) (Nat.ne_of_gt hlt)⟩

/-- Where a vote is sent, it is on record. -/
theorem votedFor_of_granted {sender candidate p : PeerId} {term lastTerm lastIndex t : Nat}
    (h : step n (.message sender (.requestVote term candidate lastTerm lastIndex)) = .ok (m, es))
    (he : .send p (.grantVote t) ∈ es) : m.term = t ∧ m.standing.votedFor = some candidate := by
  by_cases hinit : n.role = .init
  · have hnothing : n.turn.dispatch
        (.message sender (.requestVote term candidate lastTerm lastIndex)) = .ok n.turn := by
      have hrole : n.turn.node.role = .init := hinit
      rw [Turn.dispatch, Turn.onMessage, Turn.onVoteRequest, hrole]
    have hstep := step_of_process (Node.process_of_done hnothing rfl)
    obtain ⟨-, rfl⟩ := Prod.mk.inj (Except.ok.inj (hstep.symm.trans h))
    cases he
  · obtain ⟨u, hu, hcases⟩ := Node.exists_answer sender term candidate lastTerm lastIndex hinit
    obtain ⟨rfl, rfl⟩ := Prod.mk.inj (Except.ok.inj ((step_of_process hu).symm.trans h))
    have hreply : .send p (.grantVote t) ∈ u.replies := List.mem_filter.2 ⟨he, rfl⟩
    rcases hcases with ⟨-, hgrants⟩ | ⟨-, hdeclines⟩
    · rw [hgrants.replies] at hreply
      cases List.mem_singleton.1 hreply
      exact ⟨hgrants.term, hgrants.votedFor⟩
    · rw [hdeclines.replies] at hreply
      cases List.mem_singleton.1 hreply

/-! ### Stretches -/

/-- One node from some moment on: the state that it is in, and what it processes from then on,
wherever that comes from. -/
structure Stretch where
  start : Node
  inputs : List Input

namespace Stretch

variable (s : Stretch)

/-- The node after so many inputs. -/
def after (k : Nat) : Node := (s.inputs.take k).foldl Node.next s.start

/-- The votes of the node in the term `t`. -/
inductive Vote (s : Stretch) (t : Nat) : PeerId → Prop
  /-- It has a vote on record, perhaps from before. -/
  | recorded {k : Nat} {p : PeerId} (hterm : (s.after k).term = t)
    (hp : (s.after k).standing.votedFor = some p) : Vote s t p
  /-- It answers a request for its vote. -/
  | granted {k : Nat} {sender candidate receiver : PeerId} {term lastTerm lastIndex : Nat}
    {m : Node} {es : List Effect}
    (hi : s.inputs[k]? =
      some (.message sender (.requestVote term candidate lastTerm lastIndex)))
    (hstep : step (s.after k)
      (.message sender (.requestVote term candidate lastTerm lastIndex)) = .ok (m, es))
    (he : .send receiver (.grantVote t) ∈ es) : Vote s t candidate
  /-- It stands for election in a term that has begun since, or has won the election by then. -/
  | stood {k : Nat} (ht : s.start.term < t) (hterm : (s.after k).term = t)
    (hrole : (s.after k).role = .candidate ∨ (s.after k).role = .leader) : Vote s t s.start.id

theorem after_succ_cases (k : Nat) : s.after (k + 1) = s.after k ∨
    ∃ i es, s.inputs[k]? = some i ∧ step (s.after k) i = .ok (s.after (k + 1), es) :=
  Node.foldl_next_cases s.start s.inputs k

theorem keeps_succ (k : Nat) : (s.after k).Keeps (s.after (k + 1)) := by
  rcases s.after_succ_cases k with heq | ⟨i, es, -, hstep⟩
  · rw [heq]
    exact .refl _
  · exact keeps_vote_of_step hstep

theorem keeps {j k : Nat} (h : j ≤ k) : (s.after j).Keeps (s.after k) := by
  induction h with
  | refl => exact .refl _
  | step _ ih => exact ih.trans (s.keeps_succ _)

theorem stands_after (k : Nat) : (s.after k).Stands s.start.term := by
  induction k with
  | zero =>
    show s.start.Stands s.start.term
    exact ⟨fun _ => rfl, fun _ hlt => absurd hlt (Nat.lt_irrefl _)⟩
  | succ k ih =>
    rcases s.after_succ_cases k with heq | ⟨i, es, -, hstep⟩
    · rwa [heq]
    · exact step_keeps (Node.Stands s.start.term) (fun _ => True) hstep ih trivial
        fun h _ a => ⟨a.stands h, fun _ _ => trivial⟩

variable {s}

/-- Every vote is on record at some moment. -/
theorem exists_moment {t : Nat} {p : PeerId} (h : s.Vote t p) :
    ∃ k, (s.after k).term = t ∧ (s.after k).standing.votedFor = some p := by
  cases h with
  | recorded hterm hp => exact ⟨_, hterm, hp⟩
  | @granted k _ _ _ _ _ _ m es hi hstep he =>
    have hafter : s.after (k + 1) = m :=
      (Node.foldl_next_succ hi s.start).trans (Node.next_eq hstep)
    exact ⟨k + 1, hafter ▸ votedFor_of_granted hstep he⟩
  | @stood k ht hterm hrole =>
    have hid : (s.after k).id = s.start.id := (s.keeps (Nat.zero_le k)).id
    exact ⟨k, hterm, hid ▸ (s.stands_after k).vote hrole (hterm ▸ ht)⟩

theorem Vote.unique {t : Nat} {p q : PeerId} (hp : s.Vote t p) (hq : s.Vote t q) : p = q := by
  obtain ⟨j, hjterm, hj⟩ := exists_moment hp
  obtain ⟨k, hkterm, hk⟩ := exists_moment hq
  rcases Nat.le_total j k with hle | hle
  · have hstill := (s.keeps hle).votedFor (hkterm.trans hjterm.symm) p hj
    exact Option.some.inj (hstill.symm.trans hk)
  · have hstill := (s.keeps hle).votedFor (hjterm.trans hkterm.symm) q hk
    exact Option.some.inj (hj.symm.trans hstill)

/-- Whatever a node is given, its term never decreases, and its votes of one term all go to one
peer. -/
theorem one_vote (s : Stretch) :
    (∀ k, (s.after k).term ≤ (s.after (k + 1)).term) ∧ ∀ t, ∃ p, ∀ q, s.Vote t q → q = p := by
  refine ⟨fun k => (s.keeps_succ k).le, fun t => ?_⟩
  by_cases hvote : ∃ p, s.Vote t p
  · obtain ⟨p, hp⟩ := hvote
    exact ⟨p, fun q hq => hq.unique hp⟩
  · exact ⟨s.start.id, fun q hq => absurd ⟨q, hq⟩ hvote⟩

/-- Node 1 has just started. It hears of a leader and waits for the configuration, which it is told,
and then member 3 asks for its vote in the term that it has been in all the time. -/
def joiner : Stretch where
  start := .fresh ⟨1⟩ {}
  inputs :=
    [.message ⟨2⟩ (.appendEntries ⟨2⟩ 3 0 0 [] 0),
      .message ⟨2⟩ (.changeConfiguration (.stable 1 (.ofList [⟨1⟩, ⟨2⟩, ⟨3⟩]))),
      .message ⟨3⟩ (.requestVote 0 ⟨3⟩ 0 0)]

/-- To wait for the configuration as a candidate is not to vote for oneself. -/
theorem not_one_vote_joiner :
    joiner.start.standing.votedFor = none ∧
      ¬ ∃ p, (∀ k, (joiner.after k).role = .candidate → (joiner.after k).term = 0 →
          joiner.start.id = p) ∧ ∀ q, joiner.Vote 0 q → q = p := by
  refine ⟨rfl, ?_⟩
  rintro ⟨p, hstood, hvote⟩
  have hself : joiner.start.id = p := hstood 1 (by decide +kernel) (by decide +kernel)
  have hsent : .send ⟨3⟩ (.grantVote 0) ∈
      [Effect.arm .election, .send ⟨3⟩ (.grantVote 0)] := by decide
  have hgranted : joiner.Vote 0 ⟨3⟩ := .granted (k := 2) rfl rfl hsent
  have hother : ⟨3⟩ = p := hvote _ hgranted
  cases hself.trans hother.symm

end Stretch

end Raft
