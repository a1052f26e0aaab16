import Raft.Proofs.Majority
import Raft.Proofs.Transitions

/-!
# The votes that a candidate has

What becomes of the votes of one node, wherever its inputs come from.

* `Shift`, what an act means for the part that the node plays in elections, and `Act.shift`, that
  is all it can mean;
* `Node.Tally`, a candidate counts the votes of different members, and `Act.tally`, this stays so;
* `Life`, a node that starts and processes one input after the other;
* `Life.most_of_elected`, who becomes a leader has the votes of a majority of the members.
-/

namespace Raft

/-! ### The part that a node plays in elections -/

/-- Two nodes play the same part in elections, apart from the configuration. -/
structure Node.Alike (n m : Node) : Prop where
  id : m.id = n.id
  role : m.role = n.role
  term : m.term = n.term
  votedFor : m.standing.votedFor = n.standing.votedFor
  votes : m.standing.votes = n.standing.votes
  granted : m.granted = n.granted

namespace Node

variable {n m : Node}

theorem Alike.refl (n : Node) : n.Alike n := ⟨rfl, rfl, rfl, rfl, rfl, rfl⟩

theorem Same.alike (h : n.Same m) : n.Alike m :=
  ⟨h.id, h.role, h.term, h.votedFor, h.votes, h.granted⟩

end Node

/-- What an act on the input `i` can mean for the part of a node in elections. -/
inductive Shift (i : Input) (n m : Node) : Prop
  | keep (h : n.Alike m)
  /-- The node becomes a follower in the present term. -/
  | settle (hrole : m.role = .follower) (hterm : m.term = n.term)
    (hvoted : m.standing.votedFor = n.standing.votedFor)
  /-- It becomes a follower in a newer term. -/
  | observe (hrole : m.role = .follower) (hterm : n.term < m.term)
    (hvoted : m.standing.votedFor = none)
  | grant {sender candidate : PeerId} {lastTerm lastIndex : Nat}
    (hi : i = .message sender (.requestVote n.term candidate lastTerm lastIndex))
    (hrole : n.role = .follower)
    (hvote : n.standing.votedFor = none ∨ n.standing.votedFor = some candidate)
    (hm : m = { n with standing := n.standing.voteFor candidate })
  | campaign (hi : i = .timeout .election) (hrole : n.role = .follower ∨ n.role = .candidate)
    (hm : m =
      { n with
        role := .candidate
        standing := n.standing.startElection.voteForSelf n.id
        granted := .singleton n.id })
  | count {voter : PeerId} (hi : i = .message voter (.grantVote n.term))
    (hrole : n.role = .candidate) (hmem : voter ∈ n.members) (hnew : ¬ voter ∈ n.granted)
    (hm : m = { n with standing := n.standing.countVote, granted := n.granted.insert voter })
  | elect (hi : i.Decides n.term) (hrole : n.role = .candidate)
    (hmaj : n.standing.hasMajority = true)
    (hm : m =
      { n with
        role := .leader
        standing := n.standing.resign
        granted := .empty
        leader := some n.id
        nextIndex := .uniform n.log.lastIndex
        matchIndex := .uniform 0 })
  | await {sender leader : PeerId} {term prevTerm prev commit : Nat} {entries : List Entry}
    (hi : i = .message sender (.appendEntries leader term prevTerm prev entries commit))
    (hrole : n.role = .init) (hm : m = { n with role := .candidate, configAskedOf := some leader })

variable {i : Input} {n m k : Node} {es : List Effect} {js : List Input}

theorem Act.shift (a : Act i n es js m) : m.id = n.id ∧ Shift i n m := by
  cases a with
  | observe _ _ ht =>
    refine ⟨rfl, .observe rfl ?_ ?_⟩
    · exact Nat.lt_of_lt_of_le ht (Standing.le_term_advanceTo ..)
    · exact congrArg Standing.votedFor (if_pos ht)
  | yield => exact ⟨rfl, .settle rfl rfl rfl⟩
  | campaign hi _ hrole => exact ⟨rfl, .campaign hi (hrole.imp And.left And.left) rfl⟩
  | grant hi hrole _ hvote => exact ⟨rfl, .grant hi hrole hvote rfl⟩
  | count hi hrole hmem hnew => exact ⟨rfl, .count hi hrole hmem hnew rfl⟩
  | elect hi hrole hmaj => exact ⟨rfl, .elect hi hrole hmaj rfl⟩
  | append => exact ⟨(n.turn.same_append ..).id, .keep (n.turn.same_append ..).alike⟩
  | commit => exact ⟨(n.turn.same_commitUntil ..).id, .keep (n.turn.same_commitUntil ..).alike⟩
  | accept => exact ⟨(n.turn.same_takeEntries ..).id, .keep (n.turn.same_takeEntries ..).alike⟩
  | install =>
    exact ⟨(n.turn.same_takeSnapshot ..).id, .keep (n.turn.same_takeSnapshot ..).alike⟩
  | finish =>
    exact ⟨(n.turn.same_finishCapture ..).id, .keep (n.turn.same_finishCapture ..).alike⟩
  | @enroll _ member required _ hrole =>
    obtain ⟨role, hm, hcases⟩ := Turn.addMember_cases hrole member required
    rw [hm]
    rcases hcases with ⟨rfl, -⟩ | ⟨rfl, -⟩
    · exact ⟨rfl, .keep ⟨rfl, hrole.symm, rfl, rfl, rfl, rfl⟩⟩
    · exact ⟨rfl, .settle rfl rfl rfl⟩
  | await hi hrole => exact ⟨rfl, .await hi hrole rfl⟩
  | enter | adopt => exact ⟨rfl, .settle rfl rfl rfl⟩
  | talk | redirect | again | sendNext | backOff | record | conclude | follow | covered | capture
  | probe | meet | askAgain | passRequest | tell | dismiss | passChange | propose =>
    exact ⟨rfl, .keep ⟨rfl, rfl, rfl, rfl, rfl, rfl⟩⟩

/-- A candidacy does not outlive the configuration that it began with. -/
theorem Act.config_eq_of_candidate (a : Act i n es js m) (hn : n.role = .candidate)
    (hm : m.role = .candidate) : m.config = n.config := by
  have hne : ∀ role, role ≠ .candidate → n.role ≠ role := fun role h e => h (e.symm.trans hn)
  cases a with
  | observe | yield | enter | adopt => cases hm
  | elect => cases hm
  | append hrole | commit hrole => exact absurd hrole (hne .leader (by simp))
  | accept _ hrole | install _ hrole => exact absurd hrole (hne .follower (by simp))
  | enroll _ hrole => exact absurd hrole (hne .init (by simp))
  | _ => rfl

/-- An input that can decide an election leaves the configuration alone. -/
theorem Act.config_eq_of_decides (a : Act i n es js m) {t : Nat} (hi : i.Decides t) :
    m.config = n.config := by
  have hne : ∀ sender message, i = .message sender message → ∃ u, message = .grantVote u := by
    intro sender message heq
    rcases hi with htimeout | ⟨voter, hvote⟩
    · cases heq.symm.trans htimeout
    · cases heq.symm.trans hvote
      exact ⟨t, rfl⟩
  cases a with
  | observe => exact Standing.config_advanceTo ..
  | append _ happends =>
    rcases happends with ⟨rfl, -⟩ | ⟨sender, r, hmsg, -⟩
    · rfl
    · obtain ⟨u, hu⟩ := hne _ _ hmsg
      cases hu
  | commit =>
    obtain ⟨_, _, hnode, -⟩ := n.turn.commitUntil_cases _ true
    rw [hnode]
    rfl
  | accept hmsg | install hmsg | enroll hmsg | enter hmsg | adopt hmsg =>
    obtain ⟨u, hu⟩ := hne _ _ hmsg
    cases hu
  | _ => rfl

/-! ### Counting -/

/-- Before it takes part, a node has no votes. A candidate counts the votes of different members,
and perhaps its own. -/
structure Node.Tally (n : Node) : Prop where
  init : n.role = .init → n.standing.votes = 0 ∧ n.granted = .empty
  votes : n.role = .candidate → n.standing.votes = n.granted.size
  voters : n.role = .candidate → ∀ v ∈ n.granted, v = n.id ∨ v ∈ n.members

/-- A follower or a leader does not look for the cluster, and it is no candidate. -/
theorem Node.role_ne (h : m.role = .follower ∨ m.role = .leader) :
    m.role ≠ .init ∧ m.role ≠ .candidate := by
  rcases h with h | h <;> simp [h]

theorem Node.Tally.of_role (h : m.role = .follower ∨ m.role = .leader) : m.Tally := by
  obtain ⟨hinit, hcandidate⟩ := Node.role_ne h
  exact ⟨fun hrole => absurd hrole hinit, fun hrole => absurd hrole hcandidate,
    fun hrole => absurd hrole hcandidate⟩

theorem Act.tally (a : Act i n es js m) (h : n.Tally) : m.Tally := by
  obtain ⟨hid, hshift⟩ := a.shift
  cases hshift with
  | keep hm =>
    constructor
    case init =>
      intro hrole
      rw [hm.votes, hm.granted]
      exact h.init (hm.role ▸ hrole)
    case votes =>
      intro hrole
      rw [hm.votes, hm.granted]
      exact h.votes (hm.role ▸ hrole)
    case voters =>
      intro hrole
      have hn : n.role = .candidate := hm.role ▸ hrole
      have hmembers : m.members = n.members :=
        congrArg Configuration.members (a.config_eq_of_candidate hn hrole)
      rw [hm.granted, hid, hmembers]
      exact h.voters hn
  | settle hrole | observe hrole => exact .of_role (.inl hrole)
  | grant _ hrole _ hm => exact .of_role (.inl (hm ▸ hrole))
  | campaign _ _ hm =>
    subst hm
    exact ⟨nofun, fun _ => rfl, fun _ v hv => .inl (PeerSet.mem_singleton.1 hv)⟩
  | count _ hrole hmem hnew hm =>
    subst hm
    constructor
    case init =>
      intro hinit
      cases hinit.symm.trans hrole
    case votes =>
      intro _
      exact (congrArg (· + 1) (h.votes hrole)).trans (PeerSet.size_insert_of_not_mem hnew).symm
    case voters =>
      intro _ v hv
      rcases PeerSet.mem_insert.1 hv with rfl | hv
      · exact .inr hmem
      · exact h.voters hrole v hv
  | elect _ _ _ hm => exact .of_role (.inr (hm ▸ rfl))
  | await _ hrole hm =>
    subst hm
    obtain ⟨hvotes, hgranted⟩ := h.init hrole
    refine ⟨nofun, fun _ => ?_, fun _ v hv => ?_⟩
    · show n.standing.votes = n.granted.size
      rw [hvotes, hgranted]
      rfl
    · rw [show n.granted = .empty from hgranted] at hv
      exact absurd hv (PeerSet.not_mem_empty v)

/-! ### Whose votes they are -/

/-- Why the vote of `v` counts for `m`, which the node `n` has become while processing the input
`i`. -/
def Backs (n : Node) (i : Input) (m : Node) (v : PeerId) : Prop :=
  (v = m.id ∧ m.standing.votedFor = some v) ∨
  (n.role = .candidate ∧ m.term = n.term ∧ m.standing.votedFor = n.standing.votedFor ∧
    (v ∈ n.granted ∨ i = .message v (.grantVote m.term)))

/-- The votes of a candidate are accounted for, and a vote that arrives finds the candidacy that
was there before. -/
structure Backed (n : Node) (i : Input) (m : Node) : Prop where
  granted : m.role = .candidate → ∀ v ∈ m.granted, Backs n i m v
  arrives : ∀ v t, i = .message v (.grantVote t) → m.role = .candidate →
    n.role = .candidate ∧ m.term = n.term ∧ m.standing.votedFor = n.standing.votedFor

theorem Backs.of_alike {v : PeerId} (h : Backs n i m v) (hid : k.id = m.id)
    (hterm : k.term = m.term) (hvoted : k.standing.votedFor = m.standing.votedFor) :
    Backs n i k v := by
  unfold Backs
  rw [hid, hterm, hvoted]
  exact h

theorem Backed.start : Backed n i n where
  granted hrole _ hv := .inr ⟨hrole, rfl, rfl, .inl hv⟩
  arrives _ _ _ hrole := ⟨hrole, rfl, rfl⟩

theorem Backed.of_role (h : m.role = .follower ∨ m.role = .leader) : Backed n i m where
  granted hrole := absurd hrole (Node.role_ne h).2
  arrives _ _ _ hrole := absurd hrole (Node.role_ne h).2

theorem Input.IsOwn.not_decides {t : Nat} (h : i.IsOwn) : ¬ i.Decides t := by
  rintro (rfl | ⟨voter, rfl⟩) <;> exact h

/-- Votes stay accounted for while the input and what it raises are processed. -/
theorem Act.backed {j : Input} (a : Act j m es js k) (hj : j = i ∨ j.IsOwn)
    (htally : m.Tally) (h : Backed n i m) : Backed n i k := by
  obtain ⟨hid, hshift⟩ := a.shift
  cases hshift with
  | keep hk =>
    constructor
    case granted =>
      intro hrole v hv
      have hm : m.role = .candidate := hk.role ▸ hrole
      exact (h.granted hm v (hk.granted ▸ hv)).of_alike hid hk.term hk.votedFor
    case arrives =>
      intro v t hi hrole
      rw [hk.term, hk.votedFor]
      exact h.arrives v t hi (hk.role ▸ hrole)
  | settle hrole | observe hrole => exact .of_role (.inl hrole)
  | grant _ hrole _ hk => exact .of_role (.inl (hk ▸ hrole))
  | campaign htimeout _ hk =>
    subst hk
    refine ⟨fun _ v hv => ?_, fun v t hi => ?_⟩
    · obtain rfl := PeerSet.mem_singleton.1 hv
      exact .inl ⟨rfl, rfl⟩
    · rcases hj with rfl | hown
      · cases hi.symm.trans htimeout
      · exact absurd (.inl htimeout) (hown.not_decides (t := t))
  | @count voter hvote hrole _ _ hk =>
    subst hk
    -- only the input itself can bring a vote
    have hi : i = .message voter (.grantVote m.term) := by
      rcases hj with rfl | hown
      · exact hvote
      · exact absurd (.inr ⟨voter, hvote⟩) (hown.not_decides (t := m.term))
    obtain ⟨hn, hterm, hvoted⟩ := h.arrives voter m.term hi hrole
    refine ⟨fun _ v hv => ?_, fun _ _ _ _ => ⟨hn, hterm, hvoted⟩⟩
    rcases PeerSet.mem_insert.1 hv with rfl | hv
    · exact .inr ⟨hn, hterm, hvoted, .inr hi⟩
    · exact (h.granted hrole v hv).of_alike rfl rfl rfl
  | elect _ _ _ hk => exact .of_role (.inr (hk ▸ rfl))
  | await happend hrole hk =>
    subst hk
    refine ⟨fun _ v hv => ?_, fun v t hi => ?_⟩
    · rw [show m.granted = .empty from (htally.init hrole).2] at hv
      exact absurd hv (PeerSet.not_mem_empty v)
    · rcases hj with rfl | hown
      · cases hi.symm.trans happend
      · rw [happend] at hown
        exact hown.elim

/-- Votes stay accounted for over a transition. -/
theorem backed_of_step (h : step n i = .ok (m, es)) (hn : n.Tally) : Backed n i m := by
  refine (step_keeps (fun m => m.Tally ∧ Backed n i m) (fun j => j = i ∨ j.IsOwn) h ⟨hn, .start⟩
    (.inl rfl) fun hm hj a => ?_).2
  exact ⟨⟨a.tally hm.1, a.backed hj hm.1 hm.2⟩, a.raises_keeps hj fun _ => .inr⟩

/-! ### Who wins -/

/-- While an input that can decide an election is processed, for a node that is a member: who leads
by now has won with the votes that it had. -/
structure Winning (n : Node) (i : Input) (m : Node) : Prop where
  id : m.id = n.id
  config : m.config = n.config
  tally : m.Tally
  backed : Backed n i m
  won : m.role = .leader → n.members.Most (Backs n i m)

theorem Act.winning (a : Act i m es js k) {t : Nat} (hi : i.Decides t)
    (hmem : n.id ∈ n.members) (h : Winning n i m) : Winning n i k := by
  obtain ⟨hid, hshift⟩ := a.shift
  have hnot : k.role = .follower ∨ k.role = .candidate →
      k.role = .leader → n.members.Most (Backs n i k) := by
    intro hrole hlead
    rw [hlead] at hrole
    rcases hrole with hrole | hrole <;> cases hrole
  refine ⟨hid.trans h.id, (a.config_eq_of_decides hi).trans h.config, a.tally h.tally,
    a.backed (.inl rfl) h.tally h.backed, ?_⟩
  cases hshift with
  | keep hk =>
    intro hlead
    exact (h.won (hk.role ▸ hlead)).mono fun v _ hv => hv.of_alike hid hk.term hk.votedFor
  | settle hrole | observe hrole => exact hnot (.inl hrole)
  | grant _ hrole _ hk => exact hnot (.inl (hk ▸ hrole))
  | campaign _ _ hk => exact hnot (.inr (hk ▸ rfl))
  | count _ hrole _ _ hk => exact hnot (.inr (hk ▸ hrole))
  | await _ _ hk => exact hnot (.inr (hk ▸ rfl))
  | elect _ hrole hmaj hk =>
    subst hk
    intro _
    have hmembers : m.standing.members = n.members := congrArg Configuration.members h.config
    rw [← hmembers]
    refine Standing.most_of_hasMajority hmaj (h.tally.votes hrole) fun v hv => ⟨?_, ?_⟩
    · rcases h.tally.voters hrole v hv with rfl | hv
      · rw [h.id, hmembers]
        exact hmem
      · exact hv
    · exact (h.backed.granted hrole v hv).of_alike rfl rfl rfl

/-- On any other input nobody is elected. A leader goes on to lead in the same term, or it does not
lead any more. -/
theorem Act.abides (a : Act i m es js k) (hi : ∀ t, ¬ i.Decides t)
    (h : m.role = .leader → n.role = .leader ∧ n.Alike m) :
    (k.role = .leader → n.role = .leader ∧ n.Alike k) ∧ ∀ j ∈ js, ∀ t, ¬ j.Decides t := by
  refine ⟨fun hlead => ?_, a.raises_keeps hi fun j hown t => hown.not_decides⟩
  obtain ⟨hid, hshift⟩ := a.shift
  cases hshift with
  | keep hk =>
    obtain ⟨hn, hm⟩ := h (hk.role ▸ hlead)
    exact ⟨hn, hid.trans hm.id, hk.role.trans hm.role, hk.term.trans hm.term,
      hk.votedFor.trans hm.votedFor, hk.votes.trans hm.votes, hk.granted.trans hm.granted⟩
  | settle hrole | observe hrole => cases hlead.symm.trans hrole
  | grant _ hrole _ hk =>
    subst hk
    cases hlead.symm.trans hrole
  | count _ hrole _ _ hk =>
    subst hk
    cases hlead.symm.trans hrole
  | campaign _ _ hk | await _ _ hk =>
    subst hk
    cases hlead
  | elect hdecides => exact absurd hdecides (hi _)

/-- Who comes to lead with a transition has the votes of a majority of the members that it had
before, provided that it is one of them. -/
theorem most_of_step (hstep : step n i = .ok (m, es)) (htally : n.Tally)
    (hnot : n.role ≠ .leader) (hmem : n.id ∈ n.members) (hlead : m.role = .leader) :
    n.members.Most (Backs n i m) := by
  by_cases hi : ∃ t, i.Decides t
  · obtain ⟨t, hi⟩ := hi
    cases step_course hstep with
    | @cons _ _ js next _ m' _ _ _ h hnext hc =>
      have hwinning : Winning n i m' :=
        (h.keeps (Winning n i) (fun _ => True)
          ⟨rfl, rfl, htally, .start, fun h => absurd h hnot⟩
          fun hm a => ⟨a.winning hi hmem hm, fun _ _ => trivial⟩).1
      -- what the input raises is of the node's own, and decides nothing
      have hraised : ∀ j ∈ next, ∀ u, ¬ j.Decides u := by
        intro j hj u
        rw [List.append_nil] at hnext
        rcases h.raises j (hnext.mem_iff.1 hj) with ⟨-, hfollower⟩ | hown
        · rcases hi with rfl | ⟨voter, rfl⟩ <;> exact hfollower.elim
        · exact hown.not_decides
      have habides : m.role = .leader → m'.role = .leader ∧ m'.Alike m :=
        hc.keeps (fun m => m.role = .leader → m'.role = .leader ∧ m'.Alike m)
          (fun j => ∀ t, ¬ j.Decides t) (fun h => ⟨h, .refl m'⟩) hraised
          fun h hi a => a.abides hi h
      obtain ⟨hlead', halike⟩ := habides hlead
      exact (hwinning.won hlead').mono fun v _ hv =>
        hv.of_alike halike.id halike.term halike.votedFor
  · have habides : m.role = .leader → n.role = .leader ∧ n.Alike m :=
      step_keeps (fun m => m.role = .leader → n.role = .leader ∧ n.Alike m)
        (fun j => ∀ t, ¬ j.Decides t) hstep (fun h => absurd h hnot) (fun t hd => hi ⟨t, hd⟩)
        fun h hi a => a.abides hi h
    exact absurd (habides hlead).1 hnot

/-! ### A node and all that it is given -/

/-- A node that starts, with a snapshot or without. -/
def Node.IsNew (n : Node) : Prop :=
  (∃ id settings, n = .fresh id settings) ∨ ∃ id settings s, n = .ofSnapshot id settings s

/-- The node after an input. A transition that breaks an internal contract changes nothing. -/
def Node.next (n : Node) (i : Input) : Node :=
  match step n i with
  | .ok (m, _) => m
  | .error _ => n

theorem Node.next_eq {i : Input} {n m : Node} {es : List Effect} (h : step n i = .ok (m, es)) :
    n.next i = m := by rw [next, h]

theorem Node.foldl_next_succ {is : List Input} {k : Nat} {i : Input} (h : is[k]? = some i)
    (n : Node) :
    (is.take (k + 1)).foldl Node.next n = ((is.take k).foldl Node.next n).next i := by
  rw [List.take_add_one, List.foldl_append, h]
  rfl

/-- With each further input a node makes one transition at most. -/
theorem Node.foldl_next_cases (n : Node) (is : List Input) (k : Nat) :
    (is.take (k + 1)).foldl Node.next n = (is.take k).foldl Node.next n ∨
      ∃ i es, is[k]? = some i ∧
        step ((is.take k).foldl Node.next n) i =
          .ok ((is.take (k + 1)).foldl Node.next n, es) := by
  cases hi : is[k]? with
  | none =>
    rw [List.take_add_one, hi, Option.toList_none, List.append_nil]
    exact .inl rfl
  | some i =>
    rw [foldl_next_succ hi, next]
    split
    next m es hstep => exact .inr ⟨i, es, rfl, hstep⟩
    next => exact .inl rfl

/-- What becomes of one node: how it starts, and what it processes, wherever that comes from. -/
structure Life where
  start : Node
  isNew : start.IsNew
  inputs : List Input

namespace Life

variable (l : Life)

/-- The node after so many inputs. -/
def after (k : Nat) : Node := (l.inputs.take k).foldl Node.next l.start

/-- The vote of `v` has come in before moment `k`, and from then on up to this moment the node has
stood for the term `t`. -/
def Received (v : PeerId) (t k : Nat) : Prop :=
  ∃ j < k, l.inputs[j]? = some (.message v (.grantVote t)) ∧
    ∀ h, j ≤ h → h < k → (l.after h).role = .candidate ∧ (l.after h).term = t

/-- The node has the vote of `v` for its present term: it has voted for itself, or the vote has
come in. -/
def HasVote (k : Nat) (v : PeerId) : Prop :=
  (v = (l.after k).id ∧ (l.after k).standing.votedFor = some v) ∨
    l.Received v (l.after k).term k

/-- A vote has come in during a candidacy that goes on, before this moment or with this input. -/
theorem received_succ {v : PeerId} {t k : Nat} : l.Received v t (k + 1) ↔
    ((l.after k).role = .candidate ∧ (l.after k).term = t) ∧
      (l.Received v t k ∨ l.inputs[k]? = some (.message v (.grantVote t))) := by
  constructor
  · rintro ⟨j, hjk, hj, hstands⟩
    refine ⟨hstands k (Nat.le_of_lt_succ hjk) (Nat.lt_succ_self k), ?_⟩
    rcases Nat.lt_succ_iff_lt_or_eq.1 hjk with hlt | rfl
    · exact .inl ⟨j, hlt, hj, fun h hjh hhk => hstands h hjh (Nat.lt_succ_of_lt hhk)⟩
    · exact .inr hj
  · rintro ⟨hnow, ⟨j, hjk, hj, hstands⟩ | hk⟩
    · refine ⟨j, Nat.lt_succ_of_lt hjk, hj, fun h hjh hhk => ?_⟩
      rcases Nat.lt_succ_iff_lt_or_eq.1 hhk with hlt | rfl
      · exact hstands h hjh hlt
      · exact hnow
    · refine ⟨k, Nat.lt_succ_self k, hk, fun h hkh hhk => ?_⟩
      obtain rfl : h = k := Nat.le_antisymm (Nat.le_of_lt_succ hhk) hkh
      exact hnow

/-- From one moment to the next there is one transition at most. -/
theorem after_succ_cases (k : Nat) : l.after (k + 1) = l.after k ∨
    ∃ i es, l.inputs[k]? = some i ∧ step (l.after k) i = .ok (l.after (k + 1), es) :=
  Node.foldl_next_cases l.start l.inputs k

/-- A node looks for the cluster first. -/
theorem role_start : l.start.role = .init := by
  rcases l.isNew with ⟨id, settings, h⟩ | ⟨id, settings, s, h⟩ <;>
  · rw [h]
    rfl

/-- What is true of the node at first and kept by every act is true of it at any moment. -/
theorem keeps (Inv : Node → Prop) (hstart : Inv l.start)
    (hact : ∀ {i n m es js}, Inv n → Act i n es js m → Inv m) (k : Nat) : Inv (l.after k) := by
  induction k with
  | zero => exact hstart
  | succ k ih =>
    rcases l.after_succ_cases k with heq | ⟨i, es, -, hstep⟩
    · rwa [heq]
    · exact step_keeps Inv (fun _ => True) hstep ih trivial
        fun hn _ a => ⟨hact hn a, fun _ _ => trivial⟩

theorem tally_after (k : Nat) : (l.after k).Tally := by
  refine l.keeps Node.Tally ?_ (fun h a => a.tally h) k
  rcases l.isNew with ⟨id, settings, h⟩ | ⟨id, settings, s, h⟩ <;>
  · rw [h]
    exact ⟨fun _ => ⟨rfl, rfl⟩, nofun, nofun⟩

/-- Whoever backs a node over a transition has its vote with the node afterwards, if this is so of
those that the node has counted before. -/
theorem hasVote_of_backs {k : Nat} {i : Input} {v : PeerId} (hi : l.inputs[k]? = some i)
    (hbefore : (l.after k).role = .candidate → ∀ v ∈ (l.after k).granted, l.HasVote k v)
    (hid : (l.after (k + 1)).id = (l.after k).id)
    (h : Backs (l.after k) i (l.after (k + 1)) v) : l.HasVote (k + 1) v := by
  rcases h with hself | ⟨hrole, hterm, hvoted, hin | hvote⟩
  · exact .inl hself
  · rcases hbefore hrole v hin with ⟨hself, hown⟩ | hreceived
    · exact .inl ⟨hid ▸ hself, hvoted ▸ hown⟩
    · exact .inr (l.received_succ.2 ⟨⟨hrole, hterm.symm⟩, .inl (hterm ▸ hreceived)⟩)
  · exact .inr (l.received_succ.2 ⟨⟨hrole, hterm.symm⟩, .inr (hvote ▸ hi)⟩)

theorem id_after_succ (k : Nat) : (l.after (k + 1)).id = (l.after k).id := by
  rcases l.after_succ_cases k with heq | ⟨i, es, -, hstep⟩
  · rw [heq]
  · exact step_keeps (·.id = (l.after k).id) (fun _ => True) hstep rfl trivial
      fun h _ a => ⟨a.shift.1.trans h, fun _ _ => trivial⟩

/-- A candidate has the vote of everybody whom it has counted. -/
theorem hasVote_of_granted {k : Nat} (hrole : (l.after k).role = .candidate) {v : PeerId}
    (hv : v ∈ (l.after k).granted) : l.HasVote k v := by
  induction k generalizing v with
  | zero => cases l.role_start.symm.trans hrole
  | succ k ih =>
    rcases l.after_succ_cases k with heq | ⟨i, es, hi, hstep⟩
    · rw [heq] at hrole hv
      rcases ih hrole hv with hself | hreceived
      · exact .inl (by rwa [heq])
      · exact .inr (l.received_succ.2 ⟨⟨hrole, by rw [heq]⟩, .inl (by rwa [heq])⟩)
    · have hbacked := backed_of_step hstep (l.tally_after k)
      exact l.hasVote_of_backs hi (fun hrole v hv => ih hrole hv) (l.id_after_succ k)
        (hbacked.granted hrole v hv)

/-- A node that becomes leader, and that is one of the members of the configuration in force, has
the votes of more than half of these members. In a joint configuration they are the members of
either side, taken together. -/
theorem most_of_elected {k : Nat}
    (hbefore : (l.after k).role = .follower ∨ (l.after k).role = .candidate)
    (hlead : (l.after (k + 1)).role = .leader) (hmem : (l.after k).id ∈ (l.after k).members) :
    (l.after k).members.Most (l.HasVote (k + 1)) := by
  have hnot : (l.after k).role ≠ .leader := by
    rcases hbefore with h | h <;> simp [h]
  rcases l.after_succ_cases k with heq | ⟨i, es, hi, hstep⟩
  · rw [heq] at hlead
    exact absurd hlead hnot
  · refine (most_of_step hstep (l.tally_after k) hnot hmem hlead).mono fun v _ hv => ?_
    exact l.hasVote_of_backs hi (fun hrole v hv => l.hasVote_of_granted hrole hv)
      (l.id_after_succ k) hv

/-- A node in a joint configuration with one old member and two new ones. It becomes leader with the
votes of the new members only. -/
def oneSided : Life where
  start := .fresh ⟨1⟩ {}
  isNew := .inl ⟨⟨1⟩, {}, rfl⟩
  inputs :=
    [.message ⟨2⟩ (.changeConfiguration (.joint 1 (.ofList [⟨2⟩]) (.ofList [⟨1⟩, ⟨3⟩]))),
      .timeout .election, .message ⟨3⟩ (.grantVote 1)]

theorem most_of_elected_oneSided :
    (oneSided.after 2).members.Most (oneSided.HasVote 3) :=
  oneSided.most_of_elected (.inr (by decide +kernel)) (by decide +kernel) (by decide +kernel)

/-- A majority of both sides is not needed. -/
theorem not_most_of_elected_oneSided :
    (oneSided.after 2).role = .candidate ∧ (oneSided.after 3).role = .leader ∧
      (oneSided.after 2).config = .joint 1 (.ofList [⟨2⟩]) (.ofList [⟨1⟩, ⟨3⟩]) ∧
      ¬ ((PeerSet.ofList [⟨2⟩]).Most (oneSided.HasVote 3) ∧
        (PeerSet.ofList [⟨1⟩, ⟨3⟩]).Most (oneSided.HasVote 3)) := by
  refine ⟨by decide +kernel, by decide +kernel, by decide +kernel, ?_⟩
  rintro ⟨hold, -⟩
  -- a majority of the old side would need the vote of node 2, which never came
  have hnone : ¬ oneSided.HasVote 3 ⟨2⟩ := by
    rintro (⟨hself, -⟩ | ⟨j, hj, hi, -⟩)
    · exact absurd hself (by decide +kernel)
    · have hterm : (oneSided.after 3).term = 1 := by decide +kernel
      rw [hterm] at hi
      have : ∀ j < 3, oneSided.inputs[j]? ≠ some (.message ⟨2⟩ (.grantVote 1)) := by decide
      exact this j hj hi
  obtain ⟨p, hp, hvote, -⟩ := hold.meet hold
  obtain rfl : p = ⟨2⟩ := List.mem_singleton.1 (PeerSet.mem_ofList.1 hp)
  exact hnone hvote

end Life

end Raft
