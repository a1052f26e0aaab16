import Raft.Proofs.FollowUps
import Raft.Proofs.Tally

/-!
# How a node joins a cluster that has a leader

A node that looks for the cluster has a provisional configuration of those that it has found. Once a
leader's entries reach it, it asks the leader for the configuration, and the answer takes the place
of the provisional one. Like any other it has to be newer for that, unless nobody has been found.

* `Node.Provisional`, what is in force while a node looks for the cluster has the sequence number
  0, and `Act.provisional`, this stays so whatever the node is told;
* `Node.Seeks`, a node that started anew looks for the cluster;
* `step_contact`, `step_tell` and `step_told`, the three transitions of the handshake, and
  `Node.Seeks.handshake`, what they come to.
-/

namespace Raft

/-- As long as a node looks for the cluster, those that it has found are in force, and that is
older than whatever a change of members leads to. -/
def Node.Provisional (n : Node) : Prop := n.role = .init → ∃ found, n.config = .stable 0 found

/-- The node has started without a snapshot and is still looking for the cluster. What it has been
told until now does not matter. -/
structure Node.Seeks (n : Node) : Prop where
  role : n.role = .init
  isReached : ∃ id settings, ∃ inputs : List Input, n = inputs.foldl Node.next (.fresh id settings)

/-- From `n` to `m` the node comes to follow with the configuration `c` in force, and it keeps its
term, its vote and its log. -/
structure Node.Joins (c : Configuration) (n m : Node) : Prop where
  id : m.id = n.id
  role : m.role = .follower
  config : m.config = c
  term : m.term = n.term
  votedFor : m.standing.votedFor = n.standing.votedFor
  log : m.log = n.log

variable {i : Input} {n m : Node} {es : List Effect} {js : List Input}

/-! ### The provisional configuration -/

/-- While a node looks for the cluster, it only adds to those that it has found. -/
theorem Act.provisional (a : Act i n es js m) (hn : n.Provisional) : m.Provisional := by
  intro hm
  obtain ⟨hinit, -, hconfig | ⟨sender, member, required, -, hconfig⟩⟩ := a.of_init hm
  · rw [hconfig]
    exact hn hinit
  · exact ⟨_, hconfig⟩

theorem Node.provisional_fresh (id : PeerId) (settings : Settings) :
    (Node.fresh id settings).Provisional := fun _ => ⟨.empty, rfl⟩

theorem provisional_step (h : step n i = .ok (m, es)) (hn : n.Provisional) : m.Provisional :=
  step_keeps Node.Provisional (fun _ => True) h hn trivial
    fun hn _ a => ⟨a.provisional hn, fun _ _ => trivial⟩

theorem Node.Provisional.foldl_next (h : n.Provisional) (inputs : List Input) :
    (inputs.foldl Node.next n).Provisional := by
  induction inputs generalizing n with
  | nil => exact h
  | cons i rest ih =>
    refine ih ?_
    unfold Node.next
    split
    next hstep => exact provisional_step hstep h
    next => exact h

theorem Node.Seeks.exists_config (h : n.Seeks) : ∃ found, n.config = .stable 0 found := by
  obtain ⟨hrole, id, settings, inputs, rfl⟩ := h
  exact (provisional_fresh id settings).foldl_next inputs hrole

/-! ### The three transitions -/

/-- A leader's entries reach the node, which asks the leader for the configuration. -/
theorem step_contact (hrole : n.role = .init) (sender leader : PeerId)
    (term prevTerm prev commit : Nat) (entries : List Entry) :
    step n (.message sender (.appendEntries leader term prevTerm prev entries commit)) =
      .ok ({ n with role := .candidate, configAskedOf := some leader },
        [.send leader .requestConfiguration, .cancel .discovery, .arm .election]) := by
  have hjoin : n.turn.joinLeader leader =
      { node := { n with role := .candidate, configAskedOf := some leader }
        effects := [.send leader .requestConfiguration, .cancel .discovery, .arm .election] } := by
    simp [Turn.joinLeader, Turn.goto, Turn.leaveRole, Turn.enterRole, Turn.send, Turn.emit,
      Turn.cancel, Turn.arm, Node.turn, hrole]
  have hdispatch : n.turn.dispatch
      (.message sender (.appendEntries leader term prevTerm prev entries commit)) =
        .ok (n.turn.joinLeader leader) := by
    simp [Turn.dispatch, Turn.onMessage, Turn.onAppendEntries, Node.turn, hrole]
  rw [step_of_process (Node.process_of_done hdispatch (hjoin ▸ rfl)), hjoin]

/-- A leader that is asked tells its configuration, and stays as it is. -/
theorem step_tell (hrole : n.role = .leader) (sender : PeerId) :
    step n (.message sender .requestConfiguration) =
      .ok (n, [.send sender (.changeConfiguration n.config)]) := by
  have htell : n.turn.onRequestConfiguration sender =
      n.turn.send sender (.changeConfiguration n.config) := by
    simp only [Turn.onRequestConfiguration, Node.turn, hrole]
  have hdispatch : n.turn.dispatch (.message sender .requestConfiguration) =
      .ok (n.turn.send sender (.changeConfiguration n.config)) := congrArg Except.ok htell
  exact step_of_process (Node.process_of_done hdispatch rfl)

/-- The node that has asked is told a configuration. It joins if it has no members or if what it is
told is newer than what it has, and otherwise its configuration stays in force. -/
theorem step_told {p : PeerId} {c : Configuration} (hrole : n.role = .candidate)
    (hasked : n.configAskedOf = some p) :
    ∃ m es, step n (.message p (.changeConfiguration c)) = .ok (m, es) ∧
      (n.members.isEmpty = true ∨ c.isNewerThan n.config = true → n.Joins c m) ∧
      (n.members.isEmpty = false → c.isNewerThan n.config = false → m.config = n.config) := by
  have hreceive : n.turn.dispatch (.message p (.changeConfiguration c)) =
      .ok (n.turn.receiveConfiguration p c) := by
    simp [Turn.dispatch, Turn.onMessage, Turn.onChangeConfiguration, Node.turn, hrole]
  let told : Turn := { n.turn with node := { n with configAskedOf := none } }
  have hcases : n.turn.receiveConfiguration p c =
      if n.members.isEmpty = true ∨ c.isNewerThan n.config = true then told.join c else told :=
    if_pos (.inr hasked)
  by_cases hadopts : n.members.isEmpty = true ∨ c.isNewerThan n.config = true
  · rw [if_pos hadopts] at hcases
    have hdone : (told.join c).pending = [] := (Turn.clean_goto _ .follower).pending
    have hjoined : (told.join c).node =
        (({ n with
          configAskedOf := none
          standing := n.standing.reconfigure c } : Node).inRole .follower) := Turn.node_goto ..
    refine ⟨_, _, step_of_process (Node.process_of_done (hcases ▸ hreceive) hdone),
      fun _ => ?_, fun hmembers hnewer => ?_⟩
    · rw [hjoined]
      exact ⟨rfl, rfl, rfl, rfl, rfl, rfl⟩
    · simp [hmembers, hnewer] at hadopts
  · rw [if_neg hadopts] at hcases
    exact ⟨_, _, step_of_process (Node.process_of_done (hcases ▸ hreceive) rfl),
      fun h => absurd h hadopts, fun _ _ => rfl⟩

/-! ### The handshake -/

/-- Entries of a leader reach a node that looks for the cluster. The node asks the leader for the
configuration, the leader tells it, and the node follows with that configuration in force if it is
the outcome of a change of members or if the node has found nobody. Otherwise what the leader tells
has the sequence number 0, as the provisional configuration does, and the provisional one stays. -/
theorem Node.Seeks.handshake {leader : Node} (h : n.Seeks) (hleads : leader.role = .leader)
    (term prevTerm prev commit : Nat) (entries : List Entry) :
    ∃ waiting joined es fs,
      step n (.message leader.id
        (.appendEntries leader.id term prevTerm prev entries commit)) = .ok (waiting, es) ∧
      .send leader.id .requestConfiguration ∈ es ∧
      step leader (.message n.id .requestConfiguration) =
        .ok (leader, [.send n.id (.changeConfiguration leader.config)]) ∧
      step waiting (.message leader.id (.changeConfiguration leader.config)) = .ok (joined, fs) ∧
      (0 < leader.config.sequence ∨ n.members.isEmpty = true → n.Joins leader.config joined) ∧
      (leader.config.sequence = 0 → n.members.isEmpty = false → joined.config = n.config) := by
  obtain ⟨found, hfound⟩ := h.exists_config
  have hnewer : leader.config.isNewerThan n.config = decide (0 < leader.config.sequence) := by
    rw [hfound]
    rfl
  have hcontact := step_contact h.role leader.id leader.id term prevTerm prev commit entries
  obtain ⟨joined, fs, htold, hjoins, hkeeps⟩ := step_told (c := leader.config)
    (n := { n with role := .candidate, configAskedOf := some leader.id }) rfl rfl
  refine ⟨_, joined, _, fs, hcontact, List.mem_cons_self .., step_tell hleads n.id, htold,
    fun hwhen => ?_, fun hzero hmembers => ?_⟩
  · have hjoined := hjoins (hwhen.symm.imp_right fun hlt => hnewer.trans (decide_eq_true hlt))
    exact ⟨hjoined.id, hjoined.role, hjoined.config, hjoined.term, hjoined.votedFor, hjoined.log⟩
  · exact hkeeps hmembers (hnewer.trans (by simp [hzero]))

/-- A node that has found one other member. -/
def Node.seeker : Node := [.message ⟨2⟩ (.discovered ⟨2⟩)].foldl Node.next (.fresh ⟨1⟩ {})

/-- That member has found two others, and it leads with the vote of one of them. -/
def Node.founder : Node :=
  [.message ⟨1⟩ (.discovered ⟨1⟩), .message ⟨3⟩ (.discovered ⟨3⟩), .timeout .election,
    .message ⟨3⟩ (.grantVote 1)].foldl Node.next (.fresh ⟨2⟩ {})

/-- It is asked to take in a fourth one. -/
def Node.expander : Node :=
  founder.next (.message ⟨4⟩ (.changeConfiguration (.stable 0 (.ofList [⟨1⟩, ⟨2⟩, ⟨3⟩, ⟨4⟩]))))

theorem Node.seeks_seeker : seeker.Seeks := ⟨by decide +kernel, ⟨1⟩, {}, _, rfl⟩

/-- The answer of the leader whose change is in progress is taken. -/
theorem Node.Seeks.handshake_expander :
    Node.seeker.config = .stable 0 (.ofList [⟨1⟩, ⟨2⟩]) ∧ Node.expander.role = .leader ∧
    ∃ waiting joined es fs,
      step Node.seeker (.message ⟨2⟩ (.appendEntries ⟨2⟩ 1 0 0 [⟨1, 1, .noop, none⟩] 0)) =
        .ok (waiting, es) ∧
      step waiting (.message ⟨2⟩ (.changeConfiguration Node.expander.config)) =
        .ok (joined, fs) ∧
      joined.role = .follower ∧
      joined.config =
        .joint 1 (.ofList [⟨1⟩, ⟨2⟩, ⟨3⟩]) (.ofList [⟨1⟩, ⟨2⟩, ⟨3⟩, ⟨4⟩]) := by
  have hleads : Node.expander.role = .leader := by decide +kernel
  have hid : Node.expander.id = ⟨2⟩ := by decide +kernel
  have hconfig : Node.expander.config =
      .joint 1 (.ofList [⟨1⟩, ⟨2⟩, ⟨3⟩]) (.ofList [⟨1⟩, ⟨2⟩, ⟨3⟩, ⟨4⟩]) := by decide +kernel
  obtain ⟨waiting, joined, es, fs, hcontact, -, -, htold, hjoins, -⟩ :=
    Node.seeks_seeker.handshake hleads 1 0 0 0 [⟨1, 1, .noop, none⟩]
  rw [hid] at hcontact htold
  have hjoined := hjoins (.inl (by rw [hconfig]; decide))
  exact ⟨by decide +kernel, hleads, waiting, joined, es, fs, hcontact, htold, hjoined.role,
    hjoined.config.trans hconfig⟩

/-- The answer of the leader that has only found more members is not. -/
theorem Node.Seeks.not_handshake_founder :
    Node.seeker.Seeks ∧ Node.founder.role = .leader ∧ Node.seeker.id ∈ Node.founder.members ∧
    ∃ waiting joined es,
      step Node.seeker (.message ⟨2⟩ (.appendEntries ⟨2⟩ 1 0 0 [⟨1, 1, .noop, none⟩] 0)) =
        .ok (waiting, es) ∧
      step Node.founder (.message ⟨1⟩ .requestConfiguration) =
        .ok (Node.founder,
          [.send ⟨1⟩ (.changeConfiguration (.stable 0 (.ofList [⟨1⟩, ⟨2⟩, ⟨3⟩])))]) ∧
      step waiting
        (.message ⟨2⟩ (.changeConfiguration (.stable 0 (.ofList [⟨1⟩, ⟨2⟩, ⟨3⟩])))) =
        .ok (joined, []) ∧
      joined.role = .candidate ∧ joined.config = .stable 0 (.ofList [⟨1⟩, ⟨2⟩]) := by
  have hleads : Node.founder.role = .leader := by decide +kernel
  have hconfig : Node.founder.config = .stable 0 (.ofList [⟨1⟩, ⟨2⟩, ⟨3⟩]) := by decide +kernel
  have htell := step_tell hleads ⟨1⟩
  rw [hconfig] at htell
  exact ⟨Node.seeks_seeker, hleads, by decide +kernel, _, _, _, rfl, htell, rfl,
    by decide +kernel, by decide +kernel⟩

end Raft
