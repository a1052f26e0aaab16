import Raft.Proofs.Charter
import Raft.Proofs.FollowUps
import Raft.Proofs.Tally

/-!
# What becomes of a snapshot's configuration

A node that starts from a snapshot has the snapshot's configuration in force, and looks for the
cluster all the same. In that search it takes up every configuration that it is told, whether it is
newer or not, and whomever it finds is added to the members in a configuration with the sequence
number 0, as if none had been in force before. So the configuration of the snapshot lasts for as
long as all that the inputs put in force comes after it.

* `Node.instated?`, what an input puts in force at a node that looks for the cluster, and
  `step_of_init`, no transition of such a node is given up, and that is what it does;
* `Configuration.Upholds`, a configuration is another one or comes after it;
* `Life.upholds_iff`, which inputs leave the configuration of the snapshot alone.
-/

namespace Raft

/-- The configuration is `d`, or has the higher sequence number. -/
def Configuration.Upholds (c d : Configuration) : Prop := c = d ∨ d.sequence < c.sequence

instance (c d : Configuration) : Decidable (c.Upholds d) := inferInstanceAs (Decidable (_ ∨ _))

namespace Node

/-- What is in force once a node that looks for the cluster has found `p`. -/
def including (n : Node) (p : PeerId) : Configuration :=
  .stable 0 ((n.members.insert n.id).insert p)

/-- What an input puts in force at a node that looks for the cluster. -/
def instated? (n : Node) : Input → Option Configuration
  | .message _ (.changeConfiguration c) => some c
  | .message _ (.discovered p) => some (n.including p)
  | .message _ (.memberAdded p _) => some (n.including p)
  | .timeout .discovery =>
    if n.settings.seeds.toList.filter (· != n.id) = [] then some (n.including n.id) else none
  | _ => none

theorem instated?_congr {n m : Node} (hid : m.id = n.id) (hconfig : m.config = n.config)
    (hsettings : m.settings = n.settings) : m.instated? = n.instated? := by
  have hincluding : m.including = n.including := by
    funext p
    have hmembers : m.members = n.members := congrArg Configuration.members hconfig
    rw [including, including, hmembers, hid]
  funext i
  unfold instated?
  rw [hincluding, hid, hsettings]

end Node

variable {i : Input} {n m : Node} {es : List Effect}

/-! ### One input to a node that looks for the cluster -/

namespace Turn

theorem config_addMember {t : Turn} (h : t.node.role = .init) (p : PeerId) (required : Nat) :
    (t.addMember p required).node.config = t.node.including p := by
  unfold addMember
  rw [if_pos h]
  simp only
  split
  · rw [node_goto]
    rfl
  · rfl

/-- A node without seeds finds itself. -/
theorem onDiscoveryTimeout_of_nil {t : Turn}
    (h : t.node.settings.seeds.toList.filter (· != t.node.id) = []) : t.onDiscoveryTimeout =
      (t.enqueue (.memberAdded t.node.id t.node.settings.membersToFind)).arm .discovery := by
  unfold onDiscoveryTimeout
  rw [h]
  rfl

theorem onDiscoveryTimeout_of_ne_nil {t : Turn} (hrole : t.node.role = .init)
    (h : t.node.settings.seeds.toList.filter (· != t.node.id) ≠ []) :
    t.onDiscoveryTimeout.node = t.node ∧ t.onDiscoveryTimeout.pending = t.pending := by
  unfold onDiscoveryTimeout
  simp only [List.isEmpty_iff, if_neg h]
  exact ⟨node_probe t _, (calm_probe _ hrole).clean.pending⟩

end Turn

namespace Node

/-- What is considered once and leaves the configuration in force alone is processed. -/
theorem exists_process_of_kept {u : Turn} (hu : n.turn.dispatch i = .ok u)
    (hpending : u.pending = []) (hconfig : u.node.config = n.config)
    (hnone : n.instated? i = none) :
    ∃ t, n.process i = .ok t ∧ t.node.config = (n.instated? i).getD n.config :=
  ⟨u, process_of_done hu hpending, by rw [hconfig, hnone, Option.getD_none]⟩

/-- A member that is found is added in a second consideration. -/
theorem exists_process_of_found (hrole : n.role = .init) {u : Turn} {p : PeerId}
    (hu : n.turn.dispatch i =
      .ok { u with pending := [.message n.id (.memberAdded p n.settings.membersToFind)] })
    (hnode : u.node = n) (hsome : n.instated? i = some (n.including p)) :
    ∃ t, n.process i = .ok t ∧ t.node.config = (n.instated? i).getD n.config := by
  let v : Turn := { u with pending := [] }
  have hv : v.node.role = .init := (congrArg role hnode).trans hrole
  refine ⟨v.addMember p n.settings.membersToFind, process_of_next hu rfl
    (Turn.calm_addMember v n.id p n.settings.membersToFind).clean.pending, ?_⟩
  rw [Turn.config_addMember hv, hsome]
  exact congrArg (including · p) hnode

/-- A node that looks for the cluster processes whatever it gets. -/
theorem exists_process_of_init (hrole : n.role = .init) (i : Input) :
    ∃ t, n.process i = .ok t ∧ t.node.config = (n.instated? i).getD n.config := by
  cases i with
  | message sender m =>
    cases m with
    | changeConfiguration c =>
      refine ⟨n.turn.join c, process_of_done (congrArg Except.ok ?_)
        (Turn.clean_goto _ .follower).pending, ?_⟩
      · simp [Turn.onChangeConfiguration, Node.turn, hrole]
      · unfold Turn.join
        rw [Turn.node_goto]
        rfl
    | discovered p =>
      exact exists_process_of_found hrole (u := n.turn) (p := p)
        (congrArg Except.ok (if_pos hrole)) rfl rfl
    | memberAdded p required =>
      exact ⟨n.turn.addMember p required, process_of_done rfl
        (Turn.calm_addMember n.turn sender p required).clean.pending,
        Turn.config_addMember hrole p required⟩
    | appendEntries leader =>
      refine exists_process_of_kept (u := n.turn.joinLeader leader) ?_
        (Turn.clean_goto _ .candidate).pending ?_ rfl
      · simp [Turn.dispatch, Turn.onMessage, Turn.onAppendEntries, Node.turn, hrole]
      · unfold Turn.joinLeader
        rw [Turn.node_goto]
        rfl
    | requestConfiguration =>
      refine exists_process_of_kept (u := n.turn) (congrArg Except.ok ?_) rfl rfl rfl
      simp [Turn.onRequestConfiguration, Node.leaderHint, Node.turn, hrole]
    | submit r =>
      refine exists_process_of_kept (u := n.turn.send sender (.leaderIs n.leaderHint (some r))) ?_
        rfl rfl rfl
      simp [Turn.dispatch, Turn.onMessage, Turn.onSubmit, Node.turn, hrole]
    | whoLeads =>
      refine exists_process_of_kept (u := n.turn.send sender (.leaderIs n.leaderHint none)) ?_
        rfl rfl rfl
      simp [Turn.dispatch, Turn.onMessage, Turn.onWhoLeads, Node.turn, hrole]
    | discover =>
      exact exists_process_of_kept (u := n.turn.send sender (.discovered n.id)) rfl rfl rfl rfl
    | askRole =>
      exact exists_process_of_kept (u := n.turn.send sender (.roleIs n.role)) rfl rfl rfl rfl
    | _ =>
      refine exists_process_of_kept (u := n.turn) ?_ rfl rfl rfl
      simp [Turn.dispatch, Turn.onMessage, Turn.onVoteRequest, Turn.onVoteGranted, Turn.onReply,
        Turn.onAccepted, Turn.onRejected, Turn.onInstallSnapshot, Node.turn, hrole]
  | timeout timer =>
    cases timer with
    | discovery =>
      have hdispatch : n.turn.dispatch (.timeout .discovery) = .ok n.turn.onDiscoveryTimeout :=
        if_pos hrole
      by_cases hseeds : n.settings.seeds.toList.filter (· != n.id) = []
      · rw [Turn.onDiscoveryTimeout_of_nil hseeds] at hdispatch
        exact exists_process_of_found hrole (u := n.turn.arm .discovery) (p := n.id) hdispatch rfl
          (if_pos hseeds)
      · obtain ⟨hnode, hpending⟩ := Turn.onDiscoveryTimeout_of_ne_nil (t := n.turn) hrole hseeds
        exact exists_process_of_kept hdispatch hpending (congrArg Node.config hnode) (if_neg hseeds)
    | election =>
      refine exists_process_of_kept (u := n.turn) ?_ rfl rfl rfl
      simp [Turn.dispatch, Turn.onTimeout, Turn.onElectionTimeout, Node.turn, hrole]
    | heartbeat =>
      refine exists_process_of_kept (u := n.turn) ?_ rfl rfl rfl
      simp [Turn.dispatch, Turn.onTimeout, Node.turn, hrole]
  | compactLog =>
    refine exists_process_of_kept (u := n.turn) ?_ rfl rfl rfl
    simp [Turn.dispatch, Turn.capture, Node.snapshotDue?, Node.turn, hrole]
  | snapshotPrepared | snapshotFailed => exact exists_process_of_kept rfl rfl rfl rfl

end Node

theorem step_of_init (hrole : n.role = .init) (i : Input) :
    ∃ m es, step n i = .ok (m, es) ∧ m.config = (n.instated? i).getD n.config := by
  obtain ⟨t, ht, hconfig⟩ := Node.exists_process_of_init hrole i
  exact ⟨t.node, t.effects, step_of_process ht, hconfig⟩

/-- A node that still looks for the cluster after a transition has looked for it before, and a
configuration that it has put in force comes first of all. -/
theorem init_of_step (h : step n i = .ok (m, es)) (hm : m.role = .init) :
    n.role = .init ∧ (m.config = n.config ∨ m.config.sequence = 0) := by
  refine step_keeps (fun x => x.role = .init → n.role = .init ∧
    (x.config = n.config ∨ x.config.sequence = 0)) (fun _ => True) h (fun hn => ⟨hn, .inl rfl⟩)
    trivial (fun hx _ a => ⟨fun hy => ?_, fun _ _ => trivial⟩) hm
  obtain ⟨hinit, -, hconfig | ⟨_, _, _, -, hconfig⟩⟩ := a.of_init hy
  · rw [hconfig]
    exact hx hinit
  · exact ⟨(hx hinit).1, .inr (by rw [hconfig]; rfl)⟩

/-! ### The search of a node that starts from a snapshot -/

namespace Life

variable (l : Life) {id : PeerId} {settings : Settings} {s : Snapshot} {k : Nat}

theorem id_settings_after (k : Nat) :
    (l.after k).id = l.start.id ∧ (l.after k).settings = l.start.settings :=
  l.keeps (fun n => n.id = l.start.id ∧ n.settings = l.start.settings) ⟨rfl, rfl⟩
    (fun h a => ⟨a.id_settings.1.trans h.1, a.id_settings.2.trans h.2⟩) k

theorem init_of_succ (h : (l.after (k + 1)).role = .init) : (l.after k).role = .init := by
  rcases l.after_succ_cases k with heq | ⟨i, es, -, hstep⟩
  · rwa [← heq]
  · exact (init_of_step hstep h).1

/-- The search for the cluster is not taken up again. -/
theorem init_of_le {j : Nat} (h : (l.after k).role = .init) (hj : j ≤ k) :
    (l.after j).role = .init := by
  induction k with
  | zero => rwa [Nat.le_zero.1 hj]
  | succ k ih =>
    rcases Nat.le_succ_iff.1 hj with hj | rfl
    · exact ih (l.init_of_succ h) hj
    · exact h

/-- While a node looks for the cluster, its configuration is what the last input put in force, if
that input did so. -/
theorem config_succ (h : (l.after k).role = .init) : (l.after (k + 1)).config =
    (l.inputs[k]?.bind (l.after k).instated?).getD (l.after k).config := by
  cases hi : l.inputs[k]? with
  | none =>
    rcases l.after_succ_cases k with heq | ⟨i, -, hi', -⟩
    · rw [heq, Option.bind_none, Option.getD_none]
    · cases hi.symm.trans hi'
  | some i =>
    obtain ⟨m, es, hstep, hconfig⟩ := step_of_init h i
    have hafter : l.after (k + 1) = (l.after k).next i := Node.foldl_next_succ hi l.start
    rw [hafter, Node.next_eq hstep, hconfig, Option.bind_some]

/-- As long as nothing older has been put in force, nothing has: what is found in the search has the
lowest sequence number of all. -/
theorem config_of_upholds (h : (l.after k).role = .init)
    (hupholds : ∀ j < k, (l.after (j + 1)).config.Upholds l.start.config) :
    (l.after k).config = l.start.config := by
  induction k with
  | zero => rfl
  | succ k ih =>
    have hk := ih (l.init_of_succ h) fun j hj => hupholds j (Nat.lt_succ_of_lt hj)
    rcases l.after_succ_cases k with heq | ⟨i, es, -, hstep⟩
    · rw [heq, hk]
    · rcases (init_of_step hstep h).2 with hconfig | hzero
      · rw [hconfig, hk]
      · refine (hupholds k (Nat.lt_succ_self k)).resolve_right fun hlt => ?_
        rw [hzero] at hlt
        exact Nat.not_lt_zero _ hlt

/-- A node that starts from a snapshot keeps the snapshot's configuration in force, or a newer one,
with every input that it processes in its search for the cluster, if and only if all that these
inputs would put in force right away is that configuration or a newer one. -/
theorem upholds_iff (hstart : l.start = .ofSnapshot id settings s) (h : (l.after k).role = .init) :
    (∀ j ≤ k, (l.after (j + 1)).config.Upholds s.about.config) ↔
      ∀ j ≤ k, ∀ i, l.inputs[j]? = some i → ∀ c, l.start.instated? i = some c →
        c.Upholds s.about.config := by
  have hconfig : l.start.config = s.about.config := congrArg Node.config hstart
  rw [← hconfig]
  -- what an input puts in force is the same as at the start while nothing has been put in force
  have hnext : ∀ j ≤ k, (∀ j' < j, (l.after (j' + 1)).config.Upholds l.start.config) →
      (l.after (j + 1)).config = (l.inputs[j]?.bind l.start.instated?).getD l.start.config := by
    intro j hj hupholds
    have hinit := l.init_of_le h hj
    have hkept := l.config_of_upholds hinit hupholds
    obtain ⟨hid, hsettings⟩ := l.id_settings_after j
    rw [l.config_succ hinit, Node.instated?_congr hid hkept hsettings, hkept]
  constructor
  · intro hupholds j hj i hi c hc
    have hsucc := hnext j hj fun j' hj' => hupholds j' (Nat.le_trans (Nat.le_of_lt hj') hj)
    rw [hi, Option.bind_some, hc, Option.getD_some] at hsucc
    exact hsucc ▸ hupholds j hj
  · intro hinputs j hj
    induction j using Nat.strongRecOn with
    | ind j ih =>
      rw [hnext j hj fun j' hj' => ih j' hj' (Nat.le_trans (Nat.le_of_lt hj') hj)]
      cases hi : l.inputs[j]? with
      | none => exact .inl rfl
      | some i =>
        rw [Option.bind_some]
        cases hc : l.start.instated? i with
        | none => exact .inl rfl
        | some c => exact hinputs j hj i hi c hc

/-- What node 1 processes after a restart. The last configuration before it had the sequence
number 5, and node 2 is to be found. -/
def restarted (inputs : List Input) : Life where
  start := .ofSnapshot ⟨1⟩ { seeds := .ofList [⟨2⟩], membersToFind := 3 }
    ⟨⟨5, 3, .stable 5 (.ofList [⟨1⟩, ⟨2⟩])⟩, []⟩
  isNew := .inr ⟨_, _, _, rfl⟩
  inputs := inputs

/-- Node 2 is looked for, looks for others itself, and brings a newer configuration. -/
def informed : Life := restarted
  [.timeout .discovery, .message ⟨2⟩ .discover,
    .message ⟨2⟩ (.changeConfiguration (.stable 6 (.ofList [⟨1⟩, ⟨2⟩, ⟨3⟩])))]

theorem upholds_iff_informed : (informed.after 2).role = .init ∧
    ∀ j ≤ 2, (informed.after (j + 1)).config.Upholds (.stable 5 (.ofList [⟨1⟩, ⟨2⟩])) := by
  have hinit : (informed.after 2).role = .init := by decide +kernel
  refine ⟨hinit, (informed.upholds_iff rfl hinit).2 ?_⟩
  rintro (_ | _ | _ | j) hj i hi c hc
  · obtain rfl := Option.some.inj hi
    cases hc
  · obtain rfl := Option.some.inj hi
    cases hc
  · obtain rfl := Option.some.inj hi
    obtain rfl := Option.some.inj hc
    decide +kernel
  · omega

/-- Node 2 answers, too. -/
def misled : Life := restarted [.timeout .discovery, .message ⟨2⟩ (.discovered ⟨2⟩)]

/-- The search goes on with a configuration that comes before that of the snapshot. -/
theorem not_upholds_misled : (misled.after 1).role = .init ∧ (misled.after 2).role = .init ∧
    (misled.after 1).config = .stable 5 (.ofList [⟨1⟩, ⟨2⟩]) ∧
    (misled.after 2).config = .stable 0 (.ofList [⟨1⟩, ⟨2⟩]) ∧
    ¬ (misled.after 2).config.Upholds (.stable 5 (.ofList [⟨1⟩, ⟨2⟩])) := by
  decide +kernel

end Life

end Raft
