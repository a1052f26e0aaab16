import Raft.Proofs.Handlers

/-!
# What the processing of one input comes to

Most of what a node does on an input is `Turn.Calm`: act by act it keeps its log and what it
remembers of the leader, says nothing of the leader and asks nothing of the state machine. What is
not calm is one of the few things in `Turn.Deed`. Where it is not certain that the node gets through
with it, `Turn.Attempt` has the part that can fail.

There is one lemma for each handler here, and at the end `Turn.attempt_dispatch` and
`Turn.deed_dispatch`. Whatever else is to be known of all inputs, such as what they raise, what they
send and which timers they set, is found by going through the deeds.
-/

namespace Raft

/-! ### Effects -/

/-- Whether an effect is a message that says nothing of the leader. -/
def Effect.IsPlain : Effect → Prop
  | .send _ (.leaderIs ..) => False
  | .send .. => True
  | _ => False

/-- Whether an effect is such a message or sets a timer. -/
def Effect.IsRoutine : Effect → Prop
  | .send _ (.leaderIs ..) => False
  | .send .. => True
  | .arm _ => True
  | .cancel _ => True
  | _ => False

/-- What a node says of the leader, or passes on to it. A leader points at itself only if it is
asked who leads. -/
inductive Effect.Tells (n : Node) : Effect → Prop
  | hint {receiver : PeerId} {r : Option Request} (hr : n.role = .leader → r = none) :
    Effect.Tells n (.send receiver (.leaderIs n.leaderHint r))
  | pass {sender leader : PeerId} {m : Message} (hrole : n.role ≠ .leader)
    (hleader : n.leaderHint = some leader) : Effect.Tells n (.forward sender leader m)

namespace Effect

variable {e : Effect}

theorem IsPlain.isRoutine (h : e.IsPlain) : e.IsRoutine := by
  cases e with
  | send p m =>
    cases m with
    | leaderIs => exact h.elim
    | _ => trivial
  | _ => exact h.elim

theorem IsTimer.isRoutine (h : e.IsTimer) : e.IsRoutine := by
  cases e with
  | arm | cancel => trivial
  | _ => exact h.elim

theorem IsPlain.not_isTimer (h : e.IsPlain) : ¬ e.IsTimer := by
  cases e with
  | arm | cancel => exact h.elim
  | _ => exact id

theorem Tells.not_isTimer {n : Node} (h : e.Tells n) : ¬ e.IsTimer := by
  cases h <;> exact id

end Effect

/-- What a leader sends to its peers says nothing of the leader. -/
theorem Node.isPlain_nextMessage (n : Node) {peer : PeerId} {m : Message}
    (h : n.nextMessage peer = .ok m) (p : PeerId) : (Effect.send p m).IsPlain := by
  rcases n.nextMessage_cases h with ⟨_, _, _, rfl⟩ | ⟨_, -, rfl⟩ <;> trivial

/-- Whether an input comes with the entries or the snapshot of the leader of the term. -/
def Input.Brings (leader : PeerId) (term : Nat) : Input → Prop
  | .message _ (.appendEntries l t _ _ _ _) => l = leader ∧ t = term
  | .message _ (.installSnapshot l t _) => l = leader ∧ t = term
  | _ => False

theorem Input.Brings.cases {leader : PeerId} {term : Nat} {i : Input} (h : i.Brings leader term) :
    (∃ sender prevTerm prev entries commit,
      i = .message sender (.appendEntries leader term prevTerm prev entries commit)) ∨
    ∃ sender s, i = .message sender (.installSnapshot leader term s) := by
  unfold Brings at h
  split at h
  next =>
    obtain ⟨rfl, rfl⟩ := h
    exact .inl ⟨_, _, _, _, _, rfl⟩
  next =>
    obtain ⟨rfl, rfl⟩ := h
    exact .inr ⟨_, _, rfl⟩
  next => exact h.elim

/-- The timer that a node waits for. -/
def Role.timer : Role → Timer
  | .init => .discovery
  | .follower => .election
  | .candidate => .election
  | .leader => .heartbeat

/-! ### Calm parts -/

/-- The node has kept its log and what it remembers of the leader. Who leads has led before, with
the same configuration. -/
structure Node.Retains (n m : Node) : Prop where
  log : m.log = n.log
  leader : m.leader = n.leader
  term : n.term ≤ m.term
  leads : m.role = .leader → n.role = .leader ∧ m.config = n.config

namespace Node.Retains

variable {n m k : Node}

theorem refl (n : Node) : n.Retains n := ⟨rfl, rfl, Nat.le_refl _, fun h => ⟨h, rfl⟩⟩

theorem trans (h : n.Retains m) (h' : m.Retains k) : n.Retains k where
  log := h'.log.trans h.log
  leader := h'.leader.trans h.leader
  term := Nat.le_trans h.term h'.term
  leads hlead :=
    ⟨(h.leads (h'.leads hlead).1).1, (h'.leads hlead).2.trans (h.leads (h'.leads hlead).1).2⟩

end Node.Retains

namespace Turn

variable {i : Input} {t u v : Turn} {x : Except Violation Turn} {m : Node} {role : Role}
  {leader : PeerId} {term : Nat}

/-- From `t` on, the input `i` has been processed for a while, and nothing has happened to the log,
to the state machine and to whom the node takes for the leader. -/
inductive Calm (i : Input) (t : Turn) : Turn → Prop
  | refl : Calm i t t
  /-- An act of a node that goes on to wait for the same timer. -/
  | act {u : Turn} {m : Node} {es : List Effect} (h : Calm i t u) (a : Act i u.node es [] m)
    (hm : u.node.Retains m) (htimer : m.role.timer = u.node.role.timer)
    (hes : ∀ e ∈ es, e.IsPlain) : Calm i t (u.put m es)
  /-- The node sets the timer that it waits for anew. -/
  | arm {u : Turn} (h : Calm i t u) : Calm i t (u.arm u.node.role.timer)
  /-- An act that ends in a change of role. -/
  | shift {u : Turn} {m : Node} {es : List Effect} {role : Role} (h : Calm i t u)
    (a : Act i u.node es [] (m.inRole role)) (hm : u.node.Retains (m.inRole role))
    (hsame : m.role = u.node.role) (hrole : role = .follower ∨ role = .candidate)
    (hes : ∀ e ∈ es, e.IsPlain) : Calm i t ((u.put m es).goto role)

namespace Calm

theorem trans (h : Calm i t v) (h' : Calm i v u) : Calm i t u := by
  induction h' with
  | refl => exact h
  | act _ a hm htimer hes ih => exact ih.act a hm htimer hes
  | arm _ ih => exact ih.arm
  | shift _ a hm hsame hrole hes ih => exact ih.shift a hm hsame hrole hes

/-! #### What a calm part leaves alone -/

theorem retains (h : Calm i t u) : t.node.Retains u.node := by
  induction h with
  | refl => exact .refl _
  | act _ _ hm _ _ ih => exact ih.trans hm
  | arm _ ih => exact ih
  | shift _ _ hm _ _ _ ih =>
    rw [node_goto]
    exact ih.trans hm

theorem clean (h : Calm i t u) : t.Clean u := by
  induction h with
  | refl => exact .refl t
  | act _ _ _ _ _ ih | arm _ ih => exact ⟨ih.lapses, ih.pending⟩
  | @shift u m es role _ _ _ _ _ _ ih =>
    have hgoto := clean_goto (u.put m es) role
    exact ⟨hgoto.lapses.trans ih.lapses, hgoto.pending.trans ih.pending⟩

theorem emits (h : Calm i t u) : t.Emits Effect.IsRoutine u := by
  induction h with
  | refl => exact .of_eq rfl
  | @act u m es _ _ _ _ hes ih => exact ih.trans (.put u m fun e he => (hes e he).isRoutine)
  | arm _ ih => exact ih.trans (.emit _ trivial)
  | @shift u m es role _ _ _ _ _ hes ih =>
    have hput : u.Emits Effect.IsRoutine (u.put m es) := .put u m fun e he => (hes e he).isRoutine
    exact (ih.trans hput).trans ((emits_goto _ role).mono Effect.IsTimer.isRoutine)

/-! #### What calm parts consist of -/

theorem send (h : Calm i t u) {p : PeerId} {message : Message}
    (a : Act i u.node [.send p message] [] u.node) (hm : (Effect.send p message).IsPlain) :
    Calm i t (u.send p message) :=
  h.act a (.refl _) rfl (by simpa using hm)

/-- A change of what a node knows. -/
theorem change (h : Calm i t u) (a : Act i u.node [] [] m) (hm : u.node.Retains m)
    (hrole : m.role = u.node.role) : Calm i t { u with node := m } := by
  rw [← put_nil]
  exact h.act a hm (by rw [hrole]) nofun

theorem arm_of_eq (h : Calm i t u) {timer : Timer} (htimer : u.node.role.timer = timer) :
    Calm i t (u.arm timer) := htimer ▸ h.arm

/-- A change of what a node knows and of its role. -/
theorem become (h : Calm i t u) (a : Act i u.node [] [] (m.inRole role))
    (hm : u.node.Retains (m.inRole role)) (hsame : m.role = u.node.role)
    (hrole : role = .follower ∨ role = .candidate) :
    Calm i t (({ u with node := m } : Turn).goto role) := by
  rw [← put_nil]
  exact h.shift a hm hsame hrole nofun

theorem observe (h : Calm i t u) {term : Nat} (hi : i.term? = some term)
    (hrole : u.node.role ≠ .init) (hlt : u.node.term < term) : Calm i t (u.stepDown term) :=
  h.become (.observe hi hrole hlt) ⟨rfl, rfl, Standing.term_le_advanceTo .., nofun⟩ rfl (.inl rfl)

theorem yield (h : Calm i t u) {term : Nat} (hle : term ≤ u.node.term)
    (hrole : u.node.role = .candidate ∨ u.node.role = .leader) : Calm i t (u.stepDown term) := by
  have hstays : u.node.standing.advanceTo term = u.node.standing := Standing.advanceTo_of_le hle
  refine h.become ?_ ⟨rfl, rfl, Standing.term_le_advanceTo .., nofun⟩ rfl (.inl rfl)
  have ha := Act.yield (i := i) hrole
  simpa only [hstays] using ha

/-- A newer term is what a follower adopts without a change of role. -/
theorem advanceTo (h : Calm i t u) {term : Nat} (hi : i.term? = some term)
    (hrole : u.node.role = .follower) : Calm i t (u.withStanding (·.advanceTo term)) := by
  by_cases hlt : u.node.term < term
  · refine h.change ?_ ⟨rfl, rfl, Standing.term_le_advanceTo .., fun hlead => ?_⟩ rfl
    · have hresigned :
          (u.node.standing.advanceTo term).resign = u.node.standing.advanceTo term := by
        simp [Standing.advanceTo, show u.node.standing.term < term from hlt, Standing.resign]
      have ha := Act.observe (i := i) (n := u.node) hi (by simp [hrole]) hlt
      rwa [hresigned, Node.inRole_eq_self (by exact hrole)] at ha
    · cases hrole.symm.trans hlead
  · have hstays := Standing.advanceTo_of_le (Nat.le_of_not_lt hlt)
    simpa only [withStanding, hstays] using h

end Calm

/-! ### What is not calm -/

/-- What a follower does with the entries or the snapshot of a leader that it heeds. -/
inductive Heard (i : Input) (t u : Turn) : Prop
  | accept {sender leader : PeerId} {prevTerm prev commit : Nat} {entries : List Entry}
    (hi : i = .message sender (.appendEntries leader t.node.term prevTerm prev entries commit))
    (hprev : t.node.log.matchesAt prevTerm prev = true)
    (hu : u = t.takeEntries sender prev entries commit)
  | refuse {sender : PeerId} (hu : u = t.send sender (.appendRejected t.node.term))
  | install {sender leader : PeerId} {s : Snapshot}
    (hi : i = .message sender (.installSnapshot leader t.node.term s))
    (hu : u = (t.takeSnapshot s).send sender (.snapshotAccepted t.node.term s.about.index))

/-- A follower stays one, whatever it is sent. -/
theorem Heard.same (h : Heard i t u) : t.node.Same u.node := by
  cases h with
  | accept _ _ hu => exact hu ▸ same_takeEntries ..
  | refuse hu => exact hu ▸ .refl _
  | install _ hu => exact hu ▸ same_takeSnapshot ..

theorem Heard.pending_eq (h : Heard i t u) : u.pending = t.pending := by
  cases h with
  | accept _ _ hu => rw [hu, takeEntries_eq_resume]; rfl
  | refuse hu => exact hu ▸ rfl
  | install _ hu => exact hu ▸ (clean_takeSnapshot ..).pending

/-- A follower answers a leader, and the state machine is told what has changed. -/
theorem Heard.emits (h : Heard i t u) : t.Emits (fun e => e.isOnState ∨ e.IsPlain) u := by
  cases h with
  | @accept sender leader prevTerm prev commit entries _ _ hu =>
    obtain ⟨es, honState, heffects⟩ := t.effects_takeEntries sender prev entries commit
    refine ⟨es ++ [.send sender (.appendAccepted t.node.term (lastOf entries prev))],
      by rw [hu, heffects, List.append_assoc], fun e he => ?_⟩
    rcases List.mem_append.1 he with he | he
    · exact .inl (honState e he)
    · obtain rfl := List.mem_singleton.1 he
      exact .inr trivial
  | refuse hu => exact hu ▸ .emit t (.inr trivial)
  | @install sender leader s _ hu =>
    have hrestore : t.Emits (fun e => e.isOnState ∨ e.IsPlain) (t.takeSnapshot s) :=
      (emits_takeSnapshot t s).mono fun he => .inl (he ▸ rfl)
    exact hu ▸ hrestore.trans (.emit _ (.inr trivial))

/-- What the processing of the input `i` comes to if it goes through. -/
inductive Deed (i : Input) (t u : Turn) : Prop
  | calm (h : Calm i t u)
  /-- The node steps down, and the input is left to the follower that it becomes. -/
  | again {term : Nat} (hi : i.IsForFollower) (hrole : t.node.role ≠ .follower)
    (h : Calm i t (t.stepDown term))
    (hu : u = { t.stepDown term with pending := i :: (t.stepDown term).pending })
  /-- A node that looks for the cluster counts another one, or itself, as found. -/
  | meet {member : PeerId} (hrole : t.node.role = .init)
    (hi : (i = .timeout .discovery ∧ member = t.node.id) ∨
      ∃ sender, i = .message sender (.discovered member))
    (h : Calm i (t.enqueue (.memberAdded member t.node.settings.membersToFind)) u)
    (hnode : u.node = t.node)
  /-- A leader takes a configuration as the wish to change to its members. -/
  | propose {sender : PeerId} {c : Configuration}
    (hi : i = .message sender (.changeConfiguration c)) (hrole : t.node.role = .leader)
    (hstable : t.node.config.isJoint = false)
    (hu : u = t.enqueue (.submit ⟨t.node.id, .configuration (t.node.config.transitionTo c)⟩))
  | speak {e : Effect} (a : Act i t.node [e] [] t.node) (he : e.Tells t.node) (hu : u = t.emit e)
  /-- A candidate has won. -/
  | lead {v : Turn} (h : Calm i t v) (hconfig : v.node.config = t.node.config)
    (hrole : v.node.role = .candidate) (hmaj : v.node.standing.hasMajority = true)
    (hi : i.Decides v.node.term) (hu : v.lead = .ok u)
  | append {sender : PeerId} {r : Request} (hi : i = .message sender (.submit r))
    (hrole : t.node.role = .leader) (hu : t.appendRequest r = .ok u)
  /-- A leader has been told how far another node's log reaches. -/
  | record {peer : PeerId} {last : Nat}
    (hi : i = .message peer (.appendAccepted t.node.term last) ∨
      i = .message peer (.snapshotAccepted t.node.term last))
    (hrole : t.node.role = .leader) (hlast : last ≤ t.node.log.lastIndex)
    (hu : u = ({ t with node := t.node.noting peer last } : Turn).advanceCommit)
  | heed {leader : PeerId} {term : Nat} (hrole : t.node.role = .follower)
    (hi : i.Brings leader term) (hterm : t.node.term ≤ term) (h : Heard i (t.heed leader term) u)
  | capture (hi : i = .compactLog) (hu : t.capture = .ok u)
  | finish {s : Option Snapshot}
    (hi : i = .snapshotPrepared s ∨ (s = none ∧ ∃ reason, i = .snapshotFailed reason))
    (hu : u = t.finishCapture s)

/-- What a node attempts on the input `i`, and what comes of it. -/
inductive Attempt (i : Input) (t : Turn) : Except Violation Turn → Prop
  | done {u : Turn} (h : Deed i t u) : Attempt i t (.ok u)
  | serve {peer : PeerId} (hrole : t.node.role = .leader) : Attempt i t (t.sendEntries peer)
  /-- A leader tries an earlier place. -/
  | retry {peer : PeerId} (hrole : t.node.role = .leader)
    (hi : i = .message peer (.appendRejected t.node.term) ∨
      i = .message peer (.snapshotRejected t.node.term)) :
    Attempt i t (sendEntries
      { t with node := { t.node with nextIndex := t.node.nextIndex.backOff peer } } peer)
  | heartbeat (hrole : t.node.role = .leader) : Attempt i t (t.replicate.map (·.arm .heartbeat))
  | lead {v : Turn} (h : Calm i t v) (hconfig : v.node.config = t.node.config)
    (hrole : v.node.role = .candidate) (hmaj : v.node.standing.hasMajority = true)
    (hi : i.Decides v.node.term) : Attempt i t v.lead
  | append {sender : PeerId} {r : Request} (hi : i = .message sender (.submit r))
    (hrole : t.node.role = .leader) : Attempt i t (t.appendRequest r)
  | record {peer : PeerId} {last : Nat}
    (hi : i = .message peer (.appendAccepted t.node.term last) ∨
      i = .message peer (.snapshotAccepted t.node.term last))
    (hrole : t.node.role = .leader) : Attempt i t ((t.recordProgress peer last).map advanceCommit)
  | capture (hi : i = .compactLog) : Attempt i t t.capture

theorem Attempt.calm (h : Calm i t u) : Attempt i t (.ok u) := .done (.calm h)

theorem Attempt.refl : Attempt i t (.ok t) := .calm .refl

theorem calm_sendEntries {peer : PeerId} (hrole : t.node.role = .leader)
    (h : t.sendEntries peer = .ok u) : Calm i t u := by
  obtain ⟨m, hm, rfl⟩ := sendEntries_eq h
  exact Calm.refl.send (.sendNext hrole hm) (t.node.isPlain_nextMessage hm peer)

/-- A leader that serves all its peers only sends. -/
theorem emits_replicate (h : t.replicate = .ok u) : t.Emits Effect.IsPlain u :=
  (replicate_induction h (.of_eq rfl) fun _ p _ _ hm hv =>
    hv.trans (.emit _ (t.node.isPlain_nextMessage hm p))).1

theorem calm_replicate (hrole : t.node.role = .leader) (h : t.replicate = .ok u) : Calm i t u := by
  refine (replicate_induction h .refl fun v p m hnode hm hv => hv.trans ?_).1
  have hsend : v.sendEntries p = .ok (v.send p m) := by
    rw [sendEntries, hnode, hm]
    rfl
  exact calm_sendEntries (hnode ▸ hrole) hsend

/-- A leader that is not to be a member any longer steps down. -/
theorem calm_leaveIfRemoved (hrole : t.node.role = .leader) : Calm i t t.leaveIfRemoved := by
  unfold leaveIfRemoved
  split
  next => exact .refl
  next => exact Calm.refl.yield (Nat.le_refl _) (.inr hrole)

/-- When a request has entered the log, the leader serves its peers, commits what it can, and may
step down. -/
theorem exists_of_appendRequest {r : Request} (hrole : t.node.role = .leader)
    (h : t.appendRequest r = .ok u) :
    ∃ v, Calm i ((t.appendOwn r.command (some r.client)).adoptNewer r.command) v ∧
      v.node = ((t.appendOwn r.command (some r.client)).adoptNewer r.command).node ∧
      v.node.role = .leader ∧ Calm i v.advanceCommit u ∧ u = v.advanceCommit.leaveIfRemoved := by
  have hrole₁ := (t.same_append r.command (some r.client)).role.trans hrole
  rw [appendRequest_eq] at h
  obtain ⟨v, hv, rfl⟩ := exists_of_map h
  have hrole₂ : v.node.role = .leader := node_replicate hv ▸ hrole₁
  have hleave : Calm i v.advanceCommit v.advanceCommit.leaveIfRemoved :=
    calm_leaveIfRemoved ((role_advanceCommit v).trans hrole₂)
  exact ⟨v, calm_replicate hrole₁ hv, node_replicate hv, hrole₂, hleave, rfl⟩

/-- A new leader does the same when an entry of its own has entered the log. -/
theorem exists_of_lead (h : t.lead = .ok u) :
    ∃ v, Calm i (t.elected.appendOwn .noop none) v ∧
      v.node = (t.elected.appendOwn .noop none).node ∧ u = v.advanceCommit := by
  have hrole : (t.elected.appendOwn .noop none).node.role = .leader := t.role_elected
  rw [lead_eq] at h
  obtain ⟨v, hv, rfl⟩ := exists_of_map h
  have hnode := node_replicate hv
  have htimer : v.node.role.timer = .heartbeat := by rw [hnode, hrole]; rfl
  exact ⟨v.arm .heartbeat, (calm_replicate hrole hv).arm_of_eq htimer, hnode, rfl⟩

/-- What comes of an attempt that goes through. -/
theorem Attempt.deed (h : Attempt i t x) (hx : x = .ok u) : Deed i t u := by
  cases h with
  | done h => exact Except.ok.inj hx ▸ h
  | serve hrole => exact .calm (calm_sendEntries hrole hx)
  | retry hrole hi =>
    refine .calm (Calm.trans ?_ (calm_sendEntries (by exact hrole) hx))
    exact Calm.refl.change (.backOff hrole hi) ⟨rfl, rfl, Nat.le_refl _, fun h => ⟨h, rfl⟩⟩ rfl
  | heartbeat hrole =>
    obtain ⟨v, hv, rfl⟩ := exists_of_map hx
    have htimer : v.node.role.timer = .heartbeat := by rw [node_replicate hv, hrole]; rfl
    exact .calm ((calm_replicate hrole hv).arm_of_eq htimer)
  | lead h hconfig hrole hmaj hi => exact .lead h hconfig hrole hmaj hi hx
  | append hi hrole => exact .append hi hrole hx
  | record hi hrole =>
    obtain ⟨v, hv, rfl⟩ := exists_of_map hx
    obtain ⟨hlast, rfl⟩ := recordProgress_eq hv
    exact .record hi hrole hlast rfl
  | capture hi => exact .capture hi hx

/-! ### Elections -/

/-- How an attempt to be elected goes on: the node waits for votes, or it has them already. -/
inductive Contends (i : Input) (t : Turn) : Except Violation Turn → Prop
  | wait {u : Turn} (h : Calm i t u) : Contends i t (.ok u)
  | lead {v : Turn} (h : Calm i t v) (hconfig : v.node.config = t.node.config)
    (hrole : v.node.role = .candidate) (hmaj : v.node.standing.hasMajority = true)
    (hi : i.Decides v.node.term) : Contends i t v.lead

theorem Contends.attempt (h : Contends i t x) : Attempt i t x := by
  cases h with
  | wait h => exact .calm h
  | lead h hconfig hrole hmaj hi => exact .lead h hconfig hrole hmaj hi

theorem Calm.contends (h : Calm i t v) (hconfig : v.node.config = t.node.config)
    (h' : Contends i v x) : Contends i t x := by
  cases h' with
  | wait h' => exact .wait (h.trans h')
  | lead h' hconfig' hrole hmaj hi =>
    exact .lead (h.trans h') (hconfig'.trans hconfig) hrole hmaj hi

theorem contends_leadIfElected (hrole : t.node.role = .candidate) (hi : i.Decides t.node.term) :
    Contends i t t.leadIfElected := by
  unfold leadIfElected
  split
  next hmaj => exact .lead .refl rfl hrole hmaj hi
  next => exact .wait .refl

/-- A campaign as seen from before the new term began. -/
theorem contends_campaign (hi : i = .timeout .election) (hasked : t.node.configAskedOf = none)
    (hrole : (t.node.role = .follower ∧ t.node.id ∈ t.node.members) ∨
      (t.node.role = .candidate ∧ 1 < t.node.members.size)) :
    Contends i t ({ t with node := { t.node with
      role := .candidate
      standing := t.node.standing.startElection } } : Turn).campaign := by
  have htimer : Role.timer .candidate = t.node.role.timer := by
    rcases hrole with ⟨hrole, -⟩ | ⟨hrole, -⟩ <;> simp [hrole, Role.timer]
  have hrequests := Calm.refl.act (Act.campaign (i := i) hi hasked hrole)
    ⟨rfl, rfl, Nat.le_succ _, nofun⟩ htimer fun e he => by
      obtain ⟨p, -, rfl⟩ := List.mem_map.1 he
      trivial
  rw [campaign_eq]
  exact hrequests.contends rfl (contends_leadIfElected rfl (.inl hi))

/-- A follower begins with setting its timer anew. -/
theorem contends_beginElection (hi : i = .timeout .election) (hrole : t.node.role = .follower) :
    Contends i (t.arm .election) t.beginElection := by
  have htimer : (t.arm .election).node.role.timer = .election := congrArg Role.timer hrole
  rcases t.beginElection_cases with ⟨p, hasked, heq⟩ | ⟨hasked, hmem, heq⟩ | heq <;> rw [heq]
  · exact .wait (Calm.refl.send (.askAgain hi hasked) trivial)
  · -- the timer is set once more before the campaign
    have hstand : ((t.arm .election).withStanding Standing.startElection).goto .candidate =
        { (t.arm .election).arm .election with node := { t.node with
          role := .candidate
          standing := t.node.standing.startElection } } := by
      simp [goto, withStanding, arm, emit, hrole, leaveRole, enterRole]
    rw [hstand]
    exact (Calm.refl.arm_of_eq htimer).contends rfl
      (contends_campaign (t := (t.arm .election).arm .election) hi hasked (.inl ⟨hrole, hmem⟩))
  · exact .wait .refl

/-- A candidate sets its timer anew, or it gives up. -/
theorem contends_retryElection (hi : i = .timeout .election) (hrole : t.node.role = .candidate) :
    (∃ v, Calm i t v ∧ v.node = t.node ∧ Contends i (v.arm .election) t.retryElection) ∨
    t.retryElection = .ok (t.stepDown t.node.term) := by
  rcases t.retryElection_cases with ⟨p, hasked, heq⟩ | ⟨hasked, hsize, heq⟩ | heq
  · refine .inl ⟨t.send p .requestConfiguration, ?_, rfl, heq ▸ .wait .refl⟩
    exact Calm.refl.send (.askAgain hi hasked) trivial
  · have hstand : (t.withStanding Standing.startElection).arm .election =
        { t.arm .election with node := { t.node with
          role := .candidate
          standing := t.node.standing.startElection } } := by
      simp [withStanding, arm, emit, hrole]
    refine .inl ⟨t, .refl, rfl, ?_⟩
    rw [heq, hstand]
    exact contends_campaign (t := t.arm .election) hi hasked (.inr ⟨hrole, hsize⟩)
  · exact .inr heq

theorem attempt_onElectionTimeout (hi : i = .timeout .election) :
    Attempt i t t.onElectionTimeout := by
  unfold onElectionTimeout
  split
  next hrole =>
    have harm : Calm i t (t.arm .election) := Calm.refl.arm_of_eq (congrArg Role.timer hrole)
    exact (harm.contends rfl (contends_beginElection hi hrole)).attempt
  next hrole =>
    rcases contends_retryElection hi hrole with ⟨v, hcalm, hv, hcontends⟩ | heq
    · have htimer : v.node.role.timer = .election := by rw [hv, hrole]; rfl
      exact ((hcalm.arm_of_eq htimer).contends (congrArg Node.config hv) hcontends).attempt
    · rw [heq]
      exact .calm (Calm.refl.yield (Nat.le_refl _) (.inl hrole))
  all_goals exact .refl

theorem contends_countVote {voter : PeerId} (hi : i = .message voter (.grantVote t.node.term))
    (hrole : t.node.role = .candidate) : Contends i t (t.countVote voter) := by
  unfold countVote
  split
  next hnew =>
    obtain ⟨hmem, hgranted⟩ := hnew
    refine Calm.contends (Calm.refl.change (.count hi hrole ?_ ?_) ?_ rfl) rfl
      (contends_leadIfElected hrole (.inr ⟨voter, hi⟩))
    · exact PeerSet.contains_iff.1 hmem
    · exact fun hin => hgranted (PeerSet.contains_iff.2 hin)
    · exact ⟨rfl, rfl, Nat.le_refl _, fun h => ⟨h, rfl⟩⟩
  next => exact .wait .refl

theorem calm_answerVoteRequest {sender candidate : PeerId} {term lastTerm lastIndex : Nat}
    (hi : i = .message sender (.requestVote term candidate lastTerm lastIndex))
    (hrole : t.node.role = .follower) :
    Calm i t (t.answerVoteRequest sender term candidate lastTerm lastIndex) := by
  unfold answerVoteRequest
  split
  next => exact Calm.refl.send (.talk trivial) trivial
  next hforeign =>
    have hadvance : Calm i t (t.withStanding (·.advanceTo term)) :=
      Calm.refl.advanceTo (hi ▸ rfl) hrole
    have hforeign' : (t.withStanding (·.advanceTo term)).node.isForeign candidate = false := by
      have hmembers : (t.withStanding (·.advanceTo term)).node.members = t.node.members := by
        simp [withStanding, Node.members, Standing.members]
      rw [Node.isForeign, hmembers]
      exact Bool.eq_false_iff.2 hforeign
    simp only
    generalize hu : t.withStanding (·.advanceTo term) = u at hadvance hforeign' ⊢
    have hur : u.node.role = .follower := hu ▸ hrole
    split
    next hgrant =>
      obtain ⟨hvote, hcurrent⟩ := hgrant
      simp only [Standing.canVoteFor, Bool.and_eq_true, beq_iff_eq, Bool.or_eq_true,
        Option.isNone_iff_eq_none] at hvote
      obtain ⟨hterm, hfree⟩ := hvote
      have hi' : i = .message sender (.requestVote u.node.term candidate lastTerm lastIndex) := by
        rw [hi, hterm]
        rfl
      refine (hadvance.arm_of_eq (congrArg Role.timer hur)).act
        (.grant hi' hur hforeign' hfree hcurrent) ?_ rfl ?_
      · exact ⟨rfl, rfl, Nat.le_refl _, fun h => ⟨h, rfl⟩⟩
      · simp [Effect.IsPlain]
    next => exact hadvance.send (.talk trivial) trivial

theorem attempt_onVoteRequest (t : Turn) (sender : PeerId) (term : Nat) (candidate : PeerId)
    (lastTerm lastIndex : Nat) :
    Attempt (.message sender (.requestVote term candidate lastTerm lastIndex)) t
      (t.onVoteRequest sender term candidate lastTerm lastIndex) := by
  rcases t.onVoteRequest_cases sender term candidate lastTerm lastIndex with
    ⟨heq, -⟩ | ⟨heq, hrole⟩ | ⟨heq, hinit, hrole, hlt⟩ | ⟨heq, -⟩ <;> rw [heq]
  · exact .refl
  · exact .calm (calm_answerVoteRequest rfl hrole)
  · exact .done (.again trivial hrole (Calm.refl.observe rfl hinit hlt) rfl)
  · exact .calm (Calm.refl.send (.talk trivial) trivial)

/-! ### Replies -/

theorem attempt_onReply {term : Nat} {act : Turn → Except Violation Turn}
    (hi : i.term? = some term) (hact : term = t.node.term → Attempt i t (act t)) :
    Attempt i t (t.onReply term act) := by
  rcases t.onReply_cases term act with ⟨heq, -⟩ | ⟨heq, hinit, hlt⟩ | ⟨heq, -, hterm⟩ <;> rw [heq]
  · exact .refl
  · exact .calm (Calm.refl.observe hi hinit hlt)
  · exact hact hterm

theorem attempt_onAccepted {sender : PeerId} {term last : Nat}
    (hi : i = .message sender (.appendAccepted term last) ∨
      i = .message sender (.snapshotAccepted term last)) :
    Attempt i t (t.onAccepted sender term last) := by
  refine attempt_onReply (by rcases hi with rfl | rfl <;> rfl) fun hterm => ?_
  split
  next hrole => exact .record (hterm ▸ hi) hrole
  next => exact .refl

theorem attempt_onRejected {sender : PeerId} {term : Nat}
    (hi : i = .message sender (.appendRejected term) ∨
      i = .message sender (.snapshotRejected term)) :
    Attempt i t (t.onRejected sender term) := by
  refine attempt_onReply (by rcases hi with rfl | rfl <;> rfl) fun hterm => ?_
  simp only
  split
  next hrole => exact .retry hrole (hterm ▸ hi)
  next => exact .refl

theorem attempt_onVoteGranted {sender : PeerId} {term : Nat}
    (hi : i = .message sender (.grantVote term)) : Attempt i t (t.onVoteGranted sender term) := by
  refine attempt_onReply (hi ▸ rfl) fun hterm => ?_
  split
  next hrole => exact (contends_countVote (hterm ▸ hi) hrole).attempt
  next => exact .refl

/-! ### Leaders -/

theorem attempt_onRival {sender leader : PeerId} {term : Nat} {m refusal : Message}
    (hterm : (Input.message sender m).term? = some term)
    (hm : (Input.message sender m).IsForFollower) (hrefusal : refusal.IsTalk t.node.id)
    (hplain : (Effect.send sender refusal).IsPlain) (hinit : t.node.role ≠ .init)
    (hrole : t.node.role ≠ .follower) :
    Attempt (.message sender m) t (t.onRival sender leader term m refusal) := by
  rcases t.onRival_cases sender leader term m refusal with
    ⟨heq, hgive⟩ | ⟨heq, hlead, -⟩ | ⟨heq, -⟩ <;> rw [heq]
  · refine .done (.again hm hrole ?_ rfl)
    rcases hgive with hlt | ⟨hsame, hcandidate⟩
    · exact Calm.refl.observe hterm hinit hlt
    · exact Calm.refl.yield (Nat.le_of_eq hsame) (.inl hcandidate)
  · exact .serve hlead
  · exact .calm (Calm.refl.send (.talk hrefusal) hplain)

theorem heard_acceptEntries (sender : PeerId) (prevTerm prev : Nat) (entries : List Entry)
    (commit : Nat) (hle : t.node.term ≤ term) :
    Heard (.message sender (.appendEntries leader term prevTerm prev entries commit))
      (t.heed leader term) (t.acceptEntries sender leader term prevTerm prev entries commit) := by
  have hterm := t.term_heed leader hle
  rcases t.acceptEntries_cases sender leader term prevTerm prev entries commit with
    ⟨hlt, -⟩ | ⟨-, ⟨hmatch, heq⟩ | ⟨-, heq⟩⟩
  · exact absurd hlt (Nat.not_lt.2 hle)
  · have hi : Input.message sender (.appendEntries leader term prevTerm prev entries commit) =
        .message sender (.appendEntries leader (t.heed leader term).node.term prevTerm prev entries
          commit) := by rw [hterm]
    exact .accept hi hmatch heq
  · exact .refuse (by rw [heq, hterm])

theorem heard_acceptSnapshot (sender : PeerId) (s : Snapshot) (hle : t.node.term ≤ term) :
    Heard (.message sender (.installSnapshot leader term s)) (t.heed leader term)
      (t.acceptSnapshot sender leader term s) := by
  have hterm := t.term_heed leader hle
  rcases t.acceptSnapshot_cases sender leader term s with ⟨hlt, -⟩ | ⟨-, heq⟩
  · exact absurd hlt (Nat.not_lt.2 hle)
  · have hi : Input.message sender (.installSnapshot leader term s) =
        .message sender (.installSnapshot leader (t.heed leader term).node.term s) := by rw [hterm]
    exact .install hi (by rw [heq, hterm])

theorem deed_acceptEntries (sender leader : PeerId) (term prevTerm prev : Nat)
    (entries : List Entry) (commit : Nat) (hrole : t.node.role = .follower) :
    Deed (.message sender (.appendEntries leader term prevTerm prev entries commit)) t
      (t.acceptEntries sender leader term prevTerm prev entries commit) := by
  rcases t.acceptEntries_cases sender leader term prevTerm prev entries commit with
    ⟨-, heq⟩ | ⟨hle, -⟩
  · rw [heq]
    exact .calm (Calm.refl.send (.talk trivial) trivial)
  · exact .heed hrole ⟨rfl, rfl⟩ hle (heard_acceptEntries _ _ _ _ _ hle)

theorem deed_acceptSnapshot (sender leader : PeerId) (term : Nat) (s : Snapshot)
    (hrole : t.node.role = .follower) :
    Deed (.message sender (.installSnapshot leader term s)) t
      (t.acceptSnapshot sender leader term s) := by
  rcases t.acceptSnapshot_cases sender leader term s with ⟨-, heq⟩ | ⟨hle, -⟩
  · rw [heq]
    exact .calm (Calm.refl.send (.talk trivial) trivial)
  · exact .heed hrole ⟨rfl, rfl⟩ hle (heard_acceptSnapshot _ _ hle)

theorem attempt_onAppendEntries (t : Turn) (sender leader : PeerId) (term prevTerm prev : Nat)
    (entries : List Entry) (commit : Nat) :
    Attempt (.message sender (.appendEntries leader term prevTerm prev entries commit)) t
      (t.onAppendEntries sender leader term prevTerm prev entries commit) := by
  unfold onAppendEntries
  split
  next hrole =>
    have hplain : ∀ e ∈ [Effect.send leader .requestConfiguration], e.IsPlain := by
      simp [Effect.IsPlain]
    refine .calm (Calm.refl.shift ?_ ⟨rfl, rfl, Nat.le_refl _, nofun⟩ rfl (.inr rfl) hplain)
    have ha : Act (.message sender (.appendEntries leader term prevTerm prev entries commit)) t.node
        [.send leader .requestConfiguration] []
        { t.node with role := .candidate, configAskedOf := some leader } := .await rfl hrole
    simpa [Node.inRole, hrole, send, emit] using ha
  next hrole => exact .done (deed_acceptEntries _ _ _ _ _ _ _ hrole)
  next hinit hrole => exact attempt_onRival rfl trivial trivial trivial hinit hrole

theorem attempt_onInstallSnapshot (t : Turn) (sender leader : PeerId) (term : Nat) (s : Snapshot) :
    Attempt (.message sender (.installSnapshot leader term s)) t
      (t.onInstallSnapshot sender leader term s) := by
  unfold onInstallSnapshot
  split
  next => exact .refl
  next hrole => exact .done (deed_acceptSnapshot _ _ _ _ hrole)
  next hinit hrole => exact attempt_onRival rfl trivial trivial trivial hinit hrole

/-! ### Clients -/

theorem attempt_onSubmit (t : Turn) (sender : PeerId) (r : Request) :
    Attempt (.message sender (.submit r)) t (t.onSubmit sender r) := by
  unfold onSubmit
  split
  next hrole => exact .append rfl hrole
  next hrole => exact .done (.speak (.redirect rfl hrole) (.hint fun h => absurd h hrole) rfl)

theorem deed_onWhoLeads (t : Turn) (sender : PeerId) :
    Deed (.message sender .whoLeads) t (t.onWhoLeads sender) := by
  have hanswer : Deed (.message sender .whoLeads) t
      (t.send sender (.leaderIs t.node.leaderHint none)) :=
    .speak (e := .send sender (.leaderIs t.node.leaderHint none)) (.talk trivial)
      (.hint fun _ => rfl) rfl
  unfold onWhoLeads
  split
  next leader hrole hleader =>
    split
    next => exact hanswer
    next =>
      refine .speak (e := .forward sender leader .whoLeads) (.talk trivial) (.pass ?_ ?_) rfl
      · simp [hrole]
      · simp [Node.leaderHint, hrole, hleader]
  next => exact hanswer

/-! ### Finding the cluster and its configuration -/

theorem calm_probe (peers : List PeerId) (hrole : t.node.role = .init) :
    Calm (.timeout .discovery) t (peers.foldl (fun t p => t.send p .discover) t) := by
  induction peers generalizing t with
  | nil => exact .refl
  | cons p rest ih =>
    exact (Calm.refl.send (.probe rfl hrole) trivial).trans (ih (t := t.send p .discover) hrole)

theorem deed_onDiscoveryTimeout (hrole : t.node.role = .init) :
    Deed (.timeout .discovery) t t.onDiscoveryTimeout := by
  have hprobe : ∀ (v : Turn) (peers : List PeerId), v.node = t.node →
      Calm (.timeout .discovery) v
        ((peers.foldl (fun t p => t.send p .discover) v).arm .discovery) := by
    intro v peers hv
    refine (calm_probe peers (hv ▸ hrole)).arm_of_eq ?_
    rw [node_probe, hv, hrole]
    rfl
  unfold onDiscoveryTimeout
  simp only
  split
  next => exact .meet hrole (.inl ⟨rfl, rfl⟩) (hprobe (t.enqueue _) _ rfl) (node_probe ..)
  next => exact .calm (hprobe t _ rfl)

theorem deed_onDiscovered (t : Turn) (sender member : PeerId) :
    Deed (.message sender (.discovered member)) t (t.onDiscovered member) := by
  unfold onDiscovered
  split
  next hrole => exact .meet hrole (.inr ⟨sender, rfl⟩) .refl rfl
  next => exact .calm .refl

theorem calm_addMember (t : Turn) (sender member : PeerId) (required : Nat) :
    Calm (.message sender (.memberAdded member required)) t (t.addMember member required) := by
  by_cases hrole : t.node.role = .init
  · have ha : Act (.message sender (.memberAdded member required)) t.node [] []
        (t.node.turn.addMember member required).node := .enroll rfl hrole
    unfold addMember at ha ⊢
    simp only [show t.node.turn.node = t.node from rfl, if_pos hrole] at ha ⊢
    split at ha
    next hsize =>
      rw [node_goto] at ha
      rw [if_pos hsize]
      exact Calm.refl.become ha ⟨rfl, rfl, Nat.le_refl _, nofun⟩ rfl (.inl rfl)
    next hsize =>
      rw [if_neg hsize]
      refine Calm.refl.change ha ⟨rfl, rfl, Nat.le_refl _, fun hlead => ?_⟩ rfl
      cases hrole.symm.trans hlead
  · unfold addMember
    rw [if_neg hrole]
    exact .refl

theorem deed_receiveConfiguration {sender : PeerId} {c : Configuration}
    (hi : i = .message sender (.changeConfiguration c))
    (hrole : t.node.role = .follower ∨ t.node.role = .candidate) :
    Deed i t (t.receiveConfiguration sender c) := by
  have hnot : t.node.role ≠ .leader := by rcases hrole with hrole | hrole <;> simp [hrole]
  unfold receiveConfiguration
  simp only
  split
  next hmine =>
    split
    next hnew =>
      refine .calm (Calm.refl.become (.adopt hi hrole ?_) ⟨rfl, rfl, Nat.le_refl _, nofun⟩ rfl
        (.inl rfl))
      rcases hnew with hempty | hnewer
      · exact .inl hempty
      · exact hmine.imp_right fun hasked => ⟨hasked, hnewer⟩
    next hold =>
      obtain ⟨hmembers, hc⟩ := not_or.1 hold
      refine .calm (Calm.refl.change (.dismiss hi hrole (Bool.eq_false_iff.2 hmembers) ?_
        (Bool.eq_false_iff.2 hc)) ⟨rfl, rfl, Nat.le_refl _, fun h => ⟨h, rfl⟩⟩ rfl)
      exact hmine.resolve_left hmembers
  next hother =>
    obtain ⟨hmembers, hasked⟩ := not_or.1 hother
    split
    next => exact .calm .refl
    next hc =>
      split
      next leader hhint =>
        -- only a follower knows of a leader other than itself
        have hfollower : t.node.role = .follower := hrole.resolve_right fun hcandidate => by
          simp [Node.leaderHint, hcandidate] at hhint
        have hleader : t.node.leader = some leader := by
          simpa [Node.leaderHint, hfollower] using hhint
        exact .speak (.passChange hi hfollower (Bool.eq_false_iff.2 hmembers) hasked hc hleader)
          (.pass hnot hhint) rfl
      next => exact .calm .refl

theorem deed_onChangeConfiguration (t : Turn) (sender : PeerId) (c : Configuration) :
    Deed (.message sender (.changeConfiguration c)) t (t.onChangeConfiguration sender c) := by
  unfold onChangeConfiguration
  cases hrole : t.node.role with
  | init =>
    refine .calm (Calm.refl.become ?_ ⟨rfl, rfl, Nat.le_refl _, nofun⟩ rfl (.inl rfl))
    have ha : Act (.message sender (.changeConfiguration c)) t.node [] []
        { t.node with role := .follower, standing := t.node.standing.reconfigure c } :=
      .enter rfl hrole
    simpa [Node.inRole, withStanding, hrole] using ha
  | leader =>
    simp only
    split
    next => exact .calm .refl
    next hstable => exact .propose rfl hrole (Bool.eq_false_iff.2 hstable) rfl
  | follower => exact deed_receiveConfiguration rfl (.inl hrole)
  | candidate => exact deed_receiveConfiguration rfl (.inr hrole)

theorem deed_onRequestConfiguration (t : Turn) (sender : PeerId) :
    Deed (.message sender .requestConfiguration) t (t.onRequestConfiguration sender) := by
  unfold onRequestConfiguration
  split
  next hrole => exact .calm (Calm.refl.send (.tell rfl hrole) trivial)
  next hrole =>
    split
    next leader hleader => exact .speak (.passRequest rfl hrole hleader) (.pass hrole hleader) rfl
    next => exact .calm .refl

/-! ### The whole input -/

theorem attempt_onMessage (t : Turn) (sender : PeerId) (m : Message) :
    Attempt (.message sender m) t (t.onMessage sender m) := by
  cases m with
  | requestVote => exact attempt_onVoteRequest ..
  | grantVote => exact attempt_onVoteGranted rfl
  | declineVote => exact attempt_onReply rfl fun _ => .refl
  | appendEntries => exact attempt_onAppendEntries ..
  | appendAccepted => exact attempt_onAccepted (.inl rfl)
  | appendRejected => exact attempt_onRejected (.inl rfl)
  | installSnapshot => exact attempt_onInstallSnapshot ..
  | snapshotAccepted => exact attempt_onAccepted (.inr rfl)
  | snapshotRejected => exact attempt_onRejected (.inr rfl)
  | changeConfiguration => exact .done (deed_onChangeConfiguration ..)
  | requestConfiguration => exact .done (deed_onRequestConfiguration ..)
  | discover =>
    have hanswer : Act (.message sender .discover) t.node
        [.send sender (.discovered t.node.id)] [] t.node := .talk rfl
    exact .calm (Calm.refl.send hanswer trivial)
  | discovered => exact .done (deed_onDiscovered ..)
  | memberAdded => exact .calm (calm_addMember ..)
  | submit => exact attempt_onSubmit ..
  | whoLeads => exact .done (deed_onWhoLeads ..)
  | askRole => exact .calm (Calm.refl.send (.talk trivial) trivial)
  | respond | leaderIs | roleIs => exact .refl

theorem attempt_onTimeout (t : Turn) (timer : Timer) :
    Attempt (.timeout timer) t (t.onTimeout timer) := by
  cases timer with
  | election => exact attempt_onElectionTimeout rfl
  | heartbeat =>
    simp only [onTimeout]
    split
    next hrole => exact .heartbeat hrole
    next => exact .refl
  | discovery =>
    simp only [onTimeout]
    split
    next hrole => exact .done (deed_onDiscoveryTimeout hrole)
    next => exact .refl

/-- What a node does on an input is calm, or one of the few other things. -/
theorem attempt_dispatch (t : Turn) (i : Input) : Attempt i t (t.dispatch i) := by
  cases i with
  | message => exact attempt_onMessage ..
  | timeout => exact attempt_onTimeout ..
  | compactLog => exact .capture rfl
  | snapshotPrepared => exact .done (.finish (.inl rfl) rfl)
  | snapshotFailed reason => exact .done (.finish (.inr ⟨rfl, reason, rfl⟩) rfl)

theorem deed_dispatch (h : t.dispatch i = .ok u) : Deed i t u := (attempt_dispatch t i).deed h

/-- A follower always heeds the leader of its own or a newer term. -/
theorem heard_dispatch (h : t.dispatch i = .ok u) (hrole : t.node.role = .follower)
    (hi : i.Brings leader term) (hle : t.node.term ≤ term) : Heard i (t.heed leader term) u := by
  rcases hi.cases with ⟨sender, prevTerm, prev, entries, commit, rfl⟩ | ⟨sender, s, rfl⟩
  · simp only [dispatch, onMessage, onAppendEntries, hrole] at h
    exact Except.ok.inj h ▸ heard_acceptEntries _ _ _ _ _ hle
  · simp only [dispatch, onMessage, onInstallSnapshot, hrole] at h
    exact Except.ok.inj h ▸ heard_acceptSnapshot _ _ hle

end Turn

end Raft
