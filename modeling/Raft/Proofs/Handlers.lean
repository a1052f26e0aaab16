import Raft.Proofs.Acts

/-!
# What the functions on turns come to

A handler is put together from a few functions on turns. Here is what each of these comes to, as an
equation wherever there is one, so that nothing later has to open it.

* `Turn.put`, another node and further effects, and `Turn.goto_eq`, a change of role is no more;
* `Turn.resume`, what comes before does not matter for committing and for what a follower takes;
* `Turn.Clean`, every assertion of the log has held and nothing was left for later;
* `Turn.Emits`, all effects that are asked for are of one kind;
* lemmas such as `Turn.onReply_cases`, `Turn.replicate_induction`, `Turn.beginElection_cases` and
  `Turn.settle_cases`, the branches of what goes on from there.
-/

namespace Raft

/-- A batch is a part of the log. -/
theorem Node.appendMessage_cases (n : Node) {peer : PeerId} {start : Nat} {message : Message}
    (h : n.appendMessage peer start = .ok message) :
    ∃ prevTerm prev, message = .appendEntries n.id n.term prevTerm prev
      (n.log.batchFrom start n.settings.batchSize) n.log.committed := by
  unfold appendMessage at h
  split at h
  next => cases h
  next =>
    simp only at h
    split at h
    next => cases h
    next => exact ⟨_, _, (Except.ok.inj h).symm⟩

/-- A leader sends to a peer a part of its log or its snapshot. -/
theorem Node.nextMessage_cases (n : Node) {peer : PeerId} {message : Message}
    (h : n.nextMessage peer = .ok message) :
    (∃ start prevTerm prev, message = .appendEntries n.id n.term prevTerm prev
      (n.log.batchFrom start n.settings.batchSize) n.log.committed) ∨
    ∃ s, n.log.snapshot = some s ∧ message = .installSnapshot n.id n.term s := by
  unfold nextMessage at h
  simp only at h
  split at h
  next => exact .inl ⟨_, n.appendMessage_cases h⟩
  next s hs =>
    split at h
    next => exact .inr ⟨s, hs, (Except.ok.inj h).symm⟩
    next => exact .inl ⟨_, n.appendMessage_cases h⟩

/-- Whether an effect is one on the application's state machine. -/
def Effect.isOnState : Effect → Bool
  | .apply .. => true
  | .restore _ => true
  | .prepareSnapshot _ => true
  | _ => false

theorem Effect.isOnState_of_applied? {e : Entry} {respond : Bool} {f : Effect}
    (h : e.applied? respond = some f) : f.isOnState = true := by
  unfold Entry.applied? at h
  split at h <;> cases h
  rfl

/-- Whether an effect sends nothing. -/
def Effect.IsSilent : Effect → Prop
  | .send .. => False
  | .forward .. => False
  | _ => True

theorem Effect.isSilent_of_isOnState {e : Effect} (h : e.isOnState) : e.IsSilent := by
  cases e with
  | send | forward => cases h
  | _ => trivial

theorem Effect.not_isTimer_of_isOnState {e : Effect} (h : e.isOnState) : ¬ e.IsTimer := by
  cases e with
  | arm | cancel => cases h
  | _ => exact id

/-- The position of the last entry of a batch that follows position `prev`. -/
def lastOf (batch : List Entry) (prev : Nat) : Nat :=
  match batch.getLast? with
  | some e => e.index
  | none => prev

theorem Log.commit_zero (log : Log) : log.commit 0 = log := by
  unfold Log.commit
  rw [Nat.zero_min, Nat.max_eq_left (Nat.zero_le _)]

/-- A leader's node that has taken note of a log that reaches up to `last`. -/
def Node.noting (n : Node) (peer : PeerId) (last : Nat) : Node :=
  { n with
    nextIndex := n.nextIndex.raise peer (last + 1)
    matchIndex := n.matchIndex.raise peer last }

namespace Turn

variable {i : Input} {t u v : Turn}

/-! ### Turns that go on -/

/-- The turn with another node and with further effects. -/
def put (t : Turn) (n : Node) (es : List Effect) : Turn :=
  { t with node := n, effects := t.effects ++ es }

@[simp] theorem node_put (t : Turn) (n : Node) (es : List Effect) : (t.put n es).node = n := rfl

@[simp] theorem put_put (t : Turn) (n m : Node) (es fs : List Effect) :
    (t.put n es).put m fs = t.put m (es ++ fs) := by simp [put]

/-- A change of the node alone. -/
theorem put_nil (t : Turn) (n : Node) : t.put n [] = { t with node := n } := by simp [put]

/-- The turn `u` with the effects of `t` before it. -/
def resume (t u : Turn) : Turn :=
  { node := u.node
    effects := t.effects ++ u.effects
    pending := t.pending
    lapses := t.lapses ++ u.lapses }

theorem resume_turn (t : Turn) : t.resume t.node.turn = t := by
  simp [resume, Node.turn]

theorem resume_emit (t u : Turn) (e : Effect) : (t.resume u).emit e = t.resume (u.emit e) := by
  simp [resume, emit]

/-- Between two turns every assertion of the log held, and nothing was left for later. -/
structure Clean (t u : Turn) : Prop where
  lapses : u.lapses = t.lapses
  pending : u.pending = t.pending

theorem Clean.refl (t : Turn) : t.Clean t := ⟨rfl, rfl⟩

theorem Clean.trans (h : t.Clean u) (h' : u.Clean v) : t.Clean v :=
  ⟨h'.lapses.trans h.lapses, h'.pending.trans h.pending⟩

/-- From `t` to `u` nothing but effects of the kind `P` is asked for. -/
def Emits (P : Effect → Prop) (t u : Turn) : Prop :=
  ∃ es, u.effects = t.effects ++ es ∧ ∀ e ∈ es, P e

namespace Emits

variable {P Q : Effect → Prop} {es : List Effect}

theorem of_eq (h : u.effects = t.effects) : t.Emits P u :=
  ⟨[], by rw [h, List.append_nil], nofun⟩

theorem put (t : Turn) (n : Node) (hes : ∀ e ∈ es, P e) : t.Emits P (t.put n es) := ⟨es, rfl, hes⟩

theorem emit (t : Turn) {e : Effect} (he : P e) : t.Emits P (t.emit e) :=
  ⟨[e], rfl, by simpa using he⟩

theorem mono (h : t.Emits P u) (hPQ : ∀ {e}, P e → Q e) : t.Emits Q u := by
  obtain ⟨es, heffects, hes⟩ := h
  exact ⟨es, heffects, fun e he => hPQ (hes e he)⟩

theorem trans (h : t.Emits P v) (h' : v.Emits P u) : t.Emits P u := by
  obtain ⟨es, heffects, hes⟩ := h
  obtain ⟨fs, heffects', hfs⟩ := h'
  refine ⟨es ++ fs, by rw [heffects', heffects, List.append_assoc], fun e he => ?_⟩
  exact (List.mem_append.1 he).elim (hes e) (hfs e)

end Emits

/-! ### Roles -/

/-- A change of role only sets timers. -/
theorem goto_eq (t : Turn) (role : Role) :
    ∃ es, t.goto role = t.put (t.node.inRole role) es ∧ ∀ e ∈ es, e.IsTimer := by
  unfold goto
  split
  next h => exact ⟨[], by rw [Node.inRole_eq_self h, put_nil], nofun⟩
  next h =>
    have hleave : ∃ es, t.leaveRole = t.put { t.node with
        granted := if t.node.role = .candidate then .empty else t.node.granted } es ∧
        ∀ e ∈ es, e.IsTimer := by
      unfold leaveRole
      cases hrole : t.node.role with
      | init => exact ⟨[.cancel .discovery], by simp [cancel, emit, put], by simp [Effect.IsTimer]⟩
      | follower => exact ⟨[], by simp [put], nofun⟩
      | candidate => exact ⟨[], by simp [put], nofun⟩
      | leader =>
        exact ⟨[.cancel .heartbeat], by simp [cancel, emit, put], by simp [Effect.IsTimer]⟩
    have henter : ∀ u : Turn, ∃ es, u.enterRole role = u.put { u.node with role := role } es ∧
        ∀ e ∈ es, e.IsTimer := by
      intro u
      cases role with
      | init => exact ⟨[], (u.put_nil _).symm, nofun⟩
      | follower => exact ⟨[.arm .election], rfl, by simp [Effect.IsTimer]⟩
      | candidate => exact ⟨[.arm .election], rfl, by simp [Effect.IsTimer]⟩
      | leader => exact ⟨[.cancel .election], rfl, by simp [Effect.IsTimer]⟩
    obtain ⟨es, hes, htimers⟩ := hleave
    obtain ⟨fs, hfs, htimers'⟩ := henter t.leaveRole
    refine ⟨es ++ fs, ?_, fun e he => (List.mem_append.1 he).elim (htimers e) (htimers' e)⟩
    rw [hfs, hes, put_put, Node.inRole]
    by_cases hrole : t.node.role = .candidate
    · have hne : role ≠ .candidate := fun heq => h (hrole.trans heq.symm)
      simp [hrole, hne]
    · simp [hrole]

@[simp] theorem node_goto (t : Turn) (role : Role) :
    (t.goto role).node = t.node.inRole role := by
  obtain ⟨es, heq, -⟩ := t.goto_eq role
  rw [heq, node_put]

theorem emits_goto (t : Turn) (role : Role) : t.Emits Effect.IsTimer (t.goto role) := by
  obtain ⟨es, heq, htimers⟩ := t.goto_eq role
  exact heq ▸ .put t _ htimers

theorem clean_goto (t : Turn) (role : Role) : t.Clean (t.goto role) := by
  obtain ⟨es, heq, -⟩ := t.goto_eq role
  rw [heq]
  exact ⟨rfl, rfl⟩

theorem clean_stepDown (t : Turn) (term : Nat) : t.Clean (t.stepDown term) := by
  refine .trans ?_ (clean_goto _ .follower)
  exact ⟨rfl, rfl⟩

theorem node_stepDown (t : Turn) (term : Nat) : (t.stepDown term).node =
    ({ t.node with standing := (t.node.standing.advanceTo term).resign } : Node).inRole .follower :=
  node_goto ..

theorem role_stepDown (t : Turn) (term : Nat) : (t.stepDown term).node.role = .follower := by
  rw [node_stepDown]
  rfl

/-- Stepping down succeeds in a term that is not lower. -/
theorem stepDownTo_eq_of_le {term : Nat} (h : t.node.term ≤ term) :
    t.stepDownTo term = .ok (t.stepDown term) := by
  have hnot : ¬ term < t.node.standing.term := Nat.not_lt.2 h
  unfold stepDownTo Standing.adopt
  rw [if_neg hnot]
  rfl

/-! ### Replies, requests and rivals

What becomes of a message at a node that may not be a follower. -/

/-- Only a reply of the node's own term is acted on. -/
theorem onReply_cases (t : Turn) (term : Nat) (act : Turn → Except Violation Turn) :
    (t.onReply term act = .ok t ∧ (t.node.role = .init ∨ term < t.node.term)) ∨
    (t.onReply term act = .ok (t.stepDown term) ∧ t.node.role ≠ .init ∧ t.node.term < term) ∨
    (t.onReply term act = act t ∧ t.node.role ≠ .init ∧ term = t.node.term) := by
  unfold onReply
  split
  next hinit => exact .inl ⟨rfl, .inl hinit⟩
  next hinit =>
    split
    next hnewer =>
      exact .inr (.inl ⟨stepDownTo_eq_of_le (Nat.le_of_lt hnewer), hinit, hnewer⟩)
    next hle =>
      split
      next hold => exact .inl ⟨rfl, .inr hold⟩
      next hge => exact .inr (.inr ⟨rfl, hinit, by omega⟩)

/-- A follower decides on a vote. Any other node does so once it has stepped down for a candidate of
a newer term. -/
theorem onVoteRequest_cases (t : Turn) (sender : PeerId) (term : Nat) (candidate : PeerId)
    (lastTerm lastIndex : Nat) :
    (t.onVoteRequest sender term candidate lastTerm lastIndex = .ok t ∧ t.node.role = .init) ∨
    (t.onVoteRequest sender term candidate lastTerm lastIndex =
        .ok (t.answerVoteRequest sender term candidate lastTerm lastIndex) ∧
      t.node.role = .follower) ∨
    (t.onVoteRequest sender term candidate lastTerm lastIndex =
        .ok ((t.stepDown term).redeliver sender
          (.requestVote term candidate lastTerm lastIndex)) ∧
      t.node.role ≠ .init ∧ t.node.role ≠ .follower ∧ t.node.term < term) ∨
    (t.onVoteRequest sender term candidate lastTerm lastIndex =
        .ok (t.send sender (.declineVote t.node.term)) ∧
      (t.node.isForeign candidate = false → term ≤ t.node.term)) := by
  unfold onVoteRequest
  split
  next hinit => exact .inl ⟨rfl, hinit⟩
  next hfollower => exact .inr (.inl ⟨rfl, hfollower⟩)
  next hinit hfollower =>
    split
    next hnewer =>
      rw [stepDownTo_eq_of_le (Nat.le_of_lt hnewer.1)]
      exact .inr (.inr (.inl ⟨rfl, hinit, hfollower, hnewer.1⟩))
    next hold =>
      refine .inr (.inr (.inr ⟨rfl, fun hforeign => ?_⟩))
      exact Nat.le_of_not_lt fun hlt => hold ⟨hlt, Bool.eq_false_iff.1 hforeign⟩

/-- Two nodes that do not follow each other: one of them gives way, or this one answers. -/
theorem onRival_cases (t : Turn) (sender leader : PeerId) (term : Nat) (m refusal : Message) :
    (t.onRival sender leader term m refusal = .ok ((t.stepDown term).redeliver sender m) ∧
      (t.node.term < term ∨ (term = t.node.term ∧ t.node.role = .candidate))) ∨
    (t.onRival sender leader term m refusal = t.sendEntries leader ∧ t.node.role = .leader ∧
      term ≤ t.node.term) ∨
    (t.onRival sender leader term m refusal = .ok (t.send sender refusal) ∧
      term ≤ t.node.term) := by
  unfold onRival
  split
  next hgive =>
    rw [stepDownTo_eq_of_le (by omega)]
    exact .inl ⟨rfl, hgive⟩
  next hkeep =>
    have hle : term ≤ t.node.term := by omega
    split
    next hlead => exact .inr (.inl ⟨rfl, hlead, hle⟩)
    next => exact .inr (.inr ⟨rfl, hle⟩)

/-! ### Committing and compacting -/

theorem clean_of_capture (h : t.capture = .ok u) : t.Clean u := by
  rcases capture_cases h with ⟨-, rfl⟩ | ⟨about, -, rfl⟩
  · exact .refl u
  · exact ⟨rfl, rfl⟩

theorem clean_considerCompaction (t : Turn) : t.Clean t.considerCompaction := by
  unfold considerCompaction
  split
  next =>
    split
    next u hu => exact clean_of_capture hu
    next => exact .refl t
  next => exact .refl t

theorem clean_commitUntil (t : Turn) (j : Nat) (respond : Bool) :
    t.Clean (t.commitUntil j respond) := by
  unfold commitUntil
  simp only
  split
  next => exact .refl t
  next =>
    refine .trans ?_ (clean_considerCompaction _)
    exact ⟨rfl, rfl⟩

theorem emits_capture (h : t.capture = .ok u) : t.Emits (·.isOnState) u := by
  rcases capture_cases h with ⟨-, rfl⟩ | ⟨about, -, rfl⟩
  · exact .of_eq rfl
  · exact ⟨[.prepareSnapshot about], rfl, by simp [Effect.isOnState]⟩

/-- Nothing is sent for what is committed, and no timer is set. -/
theorem emits_commitUntil (t : Turn) (j : Nat) (respond : Bool) :
    t.Emits (·.isOnState) (t.commitUntil j respond) := by
  obtain ⟨-, captures, -, heffects, hcaptures⟩ := t.commitUntil_cases j respond
  refine ⟨_, heffects, fun e he => ?_⟩
  rcases List.mem_append.1 he with he | he
  · obtain ⟨entry, -, happlied⟩ := List.mem_filterMap.1 he
    exact Effect.isOnState_of_applied? happlied
  · rcases hcaptures with rfl | ⟨about, rfl, -⟩
    · cases he
    · obtain rfl := List.mem_singleton.1 he
      rfl

theorem resume_capture (t u : Turn) : (t.resume u).capture = u.capture.map t.resume := by
  unfold capture
  simp only [resume]
  split
  next => rfl
  next => rfl
  next => simp [Except.map, resume, emit]

theorem resume_considerCompaction (t u : Turn) :
    (t.resume u).considerCompaction = t.resume u.considerCompaction := by
  unfold considerCompaction
  rw [resume_capture]
  simp only [show (t.resume u).node = u.node from rfl]
  split
  · cases u.capture <;> rfl
  · rfl

theorem resume_commitUntil (t u : Turn) (j : Nat) (respond : Bool) :
    (t.resume u).commitUntil j respond = t.resume (u.commitUntil j respond) := by
  unfold commitUntil
  simp only [show (t.resume u).node = u.node from rfl]
  split
  · rfl
  · rw [← resume_considerCompaction]
    simp [resume]

/-- Committing is the same in the middle of a turn. -/
theorem commitUntil_eq_resume (t : Turn) (j : Nat) (respond : Bool) :
    t.commitUntil j respond = t.resume (t.node.turn.commitUntil j respond) := by
  rw [← resume_commitUntil, resume_turn]

/-! ### Following -/

/-- Putting the configuration of the log in force changes nothing but the node. -/
theorem syncConfig_eq (t : Turn) :
    t.syncConfig = { t with node := t.node.turn.syncConfig.node } := by
  unfold syncConfig
  simp only [show t.node.turn.node = t.node from rfl]
  cases t.node.log.latestConfiguration? with
  | some c =>
    simp only
    split <;> rfl
  | none =>
    cases t.node.initialConfig with
    | some c =>
      simp only
      split <;> rfl
    | none => rfl

theorem clean_syncConfig (t : Turn) : t.Clean t.syncConfig := by
  rw [syncConfig_eq]
  exact ⟨rfl, rfl⟩

/-- What is in a batch is taken over first. Then what the leader has committed of it is committed,
and it is acknowledged. -/
theorem takeEntries_cases (t : Turn) (sender : PeerId) (prev : Nat) (entries : List Entry)
    (commit : Nat) : ∃ u : Turn,
      ((entries = [] ∧ u = t) ∨ u = (t.mergeEntries entries prev).syncConfig) ∧
      u.effects = t.effects ∧
      t.takeEntries sender prev entries commit =
        (u.commitUntil (min commit (lastOf entries prev)) false).send sender
          (.appendAccepted u.node.term (lastOf entries prev)) := by
  refine ⟨if entries.isEmpty then t else (t.mergeEntries entries prev).syncConfig, ?_, ?_, rfl⟩
  · split
    next hempty => exact .inl ⟨List.isEmpty_iff.1 hempty, rfl⟩
    next => exact .inr rfl
  · split
    next => rfl
    next =>
      rw [syncConfig_eq]
      rfl

/-- A batch that is taken over is acknowledged. -/
theorem effects_takeEntries (t : Turn) (sender : PeerId) (prev : Nat) (entries : List Entry)
    (commit : Nat) : ∃ es, (∀ e ∈ es, e.isOnState) ∧
      (t.takeEntries sender prev entries commit).effects =
        t.effects ++ es ++ [.send sender (.appendAccepted t.node.term (lastOf entries prev))] := by
  obtain ⟨u, hu, heffects, htake⟩ := t.takeEntries_cases sender prev entries commit
  obtain ⟨es, hes, honState⟩ := u.emits_commitUntil (min commit (lastOf entries prev)) false
  have hterm : u.node.term = t.node.term := by
    rcases hu with ⟨-, rfl⟩ | rfl
    · rfl
    · exact (same_syncConfig (t.mergeEntries entries prev)).term
  refine ⟨es, honState, ?_⟩
  rw [htake, ← hterm, ← heffects, ← hes]
  rfl

theorem takeEntries_eq_resume (t : Turn) (sender : PeerId) (prev : Nat) (entries : List Entry)
    (commit : Nat) : t.takeEntries sender prev entries commit =
      t.resume (t.node.turn.takeEntries sender prev entries commit) := by
  have hmerged : t.mergeEntries entries prev =
      t.resume (t.node.turn.mergeEntries entries prev) := by
    simp [resume, mergeEntries, withLog, Node.turn]
  have hsynced : (if entries.isEmpty then t else (t.mergeEntries entries prev).syncConfig) =
      t.resume (if entries.isEmpty then t.node.turn
        else (t.node.turn.mergeEntries entries prev).syncConfig) := by
    split
    · exact (resume_turn t).symm
    · rw [hmerged, syncConfig_eq (t.resume _), syncConfig_eq (t.node.turn.mergeEntries _ _)]
      rfl
  unfold takeEntries
  simp only [hsynced, resume_commitUntil]
  exact resume_emit ..

theorem takeSnapshot_eq_resume (t : Turn) (s : Snapshot) :
    t.takeSnapshot s = t.resume (t.node.turn.takeSnapshot s) := by
  unfold takeSnapshot
  simp only [show t.node.turn.node = t.node from rfl]
  split
  · rw [syncConfig_eq, syncConfig_eq ((t.node.turn.emit _).withLog _)]
    simp [resume, withLog, emit, Node.turn]
  · exact (resume_turn t).symm

theorem effects_takeSnapshot {s : Snapshot} (h : t.node.log.committed < s.about.index) :
    (t.takeSnapshot s).effects = t.effects ++ [.restore s] := by
  unfold takeSnapshot
  rw [if_pos h, syncConfig_eq]
  rfl

theorem emits_takeSnapshot (t : Turn) (s : Snapshot) :
    t.Emits (· = .restore s) (t.takeSnapshot s) := by
  by_cases hs : t.node.log.committed < s.about.index
  · exact ⟨[.restore s], effects_takeSnapshot hs, by simp⟩
  · have hcovered : t.takeSnapshot s = t := if_neg hs
    exact .of_eq (by rw [hcovered])

theorem clean_takeSnapshot (t : Turn) (s : Snapshot) : t.Clean (t.takeSnapshot s) := by
  unfold takeSnapshot
  split
  next =>
    refine .trans ?_ (clean_syncConfig _)
    exact ⟨rfl, rfl⟩
  next => exact .refl t

/-- A follower takes up the term of a leader, and follows it. -/
def heed (t : Turn) (leader : PeerId) (term : Nat) : Turn :=
  (t.withStanding (·.advanceTo term)).follow leader

theorem term_heed (t : Turn) (leader : PeerId) {term : Nat} (h : t.node.term ≤ term) :
    (t.heed leader term).node.term = term := Standing.term_advanceTo h

/-- A follower refuses entries of an older term. If their term is not older it heeds the leader that
has sent them, and then looks whether they fit. -/
theorem acceptEntries_cases (t : Turn) (sender leader : PeerId) (term prevTerm prev : Nat)
    (entries : List Entry) (commit : Nat) :
    (term < t.node.term ∧ t.acceptEntries sender leader term prevTerm prev entries commit =
      t.send sender (.appendRejected t.node.term)) ∨
    (t.node.term ≤ term ∧
      (((t.heed leader term).node.log.matchesAt prevTerm prev = true ∧
        t.acceptEntries sender leader term prevTerm prev entries commit =
          (t.heed leader term).takeEntries sender prev entries commit) ∨
      ((t.heed leader term).node.log.matchesAt prevTerm prev = false ∧
        t.acceptEntries sender leader term prevTerm prev entries commit =
          (t.heed leader term).send sender (.appendRejected term)))) := by
  rcases Nat.lt_or_ge term t.node.term with hlt | hle
  · refine .inl ⟨hlt, ?_⟩
    have hstays : t.withStanding (·.advanceTo term) = t := by
      simp only [withStanding, Standing.advanceTo_of_le (Nat.le_of_lt hlt)]
    unfold acceptEntries
    simp only [hstays]
    exact if_pos hlt
  · have hterm : (t.withStanding (·.advanceTo term)).node.term = term := Standing.term_advanceTo hle
    refine .inr ⟨hle, ?_⟩
    unfold acceptEntries
    simp only
    rw [hterm, if_neg (Nat.lt_irrefl term)]
    split
    next hmatch => exact .inl ⟨hmatch, rfl⟩
    next hmatch =>
      exact .inr ⟨Bool.eq_false_iff.2 hmatch,
        congrArg (send _ sender <| .appendRejected ·) (t.term_heed leader hle)⟩

theorem acceptSnapshot_cases (t : Turn) (sender leader : PeerId) (term : Nat) (s : Snapshot) :
    (term < t.node.term ∧ t.acceptSnapshot sender leader term s =
      t.send sender (.snapshotRejected t.node.term)) ∨
    (t.node.term ≤ term ∧ t.acceptSnapshot sender leader term s =
      ((t.heed leader term).takeSnapshot s).send sender
        (.snapshotAccepted term s.about.index)) := by
  rcases Nat.lt_or_ge term t.node.term with hlt | hle
  · refine .inl ⟨hlt, ?_⟩
    have hstays : t.withStanding (·.advanceTo term) = t := by
      simp only [withStanding, Standing.advanceTo_of_le (Nat.le_of_lt hlt)]
    unfold acceptSnapshot
    simp only [hstays]
    exact if_pos hlt
  · have hterm : (t.withStanding (·.advanceTo term)).node.term = term := Standing.term_advanceTo hle
    have htaken : ((t.heed leader term).takeSnapshot s).node.term = term :=
      (same_takeSnapshot ..).term.trans (t.term_heed leader hle)
    refine .inr ⟨hle, ?_⟩
    unfold acceptSnapshot
    simp only
    rw [hterm, if_neg (Nat.lt_irrefl term)]
    exact congrArg (send _ sender <| .snapshotAccepted · s.about.index) htaken

theorem pending_acceptEntries (t : Turn) (sender leader : PeerId) (term prevTerm prev : Nat)
    (entries : List Entry) (commit : Nat) :
    (t.acceptEntries sender leader term prevTerm prev entries commit).pending = t.pending := by
  rcases t.acceptEntries_cases sender leader term prevTerm prev entries commit with
    ⟨-, heq⟩ | ⟨-, ⟨-, heq⟩ | ⟨-, heq⟩⟩
  · exact heq ▸ rfl
  · rw [heq, takeEntries_eq_resume]
    rfl
  · exact heq ▸ rfl

theorem clean_acceptSnapshot (t : Turn) (sender leader : PeerId) (term : Nat) (s : Snapshot) :
    t.Clean (t.acceptSnapshot sender leader term s) := by
  rcases t.acceptSnapshot_cases sender leader term s with ⟨-, heq⟩ | ⟨-, heq⟩
  · rw [heq]
    exact ⟨rfl, rfl⟩
  · have htaken := clean_takeSnapshot (t.heed leader term) s
    rw [heq]
    exact ⟨htaken.lapses, htaken.pending⟩

/-! ### Leading -/

/-- What is done with the result of a handler needs that there is one. -/
theorem exists_of_map {x : Except Violation Turn} {f : Turn → Turn} (h : x.map f = .ok u) :
    ∃ v, x = .ok v ∧ f v = u := by
  cases x with
  | error v => cases h
  | ok u => exact ⟨u, rfl, Except.ok.inj h⟩

theorem sendEntries_eq {peer : PeerId} (h : t.sendEntries peer = .ok u) :
    ∃ m, t.node.nextMessage peer = .ok m ∧ u = t.send peer m := by
  unfold sendEntries at h
  cases hm : t.node.nextMessage peer with
  | error v =>
    rw [hm] at h
    cases h
  | ok m =>
    rw [hm] at h
    exact ⟨m, rfl, (Except.ok.inj h).symm⟩

/-- A leader serves one peer after the other, and meanwhile it stays as it is. -/
theorem replicate_induction {P : Turn → Prop} (h : t.replicate = .ok u) (ht : P t)
    (hsend : ∀ u p m, u.node = t.node → t.node.nextMessage p = .ok m → P u → P (u.send p m)) :
    P u ∧ u.node = t.node := by
  unfold replicate at h
  generalize (t.node.standing.membersWithout t.node.id).toList = peers at h
  induction peers generalizing t with
  | nil => exact Except.ok.inj h ▸ ⟨ht, rfl⟩
  | cons p rest ih =>
    rw [List.foldlM_cons] at h
    cases hp : t.sendEntries p with
    | error v =>
      rw [hp] at h
      cases h
    | ok u =>
      rw [hp] at h
      obtain ⟨m, hm, rfl⟩ := sendEntries_eq hp
      exact ih (t := t.send p m) (hsend t p m rfl hm ht) hsend h

theorem node_replicate (h : t.replicate = .ok u) : u.node = t.node :=
  (replicate_induction (P := fun _ => True) h trivial fun _ _ _ _ _ _ => trivial).2

theorem clean_replicate (h : t.replicate = .ok u) : t.Clean u :=
  (replicate_induction h (.refl t) fun _ _ _ _ _ hv => ⟨hv.lapses, hv.pending⟩).1

theorem recordProgress_eq {peer : PeerId} {last : Nat} (h : t.recordProgress peer last = .ok u) :
    last ≤ t.node.log.lastIndex ∧ u = { t with node := t.node.noting peer last } := by
  unfold recordProgress at h
  split at h
  next => cases h
  next hlast => exact ⟨Nat.le_of_not_lt hlast, (Except.ok.inj h).symm⟩

theorem node_finishChange (t : Turn) : t.finishChange.node = t.node := by
  unfold finishChange
  simp only
  split <;> rfl

theorem emits_advanceCommit (t : Turn) : t.Emits (·.isOnState) t.advanceCommit := by
  have hfinish : ∀ v : Turn, v.Emits (·.isOnState) v.finishChange := fun v => by
    unfold finishChange
    simp only
    split <;> exact .of_eq rfl
  unfold advanceCommit
  simp only
  split
  next => exact (t.emits_commitUntil _ true).trans (hfinish _)
  next => exact hfinish t

/-- A leader that goes by the acknowledgements commits up to some position, or nothing. -/
theorem node_advanceCommit (t : Turn) : ∃ k capturing, t.advanceCommit.node =
    { t.node with log := t.node.log.commit k, capturing := capturing } := by
  unfold advanceCommit
  simp only
  split
  next =>
    obtain ⟨capturing, -, hnode, -⟩ :=
      t.commitUntil_cases (t.node.matchIndex.quorumIndex t.node.config) true
    rw [node_finishChange]
    exact ⟨_, capturing, hnode⟩
  next =>
    rw [node_finishChange]
    exact ⟨0, t.node.capturing, by rw [Log.commit_zero]⟩

theorem same_advanceCommit (t : Turn) : t.node.Same t.advanceCommit.node := by
  obtain ⟨k, capturing, hnode⟩ := t.node_advanceCommit
  rw [hnode]
  exact ⟨rfl, rfl, rfl, rfl, rfl, rfl, rfl⟩

theorem role_advanceCommit (t : Turn) : t.advanceCommit.node.role = t.node.role :=
  t.same_advanceCommit.role

/-- An entry enters the log, and a configuration in it is in force at once. -/
theorem append_eq (t : Turn) (command : Command) (client : Option PeerId) :
    (t.appendOwn command client).adoptNewer command =
      { t.appendOwn command client with
        node := ((t.node.turn.appendOwn command client).adoptNewer command).node } := by
  unfold adoptNewer
  simp only [show (t.node.turn.appendOwn command client).node =
    (t.appendOwn command client).node from rfl]
  cases command.configuration? with
  | some c =>
    simp only
    split <;> rfl
  | none => rfl

theorem effects_append (t : Turn) (command : Command) (client : Option PeerId) :
    ((t.appendOwn command client).adoptNewer command).effects = t.effects := by
  rw [append_eq]
  rfl

theorem pending_append (t : Turn) (command : Command) (client : Option PeerId) :
    ((t.appendOwn command client).adoptNewer command).pending = t.pending := by
  rw [append_eq]
  rfl

theorem clean_leaveIfRemoved (t : Turn) : t.Clean t.leaveIfRemoved := by
  unfold leaveIfRemoved
  split
  next => exact .refl t
  next => exact clean_stepDown t _

theorem appendRequest_eq (t : Turn) (r : Request) :
    t.appendRequest r =
      ((t.appendOwn r.command (some r.client)).adoptNewer r.command).replicate.map
        fun t => t.advanceCommit.leaveIfRemoved := by
  unfold appendRequest
  generalize Turn.replicate _ = u
  cases u <;> rfl

/-- A candidate that has won, before anything enters its log. -/
def elected (t : Turn) : Turn :=
  let t := (t.withStanding Standing.resign).goto .leader
  { t with
    node := { t.node with
      leader := some t.node.id
      nextIndex := .uniform t.node.log.lastIndex
      matchIndex := .uniform 0 } }

theorem lead_eq (t : Turn) :
    t.lead = (t.elected.appendOwn .noop none).replicate.map fun t =>
      (t.arm .heartbeat).advanceCommit := by
  unfold lead elected
  simp only
  generalize Turn.replicate _ = u
  cases u <;> rfl

theorem node_elected (t : Turn) : t.elected.node = { (t.node.inRole .leader) with
    standing := t.node.standing.resign
    leader := some t.node.id
    nextIndex := .uniform t.node.log.lastIndex
    matchIndex := .uniform 0 } := by
  unfold elected
  simp only [node_goto]
  rfl

theorem role_elected (t : Turn) : t.elected.node.role = .leader := by
  rw [node_elected]
  rfl

theorem emits_elected (t : Turn) : t.Emits Effect.IsTimer t.elected :=
  emits_goto (t.withStanding Standing.resign) .leader

theorem clean_elected (t : Turn) : t.Clean t.elected := by
  have hgoto := clean_goto (t.withStanding Standing.resign) .leader
  exact ⟨hgoto.lapses, hgoto.pending⟩

theorem role_lead (h : t.lead = .ok u) : u.node.role = .leader := by
  rw [lead_eq] at h
  obtain ⟨w, hw, rfl⟩ := exists_of_map h
  rw [role_advanceCommit]
  show w.node.role = _
  rw [node_replicate hw]
  exact t.role_elected

/-! ### Elections -/

/-- Sending leaves the node alone, so every peer gets the same request. -/
theorem foldl_voteRequest (t : Turn) (peers : List PeerId) :
    peers.foldl (fun t p => t.send p (voteRequest t.node)) t =
      { t with effects := t.effects ++ peers.map (.send · (voteRequest t.node)) } := by
  induction peers generalizing t with
  | nil => simp
  | cons p rest ih =>
    rw [List.foldl_cons, ih]
    simp [send, emit]

/-- A candidate that has asked every other member for its vote and has voted for itself. -/
def nominated (t : Turn) : Turn :=
  { t with
    node := { t.node with
      standing := t.node.standing.voteForSelf t.node.id
      granted := .singleton t.node.id }
    effects := t.effects ++ (t.node.standing.membersWithout t.node.id).toList.map
      (.send · (voteRequest t.node)) }

theorem campaign_eq (t : Turn) : t.campaign = t.nominated.leadIfElected := by
  unfold campaign nominated
  simp only [foldl_voteRequest]

/-- A follower whose election timer has run out asks for the configuration again, or stands for
election, or only sets the timer. -/
theorem beginElection_cases (t : Turn) :
    (∃ p, t.node.configAskedOf = some p ∧
      t.beginElection = .ok ((t.arm .election).send p .requestConfiguration)) ∨
    (t.node.configAskedOf = none ∧ t.node.id ∈ t.node.members ∧ t.beginElection =
      (((t.arm .election).withStanding Standing.startElection).goto .candidate).campaign) ∨
    t.beginElection = .ok (t.arm .election) := by
  have hnode : (t.arm .election).node = t.node := rfl
  unfold beginElection askAgain?
  simp only [hnode]
  cases hasked : t.node.configAskedOf with
  | some p => exact .inl ⟨p, rfl, rfl⟩
  | none =>
    simp only [Option.map_none]
    split
    next hmem => exact .inr (.inl ⟨trivial, PeerSet.contains_iff.1 hmem, rfl⟩)
    next => exact .inr (.inr rfl)

/-- A candidate whose election timer has run out asks for the configuration again, or stands once
more, or gives up if there is nobody else. -/
theorem retryElection_cases (t : Turn) :
    (∃ p, t.node.configAskedOf = some p ∧
      t.retryElection = .ok ((t.send p .requestConfiguration).arm .election)) ∨
    (t.node.configAskedOf = none ∧ 1 < t.node.members.size ∧ t.retryElection =
      ((t.withStanding Standing.startElection).arm .election).campaign) ∨
    t.retryElection = .ok (t.stepDown t.node.term) := by
  unfold retryElection askAgain?
  cases hasked : t.node.configAskedOf with
  | some p => exact .inl ⟨p, rfl, rfl⟩
  | none =>
    simp only [Option.map_none]
    split
    next hsize => exact .inr (.inl ⟨trivial, hsize, rfl⟩)
    next => exact .inr (.inr rfl)

/-! ### Finding the cluster -/

theorem node_probe (t : Turn) (seeds : List PeerId) :
    (seeds.foldl (fun t p => t.send p .discover) t).node = t.node := by
  induction seeds generalizing t with
  | nil => rfl
  | cons p rest ih => exact ih (t.send p .discover)

/-- A node that has found another one either goes on looking or becomes a follower. -/
theorem addMember_cases {n : Node} (hrole : n.role = .init) (member : PeerId) (required : Nat) :
    ∃ role, (n.turn.addMember member required).node =
        { n with
          role := role
          standing := n.standing.reconfigure
            (.stable 0 ((n.members.insert n.id).insert member)) } ∧
      ((role = .init ∧ ¬ required ≤ ((n.members.insert n.id).insert member).size) ∨
        (role = .follower ∧ required ≤ ((n.members.insert n.id).insert member).size)) := by
  unfold addMember
  simp only [show n.turn.node = n from rfl, if_pos hrole]
  split
  next hsize =>
    rw [node_goto]
    refine ⟨.follower, ?_, .inr ⟨rfl, hsize⟩⟩
    simp [Node.inRole, withStanding, Node.turn, hrole]
  next hsize => exact ⟨.init, by rw [← hrole]; rfl, .inl ⟨rfl, hsize⟩⟩

/-! ### The whole transition -/

theorem settle_of_nil (h : t.pending = []) (budget : Nat) : t.settle budget = .ok t := by
  cases budget <;> simp [settle, h]

/-- A turn settles at once if nothing is pending, and otherwise an input is processed and the rest
settles with what is left of the budget. -/
theorem settle_cases {budget : Nat} (h : t.settle budget = .ok v) :
    (t.pending = [] ∧ t = v) ∨ ∃ j rest b u, t.pending = j :: rest ∧ budget = b + 1 ∧
      ({ t with pending := rest } : Turn).dispatch j = .ok u ∧ u.settle b = .ok v := by
  unfold settle at h
  split at h
  next hp => exact .inl ⟨hp, Except.ok.inj h⟩
  next j rest hp =>
    cases budget with
    | zero => cases h
    | succ b =>
      cases hu : ({ t with pending := rest } : Turn).dispatch j with
      | error v =>
        rw [hu] at h
        cases h
      | ok u =>
        rw [hu] at h
        exact .inr ⟨j, rest, b, u, hp, rfl, hu, h⟩

end Turn

/-- The input itself comes first, and then what it raises. -/
theorem Node.process_eq {n : Node} {i : Input} {u : Turn} (h : n.turn.dispatch i = .ok u) :
    n.process i = u.settle (followUpLimit - 1) := by
  show (n.turn.dispatch i).bind _ = _
  rw [h]
  rfl

theorem Node.exists_dispatch {n : Node} {i : Input} {t : Turn} (h : n.process i = .ok t) :
    ∃ u, n.turn.dispatch i = .ok u ∧ u.settle (followUpLimit - 1) = .ok t := by
  cases hu : n.turn.dispatch i with
  | error v =>
    have herror : n.process i = .error v := by
      show (n.turn.dispatch i).bind _ = _
      rw [hu]
      rfl
    cases h.symm.trans herror
  | ok u => exact ⟨u, rfl, (Node.process_eq hu).symm.trans h⟩

/-- Nothing is left for later. -/
theorem Node.process_of_done {n : Node} {i : Input} {u : Turn} (h : n.turn.dispatch i = .ok u)
    (hdone : u.pending = []) : n.process i = .ok u :=
  (Node.process_eq h).trans (Turn.settle_of_nil hdone _)

/-- One more input is left to be processed, the same one or another, and nothing after that. -/
theorem Node.process_of_next {n : Node} {i j : Input} {u v : Turn}
    (h : n.turn.dispatch i = .ok { u with pending := [j] })
    (hnext : ({ u with pending := [] } : Turn).dispatch j = .ok v) (hdone : v.pending = []) :
    n.process i = .ok v := by
  rw [Node.process_eq h]
  show (({ u with pending := [] } : Turn).dispatch j).bind _ = _
  rw [hnext]
  exact Turn.settle_of_nil hdone _

theorem step_of_process {n : Node} {i : Input} {t : Turn} (h : n.process i = .ok t) :
    step n i = .ok (t.node, t.effects) := by rw [step, h]; rfl

theorem exists_process_of_step {n m : Node} {i : Input} {es : List Effect}
    (h : step n i = .ok (m, es)) : ∃ t, n.process i = .ok t ∧ t.node = m ∧ t.effects = es := by
  unfold step at h
  cases ht : n.process i with
  | error v =>
    rw [ht] at h
    cases h
  | ok t =>
    rw [ht] at h
    obtain ⟨rfl, rfl⟩ := Prod.mk.inj (Except.ok.inj h)
    exact ⟨t, rfl, rfl, rfl⟩

end Raft
