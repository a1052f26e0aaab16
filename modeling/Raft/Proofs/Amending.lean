import Raft.Proofs.Deeds
import Raft.Proofs.InForce

/-!
# What one input does to the log

The log and the state machine change together. `Turn.Amends` says what the processing of one input
can do to either: the log is extended, or merged with a batch, and then committed up to some
position, with all that is newly committed applied in order (`Turn.Serves`); or it is replaced by a
snapshot that is installed; or it is compacted with a snapshot of the node's own. That there is
nothing else, `Turn.amends_dispatch`, is read off the deeds of a node (`Turn.deed_dispatch`).
-/

namespace Raft

theorem Effect.IsRoutine.not_isOnState {e : Effect} (h : e.IsRoutine) : ¬ e.isOnState := by
  cases e with
  | apply | restore | prepareSnapshot => exact h.elim
  | _ => nofun

theorem Effect.Tells.not_isOnState {n : Node} {e : Effect} (h : e.Tells n) : ¬ e.isOnState := by
  cases h <;> nofun

namespace Turn

variable {i : Input} {t u v w : Turn}

/-- The effects on the state machine that have been asked for so far. -/
def asked (t : Turn) : List Effect := t.effects.filter Effect.isOnState

/-- What is asked to be captured, if anything, is the state at the commit index. -/
def CapturesAt (log : Log) (captures : List Effect) : Prop :=
  captures = [] ∨ ∃ about, captures = [.prepareSnapshot about] ∧
    about.index = log.committed ∧ log.prevIndex < log.committed ∧
    log.termAt? log.committed = some about.term

/-- From `t` to `u` the log is committed up to some position. What is newly committed is applied,
and after that a capture may be asked for. -/
def Serves (t u : Turn) : Prop :=
  ∃ j respond captures, u.node.log = t.node.log.commit j ∧ CapturesAt u.node.log captures ∧
    u.asked = t.asked ++
      ((t.node.log.slice t.node.log.committed u.node.log.committed).filterMap (·.applied? respond)
        ++ captures)

theorem asked_of_effects {es : List Effect} (h : u.effects = t.effects ++ es) :
    u.asked = t.asked ++ es.filter Effect.isOnState := by
  rw [asked, h, List.filter_append]
  rfl

/-- The effects on the state machine in a part of a turn. -/
theorem filter_of_asked {es fs : List Effect} (h : u.effects = t.effects ++ es)
    (hasked : u.asked = t.asked ++ fs) : es.filter Effect.isOnState = fs :=
  List.append_cancel_left ((asked_of_effects h).symm.trans hasked)

theorem prepares_of_asked {es fs : List Effect} {about : SnapshotMeta}
    (h : u.effects = t.effects ++ es) (hasked : u.asked = t.asked ++ fs)
    (habout : .prepareSnapshot about ∈ es) : .prepareSnapshot about ∈ fs := by
  rw [← filter_of_asked h hasked]
  exact List.mem_filter.2 ⟨habout, rfl⟩

theorem asked_emit (t : Turn) {e : Effect} (he : e.isOnState = true) :
    (t.emit e).asked = t.asked ++ [e] := by
  rw [asked_of_effects (u := t.emit e) rfl, List.filter_cons_of_pos he, List.filter_nil]

theorem asked_eq_of_emits (h : t.Emits (fun e => ¬ e.isOnState) u) : u.asked = t.asked := by
  obtain ⟨es, heffects, hes⟩ := h
  rw [asked_of_effects heffects, List.filter_eq_nil_iff.2 hes, List.append_nil]

theorem asked_send (t : Turn) (p : PeerId) (m : Message) : (t.send p m).asked = t.asked :=
  asked_eq_of_emits (.emit t nofun)

theorem asked_arm (t : Turn) (timer : Timer) : (t.arm timer).asked = t.asked :=
  asked_eq_of_emits (.emit t nofun)

theorem Calm.asked_eq (h : Calm i t u) : u.asked = t.asked :=
  asked_eq_of_emits (h.emits.mono Effect.IsRoutine.not_isOnState)

theorem capturesAt_of_snapshotDue? {n : Node} {about : SnapshotMeta}
    (h : n.snapshotDue? = .ok (some about)) : CapturesAt n.log [.prepareSnapshot about] := by
  obtain ⟨-, -, hlive, term, hterm, rfl⟩ := Node.eq_of_snapshotDue? h
  exact .inr ⟨_, rfl, rfl, hlive, hterm⟩

/-- Nothing is found between a position and itself. -/
theorem slice_self (log : Log) (k : Nat) : log.slice k k = [] := by
  unfold Log.slice
  rw [List.filter_eq_nil_iff]
  intro e _
  simp only [decide_eq_true_eq]
  omega

/-! ### Committing -/

namespace Serves

theorem of_captures {captures : List Effect} (hlog : u.node.log = t.node.log)
    (hcaptures : CapturesAt u.node.log captures) (hasked : u.asked = t.asked ++ captures) :
    t.Serves u := by
  refine ⟨0, false, captures, by rw [hlog, Log.commit_zero], hcaptures, ?_⟩
  rw [hlog, slice_self]
  exact hasked

theorem refl (t : Turn) : t.Serves t := .of_captures rfl (.inl rfl) (List.append_nil _).symm

/-- What comes before and after does not matter if it leaves the log and the state machine alone. -/
theorem congr (h : v.Serves w) (hlog : v.node.log = t.node.log) (hasked : v.asked = t.asked)
    (hlog' : u.node.log = w.node.log) (hasked' : u.asked = w.asked) : t.Serves u := by
  obtain ⟨j, respond, captures, hcommit, hcaptures, heffects⟩ := h
  refine ⟨j, respond, captures, by rw [hlog', hcommit, hlog], ?_, ?_⟩
  · rw [hlog']
    exact hcaptures
  · rw [hasked', heffects, hasked, hlog', hlog]

end Serves

theorem serves_commitUntil (t : Turn) (j : Nat) (respond : Bool) :
    t.Serves (t.commitUntil j respond) := by
  obtain ⟨capturing, captures, hnode, heffects, hcaptures⟩ := t.commitUntil_cases j respond
  have hlog : (t.commitUntil j respond).node.log = t.node.log.commit j := by rw [hnode]
  refine ⟨j, respond, captures, hlog, ?_, ?_⟩
  · rcases hcaptures with rfl | ⟨about, rfl, hdue⟩
    · exact .inl rfl
    · rw [hlog]
      exact capturesAt_of_snapshotDue? hdue
  · obtain ⟨es, hes, honState⟩ := t.emits_commitUntil j respond
    obtain rfl := List.append_cancel_left (hes.symm.trans heffects)
    rw [asked_of_effects heffects, hlog, List.filter_eq_self.2 honState]

/-- A turn that goes on with the log, the term and the effects of another one. -/
structure Keeps (t u : Turn) : Prop where
  log : u.node.log = t.node.log
  term : u.node.term = t.node.term
  asked : u.asked = t.asked

theorem keeps_finishChange (t : Turn) : t.Keeps t.finishChange := by
  unfold finishChange
  simp only
  split <;> exact ⟨rfl, rfl, rfl⟩

theorem serves_advanceCommit (t : Turn) : t.Serves t.advanceCommit := by
  unfold advanceCommit
  simp only
  split
  next =>
    have hfinish := keeps_finishChange
      (t.commitUntil (t.node.matchIndex.quorumIndex t.node.config) true)
    exact (serves_commitUntil t _ true).congr rfl rfl hfinish.log hfinish.asked
  next =>
    have hfinish := keeps_finishChange t
    exact (Serves.refl t).congr rfl rfl hfinish.log hfinish.asked

theorem term_leaveIfRemoved (t : Turn) : t.leaveIfRemoved.node.term = t.node.term := by
  unfold leaveIfRemoved
  split
  next => rfl
  next =>
    rw [node_stepDown]
    exact Standing.term_advanceTo (Nat.le_refl _)

/-! ### What a leader appends -/

/-- From `t` to `u` a leader adds an entry of its term at the end of its log, and commits what it
can. -/
def Extends (t u : Turn) : Prop :=
  u.node.term = t.node.term ∧
    ∃ (e : Entry) (v : Turn), e.index = t.node.log.nextIndex ∧ e.term = t.node.term ∧
      v.node.log = t.node.log.append e ∧ v.asked = t.asked ∧ v.Serves u

theorem extends_appendRequest {r : Request} (hrole : t.node.role = .leader)
    (h : t.appendRequest r = .ok u) : t.Extends u := by
  have hlog := t.log_append r.command (some r.client)
  have hterm := (t.same_append r.command (some r.client)).term
  have hasked : ((t.appendOwn r.command (some r.client)).adoptNewer r.command).asked =
      t.asked := by rw [asked, effects_append, ← asked]
  obtain ⟨v, hsent, hnode, -, hleave, hu⟩ := exists_of_appendRequest (i := .compactLog) hrole h
  refine ⟨?_, _, v, rfl, rfl, by rw [hnode, hlog], hsent.asked_eq.trans hasked,
    (serves_advanceCommit v).congr rfl rfl hleave.retains.log hleave.asked_eq⟩
  rw [hu, term_leaveIfRemoved, (same_advanceCommit v).term, hnode, hterm]

theorem keeps_elected (t : Turn) : t.Keeps t.elected where
  log := by rw [node_elected]; rfl
  term := by rw [node_elected]; rfl
  asked := asked_eq_of_emits (t.emits_elected.mono fun he => he.isRoutine.not_isOnState)

theorem extends_lead (h : t.lead = .ok u) : t.Extends u := by
  have helected := keeps_elected t
  obtain ⟨v, hsent, hnode, rfl⟩ := exists_of_lead (i := .compactLog) h
  refine ⟨?_, { term := t.node.term, index := t.node.log.nextIndex, command := .noop }, v, rfl,
    rfl, ?_, hsent.asked_eq.trans helected.asked, serves_advanceCommit v⟩
  · rw [(same_advanceCommit v).term, hnode]
    exact helected.term
  · rw [hnode]
    show t.elected.node.log.append { term := t.elected.node.term, index := _, .. } = _
    rw [helected.log, helected.term]

/-! ### What a follower takes -/

theorem keeps_syncConfig (t : Turn) : t.Keeps t.syncConfig := by
  refine ⟨t.synced_syncConfig.1, t.same_syncConfig.term, ?_⟩
  rw [syncConfig_eq]
  rfl

/-- A batch is merged unless it is empty, and what the leader has committed of it is committed. -/
theorem serves_takeEntries (t : Turn) (sender : PeerId) (prev : Nat) (entries : List Entry)
    (commit : Nat) : ∃ v : Turn, v.node.log = t.node.log.merge entries prev ∧
      v.asked = t.asked ∧ v.Serves (t.takeEntries sender prev entries commit) := by
  obtain ⟨v, hv, heffects, htake⟩ := t.takeEntries_cases sender prev entries commit
  refine ⟨v, ?_, ?_, ?_⟩
  · rcases hv with ⟨rfl, rfl⟩ | rfl
    · exact (Log.merge_nil ..).symm
    · exact (t.mergeEntries entries prev).synced_syncConfig.1
  · rw [asked, heffects, ← asked]
  · rw [htake]
    refine (serves_commitUntil v (min commit (lastOf entries prev)) false).congr rfl rfl ?_ ?_
    · rfl
    · exact asked_send ..

/-- A snapshot that is ahead is restored, and the log compacted with it. -/
theorem install_takeSnapshot {s : Snapshot} (hs : t.node.log.committed < s.about.index) :
    (t.takeSnapshot s).node.log = t.node.log.compact s ∧
      (t.takeSnapshot s).node.term = t.node.term ∧
      (t.takeSnapshot s).asked = t.asked ++ [.restore s] := by
  have htake : t.takeSnapshot s = ((t.emit (.restore s)).withLog (·.compact s)).syncConfig :=
    if_pos hs
  refine ⟨?_, (t.same_takeSnapshot s).term, asked_of_effects (effects_takeSnapshot hs)⟩
  rw [htake]
  exact (keeps_syncConfig _).log

/-! ### The whole input -/

/-- The log before it is committed: what the node had, or that with an entry that it has added as a
leader, or with a batch. -/
inductive Basis (i : Input) (n m : Node) : Log → Prop
  | same : Basis i n m n.log
  | append {e : Entry} (hindex : e.index = n.log.nextIndex) (hterm : e.term = m.term)
    (hlead : n.role = .leader ∨ m.role = .leader) : Basis i n m (n.log.append e)
  | merge {sender leader : PeerId} {term prevTerm prev commit : Nat} {entries : List Entry}
    (hi : i = .message sender (.appendEntries leader term prevTerm prev entries commit))
    (hterm : m.term = term) (hprev : n.log.matchesAt prevTerm prev = true) :
    Basis i n m (n.log.merge entries prev)

/-- What the processing of the input `i` does to the log and asks of the state machine. -/
inductive Amends (i : Input) (t u : Turn) : Prop
  | serve {v : Turn} (hbasis : Basis i t.node u.node v.node.log) (hasked : v.asked = t.asked)
    (hserves : v.Serves u)
  | install {sender leader : PeerId} {term : Nat} {s : Snapshot}
    (hi : i = .message sender (.installSnapshot leader term s)) (hterm : u.node.term = term)
    (hs : t.node.log.committed < s.about.index) (hlog : u.node.log = t.node.log.compact s)
    (hasked : u.asked = t.asked ++ [.restore s])
  | compact {s : Snapshot} (hi : i = .snapshotPrepared (some s))
    (hlog : u.node.log = t.node.log.compact s) (hasked : u.asked = t.asked)

theorem Keeps.amends (h : t.Keeps u) : Amends i t u ∧ t.node.term ≤ u.node.term :=
  ⟨.serve .same rfl ((Serves.refl t).congr rfl rfl h.log h.asked), Nat.le_of_eq h.term.symm⟩

/-- A follower that heeds a leader takes its batch or its snapshot, or refuses. -/
theorem Heard.amends {leader : PeerId} {term : Nat} (h : Heard i (t.heed leader term) u)
    (hle : t.node.term ≤ term) : Amends i t u ∧ t.node.term ≤ u.node.term := by
  have hterm := t.term_heed leader hle
  have hasked : (t.heed leader term).asked = t.asked := asked_arm _ .election
  cases h with
  | @accept sender leader' prevTerm prev commit entries hi hprev hu =>
    subst hu
    obtain ⟨w, hlog, hmerged, hserves⟩ :=
      (t.heed leader term).serves_takeEntries sender prev entries commit
    have hsame := ((t.heed leader term).same_takeEntries sender prev entries commit).term
    refine ⟨.serve (v := w) ?_ (hmerged.trans hasked) hserves, ?_⟩
    · rw [hlog]
      exact .merge hi hsame hprev
    · rw [hsame, hterm]
      exact hle
  | @refuse sender hu =>
    subst hu
    have hsent : ((t.heed leader term).send sender
        (.appendRejected (t.heed leader term).node.term)).asked = t.asked :=
      (asked_send ..).trans hasked
    exact ⟨.serve .same rfl ((Serves.refl t).congr rfl rfl rfl hsent), hterm.symm ▸ hle⟩
  | @install sender leader' s hi hu =>
    subst hu
    refine ⟨?_, ?_⟩
    · by_cases hs : t.node.log.committed < s.about.index
      · obtain ⟨hlog, hsame, hrestored⟩ := install_takeSnapshot (t := t.heed leader term) hs
        refine .install hi hsame hs hlog ?_
        rw [asked_send, hrestored, hasked]
      · have hcovered : (t.heed leader term).takeSnapshot s = t.heed leader term := if_neg hs
        rw [hcovered]
        refine .serve .same rfl ((Serves.refl t).congr rfl rfl rfl ?_)
        exact (asked_send ..).trans hasked
    · show t.node.term ≤ ((t.heed leader term).takeSnapshot s).node.term
      rw [(same_takeSnapshot ..).term, hterm]
      exact hle

theorem Deed.amends (h : Deed i t u) : Amends i t u ∧ t.node.term ≤ u.node.term := by
  have hcalm : ∀ {v : Turn}, Calm i t v → u.node = v.node → u.asked = v.asked →
      Amends i t u ∧ t.node.term ≤ u.node.term := by
    intro v hv hnode hasked
    refine ⟨.serve .same rfl ((Serves.refl t).congr rfl rfl ?_ (hasked.trans hv.asked_eq)), ?_⟩
    · rw [hnode, hv.retains.log]
    · rw [hnode]
      exact hv.retains.term
  cases h with
  | calm h => exact hcalm h rfl rfl
  | again _ _ h hu => exact hcalm h (hu ▸ rfl) (hu ▸ rfl)
  | meet _ _ h hnode => exact Keeps.amends ⟨by rw [hnode], by rw [hnode], h.asked_eq⟩
  | propose _ _ _ hu => exact hu ▸ Keeps.amends ⟨rfl, rfl, rfl⟩
  | @speak e _ he hu =>
    subst hu
    exact Keeps.amends ⟨rfl, rfl, asked_eq_of_emits (.emit t he.not_isOnState)⟩
  | @lead v h _ _ _ _ hu =>
    obtain ⟨hterm, e, w, hindex, heterm, hlog, hasked, hserves⟩ := extends_lead hu
    refine ⟨.serve (v := w) ?_ (hasked.trans h.asked_eq) hserves, hterm ▸ h.retains.term⟩
    rw [hlog, h.retains.log]
    exact .append (by rw [hindex, h.retains.log]) (by rw [heterm, hterm]) (.inr (role_lead hu))
  | append _ hrole hu =>
    obtain ⟨hterm, e, w, hindex, heterm, hlog, hasked, hserves⟩ :=
      extends_appendRequest hrole hu
    refine ⟨.serve (v := w) ?_ hasked hserves, Nat.le_of_eq hterm.symm⟩
    rw [hlog]
    exact .append hindex (by rw [heterm, hterm]) (.inl hrole)
  | @record peer last _ _ _ hu =>
    subst hu
    have hsame := same_advanceCommit { t with node := t.node.noting peer last }
    exact ⟨.serve .same rfl (serves_advanceCommit { t with node := t.node.noting peer last }),
      Nat.le_of_eq hsame.term.symm⟩
  | heed _ _ hle h => exact h.amends hle
  | capture _ hu =>
    rcases capture_cases hu with ⟨-, rfl⟩ | ⟨about, hdue, rfl⟩
    · exact ⟨.serve .same rfl (.refl _), Nat.le_refl _⟩
    · have hcaptures := capturesAt_of_snapshotDue? hdue
      refine ⟨.serve (v := t) .same rfl (.of_captures rfl hcaptures ?_), Nat.le_refl _⟩
      exact asked_emit _ rfl
  | @finish s hi hu =>
    subst hu
    refine ⟨?_, Nat.le_refl _⟩
    cases s with
    | none => exact .serve .same rfl (.refl t)
    | some s =>
      rcases hi with hi | ⟨hs, -⟩
      · exact .compact hi rfl rfl
      · cases hs

/-- Nothing else happens to the log or to the state machine when an input is processed, and the term
does not go back. -/
theorem amends_dispatch (h : t.dispatch i = .ok u) :
    Amends i t u ∧ t.node.term ≤ u.node.term := (deed_dispatch h).amends

/-- An input that the node has raised itself can extend the log and commit, but neither cut off
entries nor take over a snapshot. -/
theorem Amends.serves_of_isOwn (h : Amends i t u) (hi : i.IsOwn) :
    ∃ v : Turn, (v.node.log = t.node.log ∨
      ∃ e : Entry, e.index = t.node.log.nextIndex ∧ v.node.log = t.node.log.append e) ∧
      v.asked = t.asked ∧ v.Serves u := by
  cases h with
  | @serve v hbasis hasked hserves =>
    refine ⟨v, ?_, hasked, hserves⟩
    generalize v.node.log = log at hbasis
    cases hbasis with
    | same => exact .inl rfl
    | append hindex => exact .inr ⟨_, hindex, rfl⟩
    | merge hi' => exact (hi' ▸ hi).elim
  | install hi' => exact (hi' ▸ hi).elim
  | compact hi' => exact (hi' ▸ hi).elim

end Turn

end Raft
