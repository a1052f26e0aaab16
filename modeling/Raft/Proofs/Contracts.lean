import Raft.Proofs.Reckoning
import Raft.Proofs.Safety
import Raft.Proofs.Sending

/-!
# No transition is given up

`Turn.Succeeds x t`: what began at the turn `t` has the result `x`, every assertion of the log held,
and nothing more is pending. There is one lemma for each thing that can fail
(`Turn.Attempt.exists_ok` puts them together) or that asserts something (`Turn.Deed.proceeds`).
They rest on four facts:

* a leader always has something to send to a peer (`Tidy.exists_nextMessage`), because
  the next entry of a peer never lies beyond the end of the log (`Node.InReach`);
* a peer acknowledges only what is on the leader's log, since a ledger has all of it;
* a batch never disagrees with what is committed (`Log.spliceLapses_eq_nil`,
  `Cluster.Sound.mergeLapses_eq_nil`);
* a follow-up is processed by a follower, which raises no other one (`Turn.exists_process`).

`Run.process_succeeds`: while the members stay the same, every member processes every input.
-/

namespace Raft

/-! ### Assertions of the log -/

namespace Log

/-- A batch cuts off nothing committed if the committed entries have the terms of the batch. -/
theorem spliceLapses_eq_nil {prev after committed : Nat} {live batch : List Entry}
    (h : ∀ e ∈ batch, prev < e.index → e.index ≤ committed →
      ∃ old, live[e.index - prev - 1]? = some old ∧ old.term = e.term) :
    spliceLapses prev after committed live batch = [] := by
  induction batch generalizing live with
  | nil => rw [spliceLapses]
  | cons e rest ih =>
    have hrest := fun f hf => h f (List.mem_cons_of_mem e hf)
    rcases lands prev after live e with hpass | ⟨j, hindex, hafter, hj, hterm⟩ | ⟨hindex, hafter⟩
    · rw [spliceLapses_passed hpass]
      exact ih hrest
    · have hcut : committed < e.index := by
        by_contra hle
        obtain ⟨old, hold, heq⟩ := h e (List.mem_cons_self ..) (by omega) (by omega)
        rw [show e.index - prev - 1 = j by omega] at hold
        exact hterm old hold heq
      refine (spliceLapses_placed hindex hafter hj hterm).2 ⟨fun _ => hcut, ?_⟩
      refine ih fun f hf hprev hle => ?_
      obtain ⟨x, hx, hxt⟩ := hrest f hf hprev hle
      refine ⟨x, ?_, hxt⟩
      rw [List.getElem?_append_left (by rw [List.length_take]; omega),
        List.getElem?_take_of_lt (by omega), hx]
    · exact spliceLapses_missed hindex hafter

@[simp] theorem appendLapses_nextIndex (log : Log) {e : Entry} (h : e.index = log.nextIndex) :
    log.appendLapses e = [] := if_pos h

/-- Merging cuts off nothing committed if the committed entries and the batch are on one list. -/
theorem Abridges.mergeLapses_eq_nil {log : Log} {l m w : List Entry} {after : Nat}
    (h : log.Abridges l) (hw : Numbered w) (hl : l.take log.committed <+: w) (hm : m <+: w) :
    log.mergeLapses (m.drop after) after = [] := by
  unfold mergeLapses
  split
  next =>
    refine spliceLapses_eq_nil fun e he hprev hle => ?_
    obtain ⟨k, hk⟩ := List.mem_iff_getElem?.1 he
    rw [List.getElem?_drop] at hk
    have hindex := hw.of_isPrefix hm _ e hk
    have hcommitted := h.committed_le
    have hwe : w[after + k]? = some e := by
      obtain ⟨r, rfl⟩ := hm
      rw [List.getElem?_append_left (List.getElem?_eq_some_iff.1 hk).1, hk]
    have hwl := List.prefix_iff_getElem?.1 hl (after + k) (by rw [List.length_take]; omega)
    rw [hwe, List.getElem_take] at hwl
    refine ⟨e, ?_, rfl⟩
    rw [h.live, List.getElem?_drop,
      show log.prevIndex + (e.index - log.prevIndex - 1) = after + k by omega, hwl,
      List.getElem?_eq_getElem]
  next => rfl

end Log

/-! ### What a leader sends -/

theorem Log.Abridges.contiguous {log : Log} {l : List Entry} (h : log.Abridges l) :
    log.Contiguous := by
  intro k e he
  rw [h.live, List.getElem?_drop] at he
  have hindex := h.numbered _ e he
  omega

namespace Node

/-- The next entry that a leader sends to a peer does not lie beyond the end of its log. -/
def InReach (n : Node) : Prop :=
  n.role = .leader → ∀ p, n.nextIndex.get p ≤ n.log.lastIndex + 1

variable {n : Node}

theorem inReach_of_candidate (h : n.role = .candidate) : n.InReach :=
  fun hlead => nomatch h.symm.trans hlead

/-- What the handlers of a member rest on while the members stay the same. -/
structure Tidy (n : Node) : Prop where
  abridges : ∃ l, n.log.Abridges l
  inReach : n.InReach
  isJoint : n.config.isJoint = false

theorem Tidy.exists_nextMessage (h : n.Tidy) (hrole : n.role = .leader) (peer : PeerId) :
    ∃ m, n.nextMessage peer = .ok m := by
  obtain ⟨l, hl⟩ := h.abridges
  exact Node.exists_nextMessage hl.contiguous (h.inReach hrole peer)

/-- Leading or not, a node knows the term that a snapshot of its own ends with. -/
theorem Tidy.exists_snapshotDue (h : n.Tidy) : ∃ about?, n.snapshotDue? = .ok about? := by
  obtain ⟨l, hl⟩ := h.abridges
  obtain ⟨t, ht⟩ := exists_termIn? hl.committed_le
  rw [← hl.termAt?_eq_of_le hl.prevIndex_le] at ht
  unfold snapshotDue?
  simp only
  split
  next => exact ⟨none, rfl⟩
  next =>
    rw [ht]
    exact ⟨_, rfl⟩

/-- A node that does not lead may do with its log what it likes. -/
theorem Tidy.stepDown (h : n.Tidy) (t : Nat) :
    (({ n with standing := (n.standing.advanceTo t).resign } : Node).inRole .follower).Tidy where
  abridges := h.abridges
  inReach := nofun
  isJoint := by
    have : (({ n with standing := (n.standing.advanceTo t).resign } : Node).inRole
      .follower).config = n.config := Standing.config_advanceTo ..
    rw [this]
    exact h.isJoint

/-- A new leader assumes that every peer is at the end of the log, and adds its own entry. -/
theorem InReach.append (h : n.InReach) (command : Command) (client : Option PeerId) :
    (n.turn.appendOwn command client).node.InReach := by
  intro hrole p
  have hlast : (n.turn.appendOwn command client).node.log.lastIndex = n.log.nextIndex :=
    Log.lastIndex_append ..
  rw [hlast]
  exact Nat.le_succ_of_le (h hrole p)

theorem InReach.backOff (h : n.InReach) (peer : PeerId) :
    ({ n with nextIndex := n.nextIndex.backOff peer } : Node).InReach := by
  intro hrole p
  have hp := h hrole p
  show (n.nextIndex.set peer (max (n.nextIndex.get peer - 1) 1)).get p ≤ _
  have hpeer := h hrole peer
  rw [Progress.get_set]
  show _ ≤ n.log.lastIndex + 1
  split <;> omega

end Node

/-! ### Inputs -/

/-- What an input to a member has to be like: it leaves the members alone, acknowledges nothing
that a leader does not have, and brings no batch that disagrees with what is committed. -/
structure Input.Fits (i : Input) (n : Node) : Prop where
  quiet : i.IsQuiet
  acked : n.role = .leader → ∀ sender last, i = .message sender (.appendAccepted n.term last) ∨
    i = .message sender (.snapshotAccepted n.term last) → last ≤ n.log.lastIndex
  merge : ∀ {sender leader term prevTerm prev entries commit},
    i = .message sender (.appendEntries leader term prevTerm prev entries commit) →
    n.term ≤ term → n.log.mergeLapses entries prev = []

theorem Input.Fits.stepDown {i : Input} {n : Node} (h : i.Fits n) (t : Nat) :
    i.Fits (({ n with standing := (n.standing.advanceTo t).resign } : Node).inRole .follower) where
  quiet := h.quiet
  acked := nofun
  merge hi hterm := h.merge hi (Nat.le_trans (Standing.term_le_advanceTo n.standing t) hterm)

/-! ### What asserts something or can fail -/

namespace Turn

/-- What began at `t` has a result, every assertion held, and nothing was left for later. -/
def Succeeds (x : Except Violation Turn) (t : Turn) : Prop := ∃ u, x = .ok u ∧ t.Clean u

variable {i : Input} {t u v : Turn} {x : Except Violation Turn}

theorem Clean.succeeds (h : t.Clean u) : Succeeds (.ok u) t := ⟨u, rfl, h⟩

theorem Succeeds.of_clean (h : t.Clean u) (hx : Succeeds x u) : Succeeds x t := by
  obtain ⟨v, hv, hclean⟩ := hx
  exact ⟨v, hv, h.trans hclean⟩

theorem succeeds_capture (h : t.node.Tidy) : Succeeds t.capture t := by
  obtain ⟨about, habout⟩ := h.exists_snapshotDue
  unfold capture
  rw [habout]
  cases about with
  | none => exact (Clean.refl t).succeeds
  | some about => exact ⟨_, rfl, rfl, rfl⟩

theorem clean_takeEntries (sender : PeerId) {prev : Nat} {entries : List Entry} (commit : Nat)
    (h : t.node.log.mergeLapses entries prev = []) :
    t.Clean (t.takeEntries sender prev entries commit) := by
  have hmerged : t.Clean (t.mergeEntries entries prev) :=
    ⟨by rw [mergeEntries, h, List.append_nil], rfl⟩
  obtain ⟨u, hu, -, htake⟩ := t.takeEntries_cases sender prev entries commit
  have hsynced : t.Clean u := by
    rcases hu with ⟨-, rfl⟩ | rfl
    · exact .refl u
    · exact hmerged.trans (clean_syncConfig _)
  rw [htake]
  exact (hsynced.trans (clean_commitUntil u _ false)).trans ⟨rfl, rfl⟩

theorem succeeds_sendEntries {peer : PeerId} (h : ∃ m, t.node.nextMessage peer = .ok m) :
    ∃ u, t.sendEntries peer = .ok u ∧ t.Clean u ∧ u.node = t.node := by
  obtain ⟨m, hm⟩ := h
  unfold sendEntries
  rw [hm]
  exact ⟨t.send peer m, rfl, ⟨rfl, rfl⟩, rfl⟩

theorem succeeds_replicate (h : ∀ p, ∃ m, t.node.nextMessage p = .ok m) :
    ∃ u, t.replicate = .ok u ∧ t.Clean u ∧ u.node = t.node := by
  unfold replicate
  generalize (t.node.standing.membersWithout t.node.id).toList = peers
  induction peers generalizing t with
  | nil => exact ⟨t, rfl, .refl t, rfl⟩
  | cons p rest ih =>
    obtain ⟨u, hu, hclean, hnode⟩ := succeeds_sendEntries (h p)
    obtain ⟨v, hv, hclean', hnode'⟩ := ih (t := u) (hnode ▸ h)
    refine ⟨v, ?_, hclean.trans hclean', hnode'.trans hnode⟩
    rw [List.foldlM_cons, hu]
    exact hv

theorem clean_finishChange (h : t.node.config.isJoint = false) : t.Clean t.finishChange := by
  unfold finishChange
  simp only [h]
  exact .refl t

theorem clean_advanceCommit (h : t.node.config.isJoint = false) : t.Clean t.advanceCommit := by
  unfold advanceCommit
  simp only
  split
  next =>
    refine (clean_commitUntil t _ true).trans (clean_finishChange ?_)
    obtain ⟨capturing, captures, hnode, -⟩ := t.commitUntil_cases
      (t.node.matchIndex.quorumIndex t.node.config) true
    rw [hnode]
    exact h
  next => exact clean_finishChange h

theorem clean_appendOwn (t : Turn) (command : Command) (client : Option PeerId) :
    t.Clean (t.appendOwn command client) := by
  refine ⟨?_, rfl⟩
  show t.lapses ++ t.node.log.appendLapses _ = t.lapses
  rw [Log.appendLapses_nextIndex _ rfl, List.append_nil]

theorem tidy_appendOwn (h : t.node.Tidy) (command : Command) (client : Option PeerId) :
    (t.appendOwn command client).node.Tidy where
  abridges := by
    obtain ⟨l, hl⟩ := h.abridges
    exact ⟨_, hl.append rfl⟩
  inReach := h.inReach.append command client
  isJoint := h.isJoint

theorem succeeds_appendRequest {r : Request} (h : t.node.Tidy) (hrole : t.node.role = .leader)
    (hr : r.command.configuration? = none) : Succeeds (t.appendRequest r) t := by
  have hadopt : (t.appendOwn r.command (some r.client)).adoptNewer r.command =
      t.appendOwn r.command (some r.client) := by simp [adoptNewer, hr]
  have htidy := tidy_appendOwn h r.command (some r.client)
  obtain ⟨u, hu, hclean, hnode⟩ := succeeds_replicate (htidy.exists_nextMessage hrole)
  have hjoint : u.node.config.isJoint = false := hnode ▸ htidy.isJoint
  unfold appendRequest
  rw [hadopt, hu]
  refine ⟨_, rfl, ?_⟩
  exact (((clean_appendOwn t _ _).trans hclean).trans (clean_advanceCommit hjoint)).trans
    (clean_leaveIfRemoved _)

theorem succeeds_lead (h : t.node.Tidy) : Succeeds t.lead t := by
  have htidy : t.elected.node.Tidy := by
    rw [node_elected]
    exact ⟨h.abridges, fun _ p => Nat.le_succ _, h.isJoint⟩
  have htidy' := tidy_appendOwn htidy .noop none
  have hrole : (t.elected.appendOwn .noop none).node.role = .leader := t.role_elected
  obtain ⟨u, hu, hclean, hsame⟩ := succeeds_replicate (htidy'.exists_nextMessage hrole)
  have hjoint : (u.arm .heartbeat).node.config.isJoint = false := by
    show u.node.config.isJoint = false
    rw [hsame]
    exact htidy'.isJoint
  rw [lead_eq, hu]
  refine ⟨_, rfl, ?_⟩
  have harm : u.Clean (u.arm .heartbeat) := ⟨rfl, rfl⟩
  exact ((((clean_elected t).trans (clean_appendOwn _ _ _)).trans hclean).trans harm).trans
    (clean_advanceCommit hjoint)

/-! ### One input -/

/-- There is a result and every assertion held. Nothing was left for later, or the input itself for
the follower that the node has become. -/
def Proceeds (i : Input) (x : Except Violation Turn) (t : Turn) : Prop :=
  Succeeds x t ∨ ∃ term, i.IsForFollower ∧ t.node.role ≠ .follower ∧
    x = .ok { t.stepDown term with pending := i :: (t.stepDown term).pending }

/-- A candidate that has won has kept its log and its configuration. -/
theorem Calm.tidy (h : Calm i t u) (hconfig : u.node.config = t.node.config)
    (hrole : u.node.role = .candidate) (ht : t.node.Tidy) : u.node.Tidy where
  abridges := h.retains.log ▸ ht.abridges
  inReach := Node.inReach_of_candidate hrole
  isJoint := hconfig ▸ ht.isJoint

/-- Whatever a member attempts on an input that fits, it gets through with it. -/
theorem Attempt.exists_ok (h : Attempt i t x) (ht : t.node.Tidy) (hfits : i.Fits t.node) :
    ∃ u, x = .ok u := by
  cases h with
  | done h => exact ⟨_, rfl⟩
  | @serve peer hrole =>
    obtain ⟨u, hu, -⟩ := succeeds_sendEntries (ht.exists_nextMessage hrole peer)
    exact ⟨u, hu⟩
  | @retry peer hrole _ =>
    have htidy : ({ t.node with nextIndex := t.node.nextIndex.backOff peer } : Node).Tidy :=
      ⟨ht.abridges, ht.inReach.backOff peer, ht.isJoint⟩
    obtain ⟨u, hu, -⟩ := succeeds_sendEntries
      (t := { t with node := { t.node with nextIndex := t.node.nextIndex.backOff peer } })
      (htidy.exists_nextMessage hrole peer)
    exact ⟨u, hu⟩
  | heartbeat hrole =>
    obtain ⟨u, hu, -⟩ := succeeds_replicate (ht.exists_nextMessage hrole)
    rw [hu]
    exact ⟨_, rfl⟩
  | lead h hconfig hrole =>
    obtain ⟨u, hu, -⟩ := succeeds_lead (h.tidy hconfig hrole ht)
    exact ⟨u, hu⟩
  | append hi hrole =>
    subst hi
    obtain ⟨u, hu, -⟩ := succeeds_appendRequest ht hrole hfits.quiet
    exact ⟨u, hu⟩
  | @record peer last hi hrole =>
    have hlast := hfits.acked hrole peer last hi
    unfold recordProgress
    rw [if_neg (Nat.not_lt.2 hlast)]
    exact ⟨_, rfl⟩
  | capture =>
    obtain ⟨u, hu, -⟩ := succeeds_capture ht
    exact ⟨u, hu⟩

/-- What a member does on an input that fits, it does with every assertion held. -/
theorem Deed.proceeds (h : Deed i t u) (ht : t.node.Tidy) (hfits : i.Fits t.node)
    (hinit : t.node.role ≠ .init) : Proceeds i (.ok u) t := by
  cases h with
  | calm h => exact .inl h.clean.succeeds
  | again hi hrole _ hu => exact .inr ⟨_, hi, hrole, congrArg Except.ok hu⟩
  | meet hrole => exact absurd hrole hinit
  | propose hi =>
    subst hi
    exact hfits.quiet.elim
  | speak _ _ hu => exact .inl ⟨u, rfl, hu ▸ ⟨rfl, rfl⟩⟩
  | lead h hconfig hrole _ _ hu =>
    have hlead := succeeds_lead (h.tidy hconfig hrole ht)
    exact .inl (.of_clean h.clean (hu ▸ hlead))
  | append hi hrole hu =>
    subst hi
    exact .inl (hu ▸ succeeds_appendRequest ht hrole hfits.quiet)
  | @record peer last _ _ _ hu =>
    have hnote : t.Clean { t with node := t.node.noting peer last } := ⟨rfl, rfl⟩
    exact .inl ⟨u, rfl, hu ▸ hnote.trans (clean_advanceCommit ht.isJoint)⟩
  | @heed leader term _ _ hle h =>
    have hheed : t.Clean (t.heed leader term) := ⟨rfl, rfl⟩
    refine .inl (hheed.trans ?_).succeeds
    cases h with
    | accept hi _ hu =>
      rw [t.term_heed leader hle] at hi
      exact hu ▸ clean_takeEntries _ _ (hfits.merge hi hle)
    | refuse hu => exact hu ▸ ⟨rfl, rfl⟩
    | @install _ _ s _ hu =>
      have htaken := clean_takeSnapshot (t.heed leader term) s
      exact hu ▸ ⟨htaken.lapses, htaken.pending⟩
  | capture _ hu => exact .inl (clean_of_capture hu).succeeds
  | finish _ hu => exact .inl ⟨u, rfl, hu ▸ ⟨rfl, rfl⟩⟩

theorem proceeds_dispatch (h : t.node.Tidy) (hfits : i.Fits t.node) (hinit : t.node.role ≠ .init) :
    Proceeds i (t.dispatch i) t := by
  obtain ⟨u, hu⟩ := (attempt_dispatch t i).exists_ok h hfits
  rw [hu]
  exact (deed_dispatch hu).proceeds h hfits hinit

/-! ### The whole transition -/

/-- A member processes an input that fits, and so does the follower that it may become. -/
theorem exists_process {n : Node} {i : Input} (h : n.Tidy) (hfits : i.Fits n)
    (hinit : n.role ≠ .init) : ∃ t, n.process i = .ok t ∧ t.lapses = [] := by
  rcases proceeds_dispatch (t := n.turn) h hfits hinit with ⟨u, hu, hclean⟩ | ⟨term, hi, -, hu⟩
  · exact ⟨u, Node.process_of_done hu hclean.pending, hclean.lapses⟩
  · have hdown := clean_stepDown n.turn term
    have hnode : (n.turn.stepDown term).node =
        ({ n with standing := (n.standing.advanceTo term).resign } : Node).inRole .follower :=
      node_goto ..
    -- as a follower the node does not give way again
    have hsecond : Succeeds ((n.turn.stepDown term).dispatch i) (n.turn.stepDown term) := by
      rcases proceeds_dispatch (t := n.turn.stepDown term) (hnode ▸ h.stepDown term)
        (hnode ▸ hfits.stepDown term) (by rw [role_stepDown]; nofun) with hok | ⟨-, -, hrole, -⟩
      · exact hok
      · exact absurd (role_stepDown n.turn term) hrole
    obtain ⟨v, hv, hclean⟩ := hsecond
    refine ⟨v, ?_, hclean.lapses.trans hdown.lapses⟩
    have hnone : (n.turn.stepDown term).pending = [] := hdown.pending
    rw [hnone] at hu
    refine Node.process_of_next hu ?_ (hclean.pending.trans hnone)
    rw [← hv, ← hnone]

end Turn

/-! ### Runs -/

namespace Cluster

variable {σ : Type} {g : History} {sequence : Nat} {c : Cluster σ} {p : PeerId} {i : Input}

theorem Sound.abridges (h : c.Sound g sequence) (hp : p ∈ c.members) :
    (c.node p).log.Abridges (g.log (c.node p).id) := (h.describes p hp).abridges

theorem Sound.isJoint (h : c.Sound g sequence) (hp : p ∈ c.members) :
    (c.node p).config.isJoint = false := by
  have hconfig : (c.node p).config = .stable sequence c.members := (h.steady p hp).config
  rw [hconfig]
  rfl

/-- A batch never disagrees with what its receiver has committed, because both are on the ledger of
the batch's term. -/
theorem Sound.mergeLapses_eq_nil (h : c.Sound g sequence) (hp : p ∈ c.members)
    (sender leader : PeerId) {term prevTerm prev commit : Nat} {entries : List Entry}
    (hm : (Message.appendEntries leader term prevTerm prev entries commit).Vouched g c.members
      sender p) (hterm : (c.node p).term ≤ term) :
    (c.node p).log.mergeLapses entries prev = [] := by
  obtain ⟨⟨o, ho⟩, ⟨m, hml, rfl, -, -⟩, -⟩ := hm
  have hcommitted := (h.describes p hp).committed.mono g.le_refl hterm
  exact (h.abridges hp).mergeLapses_eq_nil (h.coherent.numbered term)
    (h.coherent.prefix_ledger hcommitted ho) hml

theorem Sound.fits (h : c.Sound g sequence) (hp : p ∈ c.members)
    (hi : i.Vouched g c.members p (c.commits g p) ∧ i.Steady (.stable sequence c.members)) :
    i.Fits (c.node p) where
  quiet := hi.2.quiet
  acked := by
    intro hrole sender last hmsg
    have hlast : last ≤ g.acked sender (c.node p).term := by
      rcases hmsg with rfl | rfl <;> exact hi.1
    have hledger : g.ledger (c.node p).term = g.log (c.node p).id :=
      ((h.describes p hp).leadership hrole).ledger
    rw [(h.abridges hp).lastIndex_eq, ← hledger]
    exact Nat.le_trans hlast (h.coherent.acked_le _ _)
  merge := by
    rintro sender leader term prevTerm prev entries commit rfl hterm
    exact h.mergeLapses_eq_nil hp sender leader hi.1 hterm

/-- A snapshot of what is committed leaves the end of the log where it is. -/
theorem Sound.lastIndex_compact (h : c.Sound g sequence) (hp : p ∈ c.members) {s : Snapshot}
    (hs : (Input.snapshotPrepared (some s)).Vouched g c.members p (c.commits g p)) :
    ((c.node p).log.compact s).lastIndex = (c.node p).log.lastIndex := by
  have hcovers : s.about.Covers (c.commits g p) := hs
  have hterm : termIn? (g.log (c.node p).id) s.about.index = some s.about.term :=
    (hcovers.mono (List.take_prefix ..)).term
  rw [((h.abridges hp).compact hcovers.pos hterm).lastIndex_eq, (h.abridges hp).lastIndex_eq]

end Cluster

namespace Run

variable {σ : Type} [StateMachine σ] (r : Run σ)

/-- No leader ever believes that a peer is beyond the end of its log. -/
theorem withinLog (p : PeerId) (k : Nat) : ((r.after k).node p).WithinLog := by
  induction k with
  | zero => exact .of_role nofun
  | succ k ih =>
    rcases r.after_succ_cases k with ⟨e, he, heq⟩ | heq
    · rw [heq]
      rcases (r.after k).node_happen_cases e p with ⟨i, n, es, hi, hp, hstep, hn⟩ | hn
      · rw [hn]
        obtain ⟨g, hg, -⟩ := r.exists_history k
        have hvouched := hg.input (r.ordinary e he) hi hp
        refine step_withinLog hstep ih ?_
        rintro - s rfl
        exact hg.lastIndex_compact hp hvouched.1
      · rwa [hn]
    · rwa [heq]

/-- While the members stay the same, no transition is given up: whatever reaches a member at any
moment, it processes it to the end, and every assertion of the log holds. -/
theorem process_succeeds {p : PeerId} {k : Nat} {e : Event} {i : Input} (hp : p ∈ r.members)
    (he : e.IsOrdinary) (hi : (r.after k).input? e = some (p, i)) :
    ∃ t, ((r.after k).node p).process i = .ok t ∧ t.lapses = [] ∧
      step ((r.after k).node p) i = .ok (t.node, t.effects) := by
  obtain ⟨g, hg, -⟩ := r.exists_history k
  have hmem : p ∈ (r.after k).members := by rwa [members_after]
  have htidy : ((r.after k).node p).Tidy :=
    ⟨⟨_, hg.abridges hmem⟩, (r.withinLog p k).next, hg.isJoint hmem⟩
  obtain ⟨t, ht, hlapses⟩ := Turn.exists_process htidy (hg.fits hmem (hg.input he hi hmem))
    (hg.steady p hmem).role
  exact ⟨t, ht, hlapses, step_of_process ht⟩

/-- The first entries of the first leader reach member 2. -/
theorem process_succeeds_twoElections : ∃ i, (twoElections.after 21).input? (.deliver 3) =
    some (⟨2⟩, i) ∧ ∃ t, ((twoElections.after 21).node ⟨2⟩).process i = .ok t ∧ t.lapses = [] ∧
      step ((twoElections.after 21).node ⟨2⟩) i = .ok (t.node, t.effects) := by
  have hreceiver : ((twoElections.after 21).input? (.deliver 3)).map (·.1) = some ⟨2⟩ := by
    decide +kernel
  obtain ⟨⟨p, i⟩, hi, hp⟩ := Option.map_eq_some_iff.1 hreceiver
  obtain rfl : p = ⟨2⟩ := hp
  exact ⟨i, hi, twoElections.process_succeeds (e := .deliver 3) (by decide) trivial hi⟩

end Run

end Raft
