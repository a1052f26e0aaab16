import Raft.Proofs.Handshake
import Raft.Proofs.Headway
import Raft.Proofs.Responding

/-!
# What a leader's heartbeat does for a new member

A heartbeat brings to a new member what comes next for it in the opinion of the leader, and that is
the leader's snapshot if it covers the place where the leader starts with peers that have not
answered. The new member, which still looks for the cluster, takes any entries as a sign of the
leader and asks it for the configuration. A snapshot it does not heed. It does not answer either, so
that the leader sends the snapshot again with the next heartbeat, and nothing ever comes of it.

* `Node.HasCompacted`, what comes next for a peer is compacted away;
* `Node.IsDrawnTo`, a node asks the leader that it has met for the configuration;
* `Life.hasCompacted_after`, a leader does not change its mind unless the peer answers;
* `Life.heartbeat_to_newcomer`, a leader at any moment and a new member.
-/

namespace Raft

namespace Node

/-- What comes next for the peer is covered by the snapshot. -/
def HasCompacted (n : Node) (p : PeerId) : Prop :=
  ∃ s, n.log.snapshot = some s ∧ n.nextIndex.get p ≤ s.about.index

/-- A message of `leader` makes the node a candidate that waits for the configuration it has asked
`leader` for. -/
def IsDrawnTo (n : Node) (leader : PeerId) (m : Message) : Prop :=
  ∃ n' es, step n (.message leader m) = .ok (n', es) ∧ n'.role = .candidate ∧
    n'.configAskedOf = some leader ∧ .send leader .requestConfiguration ∈ es

/-- What a leader sends to a peer is the snapshot if what comes next is compacted away, and else a
batch of entries. -/
theorem nextMessage_shape {n : Node} {p : PeerId} {m : Message} (h : n.nextMessage p = .ok m) :
    (n.HasCompacted p ∧ ∃ s, m = .installSnapshot n.id n.term s) ∨
      (¬ n.HasCompacted p ∧ ∃ prevTerm prev batch,
        m = .appendEntries n.id n.term prevTerm prev batch n.log.committed) := by
  unfold nextMessage at h
  simp only at h
  split at h
  next hnone =>
    obtain ⟨prevTerm, prev, rfl⟩ := n.appendMessage_cases h
    refine .inr ⟨?_, prevTerm, prev, _, rfl⟩
    rintro ⟨s, hs, -⟩
    cases hnone.symm.trans hs
  next s hs =>
    split at h
    next hle => exact .inl ⟨⟨s, hs, hle⟩, s, (Except.ok.inj h).symm⟩
    next hlt =>
      obtain ⟨prevTerm, prev, rfl⟩ := n.appendMessage_cases h
      refine .inr ⟨?_, prevTerm, prev, _, rfl⟩
      rintro ⟨s', hs', hle⟩
      obtain rfl := Option.some.inj (hs.symm.trans hs')
      exact hlt hle

/-- A node that looks for the cluster does not heed a snapshot. -/
theorem step_installSnapshot_of_init {n : Node} (hrole : n.role = .init) (sender leader : PeerId)
    (t : Nat) (s : Snapshot) :
    step n (.message sender (.installSnapshot leader t s)) = .ok (n, []) := by
  have hdispatch :
      n.turn.dispatch (.message sender (.installSnapshot leader t s)) = .ok n.turn := by
    simp [Turn.dispatch, Turn.onMessage, Turn.onInstallSnapshot, turn, hrole]
  exact step_of_process (process_of_done hdispatch rfl)

theorem isDrawnTo_of_appendEntries {n : Node} (hrole : n.role = .init) (leader : PeerId)
    (t prevTerm prev commit : Nat) (entries : List Entry) :
    n.IsDrawnTo leader (.appendEntries leader t prevTerm prev entries commit) :=
  ⟨_, _, step_contact hrole leader leader t prevTerm prev commit entries, rfl, rfl,
    List.mem_cons_self ..⟩

theorem hasCompacted_iff {n : Node} {p : PeerId} :
    n.HasCompacted p ↔ n.log.snapshot.isSome = true ∧ n.nextIndex.get p ≤ n.log.prevIndex := by
  unfold HasCompacted Log.prevIndex
  cases n.log.snapshot <;> simp

variable {n m : Node} {p : PeerId}

theorem HasCompacted.mono (h : n.HasCompacted p) (hsnapshot : m.log.snapshot = n.log.snapshot)
    (hnext : m.nextIndex.get p ≤ n.nextIndex.get p) : m.HasCompacted p := by
  obtain ⟨s, hs, hle⟩ := h
  exact ⟨s, hsnapshot.trans hs, Nat.le_trans hnext hle⟩

/-- A snapshot never makes way for one of less. -/
theorem HasCompacted.compact (h : n.HasCompacted p) {s : Snapshot}
    (hlog : m.log = n.log.compact s) (hnext : m.nextIndex = n.nextIndex) : m.HasCompacted p := by
  obtain ⟨hsome, hle⟩ := hasCompacted_iff.1 h
  refine hasCompacted_iff.2 ⟨?_, ?_⟩
  · rw [hlog]
    unfold Log.compact
    split
    next => exact hsome
    next => rfl
  · rw [hlog, hnext]
    exact Nat.le_trans hle (n.log.prevIndex_le_compact s)

/-- The node follows, or it leads and what comes next for the peer is compacted away. -/
def Overlooks (n : Node) (p : PeerId) : Prop :=
  n.role = .follower ∨ (n.role = .leader ∧ n.HasCompacted p)

end Node

/-- Whether the input is an answer of the peer to something that a leader has sent it. -/
def Input.IsAnswerOf (p : PeerId) : Input → Prop
  | .message sender (.appendAccepted ..) => sender = p
  | .message sender (.appendRejected _) => sender = p
  | .message sender (.snapshotAccepted ..) => sender = p
  | .message sender (.snapshotRejected _) => sender = p
  | _ => False

theorem Input.IsOwn.not_isAnswerOf {i : Input} (h : i.IsOwn) (p : PeerId) : ¬ i.IsAnswerOf p := by
  cases i with
  | message sender m => cases m <;> first | exact h.elim | exact id
  | _ => exact h.elim

section

variable {i : Input} {n m : Node} {p : PeerId} {es : List Effect} {js : List Input}

/-- Only an answer, or an election, makes a leader think differently of what a peer needs. -/
theorem Act.overlooks (a : Act i n es js m) (hi : ¬ i.IsAnswerOf p)
    (htimer : i ≠ .timeout .election) (h : n.Overlooks p) : m.Overlooks p := by
  have hinit : n.role ≠ .init := by rcases h with h | ⟨h, -⟩ <;> rw [h] <;> nofun
  have hcandidate : n.role ≠ .candidate := by rcases h with h | ⟨h, -⟩ <;> rw [h] <;> nofun
  have hleads : n.role = .leader → n.HasCompacted p := fun hrole =>
    h.elim (fun hfollows => nomatch hrole.symm.trans hfollows) And.right
  -- the snapshot is as it was, and what comes next is not behind where it was
  have hkept : n.role = .leader → m.role = n.role → m.log.snapshot = n.log.snapshot →
      m.nextIndex.get p ≤ n.nextIndex.get p → m.Overlooks p := fun hrole hsame hsnapshot hnext =>
    .inr ⟨hsame.trans hrole, (hleads hrole).mono hsnapshot hnext⟩
  cases a with
  | observe | yield | adopt => exact .inl rfl
  | campaign htimeout => exact absurd htimeout htimer
  | count _ hrole => exact absurd hrole hcandidate
  | elect _ hrole => exact absurd hrole hcandidate
  | enroll _ hrole => exact absurd hrole hinit
  | await _ hrole => exact absurd hrole hinit
  | enter _ hrole => exact absurd hrole hinit
  | grant _ hrole => exact .inl hrole
  | follow hrole => exact .inl hrole
  | accept _ hrole => exact .inl ((n.turn.same_takeEntries ..).role.trans hrole)
  | install _ hrole => exact .inl ((n.turn.same_takeSnapshot ..).role.trans hrole)
  | dismiss _ hrole => exact .inl (hrole.resolve_right hcandidate)
  | @append command client hrole =>
    have hsame := n.turn.same_append command client
    refine hkept hrole hsame.role ?_ (Nat.le_of_eq (congrArg (·.get p) hsame.nextIndex))
    rw [Turn.log_append]
    rfl
  | @commit q hrole =>
    obtain ⟨capturing, captures, hnode, -⟩ := n.turn.commitUntil_cases q true
    have hsame := n.turn.same_commitUntil q true
    refine hkept hrole hsame.role ?_ (Nat.le_of_eq (congrArg (·.get p) hsame.nextIndex))
    rw [hnode]
    rfl
  | @backOff sender hrole hrejects =>
    have hsender : p ≠ sender := by
      rintro rfl
      rcases hrejects with rfl | rfl <;> exact hi rfl
    refine hkept hrole rfl rfl (Nat.le_of_eq ?_)
    rw [Progress.backOff, Progress.get_set, if_neg hsender]
  | @record peer last hrole haccepts =>
    have hpeer : p ≠ peer := by
      rintro rfl
      rcases haccepts with rfl | rfl <;> exact hi rfl
    have hle := n.nextIndex.get_raise_le peer p (last + 1)
    rw [if_neg hpeer] at hle
    exact hkept hrole rfl rfl hle
  | @finish s =>
    rcases h with hrole | ⟨hrole, hcompacted⟩
    · exact .inl hrole
    · cases s with
      | none => exact .inr ⟨hrole, hcompacted⟩
      | some s => exact .inr ⟨hrole, hcompacted.compact rfl rfl⟩
  | _ => exact h

theorem step_overlooks (h : step n i = .ok (m, es)) (hi : ¬ i.IsAnswerOf p)
    (hrole : n.role = .leader) (hn : n.HasCompacted p) : m.Overlooks p := by
  by_cases htimer : i = .timeout .election
  · -- a leader has no election to wait for
    subst htimer
    have hdispatch : n.turn.dispatch (.timeout .election) = .ok n.turn := by
      simp [Turn.dispatch, Turn.onTimeout, Turn.onElectionTimeout, Node.turn, hrole]
    have hstep := step_of_process (Node.process_of_done hdispatch rfl)
    obtain ⟨rfl, -⟩ := Prod.mk.inj (Except.ok.inj (h.symm.trans hstep))
    exact .inr ⟨hrole, hn⟩
  · refine step_keeps (Node.Overlooks · p) (fun j => ¬ j.IsAnswerOf p ∧ j ≠ .timeout .election) h
      (.inr ⟨hrole, hn⟩) ⟨hi, htimer⟩ fun hn hi a => ⟨a.overlooks hi.1 hi.2 hn, ?_⟩
    refine a.raises_keeps hi fun j hown => ⟨hown.not_isAnswerOf p, ?_⟩
    rintro rfl
    exact hown

end

namespace Life

variable (l : Life) {j k : Nat} {newcomer : Node} {p : PeerId}

/-- For as long as a leader leads on and hears nothing from a peer, it has nothing but its snapshot
for it. -/
theorem hasCompacted_after (hjk : j ≤ k) (hlead : ∀ x, j ≤ x → x ≤ k → (l.after x).role = .leader)
    (hsilent : ∀ x, j ≤ x → x < k → ∀ i, l.inputs[x]? = some i → ¬ i.IsAnswerOf p)
    (h : (l.after j).HasCompacted p) : (l.after k).HasCompacted p := by
  induction k, hjk using Nat.le_induction with
  | base => exact h
  | succ k hjk ih =>
    have hk : (l.after k).HasCompacted p :=
      ih (fun x hjx hxk => hlead x hjx (Nat.le_succ_of_le hxk))
        fun x hjx hxk => hsilent x hjx (Nat.lt_succ_of_lt hxk)
    have hnow := hlead (k + 1) (Nat.le_succ_of_le hjk) (Nat.le_refl _)
    rcases l.after_succ_cases k with heq | ⟨i, es, hi, hstep⟩
    · rwa [heq]
    · have hoverlooks := step_overlooks hstep (hsilent k hjk (Nat.lt_succ_self k) i hi)
        (hlead k hjk (Nat.le_succ k)) hk
      rcases hoverlooks with hfollows | ⟨-, hcompacted⟩
      · cases hnow.symm.trans hfollows
      · exact hcompacted

/-- A leader whose log keeps its end has something to send to everybody. -/
theorem exists_nextMessage_after (hrole : (l.after k).role = .leader) (h : l.KeepsEnd k)
    (p : PeerId) : ∃ m, (l.after k).nextMessage p = .ok m :=
  Node.exists_nextMessage (l.anchored_after k).contiguous ((l.withinLog h).next hrole p)

/-- The heartbeat of a leader goes through, as long as its log has kept its end. It leaves the
leader as it is, and a new member gets one message. If what comes next for the member is not
compacted away, the message makes it leave its search and ask the leader for the configuration.
Otherwise the member stays as it is, and does not answer. -/
theorem heartbeat_to_newcomer (hrole : (l.after k).role = .leader)
    (hinit : newcomer.role = .init) (hmem : newcomer.id ∈ (l.after k).members)
    (hne : newcomer.id ≠ (l.after k).id) :
    (l.KeepsEnd k → ∃ n es, step (l.after k) (.timeout .heartbeat) = .ok (n, es)) ∧
    ∀ n es, step (l.after k) (.timeout .heartbeat) = .ok (n, es) → n = l.after k ∧
      ∃ m, (∀ m', .send newcomer.id m' ∈ es ↔ m' = m) ∧
        (¬ (l.after k).HasCompacted newcomer.id → newcomer.IsDrawnTo (l.after k).id m) ∧
        ((l.after k).HasCompacted newcomer.id →
          step newcomer (.message (l.after k).id m) = .ok (newcomer, [])) := by
  refine ⟨fun h => Node.exists_heartbeat hrole (l.exists_nextMessage_after hrole h),
    fun n es hstep => ?_⟩
  obtain ⟨rfl, hserved⟩ := Node.heartbeat_cases hrole hstep
  obtain ⟨m, hm, hsent⟩ := hserved newcomer.id hmem hne
  refine ⟨rfl, m, hsent, ?_⟩
  rcases Node.nextMessage_shape hm with ⟨hcompacted, s, rfl⟩ | ⟨hlive, t, prev, batch, rfl⟩
  · exact ⟨fun h => absurd hcompacted h, fun _ => Node.step_installSnapshot_of_init hinit ..⟩
  · exact ⟨fun _ => Node.isDrawnTo_of_appendEntries hinit .., fun h => absurd h hlive⟩

/-- What becomes of node 1 on its own. It leads itself and appends a command for client 9, the
inputs `tidying` come, and then client 9 wishes for node 2 as a second member. -/
def founded (tidying : List Input) : Life where
  start := .fresh ⟨1⟩ { membersToFind := 1, compactionThreshold := 0 }
  isNew := .inl ⟨_, _, rfl⟩
  inputs :=
    [.timeout .discovery, .timeout .election, .message ⟨9⟩ (.submit ⟨⟨9⟩, .application [7]⟩)] ++
      tidying ++ [.message ⟨9⟩ (.changeConfiguration (.stable 0 (.ofList [⟨1⟩, ⟨2⟩])))]

/-- The log is as it was. -/
def expanding : Life := founded []

/-- Node 2 asks node 1 for the configuration. -/
theorem heartbeat_to_newcomer_expanding : ∃ es m,
    step (expanding.after 4) (.timeout .heartbeat) = .ok (expanding.after 4, es) ∧
      (∀ m', .send ⟨2⟩ m' ∈ es ↔ m' = m) ∧ (Node.fresh ⟨2⟩ {}).IsDrawnTo ⟨1⟩ m := by
  have hmem : (Node.fresh ⟨2⟩ {}).id ∈ (expanding.after 4).members := by decide +kernel
  obtain ⟨hgoes, hbrings⟩ := expanding.heartbeat_to_newcomer (by decide +kernel) rfl hmem
    (by decide +kernel)
  obtain ⟨n, es, hstep⟩ := hgoes fun j _ _ s hs =>
    absurd (List.mem_of_getElem? hs) (by simp [expanding, founded])
  obtain ⟨rfl, m, hsent, hdrawn, -⟩ := hbrings n es hstep
  have hid : (expanding.after 4).id = ⟨1⟩ := by decide +kernel
  refine ⟨es, m, hstep, hsent, hid ▸ hdrawn ?_⟩
  rintro ⟨s, hs, -⟩
  have hnone : (expanding.after 4).log.snapshot = none := by decide +kernel
  cases hnone.symm.trans hs

/-- What node 1 has committed when node 2 becomes a member. -/
def firstSnapshot : Snapshot := ⟨⟨2, 1, .stable 0 (.ofList [⟨1⟩])⟩, [7]⟩

/-- The log is compacted away before. -/
def compacting : Life := founded [.compactLog, .snapshotPrepared (some firstSnapshot)]

/-- Node 2 gets the snapshot, and does nothing about it. -/
theorem not_drawn_compacting : (compacting.after 6).role = .leader ∧
    ⟨2⟩ ∈ (compacting.after 6).members ∧
    step (compacting.after 6) (.timeout .heartbeat) = .ok (compacting.after 6,
      [.send ⟨2⟩ (.installSnapshot ⟨1⟩ 1 firstSnapshot), .arm .heartbeat]) ∧
    step (.fresh ⟨2⟩ {}) (.message ⟨1⟩ (.installSnapshot ⟨1⟩ 1 firstSnapshot)) =
      .ok (.fresh ⟨2⟩ {}, []) := by
  decide +kernel

end Life

end Raft
