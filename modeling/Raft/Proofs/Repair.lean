import Raft.Proofs.Responding

/-!
# A leader repairs another log

A leader sends entries to another node, which takes them or refuses them. After a refusal the
leader goes back by one position at once, and after an acknowledgement the next heartbeat brings
what follows. So there is a first place that fits, since at the latest the snapshot or the beginning
of the log does, and from there on every round brings the other log further, until it has all
entries of the leader's.

* `Repair`, the two nodes with the message between them, `Repair.round` and `Repair.after`;
* `Repair.Searching` and `Repair.Met`, the two phases, and what one round does in each:
  `Repair.Searching.round` and `Repair.Met.round`;
* `Repair.Stage`, how far the repair has got after `k` rounds, by induction (`exists_stage`);
* `repair_terminates`, the leader knows in the end that the other log reaches as far as its own.
-/

namespace Raft

/-- Whether a message says that what the leader has sent was of no use. -/
def Message.isRefusal : Message → Bool
  | .appendRejected _ => true
  | .snapshotRejected _ => true
  | _ => false

/-- A leader that sends its log to another node. The message is on its way to that node, and the
replies are all those that the leader has got. -/
structure Repair where
  leader : Node
  follower : Node
  message : Message
  replies : List Message := []
  deriving DecidableEq

namespace Repair

/-- The first message of a leader to a follower. -/
def first (leader follower : Node) : Option Repair :=
  (leader.nextMessage follower.id).toOption.map fun message => { leader, follower, message }

/-- The follower takes up the message, and the leader takes up its only reply. What the leader sends
then is the next message, or else it is what the next heartbeat brings. Nothing comes of a round in
which a transition is given up or an assertion fails. -/
def round (x : Repair) : Option Repair := do
  let (follower, es) ← x.follower.receive? x.leader.id x.message
  let [reply] := messagesTo x.leader.id es | none
  let (leader, fs) ← x.leader.receive? x.follower.id reply
  let message ← match messagesTo x.follower.id fs with
    | [] => (leader.nextMessage follower.id).toOption
    | [message] => some message
    | _ => none
  return { leader, follower, message, replies := x.replies ++ [reply] }

/-- The repair after `k` rounds. -/
def after (leader follower : Node) : Nat → Option Repair
  | 0 => first leader follower
  | k + 1 => (after leader follower k).bind round

/-- The next entry that the leader has for the follower. -/
def next (x : Repair) : Nat := x.leader.nextIndex.get x.follower.id

variable {x y : Repair} {f l : Node} {es fs : List Effect} {reply message : Message}

theorem round_of_silent (hf : x.follower.receive? x.leader.id x.message = some (f, es))
    (hreply : messagesTo x.leader.id es = [reply])
    (hl : x.leader.receive? x.follower.id reply = some (l, fs))
    (hsilent : messagesTo x.follower.id fs = []) (hnext : l.nextMessage f.id = .ok message) :
    x.round = some { leader := l, follower := f, message, replies := x.replies ++ [reply] } := by
  simp [round, hf, hreply, hl, hsilent, hnext, Except.toOption]

theorem round_of_answer (hf : x.follower.receive? x.leader.id x.message = some (f, es))
    (hreply : messagesTo x.leader.id es = [reply])
    (hl : x.leader.receive? x.follower.id reply = some (l, fs))
    (hanswer : messagesTo x.follower.id fs = [message]) :
    x.round = some { leader := l, follower := f, message, replies := x.replies ++ [reply] } := by
  simp [round, hf, hreply, hl, hanswer]

/-! ### What holds all the time -/

/-- What is true of a repair at any time. -/
structure Ready (x : Repair) : Prop where
  leads : x.leader.role = .leader
  leaderLog : x.leader.log.WellFormed
  stable : x.leader.config.isJoint = false
  batchSize : 1 ≤ x.leader.settings.batchSize
  next_le : x.next ≤ x.leader.log.lastIndex + 1
  matchIndex : ∀ p, x.leader.matchIndex.get p ≤ x.leader.log.lastIndex
  message : x.leader.nextMessage x.follower.id = .ok x.message
  follows : x.follower.role = .follower ∨ x.follower.role = .candidate
  followerLog : x.follower.log.WellFormed
  term : x.follower.term ≤ x.leader.term

/-- A round leads from `x` to `y`, and of the leader it changes only its commit index and what it
knows of others. -/
structure Leads (x : Repair) (reply : Message) (y : Repair) : Prop where
  round : x.round = some y
  replies : y.replies = x.replies ++ [reply]
  leaderId : y.leader.id = x.leader.id
  followerId : y.follower.id = x.follower.id
  standing : y.leader.standing = x.leader.standing
  lastIndex : y.leader.log.lastIndex = x.leader.log.lastIndex
  inReach : x.leader.InReach → y.leader.InReach

/-- The leader has not found a place that fits yet. Nothing committed on the other log is in the way
of its own. -/
structure Searching (x : Repair) : Prop extends x.Ready where
  concurs : x.follower.log.Concurs x.leader.log 0

/-- The two logs meet before the next entry, and the leader knows that. -/
structure Met (x : Repair) : Prop extends x.Ready where
  pos : 1 ≤ x.next
  meets : x.follower.log.Meets x.leader.log (x.next - 1)
  known : x.next ≤ x.leader.matchIndex.get x.follower.id + 1

/-- The message under way is the snapshot, or else the entries from the next one on. -/
theorem Ready.message_cases (h : x.Ready) :
    (∃ s, x.leader.log.snapshot = some s ∧ x.next ≤ s.about.index ∧
      x.message = .installSnapshot x.leader.id x.leader.term s) ∨
    ∃ t batch, x.leader.log.prevIndex ≤ max x.next 1 - 1 ∧
      x.leader.log.termAt? (max x.next 1 - 1) = some t ∧
      x.leader.log.Supplies (max x.next 1 - 1) x.leader.settings.batchSize batch ∧
      x.message = .appendEntries x.leader.id x.leader.term t (max x.next 1 - 1) batch
        x.leader.log.committed := by
  rcases Node.nextMessage_of_le h.leaderLog.isContiguous h.next_le with
    ⟨s, hs, hnext, hm⟩ | ⟨t, batch, hlow, ht, hbatch, hm⟩
  · exact .inl ⟨s, hs, hnext, Except.ok.inj (h.message.symm.trans hm)⟩
  · exact .inr ⟨t, batch, hlow, ht, hbatch, Except.ok.inj (h.message.symm.trans hm)⟩

/-- A leader that is refused goes back by one. -/
theorem Ready.refused (h : x.Ready) (hback : 1 < x.next)
    (hresponds : x.follower.Responds x.leader.id x.message x.leader.term
      (.appendRejected x.leader.term) x.follower.log) :
    ∃ y, x.Leads (.appendRejected x.leader.term) y ∧ y.Ready ∧ y.next + 1 = x.next ∧
      y.follower.log = x.follower.log ∧ y.leader.log = x.leader.log := by
  obtain ⟨f, es, hf, hreply, hid, hrole, hterm, hlog⟩ := hresponds
  have hnext : (x.leader.nextIndex.backOff x.follower.id).get x.follower.id = x.next - 1 := by
    rw [Progress.backOff, Progress.get_set, if_pos rfl]
    show max (x.next - 1) 1 = _
    omega
  have hle := h.next_le
  have hreach : (x.leader.nextIndex.backOff x.follower.id).get x.follower.id ≤
      x.leader.log.lastIndex + 1 := by omega
  obtain ⟨m, hm⟩ := Node.exists_nextMessage
    (n := { x.leader with nextIndex := x.leader.nextIndex.backOff x.follower.id })
    h.leaderLog.isContiguous hreach
  have hround := round_of_answer hf hreply (Node.receive?_rejected h.leads hm)
    (messagesTo_send x.follower.id m)
  refine ⟨_, ⟨hround, rfl, rfl, hid, rfl, rfl, fun hreach => hreach.backOff _⟩,
    ⟨h.leads, h.leaderLog, h.stable, h.batchSize, ?_, h.matchIndex, ?_, .inl hrole,
      hlog ▸ h.followerLog, Nat.le_of_eq hterm⟩, ?_, hlog, rfl⟩
  · show (x.leader.nextIndex.backOff x.follower.id).get f.id ≤ x.leader.log.lastIndex + 1
    rw [hid, hnext]
    omega
  · rw [hid]
    exact hm
  · show (x.leader.nextIndex.backOff x.follower.id).get f.id + 1 = x.next
    rw [hid, hnext]
    omega

/-- A leader whose message is taken over goes on behind it. -/
theorem Ready.accepted (h : x.Ready) {last : Nat} {log : Log}
    (hresponds : x.follower.Responds x.leader.id x.message x.leader.term reply log)
    (hreply : reply = .appendAccepted x.leader.term last ∨
      reply = .snapshotAccepted x.leader.term last)
    (hlast : last ≤ x.leader.log.lastIndex) (hnext : x.next ≤ last + 1)
    (hmeets : log.WellFormed ∧ log.Meets x.leader.log last) :
    ∃ y, x.Leads reply y ∧ y.Met ∧ y.next = last + 1 := by
  obtain ⟨f, es, hf, honly, hid, hrole, hterm, rfl⟩ := hresponds
  obtain ⟨l, fs, hl, hnoted, hsilent⟩ :=
    Node.exists_noted x.follower.id h.leads h.leaderLog h.stable h.matchIndex hlast hreply
  have hend := hnoted.lastIndex
  have hindex : l.nextIndex.get f.id = last + 1 := by
    rw [hnoted.nextIndex, hid]
    exact Progress.get_raise_self hnext
  have hmatch : ∀ p, l.matchIndex.get p ≤ l.log.lastIndex := by
    rw [hend, hnoted.matchIndex]
    exact Progress.get_raise_le_of_le h.matchIndex x.follower.id hlast
  have hknown : last ≤ l.matchIndex.get f.id := by
    rw [hnoted.matchIndex, hid]
    exact Progress.le_get_raise ..
  have hwell := hnoted.wellFormed h.leaderLog
  have hterm' : l.term = x.leader.term := congrArg Standing.term hnoted.standing
  have hconfig : l.config = x.leader.config := congrArg Standing.config hnoted.standing
  have hreach : l.nextIndex.get f.id ≤ l.log.lastIndex + 1 := by omega
  obtain ⟨m, hm⟩ := Node.exists_nextMessage hwell.isContiguous hreach
  have hround := round_of_silent hf honly hl (messagesTo_of_silent hsilent) hm
  have hynext : next ⟨l, f, m, x.replies ++ [reply]⟩ = last + 1 := hindex
  refine ⟨⟨l, f, m, x.replies ++ [reply]⟩,
    ⟨hround, rfl, hnoted.id, hid, hnoted.standing, hend, fun h => hnoted.inReach h hlast⟩,
    ⟨⟨hnoted.role.trans h.leads, hwell, hconfig ▸ h.stable, hnoted.settings ▸ h.batchSize, ?_,
      hmatch, hm, .inl hrole, hmeets.1, Nat.le_of_eq (hterm.trans hterm'.symm)⟩, ?_, ?_, ?_⟩,
    hynext⟩
  · rw [hynext, hend]
    exact Nat.succ_le_succ hlast
  · rw [hynext]
    exact Nat.succ_pos last
  · rw [hynext]
    exact hnoted.meets hmeets.2
  · rw [hynext]
    exact Nat.succ_le_succ hknown

/-- A batch that fits is taken over. -/
theorem Ready.takesBatch (h : x.Ready) {t : Nat} {batch : List Entry}
    (hlow : x.leader.log.prevIndex ≤ max x.next 1 - 1)
    (ht : x.leader.log.termAt? (max x.next 1 - 1) = some t)
    (hbatch : x.leader.log.Supplies (max x.next 1 - 1) x.leader.settings.batchSize batch)
    (hmessage : x.message = .appendEntries x.leader.id x.leader.term t (max x.next 1 - 1) batch
      x.leader.log.committed)
    (hconcurs : x.follower.log.Concurs x.leader.log (max x.next 1 - 1))
    (hfits : x.follower.log.matchesAt t (max x.next 1 - 1) = true) :
    ∃ last y, x.Leads (.appendAccepted x.leader.term last) y ∧ y.Met ∧ y.next = last + 1 ∧
      (last = x.leader.log.lastIndex ∨ x.next ≤ last) := by
  have hle := h.next_le
  have hsize := h.batchSize
  have hlength := hbatch.length
  have hlast := hbatch.consecutive.lastOf_eq
  have hlead := h.leaderLog.isContiguous
  have hresponds := Node.responds_entries x.leader.id x.leader.id x.leader.log.committed
    h.follows h.term hfits (hconcurs.mergeLapses_eq_nil hlead h.followerLog hbatch)
  rw [← hmessage, hlast] at hresponds
  obtain ⟨y, hleads, hmet, hynext⟩ := h.accepted hresponds (.inl rfl) (by omega) (by omega)
    (hconcurs.meets_batch hlead h.followerLog hbatch hlow ht hfits (Nat.min_le_right ..))
  exact ⟨_, y, hleads, hmet, hynext, by omega⟩

/-- A snapshot is taken over, wherever the other log ends. -/
theorem Searching.takesSnapshot (h : x.Searching) {s : Snapshot}
    (hs : x.leader.log.snapshot = some s) (hnext : x.next ≤ s.about.index)
    (hmessage : x.message = .installSnapshot x.leader.id x.leader.term s) :
    ∃ y, x.Leads (.snapshotAccepted x.leader.term s.about.index) y ∧ y.Met := by
  have hresponds := Node.responds_snapshot x.leader.id x.leader.id s h.follows h.term
  rw [← hmessage] at hresponds
  have hprev : x.leader.log.prevIndex = s.about.index := by rw [Log.prevIndex, hs]
  obtain ⟨y, hleads, hmet, -⟩ := h.toReady.accepted hresponds (.inr rfl)
    (hprev ▸ h.leaderLog.isContiguous.prevIndex_le_lastIndex) (by omega)
    (Log.Concurs.meets_snapshot h.followerLog h.concurs hs)
  exact ⟨y, hleads, hmet⟩

/-- While the leader is searching, it is refused and goes back by one position, or the logs
meet. -/
theorem Searching.round (h : x.Searching) : ∃ reply y, x.Leads reply y ∧
    ((reply.isRefusal = true ∧ y.Searching ∧ y.next + 1 = x.next ∧ 1 ≤ y.next) ∨
      (reply.isRefusal = false ∧ y.Met)) := by
  rcases h.message_cases with ⟨s, hs, hnext, hmessage⟩ | ⟨t, batch, hlow, ht, hbatch, hmessage⟩
  · obtain ⟨y, hleads, hmet⟩ := h.takesSnapshot hs hnext hmessage
    exact ⟨_, y, hleads, .inr ⟨rfl, hmet⟩⟩
  · cases hfits : x.follower.log.matchesAt t (max x.next 1 - 1) with
    | true =>
      obtain ⟨last, y, hleads, hmet, -⟩ := h.toReady.takesBatch hlow ht hbatch hmessage
        (h.concurs.mono (Nat.zero_le _)) hfits
      exact ⟨_, y, hleads, .inr ⟨rfl, hmet⟩⟩
    | false =>
      -- the beginning of the log always fits
      have hback : 1 < x.next := by
        by_contra hle
        have hzero : max x.next 1 - 1 = 0 := by omega
        rw [hzero, Log.termAt?_zero] at ht
        obtain rfl := Option.some.inj ht
        rw [hzero, Log.matchesAt_of_termAt? x.follower.log.termAt?_zero] at hfits
        cases hfits
      have hresponds := Node.responds_mismatch x.leader.id x.leader.id batch
        x.leader.log.committed h.follows h.term hfits
      rw [← hmessage] at hresponds
      obtain ⟨y, hleads, hready, hynext, hflog, hllog⟩ := h.toReady.refused hback hresponds
      refine ⟨_, y, hleads, .inl ⟨rfl, ⟨hready, ?_⟩, hynext, by omega⟩⟩
      rw [hflog, hllog]
      exact h.concurs

/-- Where the logs meet, every round brings the other log further, until it reaches as far. -/
theorem Met.round (h : x.Met) : ∃ reply y, x.Leads reply y ∧ reply.isRefusal = false ∧ y.Met ∧
    (y.next = y.leader.log.lastIndex + 1 ∨ x.next < y.next) := by
  have hpos := h.pos
  have hat : max x.next 1 - 1 = x.next - 1 := by omega
  rcases h.message_cases with ⟨s, hs, hnext, -⟩ | ⟨t, batch, hlow, ht, hbatch, hmessage⟩
  · -- what is compacted away lies before the place where the logs meet
    have hprev : x.leader.log.prevIndex = s.about.index := by rw [Log.prevIndex, hs]
    have hmeets := h.meets.low
    omega
  · obtain ⟨t', ht', hfits⟩ := h.meets.fits
    have hsame : t' = t := by
      rw [hat, ht'] at ht
      exact Option.some.inj ht
    obtain ⟨last, y, hleads, hmet, hynext, hprogress⟩ := h.toReady.takesBatch hlow ht hbatch
      hmessage (hat ▸ h.meets.concurs) (hat ▸ hsame ▸ hfits)
    refine ⟨_, y, hleads, rfl, hmet, ?_⟩
    rw [hynext, hleads.lastIndex]
    omega

/-! ### All rounds -/

/-- How far a repair that began with `start` has got after `k` rounds. The leader has been refused
all the time, or it was refused `r` times before the logs met, and has got on in every round
since. -/
structure Stage (start : Repair) (k : Nat) (x : Repair) : Prop where
  rounds : x.replies.length = k
  leaderId : x.leader.id = start.leader.id
  followerId : x.follower.id = start.follower.id
  standing : x.leader.standing = start.leader.standing
  lastIndex : x.leader.log.lastIndex = start.leader.log.lastIndex
  inReach : start.leader.InReach → x.leader.InReach
  phase : (x.Searching ∧ (∀ m ∈ x.replies, m.isRefusal = true) ∧
      k + max x.next 1 = max start.next 1) ∨
    ∃ r, x.Met ∧ (x.replies.takeWhile (·.isRefusal)).length = r ∧ r < k ∧ r < max start.next 1 ∧
      (x.next = x.leader.log.lastIndex + 1 ∨ k ≤ r + x.next)

theorem Stage.ready {start : Repair} {k : Nat} (h : start.Stage k x) : x.Ready := by
  rcases h.phase with ⟨hx, -⟩ | ⟨r, hx, -⟩
  · exact hx.toReady
  · exact hx.toReady

theorem Stage.round {start : Repair} {k : Nat} (h : start.Stage k x) :
    ∃ y, x.round = some y ∧ start.Stage (k + 1) y := by
  have hnext : ∀ {reply y}, x.Leads reply y → _ → start.Stage (k + 1) y :=
    fun {reply y} hleads hphase =>
      { rounds := by rw [hleads.replies, List.length_append, h.rounds, List.length_singleton]
        leaderId := hleads.leaderId.trans h.leaderId
        followerId := hleads.followerId.trans h.followerId
        standing := hleads.standing.trans h.standing
        lastIndex := hleads.lastIndex.trans h.lastIndex
        inReach := fun hreach => hleads.inReach (h.inReach hreach)
        phase := hphase }
  rcases h.phase with ⟨hx, hrefused, hk⟩ | ⟨r, hx, hwhile, hrk, hr, hprogress⟩
  · obtain ⟨reply, y, hleads, ⟨hreply, hy, hynext, hpos⟩ | ⟨hreply, hy⟩⟩ := hx.round
    · refine ⟨y, hleads.round, hnext hleads (.inl ⟨hy, ?_, by omega⟩)⟩
      rw [hleads.replies]
      exact List.forall_mem_append.2 ⟨hrefused, by simpa using hreply⟩
    · have hpos := hy.pos
      refine ⟨y, hleads.round, hnext hleads (.inr ⟨k, hy, ?_, by omega, by omega, by omega⟩)⟩
      rw [hleads.replies, List.takeWhile_append_of_pos hrefused,
        List.takeWhile_cons_of_neg (by simp [hreply]), List.append_nil, h.rounds]
  · obtain ⟨reply, y, hleads, -, hy, hynext⟩ := hx.round
    have hle := hy.next_le
    have hend := hleads.lastIndex
    have hrounds := h.rounds
    refine ⟨y, hleads.round, hnext hleads (.inr ⟨r, hy, ?_, by omega, hr, by omega⟩)⟩
    rw [hleads.replies, List.takeWhile_append, if_neg (by omega), hwhile]

/-- A repair that begins with a search reaches every round, and after `k` rounds it has got as far
as `Stage k` says. -/
theorem exists_stage {leader follower : Node} {start : Repair}
    (hfirst : first leader follower = some start) (hnone : start.replies = [])
    (hstart : start.Searching) (k : Nat) :
    ∃ x, after leader follower k = some x ∧ start.Stage k x := by
  induction k with
  | zero =>
    refine ⟨start, hfirst, ⟨by rw [hnone]; rfl, rfl, rfl, rfl, rfl, id,
      .inl ⟨hstart, ?_, Nat.zero_add _⟩⟩⟩
    rw [hnone]
    exact nofun
  | succ k ih =>
    obtain ⟨x, hx, hstage⟩ := ih
    obtain ⟨y, hround, hstage'⟩ := hstage.round
    refine ⟨y, ?_, hstage'⟩
    rw [after, hx]
    exact hround

end Repair

/-- A leader repairs the log of any node that does not lead and that has nothing committed that
disagrees with its own log. No transition is given up and no assertion fails; the leader is refused
less often than its next entry for that node has positions before it; and after as many rounds as
these and the entries of its log together it knows that the other log reaches to the end of its own,
and what comes next fits there. The message that is under way is what a heartbeat of the leader
brings, and a heartbeat goes through unless the leader is wrong about a third node. -/
theorem repair_terminates {leader follower : Node} (hrole : leader.role = .leader)
    (hlog : leader.log.WellFormed) (hstable : leader.config.isJoint = false)
    (hsize : 1 ≤ leader.settings.batchSize)
    (hnext : leader.nextIndex.get follower.id ≤ leader.log.nextIndex)
    (hmatch : ∀ p, leader.matchIndex.get p ≤ leader.log.lastIndex)
    (hfollows : follower.role = .follower ∨ follower.role = .candidate)
    (hflog : follower.log.WellFormed) (hterm : follower.term ≤ leader.term)
    (hagrees : ∀ i ≤ follower.log.committed, ∀ t u, follower.log.termAt? i = some t →
      leader.log.termAt? i = some u → t = u) (k : Nat) :
    ∃ x, Repair.after leader follower k = some x ∧ x.replies.length = k ∧
      (x.replies.takeWhile (·.isRefusal)).length ≤ max 1 (leader.nextIndex.get follower.id) - 1 ∧
      x.leader.log.lastIndex = leader.log.lastIndex ∧
      (max 1 (leader.nextIndex.get follower.id) + leader.log.lastIndex ≤ k →
        x.leader.matchIndex.get follower.id = leader.log.lastIndex ∧
        ∃ t, x.leader.log.termAt? leader.log.lastIndex = some t ∧
          x.follower.log.matchesAt t leader.log.lastIndex = true) ∧
      (leader.InReach → ∃ l es, step x.leader (.timeout .heartbeat) = .ok (l, es)) ∧
      ∀ l es, step x.leader (.timeout .heartbeat) = .ok (l, es) → l = x.leader ∧
        (follower.id ∈ leader.members → follower.id ≠ leader.id →
          ∀ m, .send follower.id m ∈ es ↔ m = x.message) := by
  obtain ⟨message, hmessage⟩ := Node.exists_nextMessage hlog.isContiguous hnext
  have hfirst : Repair.first leader follower = some { leader, follower, message } := by
    rw [Repair.first, hmessage]
    rfl
  have hstart : Repair.Searching { leader, follower, message } :=
    ⟨⟨hrole, hlog, hstable, hsize, hnext, hmatch, hmessage, hfollows, hflog, hterm⟩,
      fun i _ hi => hagrees i hi⟩
  obtain ⟨x, hx, hstage⟩ := Repair.exists_stage hfirst rfl hstart k
  have hready := hstage.ready
  have hid : x.follower.id = follower.id := hstage.followerId
  have hpast : (x.replies.takeWhile (·.isRefusal)).length <
      max (leader.nextIndex.get follower.id) 1 := by
    rcases hstage.phase with ⟨hsearching, hrefused, hk⟩ | ⟨r, -, hr, -, hlt, -⟩
    · have hrounds := hstage.rounds
      change k + max x.next 1 = max (leader.nextIndex.get follower.id) 1 at hk
      rw [List.takeWhile_eq_self_iff.2 hrefused]
      omega
    · exact hr ▸ hlt
  refine ⟨x, hx, hstage.rounds, by omega, hstage.lastIndex, fun hk => ?_, fun hreach => ?_,
    fun l es hstep => ?_⟩
  · rcases hstage.phase with ⟨-, -, hrounds⟩ | ⟨r, hmet, -, -, hlt, hprogress⟩
    · change k + max x.next 1 = max (leader.nextIndex.get follower.id) 1 at hrounds
      omega
    · have hknown := hmet.known
      have hle := hready.matchIndex follower.id
      have hend := hstage.lastIndex
      have hbound := hready.next_le
      change r < max (leader.nextIndex.get follower.id) 1 at hlt
      change x.leader.log.lastIndex = leader.log.lastIndex at hend
      have hreached : x.next - 1 = leader.log.lastIndex := by omega
      rw [hid] at hknown
      exact ⟨by omega, hreached ▸ hmet.meets.fits⟩
  · exact Node.exists_heartbeat hready.leads fun p =>
      Node.exists_nextMessage hready.leaderLog.isContiguous (hstage.inReach hreach hready.leads p)
  · obtain ⟨rfl, hsent⟩ := Node.heartbeat_cases hready.leads hstep
    refine ⟨rfl, fun hmember hother m => ?_⟩
    have hmembers : x.leader.members = leader.members :=
      congrArg Standing.members hstage.standing
    have hleader : x.leader.id = leader.id := hstage.leaderId
    obtain ⟨m', hm', hsent⟩ := hsent follower.id (hmembers ▸ hmember) (hleader ▸ hother)
    rw [← hid, hready.message] at hm'
    rw [hsent, ← Except.ok.inj hm']

/-- A new leader of term 3, whose log begins with a snapshot. It sends two entries at a time. -/
def abridging : Node where
  id := ⟨1⟩
  role := .leader
  standing := { term := 3, config := .stable 0 (.ofList [⟨1⟩, ⟨2⟩, ⟨3⟩]) }
  log :=
    { entries :=
        [⟨2, 3, .noop, none⟩, ⟨2, 4, .noop, none⟩, ⟨3, 5, .noop, none⟩, ⟨3, 6, .noop, none⟩]
      committed := 2
      snapshot := some ⟨⟨2, 2, .stable 0 (.ofList [⟨1⟩, ⟨2⟩, ⟨3⟩])⟩, []⟩ }
  nextIndex := .uniform 6
  settings := { batchSize := 2 }

/-- A candidate whose log agrees with the leader's nowhere but at what is committed. -/
def deviant : Node where
  id := ⟨2⟩
  role := .candidate
  standing := { term := 2, config := .stable 0 (.ofList [⟨1⟩, ⟨2⟩, ⟨3⟩]) }
  log :=
    { entries :=
        [⟨1, 1, .noop, none⟩, ⟨1, 2, .noop, none⟩, ⟨1, 3, .noop, none⟩, ⟨1, 4, .noop, none⟩,
          ⟨1, 5, .noop, none⟩]
      committed := 1 }

/-- The leader has to go back until its snapshot is what comes next. -/
theorem repair_terminates_deviant : abridging.log.WellFormed ∧ deviant.log.WellFormed ∧
    ∃ x, Repair.after abridging deviant 12 = some x ∧
      (x.replies.takeWhile (·.isRefusal)).length ≤ 5 ∧ x.leader.matchIndex.get ⟨2⟩ = 6 := by
  have hlog : abridging.log.WellFormed := ⟨by decide, by decide, by decide⟩
  have hflog : deviant.log.WellFormed := ⟨by decide, by decide, by decide⟩
  have hknown : ∀ i ≤ deviant.log.committed, abridging.log.termAt? i = none ∨
      deviant.log.termAt? i = abridging.log.termAt? i := by decide
  have hagrees : ∀ i ≤ deviant.log.committed, ∀ t u, deviant.log.termAt? i = some t →
      abridging.log.termAt? i = some u → t = u := by
    intro i hi t u ht hu
    rcases hknown i hi with hnone | hsame
    · rw [hnone] at hu
      cases hu
    · exact Option.some.inj (ht.symm.trans (hsame.trans hu))
  have hnext : abridging.nextIndex.get deviant.id ≤ abridging.log.nextIndex := by decide
  have hmatch : ∀ p, abridging.matchIndex.get p ≤ abridging.log.lastIndex := fun _ => Nat.zero_le _
  obtain ⟨x, hx, -, hrefused, -, hend, -⟩ := repair_terminates rfl hlog rfl (by decide) hnext hmatch
    (.inr rfl) hflog (by decide) hagrees 12
  exact ⟨hlog, hflog, x, hx, hrefused, (hend (by decide)).1⟩

end Raft
