import Raft.Proofs.Aligning
import Raft.Proofs.CommitRule

/-!
# What a leader and a follower say to each other

The transitions of a leader that sends its log to one other node and of that node, in full: what
each makes of a message, that it is not given up, and what it sends back.

* `Node.receive?`, a transition on a message where no assertion fails, and `messagesTo`, what it has
  sent to a node;
* `Node.Responds`, the one reply of a node that does not lead: to entries that fit, to entries that
  do not fit (`Node.responds_mismatch`), and to a snapshot;
* `Node.exists_noted` and `Node.receive?_rejected`, what the leader makes of it;
* `Node.exists_heartbeat` and `Node.heartbeat_cases`, what a heartbeat brings to a member.
-/

namespace Raft

/-- The message that an effect sends to `p`. -/
def Effect.sentTo? (p : PeerId) : Effect → Option Message
  | .send q m => if q = p then some m else none
  | _ => none

/-- All that effects send to `p`, in order. -/
def messagesTo (p : PeerId) (es : List Effect) : List Message := es.filterMap (·.sentTo? p)

section MessagesTo

variable {p : PeerId} {m : Message} {es fs : List Effect}

theorem messagesTo_append (p : PeerId) (es fs : List Effect) :
    messagesTo p (es ++ fs) = messagesTo p es ++ messagesTo p fs := List.filterMap_append

theorem messagesTo_of_silent (h : ∀ e ∈ es, e.IsSilent) : messagesTo p es = [] := by
  refine List.filterMap_eq_nil_iff.2 fun e he => ?_
  cases e with
  | send => exact (h _ he).elim
  | _ => rfl

theorem messagesTo_send (p : PeerId) (m : Message) : messagesTo p [.send p m] = [m] := by
  simp [messagesTo, Effect.sentTo?]

end MessagesTo

namespace Node

variable {n f : Node} {t : Turn} {sender : PeerId} {m : Message} {es : List Effect}

/-- The transition on a message, if it goes through and every assertion of the log holds. -/
def receive? (n : Node) (sender : PeerId) (m : Message) : Option (Node × List Effect) :=
  match n.process (.message sender m) with
  | .ok t => if t.lapses = [] then some (t.node, t.effects) else none
  | .error _ => none

theorem receive?_eq (h : n.process (.message sender m) = .ok t) (hlapses : t.lapses = []) :
    n.receive? sender m = some (t.node, t.effects) := by
  rw [receive?, h]
  exact if_pos hlapses

/-! ### A node that does not lead -/

/-- The turn from which on a node considers, as a follower, what a leader of term `T` sends. A
candidate has given way before. -/
structure Attends (n : Node) (T : Nat) (t : Turn) : Prop where
  id : t.node.id = n.id
  role : t.node.role = .follower
  term : t.node.term ≤ T
  log : t.node.log = n.log
  silent : ∀ e ∈ t.effects, e.IsSilent
  pending : t.pending = []
  lapses : t.lapses = []
  entries : ∀ sender leader prevTerm prev entries commit, n.process
    (.message sender (.appendEntries leader T prevTerm prev entries commit)) =
      .ok (t.acceptEntries sender leader T prevTerm prev entries commit)
  snapshot : ∀ sender leader s, n.process (.message sender (.installSnapshot leader T s)) =
    .ok (t.acceptSnapshot sender leader T s)

end Node

namespace Turn

variable {t u : Turn} {sender leader : PeerId} {m refusal : Message} {T : Nat}

/-- A refusal in the leader's own term makes it look further back. -/
theorem onRejected_eq (hrole : t.node.role = .leader) (sender : PeerId) :
    t.onRejected sender t.node.term =
      ({ t with node := { t.node with nextIndex := t.node.nextIndex.backOff sender } } :
        Turn).sendEntries sender := by
  have hinit : t.node.role ≠ .init := by simp [hrole]
  rw [onRejected, onReply, if_neg hinit, if_neg (Nat.lt_irrefl _), if_neg (Nat.lt_irrefl _),
    if_pos hrole]

theorem onRival_of_candidate (hrole : t.node.role = .candidate) (hterm : t.node.term ≤ T) :
    t.onRival sender leader T m refusal = .ok ((t.stepDown T).redeliver sender m) := by
  have hgives : t.node.term < T ∨ (T = t.node.term ∧ t.node.role = .candidate) :=
    (Nat.lt_or_eq_of_le hterm).imp_right fun h => ⟨h.symm, hrole⟩
  rw [onRival, if_pos hgives, stepDownTo_eq_of_le hterm]
  rfl

end Turn

namespace Node

variable {n f : Node} {t : Turn} {sender leader : PeerId} {m : Message} {T : Nat}

theorem attends_of_candidate (hrole : n.role = .candidate) (hterm : n.term ≤ T) :
    n.Attends T (n.turn.stepDown T) := by
  have hclean := Turn.clean_stepDown n.turn T
  have hfollower := Turn.role_stepDown n.turn T
  have hnode : (n.turn.stepDown T).node =
      ({ n with standing := (n.standing.advanceTo T).resign } : Node).inRole .follower :=
    Turn.node_goto ..
  have hturn : n.turn.node.role = .candidate := hrole
  have hterm' : (n.turn.stepDown T).node.term = T := by
    rw [hnode]
    exact Standing.term_advanceTo hterm
  have hdone : (n.turn.stepDown T).pending = [] := hclean.pending
  have hself : ({ n.turn.stepDown T with pending := [] } : Turn) = n.turn.stepDown T := by
    rw [← hdone]
  -- the message is left for the follower, which does not leave it again
  have hagain : ∀ {i : Input} {v : Turn}, n.turn.dispatch i =
      .ok { n.turn.stepDown T with pending := i :: (n.turn.stepDown T).pending } →
      (n.turn.stepDown T).dispatch i = .ok v → v.pending = (n.turn.stepDown T).pending →
      n.process i = .ok v := fun {i v} hfirst hsecond hend => by
    rw [hdone] at hfirst
    exact process_of_next hfirst (hself.symm ▸ hsecond) (hend.trans hdone)
  refine ⟨by rw [hnode]; rfl, hfollower, Nat.le_of_eq hterm', by rw [hnode]; rfl, fun e he => ?_,
    hdone, hclean.lapses, fun sender leader prevTerm prev entries commit => ?_,
    fun sender leader s => ?_⟩
  · obtain ⟨es, heffects, htimers⟩ :=
      (n.turn.withStanding fun s => (s.advanceTo T).resign).emits_goto .follower
    have he' : e ∈ es := by
      rw [Turn.stepDown, heffects] at he
      exact he
    cases e with
    | send | forward => exact (htimers _ he').elim
    | _ => trivial
  · refine hagain ?_ ?_ ((n.turn.stepDown T).pending_acceptEntries ..)
    · show n.turn.onAppendEntries .. = _
      rw [Turn.onAppendEntries, hturn]
      exact Turn.onRival_of_candidate hrole hterm
    · show (n.turn.stepDown T).onAppendEntries .. = _
      rw [Turn.onAppendEntries, hfollower]
  · refine hagain ?_ ?_ (Turn.clean_acceptSnapshot ..).pending
    · show n.turn.onInstallSnapshot .. = _
      rw [Turn.onInstallSnapshot, hturn]
      exact Turn.onRival_of_candidate hrole hterm
    · show (n.turn.stepDown T).onInstallSnapshot .. = _
      rw [Turn.onInstallSnapshot, hfollower]

theorem exists_attends (hrole : n.role = .follower ∨ n.role = .candidate) (hterm : n.term ≤ T) :
    ∃ t, n.Attends T t := by
  rcases hrole with hrole | hrole
  · exact ⟨n.turn, rfl, hrole, hterm, rfl, nofun, rfl, rfl,
      fun _ _ _ _ _ _ => process_appendEntries hrole ..,
      fun _ _ _ => process_installSnapshot hrole ..⟩
  · exact ⟨_, attends_of_candidate hrole hterm⟩

/-- What a node comes to when it takes up a message of a leader of term `T`: it follows the leader,
with the log `log`, and it has sent one reply to `sender`. -/
def Responds (n : Node) (sender : PeerId) (m : Message) (T : Nat) (reply : Message) (log : Log) :
    Prop :=
  ∃ f es, n.receive? sender m = some (f, es) ∧ messagesTo sender es = [reply] ∧ f.id = n.id ∧
    f.role = .follower ∧ f.term = T ∧ f.log = log

variable {prevTerm prev : Nat} {entries : List Entry}

/-- Heeding a leader sends nothing. -/
theorem Attends.messagesTo_heed (h : n.Attends T t) (leader : PeerId) :
    messagesTo sender (t.heed leader T).effects = [] := by
  refine messagesTo_of_silent fun e he => ?_
  rcases List.mem_append.1 he with he | he
  · exact h.silent e he
  · rw [List.mem_singleton.1 he]
    trivial

theorem responds_mismatch (sender leader : PeerId) (entries : List Entry) (commit : Nat)
    (hrole : n.role = .follower ∨ n.role = .candidate) (hterm : n.term ≤ T)
    (hmatch : n.log.matchesAt prevTerm prev = false) :
    n.Responds sender (.appendEntries leader T prevTerm prev entries commit) T
      (.appendRejected T) n.log := by
  obtain ⟨t, ht⟩ := exists_attends hrole hterm
  have hprocess := ht.entries sender leader prevTerm prev entries commit
  rcases t.acceptEntries_cases sender leader T prevTerm prev entries commit with
    ⟨hlt, -⟩ | ⟨-, ⟨hfits, -⟩ | ⟨-, heq⟩⟩
  · exact absurd hlt (Nat.not_lt.2 ht.term)
  · change t.node.log.matchesAt prevTerm prev = true at hfits
    rw [ht.log, hmatch] at hfits
    cases hfits
  · rw [heq] at hprocess
    refine ⟨_, _, receive?_eq hprocess ht.lapses, ?_, ht.id, ht.role,
      t.term_heed leader ht.term, ht.log⟩
    show messagesTo sender ((t.heed leader T).effects ++ [.send sender (.appendRejected T)]) = _
    rw [messagesTo_append, ht.messagesTo_heed, messagesTo_send]
    rfl

theorem responds_entries (sender leader : PeerId) (commit : Nat)
    (hrole : n.role = .follower ∨ n.role = .candidate) (hterm : n.term ≤ T)
    (hmatch : n.log.matchesAt prevTerm prev = true)
    (hspares : n.log.mergeLapses entries prev = []) :
    n.Responds sender (.appendEntries leader T prevTerm prev entries commit) T
      (.appendAccepted T (lastOf entries prev))
      ((n.log.merge entries prev).commit (min commit (lastOf entries prev))) := by
  obtain ⟨t, ht⟩ := exists_attends hrole hterm
  have hprocess := ht.entries sender leader prevTerm prev entries commit
  rcases t.acceptEntries_cases sender leader T prevTerm prev entries commit with
    ⟨hlt, -⟩ | ⟨-, ⟨-, heq⟩ | ⟨hother, -⟩⟩
  · exact absurd hlt (Nat.not_lt.2 ht.term)
  · have hlog : (t.heed leader T).node.log = n.log := ht.log
    have hsame := Turn.same_takeEntries (t := t.heed leader T) sender prev entries commit
    have hclean : (t.heed leader T).Clean
        ((t.heed leader T).takeEntries sender prev entries commit) :=
      Turn.clean_takeEntries sender commit (hlog.symm ▸ hspares)
    obtain ⟨fs, honState, heffects⟩ :=
      (t.heed leader T).effects_takeEntries sender prev entries commit
    have hsilent : ∀ e ∈ fs, e.IsSilent := fun e he => Effect.isSilent_of_isOnState (honState e he)
    rw [heq] at hprocess
    refine ⟨_, _, receive?_eq hprocess (hclean.lapses.trans ht.lapses), ?_,
      hsame.id.trans ht.id, hsame.role.trans ht.role,
      hsame.term.trans (t.term_heed leader ht.term), ?_⟩
    · rw [heffects, messagesTo_append, messagesTo_append, ht.messagesTo_heed,
        messagesTo_of_silent hsilent, messagesTo_send, t.term_heed leader ht.term]
      rfl
    · rw [Turn.log_takeEntries, hlog]
  · change t.node.log.matchesAt prevTerm prev = false at hother
    rw [ht.log, hmatch] at hother
    cases hother

theorem responds_snapshot (sender leader : PeerId) (s : Snapshot)
    (hrole : n.role = .follower ∨ n.role = .candidate) (hterm : n.term ≤ T) :
    n.Responds sender (.installSnapshot leader T s) T (.snapshotAccepted T s.about.index)
      (if n.log.committed < s.about.index then n.log.compact s else n.log) := by
  obtain ⟨t, ht⟩ := exists_attends hrole hterm
  have hprocess := ht.snapshot sender leader s
  rcases t.acceptSnapshot_cases sender leader T s with ⟨hlt, -⟩ | ⟨-, heq⟩
  · exact absurd hlt (Nat.not_lt.2 ht.term)
  · have hlog : (t.heed leader T).node.log = n.log := ht.log
    have hsame := Turn.same_takeSnapshot (t := t.heed leader T) s
    have hclean := Turn.clean_acceptSnapshot t sender leader T s
    have htaken : messagesTo sender ((t.heed leader T).takeSnapshot s).effects = [] ∧
        ((t.heed leader T).takeSnapshot s).node.log =
          if n.log.committed < s.about.index then n.log.compact s else n.log := by
      rw [← hlog]
      rcases Nat.lt_or_ge (t.heed leader T).node.log.committed s.about.index with hlt | hge
      · rw [if_pos hlt, Turn.effects_takeSnapshot hlt, messagesTo_append, ht.messagesTo_heed,
          Turn.takeSnapshot, if_pos hlt]
        exact ⟨rfl, (Turn.synced_syncConfig _).1⟩
      · rw [if_neg (Nat.not_lt.2 hge), Turn.takeSnapshot, if_neg (Nat.not_lt.2 hge)]
        exact ⟨ht.messagesTo_heed leader, rfl⟩
    refine ⟨_, _, receive?_eq hprocess (hclean.lapses.trans ht.lapses), ?_, ?_⟩
    · rw [heq]
      show messagesTo sender (((t.heed leader T).takeSnapshot s).effects ++
        [.send sender (.snapshotAccepted T s.about.index)]) = _
      rw [messagesTo_append, htaken.1, messagesTo_send]
      rfl
    · rw [heq]
      exact ⟨hsame.id.trans ht.id, hsame.role.trans ht.role,
        hsame.term.trans (t.term_heed leader ht.term), htaken.2⟩

/-! ### A leader -/

/-- What becomes of a leader that takes note of a log that reaches up to `last`: it knows that, and
it may have committed more of its own log. -/
structure Noted (n : Node) (sender : PeerId) (last : Nat) (l : Node) : Prop where
  id : l.id = n.id
  role : l.role = n.role
  standing : l.standing = n.standing
  settings : l.settings = n.settings
  nextIndex : l.nextIndex = n.nextIndex.raise sender (last + 1)
  matchIndex : l.matchIndex = n.matchIndex.raise sender last
  log : ∃ c, l.log = { n.log with committed := c } ∧ n.log.committed ≤ c ∧ c ≤ n.log.lastIndex

theorem Noted.lastIndex {l : Node} {last : Nat} (h : n.Noted sender last l) :
    l.log.lastIndex = n.log.lastIndex := by
  obtain ⟨c, hc, -⟩ := h.log
  rw [hc]
  rfl

theorem Noted.wellFormed {l : Node} {last : Nat} (h : n.Noted sender last l)
    (hlog : n.log.WellFormed) : l.log.WellFormed := by
  obtain ⟨c, hc, hlow, hhigh⟩ := h.log
  rw [hc]
  exact ⟨hlog.contiguous, Nat.le_trans hlog.prevIndex_le_committed hlow, hhigh⟩

theorem Noted.inReach {l : Node} {last : Nat} (h : n.Noted sender last l) (hreach : n.InReach)
    (hlast : last ≤ n.log.lastIndex) : l.InReach := by
  intro hrole
  rw [h.nextIndex, h.lastIndex]
  exact Progress.get_raise_le_of_le (hreach (h.role ▸ hrole)) sender (Nat.succ_le_succ hlast)

/-- What is committed on the leader's log does not matter for where another log meets it. -/
theorem Noted.meets {l : Node} {last k : Nat} {log : Log} (h : n.Noted sender last l)
    (hmeets : log.Meets n.log k) : log.Meets l.log k := by
  obtain ⟨c, hc, -⟩ := h.log
  rw [hc]
  exact ⟨hmeets.low, hmeets.fits, hmeets.concurs⟩

/-- A leader takes note of an acknowledgement and sends nothing. -/
theorem exists_noted (sender : PeerId) {last : Nat} (hrole : n.role = .leader)
    (hlog : n.log.WellFormed) (hstable : n.config.isJoint = false)
    (hmatch : ∀ p, n.matchIndex.get p ≤ n.log.lastIndex) (hlast : last ≤ n.log.lastIndex)
    (hm : m = .appendAccepted n.term last ∨ m = .snapshotAccepted n.term last) :
    ∃ l es, n.receive? sender m = some (l, es) ∧ n.Noted sender last l ∧ ∀ e ∈ es, e.IsSilent := by
  have hquorum : (n.matchIndex.raise sender last).quorumIndex n.config ≤ n.log.lastIndex :=
    Progress.quorumIndex_le (Progress.get_raise_le_of_le hmatch sender hlast)
  have haccepted : n.turn.onAccepted sender n.term last =
      .ok (n.noting sender last).turn.advanceCommit := Turn.onAccepted_eq hrole hlast sender
  obtain ⟨v, capturing, hadvance, hpending, ⟨es, heffects, honState⟩, hnode⟩ :=
    Turn.advanceCommit_cases (t := (n.noting sender last).turn) hlog.isAnchored hquorum
  have hclean := Turn.clean_advanceCommit (t := (n.noting sender last).turn) hstable
  have hstays : v.finishChange = v := Turn.finishChange_of_not fun h => by
    rw [hnode] at h
    exact absurd (hstable.symm.trans h.1) Bool.false_ne_true
  rw [hadvance, hstays] at haccepted hclean
  have hdispatch : n.turn.dispatch (.message sender m) = .ok v := by
    rcases hm with rfl | rfl
    · exact haccepted
    · exact haccepted
  have hreceive := receive?_eq (process_of_done hdispatch hclean.pending) hclean.lapses
  rw [hnode] at hreceive
  have hwithin := Nat.le_trans (n.commitTarget_le _)
    (Nat.max_le.2 ⟨hlog.committed_le_lastIndex, hquorum⟩)
  exact ⟨_, _, hreceive,
    ⟨rfl, rfl, rfl, rfl, rfl, rfl, _, rfl, n.committed_le_commitTarget _, hwithin⟩,
    fun e he => Effect.isSilent_of_isOnState (honState e (by rwa [heffects] at he))⟩

/-- A leader that is told that its entries do not fit tries an earlier place at once. -/
theorem receive?_rejected (hrole : n.role = .leader)
    (hm : ({ n with nextIndex := n.nextIndex.backOff sender } : Node).nextMessage sender = .ok m) :
    n.receive? sender (.appendRejected n.term) =
      some ({ n with nextIndex := n.nextIndex.backOff sender }, [.send sender m]) := by
  have hdispatch : n.turn.dispatch (.message sender (.appendRejected n.term)) =
      .ok (({ n with nextIndex := n.nextIndex.backOff sender } : Node).turn.send sender m) := by
    show n.turn.onRejected sender n.turn.node.term = _
    rw [Turn.onRejected_eq hrole, Turn.sendEntries]
    show (({ n with nextIndex := n.nextIndex.backOff sender } : Node).nextMessage sender).map _ = _
    rw [hm]
    rfl
  exact receive?_eq (process_of_done hdispatch rfl) rfl

end Node

namespace Turn

variable {t u : Turn} {p : PeerId} {m : Message}

/-- What a leader sends to some peers, one after the other. -/
theorem exists_sent {peers : List PeerId} (h : peers.foldlM sendEntries t = .ok u) :
    ∃ es, u.effects = t.effects ++ es ∧ (∀ p ∈ peers, ∃ m, t.node.nextMessage p = .ok m) ∧
      ∀ p m, .send p m ∈ es ↔ p ∈ peers ∧ t.node.nextMessage p = .ok m := by
  induction peers generalizing t with
  | nil =>
    obtain rfl := Except.ok.inj h
    exact ⟨[], (List.append_nil _).symm, by simp, by simp⟩
  | cons q rest ih =>
    rw [List.foldlM_cons] at h
    cases hq : t.sendEntries q with
    | error e =>
      rw [hq] at h
      cases h
    | ok v =>
      rw [hq] at h
      obtain ⟨m', hm', rfl⟩ := sendEntries_eq hq
      obtain ⟨es, hes, hall, hmem⟩ := ih h
      refine ⟨.send q m' :: es, by rw [hes]; exact List.append_assoc ..,
        List.forall_mem_cons.2 ⟨⟨m', hm'⟩, hall⟩, fun p m => ?_⟩
      rw [List.mem_cons, List.mem_cons, hmem p m]
      constructor
      · rintro (heq | ⟨hp, hm⟩)
        · obtain ⟨rfl, rfl⟩ := Effect.send.inj heq
          exact ⟨.inl rfl, hm'⟩
        · exact ⟨.inr hp, hm⟩
      · rintro ⟨rfl | hp, hm⟩
        · obtain rfl := Except.ok.inj (hm'.symm.trans hm)
          exact .inl rfl
        · exact .inr ⟨hp, hm⟩

end Turn

namespace Node

variable {n f : Node} {es : List Effect}

theorem dispatch_heartbeat (hrole : n.role = .leader) :
    n.turn.dispatch (.timeout .heartbeat) = n.turn.replicate.map (·.arm .heartbeat) := if_pos hrole

/-- A heartbeat goes through if there is something to send to everybody. -/
theorem exists_heartbeat (hrole : n.role = .leader) (h : ∀ p, ∃ m, n.nextMessage p = .ok m) :
    ∃ f es, step n (.timeout .heartbeat) = .ok (f, es) := by
  obtain ⟨u, hu, hclean, -⟩ := Turn.succeeds_replicate (t := n.turn) h
  have hdispatch : n.turn.dispatch (.timeout .heartbeat) = .ok (u.arm .heartbeat) := by
    rw [dispatch_heartbeat hrole, hu]
    rfl
  exact ⟨_, _, step_of_process (process_of_done hdispatch hclean.pending)⟩

/-- A heartbeat that goes through leaves the leader as it is, and brings one message to every other
member, which is what comes next for it. -/
theorem heartbeat_cases (hrole : n.role = .leader)
    (h : step n (.timeout .heartbeat) = .ok (f, es)) :
    f = n ∧ ∀ p ∈ n.members, p ≠ n.id →
      ∃ m, n.nextMessage p = .ok m ∧ ∀ m', .send p m' ∈ es ↔ m' = m := by
  obtain ⟨u, hu, rfl, rfl⟩ := exists_process_of_step h
  obtain ⟨v, hv, hrest⟩ := exists_dispatch hu
  rw [dispatch_heartbeat hrole] at hv
  obtain ⟨w, hw, rfl⟩ := Turn.exists_of_map hv
  have hdone : (w.arm .heartbeat).pending = [] := (Turn.clean_replicate hw).pending
  rw [Turn.settle_of_nil hdone] at hrest
  obtain rfl := Except.ok.inj hrest
  obtain ⟨es, hes, hall, hmem⟩ := Turn.exists_sent hw
  have heffects : (w.arm .heartbeat).effects = es ++ [.arm .heartbeat] := by
    show w.effects ++ [.arm .heartbeat] = _
    rw [hes]
    rfl
  refine ⟨Turn.node_replicate hw, fun p hp hne => ?_⟩
  have hpeer : p ∈ (n.standing.membersWithout n.id).toList := by
    rw [PeerSet.mem_toList]
    exact PeerSet.mem_erase.2 ⟨hp, hne⟩
  obtain ⟨m, hm⟩ := hall p hpeer
  change n.nextMessage p = .ok m at hm
  refine ⟨m, hm, fun m' => ?_⟩
  have hsent : .send p m' ∈ es ↔ n.nextMessage p = .ok m' :=
    (hmem p m').trans (and_iff_right hpeer)
  rw [heffects, List.mem_append, List.mem_singleton, hsent, hm, Except.ok.injEq, eq_comm]
  exact or_iff_left nofun

end Node

end Raft
