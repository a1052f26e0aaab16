import Raft.Proofs.Launch
import Raft.Proofs.Tally

/-!
# Where configurations come from

A configuration is put together by a node that looks for the others, told by a leader, or carried by
the log. A `Charter` says what the configurations in each of these places are like. `Node.Chartered`
says so of all that a node knows and `Charter.Sent` of all that a message brings. `Act.chartered` is
the one step lemma: no act breaks the charter, apart from two that need a condition of their own.

* A leader proposes a change to what it is told (`hpropose`);
* a node that meets a leader while it looks for the others takes part with the configuration that it
  has put together so far (`hawait`).
-/

namespace Raft

/-- What configurations are like, by where they occur. -/
structure Charter where
  /-- In force at a node that looks for the others. -/
  provisional : Configuration → Prop
  /-- In force at a node that takes part, now or before its log carried any, or in a snapshot. -/
  inForce : Configuration → Prop
  /-- In force at a leader, and told to others. -/
  leading : Configuration → Prop
  /-- In an entry. -/
  logged : Configuration → Prop
  /-- Who may be found. -/
  member : PeerId → Prop
  /-- How many may be asked for. -/
  enough : Nat → Prop
  inForce_of_leading : ∀ {c}, leading c → inForce c
  leading_of_logged : ∀ {c}, logged c → leading c
  leading_of_inForce : ∀ {c}, inForce c → c.members.isEmpty = false → leading c
  logged_settled : ∀ {c}, leading c → c.isJoint = true → logged c.settled
  provisional_insert : ∀ {c p q}, provisional c → member p → member q →
    provisional (.stable 0 ((c.members.insert p).insert q))
  inForce_of_enough : ∀ {c required}, provisional c → enough required →
    required ≤ c.members.size → inForce c

namespace Charter

variable (k : Charter)

/-- What an entry is like. -/
def Logs (e : Entry) : Prop := ∀ c, e.command.configuration? = some c → k.logged c

/-- What a message brings. -/
def Sent : Message → Prop
  | .appendEntries _ _ _ _ entries _ => ∀ e ∈ entries, k.Logs e
  | .installSnapshot _ _ s => k.inForce s.about.config
  | .changeConfiguration c => k.leading c
  | .submit r => ∀ c, r.command.configuration? = some c → k.logged c
  | .discovered p => k.member p
  | .memberAdded p required => k.member p ∧ k.enough required
  | _ => True

/-- What an input brings. -/
def Good (i : Input) : Prop := i.Says (fun _ => k.Sent) (k.inForce ·.config)

/-- What an effect brings. -/
def Fine (me : PeerId) (e : Effect) : Prop := e.Says (fun _ _ => k.Sent) (k.inForce ·.config) me

theorem sent_of_call {m : Message} (h : m.IsOrdinaryCall) : k.Sent m := by
  cases m with
  | submit r =>
    obtain ⟨payload, hr⟩ := h
    intro c hc
    rw [hr] at hc
    cases hc
  | whoLeads | askRole => trivial
  | _ => exact h.elim

end Charter

/-- All that a node knows keeps to the charter. -/
structure Node.Chartered (k : Charter) (n : Node) : Prop where
  member : k.member n.id
  enough : k.enough n.settings.membersToFind
  tally : n.Tally
  provisional : n.role = .init → k.provisional n.config
  inForce : n.role ≠ .init → k.inForce n.config
  leading : n.role = .leader → k.leading n.config
  /-- Only where there are members does anybody get a vote. -/
  voted : n.role = .candidate → 0 < n.standing.votes → k.leading n.config
  initial : ∀ c, n.initialConfig = some c → k.inForce c
  log : n.log.Holds k.Logs (k.inForce ·.about.config)

variable {k : Charter} {i : Input} {n m : Node} {es : List Effect} {js : List Input}

/-- Nothing changes who a node is and what it was set up with. -/
theorem Act.id_settings (a : Act i n es js m) : m.id = n.id ∧ m.settings = n.settings := by
  cases a with
  | append => exact ⟨(n.turn.same_append ..).id, (n.turn.same_append ..).settings⟩
  | commit => exact ⟨(n.turn.same_commitUntil ..).id, (n.turn.same_commitUntil ..).settings⟩
  | accept => exact ⟨(n.turn.same_takeEntries ..).id, (n.turn.same_takeEntries ..).settings⟩
  | install => exact ⟨(n.turn.same_takeSnapshot ..).id, (n.turn.same_takeSnapshot ..).settings⟩
  | @enroll _ member required _ hrole =>
    obtain ⟨role, hm, -⟩ := Turn.addMember_cases hrole member required
    rw [hm]
    exact ⟨rfl, rfl⟩
  | _ => exact ⟨rfl, rfl⟩

theorem PeerSet.isEmpty_eq_false_of_mem {s : PeerSet} {p : PeerId} (h : p ∈ s) :
    s.isEmpty = false := by
  rw [isEmpty, List.isEmpty_eq_false_iff]
  exact List.ne_nil_of_mem h

/-- Whether a message has nothing to do with votes, and brings nothing of the log. -/
def Message.IsPlain : Message → Prop
  | .requestVote .. => False
  | .grantVote _ => False
  | .appendEntries .. => False
  | .installSnapshot .. => False
  | _ => True

theorem Effect.IsTalk.says_isPlain {e : Effect} {me : PeerId} (h : e.IsTalk me) :
    e.Says (fun _ _ m => m.IsPlain) (fun _ => True) me := by
  have hmessage : ∀ m : Message, m.IsTalk me → m.IsPlain := by
    intro m hm
    cases m with
    | requestVote | grantVote | appendEntries | installSnapshot => exact hm.elim
    | _ => trivial
  cases e with
  | send receiver m => exact hmessage m h
  | forward sender receiver m => exact hmessage m h
  | _ => trivial

/-- Apart from plain messages, an act asks for votes, grants one, or sends what is on the log, if
the node is the leader. -/
theorem Act.effects_cases (a : Act i n es js m) {e : Effect} (he : e ∈ es) :
    e.Says (fun _ _ m => m.IsPlain) (fun _ => True) n.id ∨
    (∃ p t lastTerm lastIndex, e = .send p (.requestVote t n.id lastTerm lastIndex)) ∨
    (∃ sender candidate lastTerm lastIndex, e = .send sender (.grantVote n.term) ∧
      i = .message sender (.requestVote n.term candidate lastTerm lastIndex) ∧
      m.id = n.id ∧ m.term = n.term ∧ m.standing.votedFor = some candidate) ∨
    (∃ p prevTerm prev entries commit, n.role = .leader ∧
      e = .send p (.appendEntries n.id n.term prevTerm prev entries commit)) ∨
    ∃ p s, n.role = .leader ∧ e = .send p (.installSnapshot n.id n.term s) ∧
      n.log.snapshot = some s := by
  cases a with
  | talk htalk =>
    rw [List.mem_singleton.1 he]
    exact .inl htalk.says_isPlain
  | campaign =>
    obtain ⟨p, -, rfl⟩ := List.mem_map.1 he
    exact .inr (.inl ⟨p, _, _, _, rfl⟩)
  | grant hi =>
    rw [List.mem_singleton.1 he]
    exact .inr (.inr (.inl ⟨_, _, _, _, rfl, hi, rfl, rfl, rfl⟩))
  | @sendNext peer message hrole hm =>
    rw [List.mem_singleton.1 he]
    rcases n.nextMessage_cases hm with ⟨_, _, _, rfl⟩ | ⟨s, hs, rfl⟩
    · exact .inr (.inr (.inr (.inl ⟨peer, _, _, _, _, hrole, rfl⟩)))
    · exact .inr (.inr (.inr (.inr ⟨peer, s, hrole, rfl, hs⟩)))
  | commit =>
    obtain ⟨fs, hfs, honState⟩ := n.turn.emits_commitUntil _ true
    rw [hfs] at he
    exact .inl (Effect.says_of_isOnState (honState e he))
  | accept =>
    obtain ⟨fs, honState, hfs⟩ := n.turn.effects_takeEntries _ _ _ _
    rw [hfs] at he
    rcases List.mem_append.1 he with he | he
    · exact .inl (Effect.says_of_isOnState (honState e he))
    · rw [List.mem_singleton.1 he]
      exact .inl trivial
  | install =>
    rcases List.mem_cons.1 he with rfl | he
    · exact .inl trivial
    · rw [List.mem_singleton.1 he]
      exact .inl trivial
  | redirect | covered | capture | probe | await | askAgain | passRequest | tell | passChange =>
    rw [List.mem_singleton.1 he]
    exact .inl trivial
  | _ => cases he

namespace Node.Chartered

/-! ### What a node knows -/

/-- The configuration that the log carries at a position. -/
theorem inForce_configurationAt? (h : n.log.Holds k.Logs (k.inForce ·.about.config)) {j : Nat}
    {c : Configuration} (hc : n.log.configurationAt? j = some c) : k.inForce c := by
  unfold Log.configurationAt? at hc
  rcases Option.or_eq_some_iff.1 hc with hentry | ⟨-, hsnapshot⟩
  · obtain ⟨e, he, hec⟩ := List.exists_of_findSome?_eq_some hentry
    have hmem := (List.mem_filter.1 (List.mem_reverse.1 he)).1
    exact k.inForce_of_leading (k.leading_of_logged (h.entries e hmem c hec))
  · obtain ⟨s, hs, rfl⟩ := Option.map_eq_some_iff.1 hsnapshot
    exact h.snapshot s hs

/-- The configuration that a snapshot records. -/
theorem inForce_configurationAt (h : n.log.Holds k.Logs (k.inForce ·.about.config))
    (hinitial : ∀ c, n.initialConfig = some c → k.inForce c) (hconfig : k.inForce n.config)
    (j : Nat) : k.inForce (n.configurationAt j) := by
  unfold Node.configurationAt
  cases hlog : n.log.configurationAt? j with
  | some c => exact inForce_configurationAt? h hlog
  | none =>
    cases hinit : n.initialConfig with
    | some c => exact hinitial c hinit
    | none => exact hconfig

theorem inForce_of_snapshotDue? (h : n.Chartered k) {about : SnapshotMeta}
    (hdue : n.snapshotDue? = .ok (some about)) : k.inForce about.config := by
  obtain ⟨hrole, -, -, term, -, rfl⟩ := Node.eq_of_snapshotDue? hdue
  exact inForce_configurationAt h.log h.initial (h.inForce hrole) _

/-- A leader appends nothing but what the charter provides for. -/
theorem logs_of_appends {command : Command} {client : Option PeerId} (h : i.Appends command client)
    (hi : k.Good i) : ∀ c, command.configuration? = some c → k.logged c := by
  rcases h with ⟨rfl, -⟩ | ⟨sender, r, rfl, rfl, -⟩
  · intro c hc
    cases hc
  · exact hi

/-! ### Changes of a node -/

/-- A follower that is what it was, but for its log and its configuration. -/
theorem of_follower (h : n.Chartered k) (hid : m.id = n.id) (hsettings : m.settings = n.settings)
    (hrole : m.role = .follower) (hconfig : k.inForce m.config)
    (hinitial : ∀ c, m.initialConfig = some c → k.inForce c)
    (hlog : m.log.Holds k.Logs (k.inForce ·.about.config)) : m.Chartered k where
  member := hid ▸ h.member
  enough := hsettings ▸ h.enough
  tally := .of_role (.inl hrole)
  provisional hr := nomatch hrole.symm.trans hr
  inForce _ := hconfig
  leading hr := nomatch hrole.symm.trans hr
  voted hr := nomatch hrole.symm.trans hr
  initial := hinitial
  log := hlog

/-- A leader, or a candidate, with a configuration that a leader may have. -/
theorem of_leading (h : n.Chartered k) (hid : m.id = n.id) (hsettings : m.settings = n.settings)
    (htally : m.Tally) (hrole : m.role ≠ .init) (hconfig : k.leading m.config)
    (hinitial : ∀ c, m.initialConfig = some c → k.inForce c)
    (hlog : m.log.Holds k.Logs (k.inForce ·.about.config)) : m.Chartered k where
  member := hid ▸ h.member
  enough := hsettings ▸ h.enough
  tally := htally
  provisional hr := absurd hr hrole
  inForce _ := k.inForce_of_leading hconfig
  leading _ := hconfig
  voted _ _ := hconfig
  initial := hinitial
  log := hlog

/-- A node that is what it was, but for its log. -/
theorem of_same (h : n.Chartered k) (hsame : n.Same m) (hconfig : m.config = n.config)
    (hinitial : m.initialConfig = n.initialConfig)
    (hlog : m.log.Holds k.Logs (k.inForce ·.about.config)) : m.Chartered k where
  member := hsame.id ▸ h.member
  enough := hsame.settings ▸ h.enough
  tally := by
    have hmembers : m.members = n.members := congrArg Configuration.members hconfig
    constructor
    all_goals rw [hsame.role, hsame.granted]
    · rw [hsame.votes]
      exact h.tally.init
    · rw [hsame.votes]
      exact h.tally.votes
    · rw [hsame.id, hmembers]
      exact h.tally.voters
  provisional hr := hconfig ▸ h.provisional (hsame.role ▸ hr)
  inForce hr := hconfig ▸ h.inForce (hsame.role ▸ hr)
  leading hr := hconfig ▸ h.leading (hsame.role ▸ hr)
  voted hr hvotes := hconfig ▸ h.voted (hsame.role ▸ hr) (hsame.votes ▸ hvotes)
  initial := hinitial ▸ h.initial
  log := hlog

/-! ### Committing and following -/

variable {t : Turn}

theorem commitUntil (h : t.node.Chartered k) (j : Nat) (respond : Bool) :
    (t.commitUntil j respond).node.Chartered k ∧
      t.Emits (fun e => ∀ me, k.Fine me e) (t.commitUntil j respond) := by
  obtain ⟨capturing, captures, hnode, heffects, hcaptures⟩ := t.commitUntil_cases j respond
  have hcommitted : ({ t.node with log := t.node.log.commit j } : Node).Chartered k :=
    h.of_same ⟨rfl, rfl, rfl, rfl, rfl, rfl, rfl⟩ rfl rfl (h.log.commit j)
  refine ⟨?_, _, heffects, fun e he me => ?_⟩
  · rw [hnode]
    exact hcommitted.of_same ⟨rfl, rfl, rfl, rfl, rfl, rfl, rfl⟩ rfl rfl hcommitted.log
  · rcases List.mem_append.1 he with he | he
    · -- what is applied is nobody else's business
      obtain ⟨entry, -, hentry⟩ := List.mem_filterMap.1 he
      unfold Entry.applied? at hentry
      split at hentry
      · cases hentry
        trivial
      · cases hentry
      · cases hentry
    · rcases hcaptures with rfl | ⟨about, rfl, hdue⟩
      · cases he
      · rw [List.mem_singleton.1 he]
        exact hcommitted.inForce_of_snapshotDue? hdue

theorem syncConfig (h : t.node.Chartered k) (hrole : t.node.role = .follower) :
    t.syncConfig.node.Chartered k := by
  have hinit : t.node.role ≠ .init := by simp [hrole]
  have hwas : ∀ c, t.node.initialConfig.or (some t.node.config) = some c → k.inForce c := by
    intro c hc
    rcases Option.or_eq_some_iff.1 hc with hc | ⟨-, hc⟩
    · exact h.initial c hc
    · cases hc
      exact h.inForce hinit
  unfold Turn.syncConfig
  split
  next c hc =>
    simp only
    split
    next => exact h.of_follower rfl rfl hrole (h.inForce hinit) h.initial h.log
    next =>
      exact h.of_follower rfl rfl hrole (inForce_configurationAt? h.log hc) hwas h.log
  next =>
    split
    next c hc =>
      split
      next => exact h
      next => exact h.of_follower rfl rfl hrole (h.initial c hc) hwas h.log
    next => exact h

theorem takeEntries (h : t.node.Chartered k) (hrole : t.node.role = .follower) (sender : PeerId)
    (prev : Nat) {entries : List Entry} (hentries : ∀ e ∈ entries, k.Logs e) (commit : Nat) :
    (t.takeEntries sender prev entries commit).node.Chartered k ∧
      t.Emits (fun e => ∀ me, k.Fine me e) (t.takeEntries sender prev entries commit) := by
  have hmerged : (t.mergeEntries entries prev).node.Chartered k :=
    h.of_follower rfl rfl hrole (h.inForce (by simp [hrole])) h.initial (h.log.merge hentries prev)
  obtain ⟨u, hu, heffects, htake⟩ := t.takeEntries_cases sender prev entries commit
  have hu : u.node.Chartered k := by
    rcases hu with ⟨-, rfl⟩ | rfl
    · exact h
    · exact hmerged.syncConfig hrole
  obtain ⟨hcommitted, hfine⟩ := hu.commitUntil (min commit (lastOf entries prev)) false
  rw [htake]
  exact ⟨hcommitted, (Turn.Emits.of_eq heffects).trans (hfine.trans (.emit _ fun _ => trivial))⟩

theorem takeSnapshot (h : t.node.Chartered k) (hrole : t.node.role = .follower) {s : Snapshot}
    (hs : k.inForce s.about.config) : (t.takeSnapshot s).node.Chartered k := by
  have hcompacted : ((t.emit (.restore s)).withLog (·.compact s)).node.Chartered k :=
    h.of_follower rfl rfl hrole (h.inForce (by simp [hrole])) h.initial (h.log.compact hs)
  unfold Turn.takeSnapshot
  split
  next => exact hcompacted.syncConfig hrole
  next => exact h

theorem finishCapture (h : t.node.Chartered k) {s : Option Snapshot}
    (hs : ∀ s', s = some s' → k.inForce s'.about.config) :
    (t.finishCapture s).node.Chartered k := by
  have hlog : (t.finishCapture s).node.log.Holds k.Logs (k.inForce ·.about.config) := by
    cases s with
    | none => exact h.log
    | some s => exact h.log.compact (hs s rfl)
  exact h.of_same ⟨rfl, rfl, rfl, rfl, rfl, rfl, rfl⟩ rfl rfl hlog

/-! ### Finding the others -/

/-- A member that is found is enrolled. With enough of them the node takes part. -/
theorem addMember (h : n.Chartered k) (hrole : n.role = .init) {member : PeerId} {required : Nat}
    (hmember : k.member member) (henough : k.enough required) :
    (n.turn.addMember member required).node.Chartered k := by
  have hprovisional := k.provisional_insert (h.provisional hrole) h.member hmember
  obtain ⟨hvotes, hgranted⟩ := h.tally.init hrole
  obtain ⟨role, hm, hcases⟩ := Turn.addMember_cases hrole member required
  rw [hm]
  rcases hcases with ⟨rfl, -⟩ | ⟨rfl, hsize⟩
  · exact ⟨h.member, h.enough, ⟨fun _ => ⟨hvotes, hgranted⟩, nofun, nofun⟩, fun _ => hprovisional,
      nofun, nofun, nofun, h.initial, h.log⟩
  · exact h.of_follower rfl rfl rfl (k.inForce_of_enough hprovisional henough hsize) h.initial h.log

/-- A node that meets a leader takes part, though nobody has voted for it. -/
theorem await (h : n.Chartered k) (hrole : n.role = .init) (hconfig : k.inForce n.config)
    (leader : PeerId) :
    ({ n with role := .candidate, configAskedOf := some leader } : Node).Chartered k where
  member := h.member
  enough := h.enough
  tally := by
    obtain ⟨hvotes, hgranted⟩ := h.tally.init hrole
    refine ⟨nofun, fun _ => ?_, fun _ v hv => ?_⟩
    · rw [hvotes, hgranted]
      rfl
    · rw [hgranted] at hv
      exact absurd hv (PeerSet.not_mem_empty v)
  provisional := nofun
  inForce _ := hconfig
  leading := nofun
  voted _ hpos := absurd (h.tally.init hrole).1 (Nat.ne_of_gt hpos)
  initial := h.initial
  log := h.log

/-! ### Leading -/

theorem sent_nextMessage (h : n.Chartered k) {peer : PeerId} {message : Message}
    (hm : n.nextMessage peer = .ok message) : k.Sent message := by
  rcases n.nextMessage_cases hm with ⟨start, prevTerm, prev, rfl⟩ | ⟨s, hs, rfl⟩
  · exact h.log.batchFrom start n.settings.batchSize
  · exact h.log.snapshot s hs

/-- A configuration that a leader appends is in force at once, if it is newer. -/
theorem append (h : n.Chartered k) (hrole : n.role = .leader) {command : Command}
    (hcommand : ∀ c, command.configuration? = some c → k.logged c) (client : Option PeerId) :
    ((n.turn.appendOwn command client).adoptNewer command).node.Chartered k := by
  have hlog : (n.turn.appendOwn command client).node.log.Holds k.Logs
      (k.inForce ·.about.config) := h.log.append hcommand
  have happended : (n.turn.appendOwn command client).node.Chartered k :=
    h.of_same ⟨rfl, rfl, rfl, rfl, rfl, rfl, rfl⟩ rfl rfl hlog
  unfold Turn.adoptNewer
  split
  next c hc =>
    have hleading := k.leading_of_logged (hcommand c hc)
    split
    next =>
      have hinit : n.role ≠ .init := by simp [hrole]
      refine h.of_leading rfl rfl (.of_role (.inr hrole)) hinit hleading (fun d hd => ?_) hlog
      rcases Option.or_eq_some_iff.1 hd with hd | ⟨-, hd⟩
      · exact h.initial d hd
      · cases hd
        exact h.inForce hinit
    next => exact happended
  next => exact happended

/-- A candidate with the votes of a majority has one at least. -/
theorem leading_of_hasMajority (h : n.Chartered k) (hrole : n.role = .candidate)
    (hmaj : n.standing.hasMajority = true) : k.leading n.config := by
  have hlt : n.standing.config.members.size / 2 < n.standing.votes := of_decide_eq_true hmaj
  exact h.voted hrole (by omega)

/-- Whoever campaigns knows members. -/
theorem leading_of_campaign (h : n.Chartered k)
    (hrole : (n.role = .follower ∧ n.id ∈ n.members) ∨
      (n.role = .candidate ∧ 1 < n.members.size)) : k.leading n.config := by
  rcases hrole with ⟨hrole, hmem⟩ | ⟨hrole, hsize⟩
  · exact k.leading_of_inForce (h.inForce (by simp [hrole])) (PeerSet.isEmpty_eq_false_of_mem hmem)
  · refine k.leading_of_inForce (h.inForce (by simp [hrole])) ?_
    have hlength : 1 < n.config.members.toList.length := hsize
    rw [PeerSet.isEmpty, List.isEmpty_eq_false_iff]
    rintro hnil
    rw [hnil] at hlength
    cases hlength

end Node.Chartered

/-! ### All acts -/

theorem Charter.fine_of_isTalk {e : Effect} {me : PeerId} (h : e.IsTalk me) (hme : k.member me) :
    k.Fine me e := by
  have hmessage : ∀ message : Message, message.IsTalk me → k.Sent message := by
    intro message hm
    cases message with
    | discovered p => exact (show p = me from hm) ▸ hme
    | declineVote | appendRejected | snapshotRejected | whoLeads | leaderIs | roleIs => trivial
    | _ => exact hm.elim
  cases e with
  | send receiver message => exact hmessage message h
  | forward sender receiver message => exact hmessage message h
  | arm | cancel => trivial
  | _ => exact h.elim

/-- No act breaks the charter, provided that a proposal and a node that meets a leader keep to it.
-/
theorem Act.chartered (a : Act i n es js m) (hn : n.Chartered k) (hi : k.Good i)
    (hpropose : n.role = .leader → ∀ sender c, i = .message sender (.changeConfiguration c) →
      k.logged (n.config.transitionTo c))
    (hawait : n.role = .init → ∀ sender leader term prevTerm prev entries commit,
      i = .message sender (.appendEntries leader term prevTerm prev entries commit) →
      k.inForce n.config) :
    m.Chartered k ∧ (∀ e ∈ es, k.Fine n.id e) ∧ ∀ j ∈ js, k.Good j := by
  cases a with
  | talk he => exact ⟨hn, by simpa using k.fine_of_isTalk he hn.member, by simp⟩
  | redirect => exact ⟨hn, by simp [Charter.Fine, Effect.Says, Charter.Sent], by simp⟩
  | again => exact ⟨hn, by simp, by simpa using hi⟩
  | observe _ hrole =>
    refine ⟨hn.of_follower rfl rfl rfl ?_ hn.initial hn.log, by simp, by simp⟩
    show k.inForce (n.standing.advanceTo _).config
    rw [Standing.config_advanceTo]
    exact hn.inForce hrole
  | yield hrole =>
    refine ⟨hn.of_follower rfl rfl rfl (hn.inForce ?_) hn.initial hn.log, by simp, by simp⟩
    rcases hrole with hrole | hrole <;> simp [hrole]
  | campaign hmsg hasked hrole =>
    have htally := (Act.campaign hmsg hasked hrole).tally hn.tally
    have hleading := hn.leading_of_campaign hrole
    refine ⟨hn.of_leading rfl rfl htally nofun hleading hn.initial hn.log, fun e he => ?_, by simp⟩
    obtain ⟨p, -, rfl⟩ := List.mem_map.1 he
    trivial
  | grant _ hrole =>
    refine ⟨hn.of_follower rfl rfl hrole (hn.inForce (by simp [hrole])) hn.initial hn.log, ?_,
      by simp⟩
    simp [Charter.Fine, Effect.Says, Charter.Sent]
  | count hmsg hrole hmem hnew =>
    have htally := (Act.count hmsg hrole hmem hnew).tally hn.tally
    have hinit : n.role ≠ .init := by simp [hrole]
    have hleading :=
      k.leading_of_inForce (hn.inForce hinit) (PeerSet.isEmpty_eq_false_of_mem hmem)
    exact ⟨hn.of_leading rfl rfl htally hinit hleading hn.initial hn.log, by simp, by simp⟩
  | elect _ hrole hmaj =>
    have hleading := hn.leading_of_hasMajority hrole hmaj
    exact ⟨hn.of_leading rfl rfl (.of_role (.inr rfl)) nofun hleading hn.initial hn.log, by simp,
      by simp⟩
  | append hrole happends =>
    exact ⟨hn.append hrole (Node.Chartered.logs_of_appends happends hi) _, by simp, by simp⟩
  | sendNext _ hm =>
    refine ⟨hn, fun e he => ?_, by simp⟩
    rw [List.mem_singleton.1 he]
    exact hn.sent_nextMessage hm
  | backOff | record | dismiss =>
    -- nothing changes that the charter is about
    have htally : n.Tally := hn.tally
    exact ⟨⟨hn.member, hn.enough, ⟨htally.init, htally.votes, htally.voters⟩, hn.provisional,
      hn.inForce, hn.leading, hn.voted, hn.initial, hn.log⟩, by simp, by simp⟩
  | commit =>
    obtain ⟨hm, fs, hfs, hfine⟩ := Node.Chartered.commitUntil (t := n.turn) hn _ true
    refine ⟨hm, fun e he => ?_, by simp⟩
    rw [hfs] at he
    exact hfine e he n.id
  | conclude hrole hjoint =>
    refine ⟨hn, by simp, fun j hj => ?_⟩
    rw [List.mem_singleton.1 hj]
    rintro c hc
    cases hc
    exact k.logged_settled (hn.leading hrole) hjoint
  | follow hrole =>
    exact ⟨hn.of_follower rfl rfl hrole (hn.inForce (by simp [hrole])) hn.initial hn.log, by simp,
      by simp⟩
  | accept hmsg hrole =>
    subst hmsg
    obtain ⟨hm, fs, hfs, hfine⟩ := Node.Chartered.takeEntries (t := n.turn) hn hrole _ _ hi _
    refine ⟨hm, fun e he => ?_, by simp⟩
    rw [hfs] at he
    exact hfine e he n.id
  | install hmsg hrole =>
    subst hmsg
    exact ⟨Node.Chartered.takeSnapshot (t := n.turn) hn hrole hi,
      by simp [Charter.Fine, Effect.Says, Charter.Sent], by simp⟩
  | covered => exact ⟨hn, by simp [Charter.Fine, Effect.Says, Charter.Sent], by simp⟩
  | capture _ hdue =>
    refine ⟨hn.of_same ⟨rfl, rfl, rfl, rfl, rfl, rfl, rfl⟩ rfl rfl hn.log, fun e he => ?_, by simp⟩
    rw [List.mem_singleton.1 he]
    exact hn.inForce_of_snapshotDue? hdue
  | finish hmsg =>
    refine ⟨Node.Chartered.finishCapture (t := n.turn) hn fun s hs => ?_, by simp, by simp⟩
    subst hs
    rcases hmsg with rfl | ⟨hnone, -⟩
    · exact hi
    · cases hnone
  | probe => exact ⟨hn, by simp [Charter.Fine, Effect.Says, Charter.Sent], by simp⟩
  | meet _ hmsg =>
    refine ⟨hn, by simp, fun j hj => ?_⟩
    rw [List.mem_singleton.1 hj]
    rcases hmsg with ⟨-, rfl⟩ | ⟨sender, rfl⟩
    · exact ⟨hn.member, hn.enough⟩
    · exact ⟨hi, hn.enough⟩
  | enroll hmsg hrole =>
    subst hmsg
    exact ⟨hn.addMember hrole hi.1 hi.2, by simp, by simp⟩
  | await hmsg hrole =>
    exact ⟨hn.await hrole (hawait hrole _ _ _ _ _ _ _ hmsg) _,
      by simp [Charter.Fine, Effect.Says, Charter.Sent], by simp⟩
  | askAgain | passRequest => exact ⟨hn, by simp [Charter.Fine, Effect.Says, Charter.Sent], by simp⟩
  | tell _ hrole =>
    refine ⟨hn, fun e he => ?_, by simp⟩
    rw [List.mem_singleton.1 he]
    exact hn.leading hrole
  | enter hmsg | adopt hmsg =>
    subst hmsg
    exact ⟨hn.of_follower rfl rfl rfl (k.inForce_of_leading hi) hn.initial hn.log, by simp,
      by simp⟩
  | passChange hmsg =>
    subst hmsg
    refine ⟨hn, fun e he => ?_, by simp⟩
    rw [List.mem_singleton.1 he]
    exact hi
  | propose hmsg hrole =>
    refine ⟨hn, by simp, fun j hj => ?_⟩
    rw [List.mem_singleton.1 hj]
    rintro c hc
    cases hc
    exact hpropose hrole _ _ hmsg

end Raft
