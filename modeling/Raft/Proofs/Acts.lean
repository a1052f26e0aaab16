import Raft.Node.Step

/-!
# What a transition can do

An `Act` is one thing that a node can do in the course of processing an input, whatever the state
of the node and wherever the input comes from: what becomes of the node, the effects, the inputs
that are raised, and everything that has to be the case before. `Acts` chains those of one input,
and `Course` goes on to the inputs raised. `Raft.Proofs.Transitions` shows that every transition is
a course, so a property has to be checked for the acts only.

* `Discipline`, a property that every act keeps, with what it asks of inputs and promises of
  effects, and `Discipline.step`, every transition keeps it;
* `Node.Same`, what stays the same when a log is changed or committed.
-/

namespace Raft

/-! ### Inputs and effects -/

/-- The term that an input carries. -/
def Input.term? : Input → Option Nat
  | .message _ m => m.term?
  | _ => none

/-- Whether an input is one that a candidate or a leader leaves to the follower it becomes. -/
def Input.IsForFollower : Input → Prop
  | .message _ (.requestVote ..) => True
  | .message _ (.appendEntries ..) => True
  | .message _ (.installSnapshot ..) => True
  | _ => False

/-- Whether an input is one that a node raises for itself. -/
def Input.IsOwn : Input → Prop
  | .message _ (.memberAdded ..) => True
  | .message _ (.submit _) => True
  | _ => False

/-- Whether an election can be won on an input, in the term `t`. -/
def Input.Decides (i : Input) (t : Nat) : Prop :=
  i = .timeout .election ∨ ∃ voter, i = .message voter (.grantVote t)

/-- Whether a leader appends a command on an input: the one submitted, or its own empty one. -/
def Input.Appends (i : Input) (command : Command) (client : Option PeerId) : Prop :=
  (command = .noop ∧ client = none) ∨
    ∃ sender r, i = .message sender (.submit r) ∧ command = r.command ∧ client = some r.client

/-- Whether a message is nothing but a refusal, a question for the leader or an answer to a
question. The node `me` introduces itself, and nobody else. -/
def Message.IsTalk (me : PeerId) : Message → Prop
  | .declineVote _ => True
  | .appendRejected _ => True
  | .snapshotRejected _ => True
  | .discovered p => p = me
  | .whoLeads => True
  | .leaderIs _ none => True
  | .roleIs _ => True
  | _ => False

/-- Whether an effect only sets a timer or sends such a message. -/
def Effect.IsTalk (me : PeerId) : Effect → Prop
  | .send _ m => m.IsTalk me
  | .forward _ _ m => m.IsTalk me
  | .arm _ => True
  | .cancel _ => True
  | _ => False

/-- Whether an effect sets or stops a timer. -/
def Effect.IsTimer : Effect → Prop
  | .arm _ => True
  | .cancel _ => True
  | _ => False

theorem Effect.IsTimer.isTalk {e : Effect} (h : e.IsTimer) (me : PeerId) : e.IsTalk me := by
  cases e with
  | arm | cancel => trivial
  | _ => cases h

namespace Node

/-- A transition of the node that has only begun. -/
def turn (n : Node) : Turn := { node := n }

/-- The node in a role. A candidacy that is left takes its votes along. -/
def inRole (n : Node) (role : Role) : Node :=
  { n with
    role := role
    granted := if n.role = .candidate ∧ role ≠ .candidate then .empty else n.granted }

/-- A capture that is due covers all that is committed. -/
theorem eq_of_snapshotDue? {n : Node} {about : SnapshotMeta}
    (h : n.snapshotDue? = .ok (some about)) :
    n.role ≠ .init ∧ n.log.committed ≠ 0 ∧ n.log.prevIndex < n.log.committed ∧
      ∃ term, n.log.termAt? n.log.committed = some term ∧
        about = ⟨n.log.committed, term, n.configurationAt n.log.committed⟩ := by
  unfold snapshotDue? at h
  simp only at h
  split at h
  next => cases h
  next hdue =>
    simp only [not_or, Nat.not_le] at hdue
    split at h
    next => cases h
    next term hterm =>
      obtain rfl := Option.some.inj (Except.ok.inj h)
      exact ⟨hdue.1, hdue.2.2.1, hdue.2.2.2, term, hterm, rfl⟩

theorem inRole_eq_self {n : Node} {role : Role} (h : n.role = role) : n.inRole role = n := by
  subst h
  have hnot : ¬ (n.role = .candidate ∧ n.role ≠ .candidate) := fun h => h.2 h.1
  simp only [inRole, if_neg hnot]

end Node

/-! ### The acts -/

/-- What a node can do in the course of processing the input `i`, with the effects and the inputs
that are raised. -/
inductive Act (i : Input) : Node → List Effect → List Input → Node → Prop
  | talk {n : Node} {e : Effect} (he : e.IsTalk n.id) : Act i n [e] [] n
  /-- A request goes back to where it comes from, and from there to the leader. -/
  | redirect {n : Node} {sender : PeerId} {r : Request} (hi : i = .message sender (.submit r))
    (hrole : n.role ≠ .leader) : Act i n [.send sender (.leaderIs n.leaderHint (some r))] [] n
  /-- A follower considers again what it did not consider before it was one. -/
  | again {n : Node} (hi : i.IsForFollower) (hrole : n.role = .follower) : Act i n [] [i] n
  -- terms and elections
  | observe {n : Node} {t : Nat} (hi : i.term? = some t) (hrole : n.role ≠ .init)
    (ht : n.term < t) :
    Act i n [] []
      (({ n with standing := (n.standing.advanceTo t).resign } : Node).inRole .follower)
  | yield {n : Node} (hrole : n.role = .candidate ∨ n.role = .leader) :
    Act i n [] [] (({ n with standing := n.standing.resign } : Node).inRole .follower)
  | campaign {n : Node} (hi : i = .timeout .election) (hasked : n.configAskedOf = none)
    (hrole : (n.role = .follower ∧ n.id ∈ n.members) ∨
      (n.role = .candidate ∧ 1 < n.members.size)) :
    Act i n
      ((n.members.erase n.id).toList.map fun p =>
        .send p (.requestVote (Term.next n.term) n.id n.log.lastTerm n.log.lastIndex)) []
      { n with
        role := .candidate
        standing := n.standing.startElection.voteForSelf n.id
        granted := .singleton n.id }
  | grant {n : Node} {sender candidate : PeerId} {lastTerm lastIndex : Nat}
    (hi : i = .message sender (.requestVote n.term candidate lastTerm lastIndex))
    (hrole : n.role = .follower) (hforeign : n.isForeign candidate = false)
    (hvote : n.standing.votedFor = none ∨ n.standing.votedFor = some candidate)
    (hcurrent : n.isCurrentLog lastTerm lastIndex = true) :
    Act i n [.send sender (.grantVote n.term)] []
      { n with standing := n.standing.voteFor candidate }
  | count {n : Node} {voter : PeerId} (hi : i = .message voter (.grantVote n.term))
    (hrole : n.role = .candidate) (hmem : voter ∈ n.members) (hnew : ¬ voter ∈ n.granted) :
    Act i n [] []
      { n with standing := n.standing.countVote, granted := n.granted.insert voter }
  | elect {n : Node} (hi : i.Decides n.term) (hrole : n.role = .candidate)
    (hmaj : n.standing.hasMajority = true) :
    Act i n [] []
      { n with
        role := .leader
        standing := n.standing.resign
        granted := .empty
        leader := some n.id
        nextIndex := .uniform n.log.lastIndex
        matchIndex := .uniform 0 }
  -- leading
  | append {n : Node} {command : Command} {client : Option PeerId} (hrole : n.role = .leader)
    (hi : i.Appends command client) :
    Act i n [] [] ((n.turn.appendOwn command client).adoptNewer command).node
  | sendNext {n : Node} {peer : PeerId} {m : Message} (hrole : n.role = .leader)
    (hm : n.nextMessage peer = .ok m) : Act i n [.send peer m] [] n
  | backOff {n : Node} {sender : PeerId} (hrole : n.role = .leader)
    (hi : i = .message sender (.appendRejected n.term) ∨
      i = .message sender (.snapshotRejected n.term)) :
    Act i n [] [] { n with nextIndex := n.nextIndex.backOff sender }
  | record {n : Node} {peer : PeerId} {last : Nat} (hrole : n.role = .leader)
    (hi : i = .message peer (.appendAccepted n.term last) ∨
      i = .message peer (.snapshotAccepted n.term last)) (hlast : last ≤ n.log.lastIndex) :
    Act i n [] []
      { n with
        nextIndex := n.nextIndex.raise peer (last + 1)
        matchIndex := n.matchIndex.raise peer last }
  | commit {n : Node} {q : Nat} (hrole : n.role = .leader)
    (hq : q = n.matchIndex.quorumIndex n.config) (hlt : n.log.committed < q)
    (hterm : n.log.termAt? q = some n.term) :
    Act i n (n.turn.commitUntil q true).effects [] (n.turn.commitUntil q true).node
  /-- The joint configuration in force is committed, and the leader goes on to its successor. -/
  | conclude {n : Node} (hrole : n.role = .leader) (hjoint : n.config.isJoint = true)
    (hcommitted : n.hasCommitted n.config = true) :
    Act i n [] [.message n.id (.submit ⟨n.id, .configuration n.config.settled⟩)] n
  -- following
  | follow {n : Node} {sender leader : PeerId} (hrole : n.role = .follower)
    (hi : (∃ prevTerm prev entries commit,
        i = .message sender (.appendEntries leader n.term prevTerm prev entries commit)) ∨
      ∃ s, i = .message sender (.installSnapshot leader n.term s)) :
    Act i n [] [] { n with leader := some leader }
  | accept {n : Node} {sender leader : PeerId} {prevTerm prev commit : Nat}
    {entries : List Entry}
    (hi : i = .message sender (.appendEntries leader n.term prevTerm prev entries commit))
    (hrole : n.role = .follower) (hprev : n.log.matchesAt prevTerm prev = true) :
    Act i n (n.turn.takeEntries sender prev entries commit).effects []
      (n.turn.takeEntries sender prev entries commit).node
  | install {n : Node} {sender leader : PeerId} {s : Snapshot}
    (hi : i = .message sender (.installSnapshot leader n.term s)) (hrole : n.role = .follower)
    (hs : n.log.committed < s.about.index) :
    Act i n [.restore s, .send sender (.snapshotAccepted n.term s.about.index)] []
      (n.turn.takeSnapshot s).node
  /-- A snapshot covers no more than what is committed already. -/
  | covered {n : Node} {sender leader : PeerId} {s : Snapshot}
    (hi : i = .message sender (.installSnapshot leader n.term s)) (hrole : n.role = .follower)
    (hs : s.about.index ≤ n.log.committed) :
    Act i n [.send sender (.snapshotAccepted n.term s.about.index)] [] n
  -- snapshots of the node's own
  | capture {n : Node} {about : SnapshotMeta} (hi : i = .compactLog)
    (hdue : n.snapshotDue? = .ok (some about)) :
    Act i n [.prepareSnapshot about] [] { n with capturing := true }
  | finish {n : Node} {s : Option Snapshot}
    (hi : i = .snapshotPrepared s ∨ (s = none ∧ ∃ reason, i = .snapshotFailed reason)) :
    Act i n [] [] (n.turn.finishCapture s).node
  -- finding the cluster
  | probe {n : Node} {p : PeerId} (hi : i = .timeout .discovery) (hrole : n.role = .init) :
    Act i n [.send p .discover] [] n
  | meet {n : Node} {member : PeerId} (hrole : n.role = .init)
    (hi : (i = .timeout .discovery ∧ member = n.id) ∨
      ∃ sender, i = .message sender (.discovered member)) :
    Act i n [] [.message n.id (.memberAdded member n.settings.membersToFind)] n
  | enroll {n : Node} {sender member : PeerId} {required : Nat}
    (hi : i = .message sender (.memberAdded member required)) (hrole : n.role = .init) :
    Act i n [] [] (n.turn.addMember member required).node
  /-- A leader was met before the cluster was found. -/
  | await {n : Node} {sender leader : PeerId} {term prevTerm prev commit : Nat}
    {entries : List Entry}
    (hi : i = .message sender (.appendEntries leader term prevTerm prev entries commit))
    (hrole : n.role = .init) :
    Act i n [.send leader .requestConfiguration] []
      { n with role := .candidate, configAskedOf := some leader }
  -- asking for the configuration, and being told
  | askAgain {n : Node} {p : PeerId} (hi : i = .timeout .election)
    (hasked : n.configAskedOf = some p) : Act i n [.send p .requestConfiguration] [] n
  | passRequest {n : Node} {sender leader : PeerId} (hi : i = .message sender .requestConfiguration)
    (hrole : n.role ≠ .leader) (hleader : n.leaderHint = some leader) :
    Act i n [.forward sender leader .requestConfiguration] [] n
  | tell {n : Node} {sender : PeerId} (hi : i = .message sender .requestConfiguration)
    (hrole : n.role = .leader) : Act i n [.send sender (.changeConfiguration n.config)] [] n
  | enter {n : Node} {sender : PeerId} {c : Configuration}
    (hi : i = .message sender (.changeConfiguration c)) (hrole : n.role = .init) :
    Act i n [] [] { n with role := .follower, standing := n.standing.reconfigure c }
  | adopt {n : Node} {sender : PeerId} {c : Configuration}
    (hi : i = .message sender (.changeConfiguration c))
    (hrole : n.role = .follower ∨ n.role = .candidate)
    (hc : n.members.isEmpty = true ∨
      (n.configAskedOf = some sender ∧ c.isNewerThan n.config = true)) :
    Act i n [] []
      (({ n with
        configAskedOf := none
        standing := n.standing.reconfigure c } : Node).inRole .follower)
  /-- What was asked for is known already. -/
  | dismiss {n : Node} {sender : PeerId} {c : Configuration}
    (hi : i = .message sender (.changeConfiguration c))
    (hrole : n.role = .follower ∨ n.role = .candidate) (hmembers : n.members.isEmpty = false)
    (hasked : n.configAskedOf = some sender) (hc : c.isNewerThan n.config = false) :
    Act i n [] [] { n with configAskedOf := none }
  | passChange {n : Node} {sender leader : PeerId} {c : Configuration}
    (hi : i = .message sender (.changeConfiguration c)) (hrole : n.role = .follower)
    (hmembers : n.members.isEmpty = false) (hasked : n.configAskedOf ≠ some sender)
    (hc : c ≠ n.config) (hleader : n.leader = some leader) :
    Act i n [.forward sender leader (.changeConfiguration c)] [] n
  /-- A leader takes a configuration as the wish to change to its members. -/
  | propose {n : Node} {sender : PeerId} {c : Configuration}
    (hi : i = .message sender (.changeConfiguration c)) (hrole : n.role = .leader)
    (hstable : n.config.isJoint = false) :
    Act i n [] [.message n.id (.submit ⟨n.id, .configuration (n.config.transitionTo c)⟩)] n

/-- A chain of acts on one input, with all their effects and the inputs that they raise. -/
inductive Acts (i : Input) : Node → List Effect → List Input → Node → Prop
  | refl (n : Node) : Acts i n [] [] n
  | tail {n m k : Node} {es fs : List Effect} {js ks : List Input} (h : Acts i n es js m)
    (a : Act i m fs ks k) : Acts i n (es ++ fs) (js ++ ks) k

/-- The processing of several inputs, with those that it raises in between. -/
inductive Course : List Input → Node → List Effect → Node → Prop
  | nil (n : Node) : Course [] n [] n
  | cons {i : Input} {rest js next : List Input} {n m k : Node} {es fs : List Effect}
    (h : Acts i n es js m) (hnext : next.Perm (js ++ rest)) (hc : Course next m fs k) :
    Course (i :: rest) n (es ++ fs) k

theorem Act.single {i : Input} {n m : Node} {es : List Effect} {js : List Input}
    (a : Act i n es js m) : Acts i n es js m := .tail (.refl n) a

theorem Acts.trans {i : Input} {n m k : Node} {es fs : List Effect} {js ks : List Input}
    (h₁ : Acts i n es js m) (h₂ : Acts i m fs ks k) : Acts i n (es ++ fs) (js ++ ks) k := by
  induction h₂ with
  | refl => rwa [List.append_nil, List.append_nil]
  | tail _ a ih =>
    rw [← List.append_assoc, ← List.append_assoc]
    exact ih.tail a

/-- What an act raises is the input itself, for the follower that the node is by now, or of the
node's own. -/
theorem Act.raises {i : Input} {n m : Node} {es : List Effect} {js : List Input}
    (a : Act i n es js m) : ∀ j ∈ js, (j = i ∧ i.IsForFollower) ∨ j.IsOwn := by
  intro j hj
  cases a with
  | again hi => exact .inl ⟨List.mem_singleton.1 hj, hi⟩
  | conclude | meet | propose =>
    obtain rfl := List.mem_singleton.1 hj
    exact .inr trivial
  | _ => cases hj

/-- What is true of an input and of all that nodes raise for themselves is true of what an act
raises. -/
theorem Act.raises_keeps {I : Input → Prop} {i : Input} {n m : Node} {es : List Effect}
    {js : List Input} (a : Act i n es js m) (hi : I i) (hown : ∀ j : Input, j.IsOwn → I j) :
    ∀ j ∈ js, I j := by
  intro j hj
  rcases a.raises j hj with ⟨rfl, -⟩ | h
  · exact hi
  · exact hown j h

/-- What every act on an input keeps is kept by a chain of them. -/
theorem Acts.keeps {i : Input} (Inv : Node → Prop) (Good : Input → Prop) {n m : Node}
    {es : List Effect} {js : List Input} (h : Acts i n es js m) (hn : Inv n)
    (hact : ∀ {n m es js}, Inv n → Act i n es js m → Inv m ∧ ∀ j ∈ js, Good j) :
    Inv m ∧ ∀ j ∈ js, Good j := by
  induction h with
  | refl => exact ⟨hn, nofun⟩
  | tail _ a ih =>
    obtain ⟨hm, hjs⟩ := ih
    obtain ⟨hk, hks⟩ := hact hm a
    exact ⟨hk, fun j hj => (List.mem_append.1 hj).elim (hjs j) (hks j)⟩

/-- What every act keeps is kept by a course of them, whatever it asks of the inputs. -/
theorem Course.keeps (Inv : Node → Prop) (Good : Input → Prop) {is : List Input} {n m : Node}
    {es : List Effect} (h : Course is n es m) (hn : Inv n) (his : ∀ i ∈ is, Good i)
    (hact : ∀ {i n m es js}, Inv n → Good i → Act i n es js m → Inv m ∧ ∀ j ∈ js, Good j) :
    Inv m := by
  induction h with
  | nil => exact hn
  | @cons i rest js next _ _ _ _ _ h hnext _ ih =>
    obtain ⟨hm, hjs⟩ := h.keeps Inv Good hn fun hn => hact hn (his i (List.mem_cons_self ..))
    refine ih hm fun j hj => ?_
    rcases List.mem_append.1 (hnext.mem_iff.1 hj) with hj | hj
    · exact hjs j hj
    · exact his j (List.mem_cons_of_mem _ hj)

theorem Acts.raises {i : Input} {n m : Node} {es : List Effect} {js : List Input}
    (h : Acts i n es js m) : ∀ j ∈ js, (j = i ∧ i.IsForFollower) ∨ j.IsOwn :=
  (h.keeps (fun _ => True) (fun j => (j = i ∧ i.IsForFollower) ∨ j.IsOwn) trivial
    fun _ a => ⟨trivial, a.raises⟩).2

/-! ### What a change of the log does -/

/-- Two nodes differ only in what a change of the log can change. -/
structure Node.Same (n m : Node) : Prop where
  id : m.id = n.id
  role : m.role = n.role
  standing : m.standing = n.standing.reconfigure m.config
  nextIndex : m.nextIndex = n.nextIndex
  leader : m.leader = n.leader
  granted : m.granted = n.granted
  settings : m.settings = n.settings

namespace Node.Same

variable {n m k : Node}

theorem refl (n : Node) : n.Same n := ⟨rfl, rfl, rfl, rfl, rfl, rfl, rfl⟩

theorem trans (h : n.Same m) (h' : m.Same k) : n.Same k where
  id := h'.id.trans h.id
  role := h'.role.trans h.role
  standing := h'.standing.trans (by rw [h.standing]; rfl)
  nextIndex := h'.nextIndex.trans h.nextIndex
  leader := h'.leader.trans h.leader
  granted := h'.granted.trans h.granted
  settings := h'.settings.trans h.settings

theorem term (h : n.Same m) : m.term = n.term := by
  rw [Node.term, h.standing]
  rfl

theorem votedFor (h : n.Same m) : m.standing.votedFor = n.standing.votedFor := by
  rw [h.standing]
  rfl

theorem votes (h : n.Same m) : m.standing.votes = n.standing.votes := by
  rw [h.standing]
  rfl

end Node.Same

namespace Turn

variable (t : Turn)

theorem same_useConfig (c : Configuration) : t.node.Same (t.useConfig c).node :=
  ⟨rfl, rfl, rfl, rfl, rfl, rfl, rfl⟩

theorem same_syncConfig : t.node.Same t.syncConfig.node := by
  unfold syncConfig
  split
  next c _ =>
    simp only
    split
    next => exact ⟨rfl, rfl, rfl, rfl, rfl, rfl, rfl⟩
    next =>
      refine .trans ?_ (same_useConfig _ c)
      exact ⟨rfl, rfl, rfl, rfl, rfl, rfl, rfl⟩
  next =>
    split
    next c _ =>
      split
      next => exact .refl _
      next => exact same_useConfig t c
    next => exact .refl _

theorem capture_cases {t u : Turn} (h : t.capture = .ok u) :
    (t.node.snapshotDue? = .ok none ∧ u = t) ∨
    ∃ about, t.node.snapshotDue? = .ok (some about) ∧
      u = { t with node := { t.node with capturing := true } }.emit (.prepareSnapshot about) := by
  unfold capture at h
  split at h
  next => cases h
  next hdue => exact .inl ⟨hdue, (Except.ok.inj h).symm⟩
  next about hdue => exact .inr ⟨about, hdue, (Except.ok.inj h).symm⟩

theorem same_capture {t u : Turn} (h : t.capture = .ok u) : t.node.Same u.node := by
  rcases capture_cases h with ⟨-, rfl⟩ | ⟨about, -, rfl⟩
  · exact .refl _
  · exact ⟨rfl, rfl, rfl, rfl, rfl, rfl, rfl⟩

/-- Considering a compaction does no more than to ask for a capture. -/
theorem considerCompaction_cases : ∃ capturing captures,
    t.considerCompaction.node = { t.node with capturing := capturing } ∧
    t.considerCompaction.effects = t.effects ++ captures ∧
    (captures = [] ∨ ∃ about, captures = [.prepareSnapshot about] ∧
      t.node.snapshotDue? = .ok (some about)) := by
  unfold considerCompaction
  split
  next =>
    split
    next u hu =>
      rcases capture_cases hu with ⟨-, rfl⟩ | ⟨about, hdue, rfl⟩
      · exact ⟨u.node.capturing, [], rfl, (List.append_nil _).symm, .inl rfl⟩
      · exact ⟨true, [.prepareSnapshot about], rfl, rfl, .inr ⟨about, rfl, hdue⟩⟩
    next => exact ⟨t.node.capturing, [], rfl, (List.append_nil _).symm, .inl rfl⟩
  next => exact ⟨t.node.capturing, [], rfl, (List.append_nil _).symm, .inl rfl⟩

/-- Committing applies what is newly committed, and may ask for a capture. -/
theorem commitUntil_cases (j : Nat) (respond : Bool) : ∃ capturing captures,
    (t.commitUntil j respond).node =
      { t.node with log := t.node.log.commit j, capturing := capturing } ∧
    (t.commitUntil j respond).effects = t.effects ++
      ((t.node.log.slice t.node.log.committed (t.node.log.commit j).committed).filterMap
        (·.applied? respond) ++ captures) ∧
    (captures = [] ∨ ∃ about, captures = [.prepareSnapshot about] ∧
      ({ t.node with log := t.node.log.commit j } : Node).snapshotDue? = .ok (some about)) := by
  unfold commitUntil
  simp only
  split
  next h =>
    have hlog : t.node.log.commit j = t.node.log := by
      unfold Log.commit
      rw [Nat.max_eq_left h]
    have hslice : t.node.log.slice t.node.log.committed t.node.log.committed = [] := by
      unfold Log.slice
      rw [List.filter_eq_nil_iff]
      intro e _
      simp only [decide_eq_true_eq]
      omega
    rw [hlog, hslice]
    exact ⟨t.node.capturing, [], rfl, (List.append_nil _).symm, .inl rfl⟩
  next h =>
    have hlog : t.node.log.commit (min j t.node.log.lastIndex) = t.node.log.commit j := by
      unfold Log.commit
      rw [Nat.min_assoc, Nat.min_self]
    have hmax : (t.node.log.commit j).committed = min j t.node.log.lastIndex := by
      unfold Log.commit
      exact Nat.max_eq_right (by omega)
    rw [hlog, hmax]
    obtain ⟨capturing, captures, hnode, heffects, hcaptures⟩ := considerCompaction_cases
      { t with
        node := { t.node with log := t.node.log.commit j }
        effects := t.effects ++ (t.node.log.slice t.node.log.committed
          (min j t.node.log.lastIndex)).filterMap (·.applied? respond) }
    exact ⟨capturing, captures, hnode, heffects.trans (List.append_assoc ..), hcaptures⟩

theorem same_commitUntil (j : Nat) (respond : Bool) :
    t.node.Same (t.commitUntil j respond).node := by
  obtain ⟨capturing, captures, hnode, -⟩ := t.commitUntil_cases j respond
  rw [hnode]
  exact ⟨rfl, rfl, rfl, rfl, rfl, rfl, rfl⟩

theorem same_takeEntries (sender : PeerId) (prev : Nat) (entries : List Entry) (commit : Nat) :
    t.node.Same (t.takeEntries sender prev entries commit).node := by
  have hmerged : t.node.Same (t.mergeEntries entries prev).node :=
    ⟨rfl, rfl, rfl, rfl, rfl, rfl, rfl⟩
  unfold takeEntries
  simp only
  split
  next => exact same_commitUntil ..
  next => exact (hmerged.trans (same_syncConfig _)).trans (same_commitUntil ..)

theorem same_takeSnapshot (s : Snapshot) : t.node.Same (t.takeSnapshot s).node := by
  unfold takeSnapshot
  split
  next =>
    have hcompacted : t.node.Same ((t.emit (.restore s)).withLog (·.compact s)).node :=
      ⟨rfl, rfl, rfl, rfl, rfl, rfl, rfl⟩
    exact hcompacted.trans (same_syncConfig _)
  next => exact .refl _

theorem same_finishCapture (s : Option Snapshot) : t.node.Same (t.finishCapture s).node :=
  ⟨rfl, rfl, rfl, rfl, rfl, rfl, rfl⟩

/-- Apart from the log, an entry of a leader's own changes only what it knows of itself. -/
theorem same_append (command : Command) (client : Option PeerId) :
    t.node.Same ((t.appendOwn command client).adoptNewer command).node := by
  have happended : t.node.Same (t.appendOwn command client).node :=
    ⟨rfl, rfl, rfl, rfl, rfl, rfl, rfl⟩
  unfold adoptNewer
  split
  next c _ =>
    split
    next => exact happended.trans (same_useConfig _ c)
    next => exact happended
  next => exact happended

end Turn

/-! ### What every act keeps -/

/-- A property of nodes that every act keeps. Its parameter is what is known of the past, which
grows. -/
structure Discipline (γ : Type) where
  Le : γ → γ → Prop
  /-- The property. -/
  Inv : γ → Node → Prop
  /-- What it asks of an input. -/
  Good : γ → Input → Prop
  /-- What it promises of an effect. -/
  Fine : γ → Effect → Prop
  refl : ∀ g, Le g g
  trans : ∀ {g g' g'' : γ}, Le g g' → Le g' g'' → Le g g''
  good : ∀ {g g' : γ} {i : Input}, Le g g' → Good g i → Good g' i
  fine : ∀ {g g' : γ} {e : Effect}, Le g g' → Fine g e → Fine g' e
  act : ∀ {g : γ} {i : Input} {n m : Node} {es : List Effect} {js : List Input}, Inv g n →
    Good g i → Act i n es js m →
    ∃ g', Le g g' ∧ Inv g' m ∧ (∀ e ∈ es, Fine g' e) ∧ ∀ j ∈ js, Good g' j

namespace Discipline

variable {γ : Type} (d : Discipline γ) {g : γ} {n m : Node} {es : List Effect}

theorem acts {i : Input} {js : List Input} (h : Acts i n es js m) (hn : d.Inv g n)
    (hi : d.Good g i) :
    ∃ g', d.Le g g' ∧ d.Inv g' m ∧ (∀ e ∈ es, d.Fine g' e) ∧ ∀ j ∈ js, d.Good g' j := by
  induction h with
  | refl => exact ⟨g, d.refl g, hn, by simp, by simp⟩
  | tail _ a ih =>
    obtain ⟨g', hle, hm, hes, hjs⟩ := ih
    obtain ⟨g'', hle', hk, hfs, hks⟩ := d.act hm (d.good hle hi) a
    refine ⟨g'', d.trans hle hle', hk, fun e he => ?_, fun j hj => ?_⟩
    · exact (List.mem_append.1 he).elim (fun he => d.fine hle' (hes e he)) (hfs e)
    · exact (List.mem_append.1 hj).elim (fun hj => d.good hle' (hjs j hj)) (hks j)

theorem course {is : List Input} (h : Course is n es m) (hn : d.Inv g n)
    (his : ∀ i ∈ is, d.Good g i) : ∃ g', d.Le g g' ∧ d.Inv g' m ∧ ∀ e ∈ es, d.Fine g' e := by
  induction h generalizing g with
  | nil => exact ⟨g, d.refl g, hn, by simp⟩
  | @cons i rest js next _ _ _ _ _ h hnext _ ih =>
    obtain ⟨g', hle, hm, hes, hjs⟩ := d.acts h hn (his i (List.mem_cons_self ..))
    have hgood : ∀ j ∈ next, d.Good g' j := by
      intro j hj
      rcases List.mem_append.1 (hnext.mem_iff.1 hj) with hj | hj
      · exact hjs j hj
      · exact d.good hle (his j (List.mem_cons_of_mem _ hj))
    obtain ⟨g'', hle', hk, hfs⟩ := ih hm hgood
    refine ⟨g'', d.trans hle hle', hk, fun e he => ?_⟩
    exact (List.mem_append.1 he).elim (fun he => d.fine hle' (hes e he)) (hfs e)

end Discipline

end Raft
