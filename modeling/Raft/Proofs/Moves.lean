import Raft.Proofs.Handlers
import Raft.Proofs.Overlay

/-!
# What a transition can do while the members stay the same

`Core` is the part of a node's state that safety rests on. A `Move` is one change of it, with the
effects that go with it and everything that has to be the case before. `Moves` chains them.
`Raft.Proofs.Steadiness` shows that every transition is such a chain, so an invariant has to
be checked for the moves only.

* `Core.Steady`, the core belongs to a member of a settled configuration that is never changed;
* `Moves.steady`, the moves on a steady input keep it so, and `Moves.effects_steady`, what is sent
  is steady again;
* `Moves.holds`, a property of entries and snapshots that holds of all that comes in holds of all
  that is kept and sent.
-/

namespace Raft

/-- The part of a node's state that safety rests on. -/
structure Core where
  id : PeerId
  role : Role
  standing : Standing
  granted : PeerSet
  log : Log
  matchIndex : Progress
  configAskedOf : Option PeerId
  initialConfig : Option Configuration

/-- The part of a node's state that safety rests on. -/
def Node.core (n : Node) : Core where
  id := n.id
  role := n.role
  standing := n.standing
  granted := n.granted
  log := n.log
  matchIndex := n.matchIndex
  configAskedOf := n.configAskedOf
  initialConfig := n.initialConfig

namespace Core

/-- The current term. -/
def term (x : Core) : Nat := x.standing.term

end Core

/-! ### Messages and effects without consequences -/

/-- Whether a message only answers a question, or asks who leads, or declines. -/
def Message.IsIdle : Message → Prop
  | .declineVote _ => True
  | .appendRejected _ => True
  | .snapshotRejected _ => True
  | .discovered _ => True
  | .respond .. => True
  | .whoLeads => True
  | .leaderIs .. => True
  | .roleIs _ => True
  | _ => False

/-- Whether an effect has no consequences for safety. -/
def Effect.IsIdle : Effect → Prop
  | .send _ m => m.IsIdle
  | .forward _ _ m => m.IsIdle
  | .arm _ => True
  | .cancel _ => True
  | _ => False

/-- Whether a message leaves the members alone. -/
def Message.IsQuiet : Message → Prop
  | .changeConfiguration _ => False
  | .requestConfiguration => False
  | .submit r => r.command.configuration? = none
  | _ => True

/-- Whether an input leaves the members alone. -/
def Input.IsQuiet : Input → Prop
  | .message _ m => m.IsQuiet
  | _ => True

/-- Whether what an effect sends leaves the members alone. -/
def Effect.IsQuiet : Effect → Prop
  | .send _ m => m.IsQuiet
  | .forward _ _ m => m.IsQuiet
  | _ => True

theorem Message.IsIdle.isQuiet {m : Message} (h : m.IsIdle) : m.IsQuiet := by
  cases m <;> trivial

theorem Effect.IsIdle.isQuiet {e : Effect} (h : e.IsIdle) : e.IsQuiet := by
  cases e with
  | send r m => exact Message.IsIdle.isQuiet h
  | forward s r m => exact Message.IsIdle.isQuiet h
  | _ => trivial

/-! ### The moves -/

/-- The position before a batch that was asked for from position `start` on. -/
def beforeBatch (batch : List Entry) (start : Nat) : Nat :=
  match batch with
  | e :: _ => e.index - 1
  | [] => start - 1

namespace Log

/-- What a snapshot of everything that is committed covers. -/
structure IsCapture (log : Log) (c : Configuration) (about : SnapshotMeta) : Prop where
  index : about.index = log.committed
  pos : 0 < about.index
  term : log.termAt? about.index = some about.term
  config : about.config = c

/-- The effects of committing up to position `i`: every application command that is newly committed
is applied, and the application may be captured afterwards. -/
def CommitsWith (log : Log) (c : Configuration) (i : Nat) (es : List Effect) : Prop :=
  ∃ respond captures,
    es = (log.slice log.committed (log.commit i).committed).filterMap (·.applied? respond) ++
      captures ∧
    (captures = [] ∨
      ∃ about, captures = [.prepareSnapshot about] ∧ (log.commit i).IsCapture c about)

end Log

/-- What a member can do in the course of processing the input `i`, with the effects. -/
inductive Move (i : Input) : Core → List Effect → Core → Prop
  | idle {x : Core} {e : Effect} (he : e.IsIdle) : Move i x [e] x
  /-- A newer term was seen. -/
  | observe {x : Core} (t : Nat) (granted : PeerSet) (ht : x.term < t) :
    Move i x []
      { x with
        role := .follower
        standing := (x.standing.advanceTo t).resign
        granted := granted }
  | yield {x : Core} (granted : PeerSet) :
    Move i x []
      { x with role := .follower, standing := x.standing.resign, granted := granted }
  | campaign {x : Core} (es : List Effect)
    (hes : ∀ e ∈ es, ∃ p, e = .send p
      (.requestVote (Term.next x.term) x.id x.log.lastTerm x.log.lastIndex)) :
    Move i x es
      { x with
        role := .candidate
        standing := x.standing.startElection.voteForSelf x.id
        granted := .singleton x.id }
  | grant {x : Core} {candidate sender : PeerId} {lastTerm lastIndex : Nat}
    (hi : i = .message sender (.requestVote x.term candidate lastTerm lastIndex))
    (hrole : x.role = .follower)
    (hvote : x.standing.votedFor = none ∨ x.standing.votedFor = some candidate)
    (hlog : x.log.lastTerm < lastTerm ∨
      (lastTerm = x.log.lastTerm ∧ x.log.lastIndex ≤ lastIndex)) :
    Move i x [.send sender (.grantVote x.term)]
      { x with standing := x.standing.voteFor candidate }
  | count {x : Core} {voter : PeerId} (hi : i = .message voter (.grantVote x.term))
    (hrole : x.role = .candidate) (hmem : voter ∈ x.standing.members)
    (hnew : ¬ voter ∈ x.granted) :
    Move i x []
      { x with standing := x.standing.countVote, granted := x.granted.insert voter }
  | elect {x : Core} (granted : PeerSet) (hrole : x.role = .candidate)
    (hmaj : x.standing.hasMajority = true) :
    Move i x []
      { x with
        role := .leader
        standing := x.standing.resign
        granted := granted
        matchIndex := .uniform 0 }
  | append {x : Core} {e : Entry} (hrole : x.role = .leader) (hterm : e.term = x.term)
    (hindex : e.index = x.log.nextIndex) (hcommand : e.command.configuration? = none) :
    Move i x []
      { x with log := x.log.append e, matchIndex := x.matchIndex.set x.id e.index }
  | sendEntries {x : Core} (peer : PeerId) {start count prevTerm : Nat} {batch : List Entry}
    (hrole : x.role = .leader) (hbatch : batch = x.log.batchFrom start count)
    (hprev : x.log.termAt? (beforeBatch batch start) = some prevTerm) :
    Move i x
      [.send peer (.appendEntries x.id x.term prevTerm (beforeBatch batch start) batch
        x.log.committed)] x
  | sendSnapshot {x : Core} (peer : PeerId) {s : Snapshot} (hrole : x.role = .leader)
    (hs : x.log.snapshot = some s) : Move i x [.send peer (.installSnapshot x.id x.term s)] x
  | record {x : Core} {peer : PeerId} {last : Nat}
    (hi : i = .message peer (.appendAccepted x.term last) ∨
      i = .message peer (.snapshotAccepted x.term last))
    (hrole : x.role = .leader) :
    Move i x [] { x with matchIndex := x.matchIndex.raise peer last }
  | commit {x : Core} {q : Nat} {es : List Effect} (hrole : x.role = .leader)
    (hq : q = x.matchIndex.quorumIndex x.standing.config) (hlt : x.log.committed < q)
    (hterm : x.log.termAt? q = some x.term)
    (hes : x.log.CommitsWith x.standing.config q es) :
    Move i x es { x with log := x.log.commit q }
  | accept {x : Core} {sender leader : PeerId} {prevTerm prev commit last : Nat}
    {batch : List Entry} {es : List Effect}
    (hi : i = .message sender (.appendEntries leader x.term prevTerm prev batch commit))
    (hrole : x.role = .follower) (hprev : x.log.matchesAt prevTerm prev = true)
    (hlast : last = lastOf batch prev)
    (hes : (x.log.merge batch prev).CommitsWith x.standing.config (min commit last) es) :
    Move i x (es ++ [.send sender (.appendAccepted x.term last)])
      { x with log := (x.log.merge batch prev).commit (min commit last) }
  | install {x : Core} {sender leader : PeerId} {s : Snapshot}
    (hi : i = .message sender (.installSnapshot leader x.term s)) (hrole : x.role = .follower)
    (hs : x.log.committed < s.about.index) :
    Move i x [.restore s, .send sender (.snapshotAccepted x.term s.about.index)]
      { x with log := x.log.compact s }
  | covered {x : Core} {sender leader : PeerId} {s : Snapshot}
    (hi : i = .message sender (.installSnapshot leader x.term s)) (hrole : x.role = .follower)
    (hs : s.about.index ≤ x.log.committed) :
    Move i x [.send sender (.snapshotAccepted x.term s.about.index)] x
  | compact {x : Core} {s : Snapshot} (hi : i = .snapshotPrepared (some s)) :
    Move i x [] { x with log := x.log.compact s }
  | capture {x : Core} {about : SnapshotMeta}
    (habout : x.log.IsCapture x.standing.config about) : Move i x [.prepareSnapshot about] x

/-- A chain of moves, with all their effects in order. -/
inductive Moves (i : Input) : Core → List Effect → Core → Prop
  | refl (x : Core) : Moves i x [] x
  | tail {x y z : Core} {es fs : List Effect} (h : Moves i x es y) (m : Move i y fs z) :
    Moves i x (es ++ fs) z

theorem Move.single {i : Input} {x y : Core} {es : List Effect} (m : Move i x es y) :
    Moves i x es y := .tail (.refl x) m

theorem Moves.trans {i : Input} {x y z : Core} {es fs : List Effect} (h₁ : Moves i x es y)
    (h₂ : Moves i y fs z) : Moves i x (es ++ fs) z := by
  induction h₂ with
  | refl => rwa [List.append_nil]
  | tail _ m ih =>
    rw [← List.append_assoc]
    exact ih.tail m

/-! ### What moves keep -/

/-- A property of entries and one of snapshots hold of everything in the log. -/
structure Log.Holds (Q : Entry → Prop) (P : Snapshot → Prop) (log : Log) : Prop where
  entries : ∀ e ∈ log.entries, Q e
  snapshot : ∀ s, log.snapshot = some s → P s

/-- A property of entries and one of snapshots hold of everything in a message. -/
def Message.Holds (Q : Entry → Prop) (P : Snapshot → Prop) : Message → Prop
  | .appendEntries _ _ _ _ entries _ => ∀ e ∈ entries, Q e
  | .installSnapshot _ _ s => P s
  | _ => True

/-- A property of entries and one of snapshots hold of everything in an input. -/
def Input.Holds (Q : Entry → Prop) (P : Snapshot → Prop) : Input → Prop
  | .message _ m => m.Holds Q P
  | .snapshotPrepared (some s) => P s
  | _ => True

/-- A property of entries and one of snapshots hold of everything in an effect. -/
def Effect.Holds (Q : Entry → Prop) (P : Snapshot → Prop) : Effect → Prop
  | .send _ m => m.Holds Q P
  | .forward _ _ m => m.Holds Q P
  | .restore s => P s
  | _ => True

section Holds

variable {Q : Entry → Prop} {P : Snapshot → Prop}

section Imp

variable {Q' : Entry → Prop} {P' : Snapshot → Prop}

theorem Log.Holds.imp {log : Log} (h : log.Holds Q P) (hQ : ∀ e, Q e → Q' e)
    (hP : ∀ s, P s → P' s) : log.Holds Q' P' :=
  ⟨fun e he => hQ e (h.entries e he), fun s hs => hP s (h.snapshot s hs)⟩

theorem Message.Holds.imp {m : Message} (h : m.Holds Q P) (hQ : ∀ e, Q e → Q' e)
    (hP : ∀ s, P s → P' s) : m.Holds Q' P' := by
  cases m with
  | appendEntries => exact fun e he => hQ e (h e he)
  | installSnapshot => exact hP _ h
  | _ => trivial

theorem Input.Holds.imp {i : Input} (h : i.Holds Q P) (hQ : ∀ e, Q e → Q' e)
    (hP : ∀ s, P s → P' s) : i.Holds Q' P' := by
  cases i with
  | message => exact Message.Holds.imp h hQ hP
  | snapshotPrepared s =>
    cases s with
    | none => trivial
    | some s => exact hP s h
  | _ => trivial

theorem Effect.Holds.imp {e : Effect} (h : e.Holds Q P) (hQ : ∀ e, Q e → Q' e)
    (hP : ∀ s, P s → P' s) : e.Holds Q' P' := by
  cases e with
  | send | forward => exact Message.Holds.imp h hQ hP
  | restore => exact hP _ h
  | _ => trivial

end Imp

theorem Message.IsIdle.holds {m : Message} (h : m.IsIdle) : m.Holds Q P := by
  cases m <;> trivial

theorem Effect.IsIdle.holds {e : Effect} (h : e.IsIdle) : e.Holds Q P := by
  cases e with
  | send r m => exact Message.IsIdle.holds h
  | forward s r m => exact Message.IsIdle.holds h
  | restore s => exact h.elim
  | _ => trivial

namespace Log.Holds

variable {log : Log}

theorem commit (h : log.Holds Q P) (i : Nat) : (log.commit i).Holds Q P :=
  ⟨h.entries, h.snapshot⟩

theorem append (h : log.Holds Q P) {e : Entry} (he : Q e) : (log.append e).Holds Q P where
  entries f hf := by
    rcases List.mem_append.1 hf with hf | hf
    · exact h.entries f hf
    · rwa [List.mem_singleton.1 hf]
  snapshot := h.snapshot

theorem splice {prev after : Nat} {live batch : List Entry} (hl : ∀ e ∈ live, Q e)
    (hb : ∀ e ∈ batch, Q e) : ∀ e ∈ Log.splice prev after live batch, Q e := by
  induction batch generalizing live with
  | nil => rwa [splice_nil]
  | cons e rest ih =>
    have he := hb e (List.mem_cons_self ..)
    have hrest : ∀ f ∈ rest, Q f := fun f hf => hb f (List.mem_cons_of_mem _ hf)
    rcases lands prev after live e with hpass | ⟨j, hindex, hafter, hj, hterm⟩ | ⟨hindex, hafter⟩
    · rw [splice_passed hpass]
      exact ih hl hrest
    · rw [splice_placed hindex hafter hj hterm]
      refine ih (fun f hf => ?_) hrest
      rcases List.mem_append.1 hf with hf | hf
      · exact hl f (List.mem_of_mem_take hf)
      · rwa [List.mem_singleton.1 hf]
    · rwa [splice_missed hindex hafter]

theorem merge (h : log.Holds Q P) {batch : List Entry} (hb : ∀ e ∈ batch, Q e) (after : Nat) :
    (log.merge batch after).Holds Q P := by
  unfold Log.merge
  split
  · exact ⟨splice h.entries hb, h.snapshot⟩
  · exact h

theorem compact (h : log.Holds Q P) {s : Snapshot} (hs : P s) : (log.compact s).Holds Q P := by
  unfold Log.compact
  split
  · exact h
  · refine ⟨fun e he => ?_, fun s' hs' => by cases hs'; exact hs⟩
    simp only at he
    split at he
    · exact h.entries e ((List.mem_filter.1 he).1)
    · cases he

theorem batchFrom (h : log.Holds Q P) (start count : Nat) :
    ∀ e ∈ log.batchFrom start count, Q e :=
  fun e he => h.entries e (List.mem_of_mem_drop (List.mem_of_mem_take he))

end Log.Holds

/-- Committing has no other effects than to apply and to capture. -/
theorem Log.CommitsWith.cases {log : Log} {c : Configuration} {i : Nat} {es : List Effect}
    (h : log.CommitsWith c i es) {e : Effect} (he : e ∈ es) :
    (∃ entry respond, e = .apply entry respond) ∨
      ∃ about, e = .prepareSnapshot about ∧ (log.commit i).IsCapture c about := by
  obtain ⟨respond, captures, rfl, hc⟩ := h
  rcases List.mem_append.1 he with he | he
  · obtain ⟨entry, _, hentry⟩ := List.mem_filterMap.1 he
    unfold Entry.applied? at hentry
    split at hentry
    · exact Or.inl ⟨_, _, (Option.some.inj hentry).symm⟩
    · cases hentry
    · cases hentry
  · rcases hc with rfl | ⟨about, rfl, habout⟩
    · cases he
    · exact Or.inr ⟨about, List.mem_singleton.1 he, habout⟩

theorem Move.holds {i : Input} {x y : Core} {es : List Effect} (m : Move i x es y)
    (hQ : ∀ e : Entry, e.command.configuration? = none → Q e) (hi : i.Holds Q P)
    (hx : x.log.Holds Q P) : y.log.Holds Q P ∧ ∀ e ∈ es, e.Holds Q P := by
  cases m with
  | idle he => exact ⟨hx, fun e h => List.mem_singleton.1 h ▸ he.holds⟩
  | observe | yield | count | elect | record => exact ⟨hx, by simp⟩
  | campaign es hes =>
    refine ⟨hx, fun e he => ?_⟩
    obtain ⟨p, rfl⟩ := hes e he
    trivial
  | grant => exact ⟨hx, by simp [Effect.Holds, Message.Holds]⟩
  | append _ _ _ hcommand => exact ⟨hx.append (hQ _ hcommand), by simp⟩
  | sendEntries _ _ hbatch _ =>
    refine ⟨hx, fun e he => ?_⟩
    rw [List.mem_singleton.1 he, hbatch]
    exact hx.batchFrom _ _
  | sendSnapshot _ _ hs =>
    refine ⟨hx, fun e he => ?_⟩
    rw [List.mem_singleton.1 he]
    exact hx.snapshot _ hs
  | commit _ _ _ _ hes =>
    refine ⟨hx.commit _, fun e he => ?_⟩
    rcases hes.cases he with ⟨_, _, rfl⟩ | ⟨_, rfl, _⟩ <;> trivial
  | accept hmsg _ _ _ hes =>
    subst hmsg
    refine ⟨(hx.merge hi _).commit _, fun e he => ?_⟩
    rcases List.mem_append.1 he with he | he
    · rcases hes.cases he with ⟨_, _, rfl⟩ | ⟨_, rfl, _⟩ <;> trivial
    · rw [List.mem_singleton.1 he]
      trivial
  | install hmsg _ _ =>
    subst hmsg
    refine ⟨hx.compact hi, fun e he => ?_⟩
    rcases List.mem_cons.1 he with rfl | he
    · exact hi
    · rw [List.mem_singleton.1 he]
      trivial
  | covered => exact ⟨hx, by simp [Effect.Holds, Message.Holds]⟩
  | compact hmsg =>
    subst hmsg
    exact ⟨hx.compact hi, by simp⟩
  | capture => exact ⟨hx, by simp [Effect.Holds]⟩

/-- What holds of all that a node has and is given holds of all that it keeps and sends. -/
theorem Moves.holds {i : Input} {x y : Core} {es : List Effect} (h : Moves i x es y)
    (hQ : ∀ e : Entry, e.command.configuration? = none → Q e) (hi : i.Holds Q P)
    (hx : x.log.Holds Q P) : y.log.Holds Q P ∧ ∀ e ∈ es, e.Holds Q P := by
  induction h with
  | refl => exact ⟨hx, by simp⟩
  | tail _ m ih =>
    obtain ⟨hy, hes⟩ := ih
    obtain ⟨hz, hfs⟩ := m.holds hQ hi hy
    exact ⟨hz, fun e he => (List.mem_append.1 he).elim (hes e) (hfs e)⟩

end Holds

/-- The core belongs to a member of a settled configuration, which everything the node knows of
agrees with. -/
structure Core.Steady (c : Configuration) (x : Core) : Prop where
  config : x.standing.config = c
  isJoint : c.isJoint = false
  mem : x.id ∈ c.members
  role : x.role ≠ .init
  configAskedOf : x.configAskedOf = none
  initialConfig : ∀ d, x.initialConfig = some d → d = c
  log : x.log.Holds (·.command.configuration? = none) (·.about.config = c)

/-- Whether an input leaves the members alone and brings no configuration but one. -/
structure Input.Steady (c : Configuration) (i : Input) : Prop where
  quiet : i.IsQuiet
  holds : i.Holds (·.command.configuration? = none) (·.about.config = c)

/-- Whether an effect asks for a capture under no configuration but one. -/
def Effect.Asks (c : Configuration) : Effect → Prop
  | .prepareSnapshot about => about.config = c
  | _ => True

/-- Whether what an effect sends or asks for leaves the members alone and brings no configuration
but one. -/
structure Effect.Steady (c : Configuration) (e : Effect) : Prop where
  quiet : e.IsQuiet
  holds : e.Holds (·.command.configuration? = none) (·.about.config = c)
  asks : e.Asks c

theorem Move.quiet {i : Input} {x y : Core} {es : List Effect} (m : Move i x es y) :
    ∀ e ∈ es, e.IsQuiet := by
  cases m with
  | idle he => exact fun e h => List.mem_singleton.1 h ▸ he.isQuiet
  | campaign es hes =>
    intro e he
    obtain ⟨p, rfl⟩ := hes e he
    trivial
  | commit _ _ _ _ hes =>
    intro e he
    rcases hes.cases he with ⟨_, _, rfl⟩ | ⟨_, rfl, _⟩ <;> trivial
  | accept _ _ _ _ hes =>
    intro e he
    rcases List.mem_append.1 he with he | he
    · rcases hes.cases he with ⟨_, _, rfl⟩ | ⟨_, rfl, _⟩ <;> trivial
    · rw [List.mem_singleton.1 he]
      trivial
  | _ => simp [Effect.IsQuiet, Message.IsQuiet]

theorem Move.asks {i : Input} {x y : Core} {es : List Effect} (m : Move i x es y) :
    ∀ e ∈ es, e.Asks x.standing.config := by
  cases m with
  | @idle e he =>
    intro f hf
    rw [List.mem_singleton.1 hf]
    cases e <;> trivial
  | campaign es hes =>
    intro e he
    obtain ⟨p, rfl⟩ := hes e he
    trivial
  | commit _ _ _ _ hes =>
    intro e he
    rcases hes.cases he with ⟨_, _, rfl⟩ | ⟨_, rfl, habout⟩
    · trivial
    · exact habout.config
  | accept _ _ _ _ hes =>
    intro e he
    rcases List.mem_append.1 he with he | he
    · rcases hes.cases he with ⟨_, _, rfl⟩ | ⟨_, rfl, habout⟩
      · trivial
      · exact habout.config
    · rw [List.mem_singleton.1 he]
      trivial
  | capture habout =>
    intro e he
    rw [List.mem_singleton.1 he]
    exact habout.config
  | _ => simp [Effect.Asks]

theorem Move.steady {i : Input} {x y : Core} {es : List Effect} {c : Configuration}
    (m : Move i x es y) (hi : i.Steady c) (hx : x.Steady c) : y.Steady c := by
  have hlog := (m.holds (fun _ h => h) hi.holds hx.log).1
  cases m with
  | observe t =>
    exact ⟨by simpa [Standing.resign] using hx.config, hx.isJoint, hx.mem, by simp,
      hx.configAskedOf, hx.initialConfig, hlog⟩
  | yield | campaign | elect =>
    exact ⟨hx.config, hx.isJoint, hx.mem, by simp, hx.configAskedOf, hx.initialConfig, hlog⟩
  | _ => exact ⟨hx.config, hx.isJoint, hx.mem, hx.role, hx.configAskedOf, hx.initialConfig, hlog⟩

theorem Moves.steady {i : Input} {x y : Core} {es : List Effect} {c : Configuration}
    (h : Moves i x es y) (hi : i.Steady c) (hx : x.Steady c) : y.Steady c := by
  induction h with
  | refl => exact hx
  | tail _ m ih => exact m.steady hi ih

/-- What a steady node does on a steady input is steady. -/
theorem Moves.effects_steady {i : Input} {x y : Core} {es : List Effect} {c : Configuration}
    (h : Moves i x es y) (hi : i.Steady c) (hx : x.Steady c) : ∀ e ∈ es, e.Steady c := by
  induction h with
  | refl => simp
  | tail hm m ih =>
    intro e he
    rcases List.mem_append.1 he with he | he
    · exact ih e he
    · have hy := hm.steady hi hx
      exact ⟨m.quiet e he, (m.holds (fun _ h => h) hi.holds hy.log).2 e he, hy.config ▸ m.asks e he⟩

end Raft
