import Raft.Proofs.Additions
import Raft.Proofs.Moves

/-!
# What nodes, messages and effects say about the history

* `History.Describes`, the state of a node agrees with the history;
* `Message.Vouched`, `Input.Vouched` and `Effect.Vouched`, what a message claims is in the history;
* `History.Extends`, one node has added to the history, and the others notice nothing of it but
  that there is more (`Describes.of_extends`);
* `Journal`, what a list of effects does to the application: it has been given the first of two
  lists of entries before, and the second one after.
-/

namespace Raft

/-! ### Messages -/

/-- A snapshot covers a beginning of the committed entries `a`. -/
structure SnapshotMeta.Covers (about : SnapshotMeta) (a : List Entry) : Prop where
  pos : 0 < about.index
  term : termIn? a about.index = some about.term

theorem SnapshotMeta.Covers.mono {about : SnapshotMeta} {a b : List Entry} (h : about.Covers a)
    (hab : a <+: b) : about.Covers b :=
  ⟨h.pos, by rw [termIn?_of_isPrefix hab (le_length_of_termIn? h.term), h.term]⟩

/-- What a message claims is in the history. -/
def Message.Vouched (g : History) (members : PeerSet) (sender receiver : PeerId) : Message → Prop
  | .requestVote t c lastTerm lastIndex =>
    sender = c ∧ ∃ b, g.ballot c t = some b ∧ b.length = lastIndex ∧
      termIn? b b.length = some lastTerm
  | .grantVote t => g.vote sender t = some receiver
  | .appendEntries _ t prevTerm prev batch commit =>
    (∃ c, g.leader t = some c) ∧
    (∃ m, m <+: g.ledger t ∧ batch = m.drop prev ∧ m.length = prev + batch.length ∧
      termIn? m prev = some prevTerm) ∧
    ∃ r, r <+: g.ledger t ∧ r.length = commit ∧ g.CommittedBy members t r
  | .appendAccepted t last => last ≤ g.acked sender t
  | .installSnapshot _ t s =>
    (∃ c, g.leader t = some c) ∧
    ∃ m, m <+: g.ledger t ∧ m.length = s.about.index ∧ s.about.Covers m ∧
      g.CommittedBy members t m
  | .snapshotAccepted t last => last ≤ g.acked sender t
  | _ => True

/-- What an input claims is in the history. The node has committed the entries `a`. -/
def Input.Vouched (g : History) (members : PeerSet) (p : PeerId) (a : List Entry) : Input → Prop
  | .message sender m => m.Vouched g members sender p
  | .snapshotPrepared (some s) => s.about.Covers a
  | _ => True

/-- What an effect claims is in the history. The node has committed the entries `a`. -/
def Effect.Vouched (g : History) (members : PeerSet) (p : PeerId) (a : List Entry) : Effect → Prop
  | .send receiver m => m.Vouched g members p receiver
  | .forward sender receiver m => m.Vouched g members sender receiver
  | .prepareSnapshot about => about.Covers a
  | _ => True

section Vouched

variable {g g' : History} {members : PeerSet} {p q : PeerId} {a b : List Entry}

theorem Message.Vouched.mono {m : Message} (h : m.Vouched g members p q) (hg : g ≤ g') :
    m.Vouched g' members p q := by
  cases m with
  | requestVote =>
    obtain ⟨hs, b, hb, hrest⟩ := h
    exact ⟨hs, b, hg.ballot hb, hrest⟩
  | grantVote => exact hg.vote h
  | appendEntries =>
    obtain ⟨⟨c, hc⟩, ⟨m, hm, hbatch⟩, r, hr, hlen, hcom⟩ := h
    exact ⟨⟨c, hg.leader hc⟩, ⟨m, hm.trans (hg.ledger _), hbatch⟩, r, hr.trans (hg.ledger _),
      hlen, hcom.mono hg (Nat.le_refl _)⟩
  | appendAccepted | snapshotAccepted => exact Nat.le_trans h (hg.acked _ _)
  | installSnapshot =>
    obtain ⟨⟨c, hc⟩, m, hm, hlen, hcov, hcom⟩ := h
    exact ⟨⟨c, hg.leader hc⟩, m, hm.trans (hg.ledger _), hlen, hcov,
      hcom.mono hg (Nat.le_refl _)⟩
  | _ => trivial

theorem Message.IsIdle.vouched {m : Message} (h : m.IsIdle) : m.Vouched g members p q := by
  cases m <;> trivial

theorem Effect.IsIdle.vouched {e : Effect} (h : e.IsIdle) : e.Vouched g members p a := by
  cases e with
  | send r m => exact Message.IsIdle.vouched h
  | forward s r m => exact Message.IsIdle.vouched h
  | prepareSnapshot about => exact h.elim
  | _ => trivial

theorem Input.Vouched.mono {i : Input} (h : i.Vouched g members p a) (hg : g ≤ g')
    (hab : a <+: b) : i.Vouched g' members p b := by
  cases i with
  | message => exact Message.Vouched.mono h hg
  | snapshotPrepared s =>
    cases s with
    | none => trivial
    | some s => exact SnapshotMeta.Covers.mono h hab
  | _ => trivial

theorem Effect.Vouched.mono {e : Effect} (h : e.Vouched g members p a) (hg : g ≤ g')
    (hab : a <+: b) : e.Vouched g' members p b := by
  cases e with
  | send => exact Message.Vouched.mono h hg
  | forward => exact Message.Vouched.mono h hg
  | prepareSnapshot about => exact SnapshotMeta.Covers.mono h hab
  | _ => trivial

end Vouched

/-! ### Nodes -/

namespace History

/-- What a candidate knows of the present election. -/
structure Candidacy (g : History) (members : PeerSet) (x : Core) : Prop where
  ballot : g.ballot x.id x.term = some (g.log x.id)
  votedFor : x.standing.votedFor = some x.id
  unled : g.leader x.term ≠ some x.id
  votes : x.standing.votes = x.granted.size
  granted : ∀ v ∈ x.granted, v ∈ members ∧ g.vote v x.term = some x.id

/-- What a leader knows of its term. -/
structure Leadership (g : History) (x : Core) : Prop where
  leader : g.leader x.term = some x.id
  ledger : g.ledger x.term = g.log x.id
  matched : ∀ v, x.matchIndex.get v ≤ g.acked v x.term

/-- The committed entries of a node. -/
def commits (g : History) (x : Core) : List Entry := (g.log x.id).take x.log.committed

/-- The state of a node agrees with the history. -/
structure Describes (g : History) (members : PeerSet) (x : Core) : Prop where
  abridges : x.log.Abridges (g.log x.id)
  certified : g.Certified (g.log x.id)
  terms : ∀ e ∈ g.log x.id, e.term ≤ x.term
  vote : g.vote x.id x.term = x.standing.votedFor
  future : ∀ t, x.term < t →
    g.vote x.id t = none ∧ g.ballot x.id t = none ∧ g.acked x.id t = 0
  candidacy : x.role = .candidate → g.Candidacy members x
  leadership : x.role = .leader → g.Leadership x
  /-- What was taken over from the ledger of a term goes only for the log of a later leader. -/
  retained : ∀ t l, l <+: g.ledger t → l.length ≤ g.acked x.id t →
    l <+: g.log x.id ∨ g.Superseded l t (x.term + 1)
  committed : g.CommittedBy members x.term (g.commits x)

/-- Nothing but what the node `p` is responsible for was added to the history. -/
structure Extends (g g' : History) (p : PeerId) : Prop where
  le : g ≤ g'
  vote : ∀ {q}, q ≠ p → g'.vote q = g.vote q
  ballot : ∀ {q}, q ≠ p → g'.ballot q = g.ballot q
  acked : ∀ {q}, q ≠ p → g'.acked q = g.acked q
  log : ∀ {q}, q ≠ p → g'.log q = g.log q
  leader : ∀ {q t}, q ≠ p → g'.leader t = some q → g.leader t = some q
  ledger : ∀ {q t}, q ≠ p → g.leader t = some q → g'.ledger t = g.ledger t

variable {g g' : History} {members : PeerSet} {p : PeerId} {x : Core}

theorem Candidacy.of_eq (h : g.Candidacy members x) {y : Core} (hid : y.id = x.id)
    (hstanding : y.standing = x.standing) (hgranted : y.granted = x.granted) :
    g.Candidacy members y := by
  obtain ⟨hballot, hvoted, hunled, hvotes, hall⟩ := h
  rw [Core.term, ← hid, ← hstanding] at hballot hunled hall
  rw [← hid, ← hstanding] at hvoted
  rw [← hstanding, ← hgranted] at hvotes
  rw [← hgranted] at hall
  exact ⟨hballot, hvoted, hunled, hvotes, hall⟩

theorem Leadership.of_eq (h : g.Leadership x) {y : Core} (hid : y.id = x.id)
    (hstanding : y.standing = x.standing) (hmatch : y.matchIndex = x.matchIndex) :
    g.Leadership y := by
  obtain ⟨hleader, hledger, hmatched⟩ := h
  rw [Core.term, ← hid, ← hstanding] at hleader hledger
  rw [Core.term, ← hstanding, ← hmatch] at hmatched
  exact ⟨hleader, hledger, hmatched⟩

theorem Extends.refl (g : History) (p : PeerId) : g.Extends g p :=
  ⟨g.le_refl, fun _ => rfl, fun _ => rfl, fun _ => rfl, fun _ => rfl, fun _ h => h,
    fun _ _ => rfl⟩

theorem Extends.trans {g'' : History} (h : g.Extends g' p) (h' : g'.Extends g'' p) :
    g.Extends g'' p where
  le := le_trans h.le h'.le
  vote hq := (h'.vote hq).trans (h.vote hq)
  ballot hq := (h'.ballot hq).trans (h.ballot hq)
  acked hq := (h'.acked hq).trans (h.acked hq)
  log hq := (h'.log hq).trans (h.log hq)
  leader hq hl := h.leader hq (h'.leader hq hl)
  ledger hq hl := (h'.ledger hq (h.le.leader hl)).trans (h.ledger hq hl)

/-- What the others do leaves the description of a node right. -/
theorem Describes.of_extends (hx : g.Describes members x) (hg : g.Coherent members)
    (h : g.Extends g' p) (hp : x.id ≠ p) : g'.Describes members x where
  abridges := by rw [h.log hp]; exact hx.abridges
  certified := by rw [h.log hp]; exact hx.certified.mono h.le
  terms := by rw [h.log hp]; exact hx.terms
  vote := by rw [h.vote hp]; exact hx.vote
  future := by rw [h.vote hp, h.ballot hp, h.acked hp]; exact hx.future
  candidacy hrole := by
    have hc := hx.candidacy hrole
    refine ⟨?_, hc.votedFor, fun hl => hc.unled (h.leader hp hl), hc.votes, fun v hv => ?_⟩
    · rw [h.ballot hp, h.log hp]
      exact hc.ballot
    · exact ⟨(hc.granted v hv).1, h.le.vote (hc.granted v hv).2⟩
  leadership hrole := by
    have hl := hx.leadership hrole
    refine ⟨h.le.leader hl.leader, ?_, fun v => Nat.le_trans (hl.matched v) (h.le.acked v _)⟩
    rw [h.ledger hp hl.leader, h.log hp]
    exact hl.ledger
  retained t l hl hlen := by
    rw [h.acked hp] at hlen
    rw [h.log hp]
    exact (hx.retained t l (hg.prefix_of_acked h.le hl hlen) hlen).imp_right
      (·.mono h.le (Nat.le_refl _))
  committed := by
    rw [commits, h.log hp]
    exact hx.committed.mono h.le (Nat.le_refl _)

theorem Describes.length_commits (hx : g.Describes members x) :
    (g.commits x).length = x.log.committed := by
  rw [commits, List.length_take, Nat.min_eq_left hx.abridges.committed_le]

end History

/-! ### The application -/

/-- Whether an effect does nothing to the application. -/
def Effect.IsOutward : Effect → Prop
  | .send .. => True
  | .forward .. => True
  | .arm _ => True
  | .cancel _ => True
  | _ => False

/-- The application has been given the entries `a`, and after the effects the entries `b`. Those
that are not for the application are passed over. -/
inductive Journal : List Entry → List Effect → List Entry → Prop
  | nil (a : List Entry) : Journal a [] a
  | outward {a b : List Entry} {e : Effect} {es : List Effect} (he : e.IsOutward)
    (h : Journal a es b) : Journal a (e :: es) b
  | apply {a b : List Entry} {e : Entry} {es : List Effect} {respond : Bool}
    (h : Journal (a ++ [e]) es b) : Journal a (.apply e respond :: es) b
  | skip {a b : List Entry} {e : Entry} {es : List Effect}
    (he : ∀ payload, e.command ≠ .application payload) (h : Journal (a ++ [e]) es b) :
    Journal a es b
  | restore {a m b : List Entry} {s : Snapshot} {es : List Effect}
    (hlen : m.length = s.about.index) (hm : a <+: m) (h : Journal m es b) :
    Journal a (.restore s :: es) b
  | capture {a b : List Entry} {about : SnapshotMeta} {es : List Effect}
    (hlen : a.length = about.index) (h : Journal a es b) :
    Journal a (.prepareSnapshot about :: es) b

namespace Journal

variable {a b c : List Entry} {es fs : List Effect}

theorem append (h : Journal a es b) (h' : Journal b fs c) : Journal a (es ++ fs) c := by
  induction h with
  | nil => exact h'
  | outward he _ ih => exact .outward he (ih h')
  | apply _ ih => exact .apply (ih h')
  | skip he _ ih => exact .skip he (ih h')
  | restore hlen hm _ ih => exact .restore hlen hm (ih h')
  | capture hlen _ ih => exact .capture hlen (ih h')

/-- The application is never given less. -/
theorem isPrefix (h : Journal a es b) : a <+: b := by
  induction h with
  | nil => exact List.prefix_rfl
  | outward _ _ ih => exact ih
  | apply _ ih => exact (List.prefix_append ..).trans ih
  | skip _ _ ih => exact (List.prefix_append ..).trans ih
  | restore _ hm _ ih => exact hm.trans ih
  | capture _ _ ih => exact ih

theorem of_outward (h : ∀ e ∈ es, e.IsOutward) : Journal a es a := by
  induction es with
  | nil => exact .nil a
  | cons e es ih =>
    exact .outward (h e (List.mem_cons_self ..)) (ih fun f hf => h f (List.mem_cons_of_mem _ hf))

/-- Entries that are committed are all given to the application that are meant for it. -/
theorem of_applied (l : List Entry) (respond : Bool) :
    Journal a (l.filterMap (·.applied? respond)) (a ++ l) := by
  induction l generalizing a with
  | nil =>
    rw [List.append_nil]
    exact .nil a
  | cons e rest ih =>
    have hrest : Journal (a ++ [e]) (rest.filterMap (·.applied? respond)) (a ++ e :: rest) := by
      have := ih (a := a ++ [e])
      rwa [List.append_assoc, List.singleton_append] at this
    cases hc : e.command with
    | application payload =>
      have he : e.applied? respond = some (.apply e (respond && e.client.isSome)) := by
        simp [Entry.applied?, hc]
      simp only [List.filterMap_cons, he]
      exact .apply hrest
    | configuration | noop =>
      have he : e.applied? respond = none := by simp [Entry.applied?, hc]
      simp only [List.filterMap_cons, he]
      exact .skip (by simp [hc]) hrest

end Journal

theorem Effect.IsIdle.isOutward {e : Effect} (h : e.IsIdle) : e.IsOutward := by
  cases e <;> trivial

/-- Committing up to a position gives the application everything up to there. -/
theorem Log.CommitsWith.journal {log : Log} {l : List Entry} {c : Configuration} {i : Nat}
    {es : List Effect} (h : log.CommitsWith c i es) (hl : log.Abridges l) :
    Journal (l.take log.committed) es (l.take (log.commit i).committed) := by
  obtain ⟨respond, captures, rfl, hcaptures⟩ := h
  have hle : log.committed ≤ (log.commit i).committed := Nat.le_max_left ..
  have hlen : (l.take (log.commit i).committed).length = (log.commit i).committed := by
    rw [List.length_take, Nat.min_eq_left (hl.commit i).committed_le]
  have hsplit : l.take (log.commit i).committed =
      l.take log.committed ++ (l.take (log.commit i).committed).drop log.committed := by
    have := List.take_append_drop log.committed (l.take (log.commit i).committed)
    rw [List.take_take, Nat.min_eq_left hle] at this
    exact this.symm
  have happlied : Journal (l.take log.committed)
      ((log.slice log.committed (log.commit i).committed).filterMap (·.applied? respond))
      (l.take (log.commit i).committed) := by
    rw [hl.slice_eq hl.prevIndex_le]
    have := Journal.of_applied (a := l.take log.committed)
      ((l.take (log.commit i).committed).drop log.committed) respond
    rwa [← hsplit] at this
  refine happlied.append ?_
  rcases hcaptures with rfl | ⟨about, rfl, habout⟩
  · exact .nil _
  · exact .capture (by rw [hlen, habout.index]) (.nil _)

/-- A capture covers what is committed. -/
theorem Log.IsCapture.covers {log : Log} {l : List Entry} {c : Configuration}
    {about : SnapshotMeta} (h : log.IsCapture c about) (hl : log.Abridges l) :
    about.Covers (l.take log.committed) := by
  refine ⟨h.pos, ?_⟩
  have hlen : (l.take log.committed).length = about.index := by
    rw [List.length_take, Nat.min_eq_left hl.committed_le, h.index]
  rw [← termIn?_of_isPrefix (List.take_prefix log.committed l) (Nat.le_of_eq hlen.symm)]
  exact hl.termIn?_of_termAt? h.term

/-- What committing asks for covers what is committed then. -/
theorem Log.CommitsWith.vouched {log : Log} {l : List Entry} {c : Configuration} {i : Nat}
    {es : List Effect} (h : log.CommitsWith c i es) (hl : log.Abridges l) {g : History}
    {members : PeerSet} {p : PeerId} :
    ∀ e ∈ es, e.Vouched g members p (l.take (log.commit i).committed) := by
  intro e he
  rcases h.cases he with ⟨_, _, rfl⟩ | ⟨about, rfl, habout⟩
  · trivial
  · exact habout.covers (hl.commit i)

end Raft
