import Raft.Proofs.Tally

/-!
# The term gate

A message that carries a term is measured against the node's own term, whatever the role of the
node and the kind of the message. An older term changes nothing, a newer one makes the node a
follower of that term, and its own term stays.

The handlers do this each for itself. `Turn.Gated` is what they have in common, with one lemma for
each handler up to `gated_onMessage`. A message that is left for a second consideration then meets
a follower of its own term, and `Act.keeps_term` says that this is what the node remains.

* `Act.term_cases`, what can become of the term at all;
* `Node.Heeds`, a request for a vote counts only if it is for a candidate who may stand;
* `term_gate`, the three cases for a whole transition.
-/

namespace Raft

variable {i : Input} {n m : Node} {es : List Effect} {js : List Input}

/-! ### Terms -/

theorem Input.IsOwn.term?_eq_none (h : i.IsOwn) : i.term? = none := by
  unfold Input.IsOwn at h
  split at h
  next => rfl
  next => rfl
  next => exact h.elim

/-- A term either comes with a message, or the node begins it with a vote for itself. -/
theorem Act.term_cases (a : Act i n es js m) :
    m.term = n.term ∨ (∃ t, i.term? = some t ∧ n.term < t ∧ m.term = t) ∨
      (i = .timeout .election ∧ m.term = n.term + 1 ∧ m.standing.votedFor = some n.id) := by
  cases a with
  | @observe t hi _ ht => exact .inr (.inl ⟨t, hi, ht, Standing.term_advanceTo (Nat.le_of_lt ht)⟩)
  | campaign hi => exact .inr (.inr ⟨hi, rfl, rfl⟩)
  | append => exact .inl (n.turn.same_append ..).term
  | commit => exact .inl (n.turn.same_commitUntil ..).term
  | accept => exact .inl (n.turn.same_takeEntries ..).term
  | install => exact .inl (n.turn.same_takeSnapshot ..).term
  | @enroll _ member required _ hrole =>
    obtain ⟨role, hm, -⟩ := Turn.addMember_cases hrole member required
    exact .inl (by rw [hm]; rfl)
  | _ => exact .inl rfl

/-- A message of the present term changes neither the term nor that the node is a follower, and
nor does what the node raises on it. -/
theorem Act.keeps_term {t : Nat} (a : Act i n es js m) (hi : i.term? = some t ∨ i.IsOwn)
    (hn : n.term = t) :
    m.term = t ∧ (n.role = .follower → m.role = .follower) ∧
      ∀ j ∈ js, j.term? = some t ∨ j.IsOwn := by
  have htimeout : i ≠ .timeout .election := by
    rintro rfl
    rcases hi with hi | hi
    · cases hi
    · exact hi
  refine ⟨?_, fun hrole => ?_, a.raises_keeps hi fun _ => .inr⟩
  · rcases a.term_cases with hm | ⟨t', ht', hlt, -⟩ | ⟨hout, -⟩
    · rw [hm, hn]
    · rcases hi with hi | hi
      · cases hi.symm.trans ht'
        omega
      · cases hi.term?_eq_none.symm.trans ht'
    · exact absurd hout htimeout
  · cases a.shift.2 with
    | keep h => rw [h.role, hrole]
    | settle hm | observe hm => exact hm
    | grant _ _ _ hm => rw [hm, ← hrole]
    | campaign hout => exact absurd hout htimeout
    | count _ h | elect _ h | await _ h => cases hrole.symm.trans h

/-! ### Who may stand -/

theorem PeerSet.isEmpty_iff {s : PeerSet} : s.isEmpty = true ↔ s = .empty := by
  cases s
  simp [isEmpty, empty]

namespace Node

theorem isForeign_eq_false {candidate : PeerId} :
    n.isForeign candidate = false ↔ n.members = .empty ∨ candidate ∈ n.members := by
  rw [isForeign, Bool.and_eq_false_iff, Bool.not_eq_false', Bool.not_eq_false',
    PeerSet.isEmpty_iff, PeerSet.contains_iff]

/-- A request for a vote counts only if it is for a member, or if no members are known. Every other
message counts. -/
def Heeds (n : Node) : Message → Prop
  | .requestVote _ candidate _ _ => n.members = .empty ∨ candidate ∈ n.members
  | _ => True

end Node

/-! ### The handlers -/

namespace Turn

variable {t u : Turn} {term : Nat}

/-- From `t` to `u` a message of the given term has been considered once. At most the message itself
is left for the follower that the node has become. -/
structure Gated (term : Nat) (i : Input) (t u : Turn) : Prop where
  stale : term < t.node.term → u.node = t.node ∧ u.pending = t.pending
  newer : t.node.term < term → u.node.term = term ∧ u.node.role = .follower ∧
    (u.pending = t.pending ∨ u.pending = i :: t.pending)

/-- Nothing happens on a message of an older term, nor on one of the present term. -/
theorem Gated.of_unchanged (hle : term ≤ t.node.term) (hnode : u.node = t.node)
    (hpending : u.pending = t.pending) : Gated term i t u where
  stale _ := ⟨hnode, hpending⟩
  newer hlt := absurd hle (Nat.not_le.2 hlt)

/-- A message of the present or a newer term has made the node a follower of this term. -/
theorem Gated.of_adopted (hle : t.node.term ≤ term) (hterm : u.node.term = term)
    (hrole : u.node.role = .follower) (hpending : u.pending = t.pending) : Gated term i t u where
  stale hlt := absurd hle (Nat.not_le.2 hlt)
  newer _ := ⟨hterm, hrole, .inl hpending⟩

theorem term_stepDown (h : t.node.term ≤ term) : (t.stepDown term).node.term = term := by
  rw [node_stepDown]
  exact Standing.term_advanceTo h

/-- Stepping down is what a newer term asks for. -/
theorem gated_stepDown (h : t.node.term ≤ term) : Gated term i t (t.stepDown term) :=
  .of_adopted h (term_stepDown h) (role_stepDown t term) (clean_stepDown t term).pending

/-- And then the message is left for the follower. -/
theorem gated_reconsider {sender : PeerId} {msg : Message} (h : t.node.term < term) :
    Gated term (.message sender msg) t ((t.stepDown term).redeliver sender msg) where
  stale hlt := absurd hlt (Nat.not_lt.2 (Nat.le_of_lt h))
  newer _ := by
    refine ⟨term_stepDown (Nat.le_of_lt h), role_stepDown t term, .inr ?_⟩
    rw [redeliver, (clean_stepDown t term).pending]

theorem gated_onReply {act : Turn → Except Violation Turn} (hrole : t.node.role ≠ .init)
    (h : t.onReply term act = .ok u) : Gated term i t u := by
  rcases t.onReply_cases term act with ⟨hdone, hinit | hlt⟩ | ⟨hdone, -, hlt⟩ | ⟨-, -, heq⟩
  · exact absurd hinit hrole
  · obtain rfl := Except.ok.inj (hdone.symm.trans h)
    exact .of_unchanged (Nat.le_of_lt hlt) rfl rfl
  · obtain rfl := Except.ok.inj (hdone.symm.trans h)
    exact gated_stepDown (Nat.le_of_lt hlt)
  · exact ⟨fun hlt => absurd heq (Nat.ne_of_lt hlt), fun hlt => absurd heq (Nat.ne_of_gt hlt)⟩

theorem gated_answerVoteRequest {sender candidate : PeerId} {lastTerm lastIndex : Nat}
    (hforeign : t.node.isForeign candidate = false) (hrole : t.node.role = .follower) :
    Gated term i t (t.answerVoteRequest sender term candidate lastTerm lastIndex) := by
  unfold answerVoteRequest
  rw [hforeign, if_neg Bool.false_ne_true]
  simp only
  split
  next hgrant =>
    have hcurrent : term = (t.node.standing.advanceTo term).term := by
      have hvote := hgrant.1
      rw [Standing.canVoteFor, Bool.and_eq_true, beq_iff_eq] at hvote
      exact hvote.1
    have hle : t.node.term ≤ term :=
      le_of_le_of_eq (Standing.term_le_advanceTo ..) hcurrent.symm
    exact .of_adopted hle hcurrent.symm hrole rfl
  next =>
    rcases Nat.lt_or_ge term t.node.term with hlt | hle
    · refine .of_unchanged (Nat.le_of_lt hlt) ?_ rfl
      show { t.node with standing := t.node.standing.advanceTo term } = t.node
      rw [Standing.advanceTo_of_le (Nat.le_of_lt hlt)]
    · exact .of_adopted hle (Standing.term_advanceTo hle) hrole rfl

theorem gated_onVoteRequest {sender candidate : PeerId} {lastTerm lastIndex : Nat}
    (hrole : t.node.role ≠ .init) (hforeign : t.node.isForeign candidate = false)
    (h : t.onVoteRequest sender term candidate lastTerm lastIndex = .ok u) :
    Gated term (.message sender (.requestVote term candidate lastTerm lastIndex)) t u := by
  rcases t.onVoteRequest_cases sender term candidate lastTerm lastIndex with
    ⟨-, hinit⟩ | ⟨hdone, hfollower⟩ | ⟨hdone, -, -, hnewer⟩ | ⟨hdone, hle⟩
  · exact absurd hinit hrole
  · exact Except.ok.inj (hdone.symm.trans h) ▸ gated_answerVoteRequest hforeign hfollower
  · exact Except.ok.inj (hdone.symm.trans h) ▸ gated_reconsider hnewer
  · obtain rfl := Except.ok.inj (hdone.symm.trans h)
    exact .of_unchanged (hle hforeign) rfl rfl

theorem gated_acceptEntries {sender leader : PeerId} {prevTerm prev commit : Nat}
    {entries : List Entry} (hrole : t.node.role = .follower) :
    Gated term i t (t.acceptEntries sender leader term prevTerm prev entries commit) := by
  rcases t.acceptEntries_cases sender leader term prevTerm prev entries commit with
    ⟨hlt, heq⟩ | ⟨hle, ⟨-, heq⟩ | ⟨-, heq⟩⟩
  · rw [heq]
    exact .of_unchanged (Nat.le_of_lt hlt) rfl rfl
  · have hsame := same_takeEntries (t := t.heed leader term) sender prev entries commit
    have hpending := t.pending_acceptEntries sender leader term prevTerm prev entries commit
    rw [heq] at hpending ⊢
    exact .of_adopted hle (hsame.term.trans (t.term_heed leader hle)) (hsame.role.trans hrole)
      hpending
  · rw [heq]
    exact .of_adopted hle (t.term_heed leader hle) hrole rfl

theorem gated_acceptSnapshot {sender leader : PeerId} {s : Snapshot}
    (hrole : t.node.role = .follower) :
    Gated term i t (t.acceptSnapshot sender leader term s) := by
  rcases t.acceptSnapshot_cases sender leader term s with ⟨hlt, heq⟩ | ⟨hle, heq⟩
  · rw [heq]
    exact .of_unchanged (Nat.le_of_lt hlt) rfl rfl
  · have hsame := same_takeSnapshot (t := t.heed leader term) s
    rw [takeSnapshot_eq_resume] at hsame heq
    rw [heq]
    exact .of_adopted hle (hsame.term.trans (t.term_heed leader hle)) (hsame.role.trans hrole) rfl

theorem gated_onRival {sender leader : PeerId} {msg refusal : Message}
    (h : t.onRival sender leader term msg refusal = .ok u) :
    Gated term (.message sender msg) t u := by
  rcases t.onRival_cases sender leader term msg refusal with
    ⟨hdone, hgive⟩ | ⟨hdone, -, hle⟩ | ⟨hdone, hle⟩
  · obtain rfl := Except.ok.inj (hdone.symm.trans h)
    rcases hgive with hlt | ⟨heq, -⟩
    · exact gated_reconsider hlt
    · exact ⟨fun hlt => absurd heq (Nat.ne_of_lt hlt), fun hlt => absurd heq (Nat.ne_of_gt hlt)⟩
  · obtain ⟨m, -, rfl⟩ := sendEntries_eq (hdone ▸ h)
    exact .of_unchanged hle rfl rfl
  · obtain rfl := Except.ok.inj (hdone.symm.trans h)
    exact .of_unchanged hle rfl rfl

/-- Every message passes the gate. -/
theorem gated_onMessage {sender : PeerId} {msg : Message} (hterm : msg.term? = some term)
    (hrole : t.node.role ≠ .init) (hheeds : t.node.Heeds msg)
    (h : t.onMessage sender msg = .ok u) : Gated term (.message sender msg) t u := by
  cases msg with
  | requestVote =>
    obtain rfl := Option.some.inj hterm
    exact gated_onVoteRequest hrole (Node.isForeign_eq_false.2 hheeds) h
  | appendEntries =>
    obtain rfl := Option.some.inj hterm
    rw [onMessage, onAppendEntries] at h
    split at h
    next hinit => exact absurd hinit hrole
    next hfollower => exact Except.ok.inj h ▸ gated_acceptEntries hfollower
    next => exact gated_onRival h
  | installSnapshot =>
    obtain rfl := Option.some.inj hterm
    rw [onMessage, onInstallSnapshot] at h
    split at h
    next hinit => exact absurd hinit hrole
    next hfollower => exact Except.ok.inj h ▸ gated_acceptSnapshot hfollower
    next => exact gated_onRival h
  | grantVote | declineVote | appendAccepted | appendRejected | snapshotAccepted
  | snapshotRejected =>
    obtain rfl := Option.some.inj hterm
    simp only [onMessage, onVoteGranted, onAccepted, onRejected] at h
    exact gated_onReply hrole h
  | _ => cases hterm

end Turn

/-! ### The whole transition -/

/-- What a node of the term `t` does with messages of this term leaves the term as it is, and a
follower stays one. -/
theorem Course.keeps_term {t : Nat} {is : List Input} (h : Course is n es m)
    (his : ∀ i ∈ is, i.term? = some t) (hn : n.term = t) :
    m.term = t ∧ (n.role = .follower → m.role = .follower) := by
  refine h.keeps (fun k => k.term = t ∧ (n.role = .follower → k.role = .follower))
    (fun j => j.term? = some t ∨ j.IsOwn) ⟨hn, id⟩ (fun i hi => .inl (his i hi)) ?_
  intro i k k' es js hk hi a
  obtain ⟨hterm, hrole, hjs⟩ := a.keeps_term hi hk.1
  exact ⟨⟨hterm, fun hn => hrole (hk.2 hn)⟩, hjs⟩

/-- A message that carries a term passes the same gate in every role. If its term is older nothing
changes, if it is newer the node becomes a follower in it, and otherwise the node's term stays. -/
theorem term_gate {sender : PeerId} {msg : Message} {t : Nat} (hrole : n.role ≠ .init)
    (hterm : msg.term? = some t) (hheeds : n.Heeds msg)
    (hstep : step n (.message sender msg) = .ok (m, es)) :
    (t < n.term → m = n) ∧ (n.term < t → m.term = t ∧ m.role = .follower) ∧
      (t = n.term → m.term = n.term) := by
  have hstays : t = n.term → m.term = n.term := by
    intro heq
    refine ((step_course hstep).keeps_term (fun i hi => ?_) rfl).1
    rw [List.mem_singleton.1 hi, ← heq]
    exact hterm
  obtain ⟨v, hv, rfl, -⟩ := exists_process_of_step hstep
  obtain ⟨u, hu, hsettle⟩ := Node.exists_dispatch hv
  have hgated := Turn.gated_onMessage (t := n.turn) hterm hrole hheeds hu
  refine ⟨fun hlt => ?_, fun hlt => ?_, hstays⟩
  · obtain ⟨hnode, hpending⟩ := hgated.stale hlt
    rw [Turn.settle_of_nil hpending] at hsettle
    obtain rfl := Except.ok.inj hsettle
    exact hnode
  · obtain ⟨hnode, hfollower, hpending⟩ := hgated.newer hlt
    obtain ⟨fs, -, hcourse⟩ := Turn.settle_course hsettle
    have hleft : ∀ i ∈ u.pending, i.term? = some t := by
      intro i hi
      rcases hpending with h | h
      · rw [h] at hi
        cases hi
      · rw [h] at hi
        rw [List.mem_singleton.1 hi]
        exact hterm
    obtain ⟨hkept, hstill⟩ := hcourse.keeps_term hleft hnode
    exact ⟨hkept, hstill hfollower⟩

/-- Node 1 leads three members in term 2. -/
def incumbent : Node where
  id := ⟨1⟩
  role := .leader
  standing :=
    { term := 2, config := .stable 0 (.ofList [⟨1⟩, ⟨2⟩, ⟨3⟩]), votedFor := some ⟨1⟩ }
  leader := some ⟨1⟩

/-- It steps down for a member that stands for election in term 4, and considers the request again
as a follower. -/
theorem term_gate_incumbent : ∃ m es,
    step incumbent (.message ⟨3⟩ (.requestVote 4 ⟨3⟩ 0 0)) = .ok (m, es) ∧ incumbent.term < 4 ∧
      m.term = 4 ∧ m.role = .follower := by
  have hheeds : incumbent.Heeds (.requestVote 4 ⟨3⟩ 0 0) := .inr (by decide)
  obtain ⟨-, hnewer, -⟩ := term_gate (n := incumbent) (by decide) rfl hheeds rfl
  exact ⟨_, _, rfl, by decide, hnewer (by decide)⟩

end Raft
