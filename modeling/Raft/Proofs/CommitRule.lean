import Raft.Proofs.Conclusion
import Raft.Proofs.Contracts
import Raft.Proofs.Quorum

/-!
# When a leader commits

A leader that is told how far another log reaches takes note of it, looks up what a quorum has
reached by now, and commits up to there if the entry there is of its own term. An acknowledgement
that is late, comes twice or comes from somebody who is no member goes the same way, and then there
is nothing new to be found.

* `Turn.onAccepted_eq`, the leader takes note of an acknowledgement (`Node.noting`);
* `Node.commitTarget`, the rule, and `Turn.advanceCommit_cases`, the leader goes by it;
* `Node.SettlesAt`, the commit ends a change of members, and only then the leader goes on to append
  something (`Turn.appended_of_conclusion`);
* `commit_rule`, all of it for a transition.
-/

namespace Raft

namespace Node

/-- The commit index of a leader that finds position `q` on a quorum. -/
def commitTarget (n : Node) (q : Nat) : Nat :=
  if n.log.committed < q ∧ (n.log.get? q).map (·.term) = some n.term then q else n.log.committed

/-- The commit index never moves back, and not beyond what a quorum has. -/
theorem committed_le_commitTarget (n : Node) (q : Nat) : n.log.committed ≤ n.commitTarget q := by
  unfold commitTarget
  split
  next h => exact Nat.le_of_lt h.1
  next => exact Nat.le_refl _

theorem commitTarget_le (n : Node) (q : Nat) : n.commitTarget q ≤ max n.log.committed q := by
  unfold commitTarget
  split
  next => exact Nat.le_max_right ..
  next => exact Nat.le_max_left ..

/-- With everything up to position `c` committed, the joint configuration in force is recorded as
committed, so that its stable successor has to follow. -/
def SettlesAt (n : Node) (c : Nat) : Prop :=
  n.config.isJoint = true ∧
    ({ n with log := { n.log with committed := c } } : Node).hasCommitted n.config = true

instance (n : Node) (c : Nat) : Decidable (n.SettlesAt c) :=
  inferInstanceAs (Decidable (_ ∧ _))

end Node

namespace Turn

variable {t u : Turn}

/-- An acknowledgement of the leader's own term is taken note of, and then the leader looks for what
it can commit. -/
theorem onAccepted_eq (hrole : t.node.role = .leader) {last : Nat}
    (hlast : last ≤ t.node.log.lastIndex) (sender : PeerId) :
    t.onAccepted sender t.node.term last =
      .ok ({ t with node := t.node.noting sender last } : Turn).advanceCommit := by
  have hinit : t.node.role ≠ .init := by simp [hrole]
  rw [onAccepted, onReply, if_neg hinit, if_neg (Nat.lt_irrefl _), if_neg (Nat.lt_irrefl _),
    if_pos hrole, recordProgress, if_neg (Nat.not_lt.2 hlast)]
  rfl

/-- A leader goes by the rule, and then looks whether a change of members has come to its end. -/
theorem advanceCommit_cases (hlog : t.node.log.Anchored)
    (hle : t.node.matchIndex.quorumIndex t.node.config ≤ t.node.log.lastIndex) :
    ∃ (v : Turn) (capturing : Bool), t.advanceCommit = v.finishChange ∧ v.pending = t.pending ∧
      t.Emits (·.isOnState) v ∧
      v.node = { t.node with
        log := { t.node.log with
          committed := t.node.commitTarget (t.node.matchIndex.quorumIndex t.node.config) }
        capturing := capturing } := by
  unfold advanceCommit
  simp only
  generalize t.node.matchIndex.quorumIndex t.node.config = q at hle ⊢
  have hrule : t.node.log.committed < q →
      t.node.log.termAt? q = (t.node.log.get? q).map (·.term) := fun hlt =>
    Log.termAt?_of_lt (Nat.lt_of_le_of_lt hlog.prevIndex_le hlt)
  split
  next h =>
    obtain ⟨capturing, -, hnode, -⟩ := t.commitUntil_cases q true
    have htarget : t.node.commitTarget q = q := if_pos ⟨h.1, hrule h.1 ▸ h.2⟩
    have hcommit : t.node.log.commit q = { t.node.log with committed := q } := by
      rw [Log.commit, Nat.min_eq_left hle, Nat.max_eq_right (Nat.le_of_lt h.1)]
    refine ⟨t.commitUntil q true, capturing, rfl, (t.clean_commitUntil q true).pending,
      t.emits_commitUntil q true, ?_⟩
    rw [hnode, htarget, hcommit]
  next h =>
    have htarget : t.node.commitTarget q = t.node.log.committed :=
      if_neg fun hcommits => h ⟨hcommits.1, (hrule hcommits.1).trans hcommits.2⟩
    exact ⟨t, t.node.capturing, rfl, rfl, .of_eq rfl, by rw [htarget]⟩

theorem finishChange_of_not (h : ¬ (t.node.config.isJoint = true ∧
    t.node.hasCommitted t.node.config = true)) : t.finishChange = t := if_neg h

/-! ### The end of a change -/

/-- A command that leaves no change in progress raises nothing further. -/
theorem pending_appendRequest {r : Request} (h : t.appendRequest r = .ok u)
    (hstable : u.node.config.isJoint = false) : u.pending = t.pending := by
  rw [appendRequest_eq] at h
  obtain ⟨w, hw, rfl⟩ := exists_of_map h
  rw [(sameRecord_leaveIfRemoved _).config, config_advanceCommit] at hstable
  calc w.advanceCommit.leaveIfRemoved.pending
      = w.advanceCommit.pending := (clean_leaveIfRemoved _).pending
    _ = w.pending := (clean_advanceCommit hstable).pending
    _ = ((t.appendOwn r.command (some r.client)).adoptNewer r.command).pending :=
      (clean_replicate hw).pending
    _ = t.pending := pending_append ..

/-- A leader that submits the stable successor to itself appends it, and nothing follows. -/
theorem appended_of_conclusion (hrole : t.node.role = .leader)
    (hjoint : t.node.config.isJoint = true) (hpending : t.pending = [t.node.conclusion])
    {budget : Nat} (h : t.settle budget = .ok u) :
    ∃ e ∈ u.node.log.entries,
      e.index = t.node.log.nextIndex ∧ e.command = .configuration t.node.config.settled := by
  rcases settle_cases h with ⟨hnone, -⟩ | ⟨j, rest, b, v, hp, -, hv, hrest⟩
  · cases hpending.symm.trans hnone
  obtain ⟨rfl, rfl⟩ := List.cons.inj (hpending.symm.trans hp)
  obtain ⟨hconfig, hentry⟩ :=
    concludes_dispatch (t := { t with pending := [] }) hrole hjoint hv
  have happend : ({ t with pending := [] } : Turn).appendRequest
      ⟨t.node.id, .configuration t.node.config.settled⟩ = .ok v := by
    rw [← hv]
    exact (if_pos hrole).symm
  have hdone : v.pending = [] := pending_appendRequest happend <| by
    rw [hconfig]
    exact Configuration.isJoint_settled _
  rw [settle_of_nil hdone] at hrest
  exact Except.ok.inj hrest ▸ hentry

end Turn

namespace Node

variable {n m : Node} {sender : PeerId} {last q : Nat}

/-- What becomes of a leader that is told that a log reaches up to `last`, when a quorum has reached
`q` by then: the commit index follows the rule, and of the log, the term, the role and what is known
of others nothing else changes. -/
structure GoesBy (n : Node) (sender : PeerId) (last q : Nat) (m : Node) : Prop where
  log : m.log = { n.log with committed := n.commitTarget q }
  term : m.term = n.term
  role : m.role = n.role
  matchIndex : m.matchIndex = n.matchIndex.raise sender last
  matched : ∀ p, m.matchIndex.get p ≤ m.log.lastIndex

/-- How a leader processes an acknowledgement: it goes by the rule, and only a joint configuration
that the commit settles is left for later. -/
theorem exists_advance (hrole : n.role = .leader) (hlog : n.log.WellFormed)
    (hmatch : ∀ p, n.matchIndex.get p ≤ n.log.lastIndex) (hlast : last ≤ n.log.lastIndex)
    (hq : (n.matchIndex.raise sender last).IsQuorumIndex n.config q) :
    ∃ u, n.turn.onAccepted sender n.term last = .ok u ∧ n.GoesBy sender last q u.node ∧
      u.node.config = n.config ∧
      (¬ n.SettlesAt (n.commitTarget q) → u.pending = []) ∧
      (n.SettlesAt (n.commitTarget q) → u.pending = [u.node.conclusion]) := by
  have hraised : ∀ p, (n.matchIndex.raise sender last).get p ≤ n.log.lastIndex :=
    Progress.get_raise_le_of_le hmatch sender hlast
  obtain rfl := Progress.isQuorumIndex_iff.1 hq
  obtain ⟨v, capturing, hadvance, hpending, -, hnode⟩ :=
    Turn.advanceCommit_cases (t := (n.noting sender last).turn) hlog.isAnchored
      (Progress.quorumIndex_le hraised)
  have hsettles : (v.node.config.isJoint = true ∧ v.node.hasCommitted v.node.config = true) ↔
      n.SettlesAt (n.commitTarget ((n.matchIndex.raise sender last).quorumIndex n.config)) := by
    rw [hnode]
    exact Iff.rfl
  have haccepted := Turn.onAccepted_eq (t := n.turn) hrole hlast sender
  refine ⟨v.finishChange, haccepted.trans (congrArg Except.ok hadvance), ?_, ?_, fun h => ?_,
    fun h => ?_⟩
  · rw [Turn.node_finishChange, hnode]
    exact ⟨rfl, rfl, rfl, rfl, hraised⟩
  · rw [Turn.node_finishChange, hnode]
    rfl
  · rw [Turn.finishChange_of_not (mt hsettles.1 h)]
    exact hpending
  · have hcalls := hsettles.2 h
    refine Turn.heeds_finishChange (t := n.turn) hpending ?_ ?_ ?_
    · rw [Turn.node_finishChange, hnode]
      exact hrole
    · rw [Turn.node_finishChange]
      exact hcalls.1
    · rw [Turn.node_finishChange]
      exact hcalls.2

/-- A leader commits what a quorum has reached if the entry there is of its own term, and otherwise
nothing, whoever the acknowledgement is from and however late it comes. Only where the joint
configuration in force is recorded as committed by then, the leader goes on to append its stable
successor; in every other case the transition goes through and does no more than that. -/
theorem commit_rule {m : Message} (hrole : n.role = .leader) (hlog : n.log.WellFormed)
    (hmatch : ∀ p, n.matchIndex.get p ≤ n.log.lastIndex) (hlast : last ≤ n.log.lastIndex)
    (hm : m = .appendAccepted n.term last ∨ m = .snapshotAccepted n.term last)
    (hq : (n.matchIndex.raise sender last).IsQuorumIndex n.config q) :
    (∀ n' es, step n (.message sender m) = .ok (n', es) →
      (∀ e ∈ n'.log.entries, n.log.lastIndex < e.index →
        e.command ≠ .configuration n.config.settled) → n.GoesBy sender last q n') ∧
    (¬ n.SettlesAt (n.commitTarget q) →
      ∃ n' es, step n (.message sender m) = .ok (n', es) ∧ n.GoesBy sender last q n') := by
  obtain ⟨u, hu, hgoes, hconfig, hdone, hsettles⟩ :=
    exists_advance hrole hlog hmatch hlast hq
  have hdispatch : n.turn.dispatch (.message sender m) = .ok u := by
    rcases hm with rfl | rfl
    · exact hu
    · exact hu
  have hplain : ¬ n.SettlesAt (n.commitTarget q) →
      step n (.message sender m) = .ok (u.node, u.effects) := fun h =>
    step_of_process (process_of_done hdispatch (hdone h))
  refine ⟨fun n' es hstep hnone => ?_, fun h => ⟨_, _, hplain h, hgoes⟩⟩
  by_cases h : n.SettlesAt (n.commitTarget q)
  · -- the leader has appended the successor behind the end of the log
    exfalso
    obtain ⟨t, ht, rfl, -⟩ := exists_process_of_step hstep
    obtain ⟨w, hw, hrest⟩ := exists_dispatch ht
    obtain rfl := Except.ok.inj (hdispatch.symm.trans hw)
    obtain ⟨e, he, hindex, hcommand⟩ := Turn.appended_of_conclusion (hgoes.role.trans hrole)
      (by rw [hconfig]; exact h.1) (hsettles h) hrest
    refine hnone e he ?_ (hconfig ▸ hcommand)
    rw [hindex, hgoes.log]
    exact Nat.lt_succ_self _
  · rw [hplain h] at hstep
    obtain ⟨rfl, -⟩ := Prod.mk.inj (Except.ok.inj hstep)
    exact hgoes

/-- A leader in the middle of a change of members, with nothing of its own term committed. Node 1 is
the leader, node 2 has all of its log, and of the new members nothing is known. -/
def midway : Node where
  id := ⟨1⟩
  role := .leader
  standing := { term := 2, config := .joint 1 (.ofList [⟨1⟩, ⟨2⟩, ⟨3⟩]) (.ofList [⟨1⟩, ⟨4⟩, ⟨5⟩]) }
  log :=
    { entries :=
        [⟨1, 1, .noop, none⟩, ⟨2, 2, .noop, none⟩, ⟨2, 3, .application [7], some ⟨9⟩⟩,
          ⟨2, 4, .configuration
            (.joint 1 (.ofList [⟨1⟩, ⟨2⟩, ⟨3⟩]) (.ofList [⟨1⟩, ⟨4⟩, ⟨5⟩])), some ⟨1⟩⟩]
      committed := 1 }
  matchIndex := ((Progress.uniform 0).raise ⟨1⟩ 4).raise ⟨2⟩ 4

/-- The new member 4 has the log up to position 3, and so much is committed. The configuration
stands behind it. Node 9 is no member, and what it has does not count. -/
theorem commit_rule_midway : ¬ midway.SettlesAt 3 ∧
    (∃ m es, step midway (.message ⟨4⟩ (.appendAccepted 2 3)) = .ok (m, es) ∧
      m.log = { midway.log with committed := 3 }) ∧
    ∃ m es, step midway (.message ⟨9⟩ (.snapshotAccepted 2 4)) = .ok (m, es) ∧
      m.log = midway.log := by
  have hlog : midway.log.WellFormed := ⟨by decide, by decide, by decide⟩
  have hmatch : ∀ p, midway.matchIndex.get p ≤ midway.log.lastIndex :=
    Progress.get_raise_le_of_le (Progress.get_raise_le_of_le (fun _ => Nat.zero_le _) ⟨1⟩
      (by decide)) ⟨2⟩ (by decide)
  have hthree : (midway.matchIndex.raise ⟨4⟩ 3).IsQuorumIndex midway.config 3 :=
    Progress.isQuorumIndex_iff.2 (by decide)
  have hnone : (midway.matchIndex.raise ⟨9⟩ 4).IsQuorumIndex midway.config 0 :=
    Progress.isQuorumIndex_iff.2 (by decide)
  obtain ⟨-, hmember⟩ := commit_rule (m := .appendAccepted 2 3) rfl hlog hmatch (by decide)
    (.inl rfl) hthree
  obtain ⟨-, hstranger⟩ := commit_rule (m := .snapshotAccepted 2 4) rfl hlog hmatch (by decide)
    (.inr rfl) hnone
  obtain ⟨m, es, hstep, hgoes⟩ := hmember (by decide)
  obtain ⟨m', es', hstep', hgoes'⟩ := hstranger (by decide)
  exact ⟨by decide, ⟨m, es, hstep, hgoes.log⟩, m', es', hstep', hgoes'.log⟩

end Node

end Raft
