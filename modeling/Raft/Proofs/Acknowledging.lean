import Raft.Proofs.InForce
import Raft.Proofs.Merging

/-!
# What an acknowledgement stands for

A follower that takes over a leader's entries tells it up to which position the two logs are alike
now, and the leader counts on that when it commits. The position is read off the message, so it is
to be shown that the log has come to bear it out: all of the batch is on the log or lies under its
snapshot, and of what the leader says is committed nothing else counts as committed. A tail from
before may go on behind that position, but it is neither acknowledged nor committed.

* `Log.Contiguous.le_lastIndex_of_matchesAt`, a batch that fits follows a position of the log;
* `Log.Contiguous.le_lastIndex_merge`, then the log reaches to the end of the batch;
* `Turn.log_takeEntries` and `Turn.mem_effects_takeEntries`, what a follower makes of it;
* `acknowledgement_sound`, all of it for a transition.
-/

namespace Raft

theorem ConsecutiveAfter.lastOf_eq {i : Nat} {l : List Entry} (h : ConsecutiveAfter i l) :
    lastOf l i = i + l.length := by
  rcases List.eq_nil_or_concat l with rfl | ⟨init, e, rfl⟩
  · rfl
  rw [← h.index_eq_of_concat, lastOf, List.concat_eq_append, List.getLast?_concat]

namespace Log

variable {log : Log} {batch : List Entry} {i term after c : Nat}

namespace Contiguous

theorem le_lastIndex_of_matchesAt (h : log.Contiguous) (hmatch : log.matchesAt term i = true) :
    i ≤ log.lastIndex := by
  have hprev := h.prevIndex_le_lastIndex
  rcases Nat.lt_or_ge log.prevIndex i with hlive | hle
  · have hterm : log.termAt? i = some term := by
      rw [matchesAt, if_neg (by omega), if_neg (by omega)] at hmatch
      exact beq_iff_eq.1 hmatch
    obtain ⟨e, he, -⟩ := exists_get?_of_termAt? hterm hlive
    obtain ⟨hmem, hindex, -⟩ := h.of_get? he
    exact hindex ▸ h.le_lastIndex hmem
  · exact Nat.le_trans hle hprev

/-- A merged log reaches to the end of the batch, whether or not it had a tail behind it. -/
theorem le_lastIndex_merge (h : log.Contiguous) (hbatch : ConsecutiveAfter after batch)
    (hafter : after ≤ log.lastIndex) :
    after + batch.length ≤ (log.merge batch after).lastIndex := by
  have hincludes := h.includes_merge hbatch hafter
  rcases List.eq_nil_or_concat batch with rfl | ⟨init, e, rfl⟩
  · rwa [merge_nil]
  rw [← hbatch.index_eq_of_concat]
  exact (h.merge (init.concat e) after).index_le_of_includes (hincludes e (by simp))

/-- What is committed after a merge, if no more than the batch is to be committed. -/
theorem committed_commit_merge (h : log.Contiguous) (hbatch : ConsecutiveAfter after batch)
    (hafter : after ≤ log.lastIndex) (hc : c ≤ after + batch.length) :
    ((log.merge batch after).commit c).committed = max log.committed c := by
  have hle := Nat.le_trans hc (h.le_lastIndex_merge hbatch hafter)
  show max (log.merge batch after).committed (min c (log.merge batch after).lastIndex) = _
  rw [committed_merge, Nat.min_eq_left hle]

end Contiguous

end Log

namespace Turn

variable {t : Turn}

/-- A batch is merged, also where it is empty, and what the leader has committed of it is
committed. -/
theorem log_takeEntries (t : Turn) (sender : PeerId) (prev : Nat) (entries : List Entry)
    (commit : Nat) : (t.takeEntries sender prev entries commit).node.log =
      (t.node.log.merge entries prev).commit (min commit (lastOf entries prev)) := by
  obtain ⟨u, capturing, hu, hnode⟩ := node_takeEntries (t := t) sender prev entries commit
  have hlog : u.node.log = t.node.log.merge entries prev := by
    rcases hu with ⟨rfl, rfl⟩ | rfl
    · exact (Log.merge_nil ..).symm
    · exact (t.mergeEntries entries prev).synced_syncConfig.1
  rw [hnode, ← hlog]

/-- Taking over a batch adds one acknowledgement. -/
theorem mem_effects_takeEntries {sender p : PeerId} {prev commit term last : Nat}
    {entries : List Entry} :
    .send p (.appendAccepted term last) ∈ (t.takeEntries sender prev entries commit).effects ↔
      .send p (.appendAccepted term last) ∈ t.effects ∨
        (p = sender ∧ term = t.node.term ∧ last = lastOf entries prev) := by
  obtain ⟨fs, honState, heffects⟩ := t.effects_takeEntries sender prev entries commit
  rw [heffects, List.mem_append, List.mem_append, List.mem_singleton]
  constructor
  · rintro ((hbefore | hnew) | hlast)
    · exact .inl hbefore
    · cases honState _ hnew
    · injection hlast with hp hm
      injection hm with hterm hlast
      exact .inr ⟨hp, hterm, hlast⟩
  · rintro (hbefore | ⟨rfl, rfl, rfl⟩)
    · exact .inl (.inl hbefore)
    · exact .inr rfl

end Turn

/-- A follower accepts entries without any follow-up. -/
theorem Node.process_appendEntries {n : Node} (hrole : n.role = .follower) (sender leader : PeerId)
    (term prevTerm prev : Nat) (entries : List Entry) (commit : Nat) :
    n.process (.message sender (.appendEntries leader term prevTerm prev entries commit)) =
      .ok (n.turn.acceptEntries sender leader term prevTerm prev entries commit) := by
  refine Node.process_of_done ?_ (n.turn.pending_acceptEntries ..)
  show n.turn.onAppendEntries sender leader term prevTerm prev entries commit = _
  have hturn : n.turn.node.role = .follower := hrole
  rw [Turn.onAppendEntries, hturn]

/-- A follower answers entries of a current term that are numbered without gaps. If they fit it
acknowledges them, and it acknowledges nothing else: the position is that of the last entry of the
message, its log reaches as far and includes all of them, and of what the leader has committed it
commits what is acknowledged. -/
theorem acknowledgement_sound {n : Node} {term prev : Nat} {entries : List Entry}
    (hrole : n.role = .follower) (hlog : n.log.Contiguous) (hterm : n.term ≤ term)
    (hentries : ConsecutiveAfter prev entries) (sender leader : PeerId) (prevTerm commit : Nat) :
    ∃ m es, step n (.message sender (.appendEntries leader term prevTerm prev entries commit)) =
        .ok (m, es) ∧
      (n.log.matchesAt prevTerm prev = true →
        .send sender (.appendAccepted term (prev + entries.length)) ∈ es) ∧
      ∀ p t last, Effect.send p (.appendAccepted t last) ∈ es →
        n.log.matchesAt prevTerm prev = true ∧ p = sender ∧ t = term ∧ m.term = term ∧
          last = prev + entries.length ∧ last ≤ m.log.lastIndex ∧
          (∀ e ∈ entries, m.log.Includes e) ∧
          m.log.committed = max n.log.committed (min commit last) := by
  have hprocess := Node.process_appendEntries hrole sender leader term prevTerm prev entries commit
  refine ⟨_, _, step_of_process hprocess, ?_⟩
  have hlast := hentries.lastOf_eq
  rcases n.turn.acceptEntries_cases sender leader term prevTerm prev entries commit with
    ⟨hlt, -⟩ | ⟨-, ⟨hmatch, heq⟩ | ⟨hmatch, heq⟩⟩
  · exact absurd hlt (Nat.not_lt.2 hterm)
  · have hafter : prev ≤ n.log.lastIndex := hlog.le_lastIndex_of_matchesAt hmatch
    have hheeded : (n.turn.heed leader term).node.term = term := n.turn.term_heed leader hterm
    have hmerged := (n.turn.heed leader term).log_takeEntries sender prev entries commit
    have hmterm :=
      (Turn.same_takeEntries (t := n.turn.heed leader term) sender prev entries commit).term
    rw [hlast] at hmerged
    rw [heq]
    refine ⟨fun _ => ?_, fun p t last hp => ?_⟩
    · exact Turn.mem_effects_takeEntries.2 (.inr ⟨rfl, hheeded.symm, hlast.symm⟩)
    · rcases Turn.mem_effects_takeEntries.1 hp with harmed | ⟨rfl, rfl, rfl⟩
      · cases List.mem_singleton.1 harmed
      rw [hlast, hmerged]
      refine ⟨hmatch, rfl, hheeded, hmterm.trans hheeded, rfl, ?_, ?_, ?_⟩
      · exact hlog.le_lastIndex_merge hentries hafter
      · exact hlog.includes_merge hentries hafter
      · exact hlog.committed_commit_merge hentries hafter (Nat.min_le_right ..)
  · have hmiss : n.log.matchesAt prevTerm prev = false := hmatch
    rw [heq, hmiss]
    refine ⟨fun hfits => absurd hfits Bool.false_ne_true, fun p t last hp => ?_⟩
    rcases List.mem_append.1 hp with harmed | hrefused
    · cases List.mem_singleton.1 harmed
    · cases List.mem_singleton.1 hrefused

/-- A follower with three live entries of term 1, none of them committed. -/
def trailing : Node where
  id := ⟨1⟩
  role := .follower
  standing := { term := 1 }
  log :=
    { entries := [⟨1, 3, .application [5], none⟩, ⟨1, 4, .noop, none⟩, ⟨1, 5, .noop, none⟩]
      committed := 2
      snapshot := some ⟨⟨2, 1, .unconfigured⟩, []⟩ }

/-- What the leader of term 2 sends it. The first entry lies under the snapshot, and the second one
is there. -/
def overlap : List Entry := [⟨1, 2, .noop, none⟩, ⟨1, 3, .application [5], none⟩]

/-- The leader has committed more than it sends. The follower acknowledges and commits what it is
sent, and keeps its last two entries. -/
theorem acknowledgement_sound_trailing : trailing.role = .follower ∧ trailing.log.Contiguous ∧
    trailing.term ≤ 2 ∧ ConsecutiveAfter 1 overlap ∧
    ∃ m es, step trailing (.message ⟨2⟩ (.appendEntries ⟨2⟩ 2 1 1 overlap 9)) = .ok (m, es) ∧
      .send ⟨2⟩ (.appendAccepted 2 3) ∈ es ∧ m.term = 2 ∧ m.log.committed = 3 ∧
      m.log.entries = trailing.log.entries := by
  have hlog : trailing.log.Contiguous :=
    Log.WellFormed.isContiguous ⟨by decide, by decide, by decide⟩
  have hoverlap : ConsecutiveAfter 1 overlap := .cons rfl (.cons rfl .nil)
  have hterm : trailing.term ≤ 2 := by decide
  obtain ⟨m, es, hstep, haccepts, hsound⟩ :=
    acknowledgement_sound (n := trailing) rfl hlog hterm hoverlap ⟨2⟩ ⟨2⟩ 1 9
  have haccepted := haccepts (by decide)
  obtain ⟨-, -, -, hadopted, -, -, -, hcommitted⟩ := hsound _ _ _ haccepted
  have hentries : (step trailing (.message ⟨2⟩ (.appendEntries ⟨2⟩ 2 1 1 overlap 9))).toOption.map
      (·.1.log.entries) = some trailing.log.entries := by decide
  rw [hstep] at hentries
  exact ⟨rfl, hlog, hterm, hoverlap, m, es, hstep, haccepted, hadopted, hcommitted,
    Option.some.inj hentries⟩

end Raft
