import Raft.Proofs.Merging
import Raft.Proofs.Stages

/-!
# The changes of a log

A log begins empty or as a snapshot, and from then on it changes in four ways only. `Log.Change`
lists them, with anything a leader or a capture might bring along, and `Log.after` is a log after a
sequence of them.

* Whatever comes, the live entries stay numbered without gaps, and the snapshot's boundary and the
  commit index only move forward: `Log.Anchored.perform`, `Log.committed_le_perform`.
* What is committed stays on the log as long as nothing takes it back. `Log.Spares` says so of one
  change, and `Log.take_splice` is why a batch that is merged then leaves it alone.
* `Log.representation_invariant`, all of this for every log that can come about.
-/

namespace Raft

namespace Log

/-- What can be done to a log. An entry is added behind the last one. -/
inductive Change
  | append (term : Nat) (command : Command) (client : Option PeerId)
  | merge (batch : List Entry) (after : Nat)
  | commit (i : Nat)
  | compact (s : Snapshot)
  deriving DecidableEq

/-- The log after a change. -/
def perform (log : Log) : Change → Log
  | .append term command client => log.append { term, index := log.nextIndex, command, client }
  | .merge batch after => log.merge batch after
  | .commit i => log.commit i
  | .compact s => log.compact s

/-- The log after a sequence of changes. -/
def after (log : Log) (cs : List Change) : Log := cs.foldl perform log

@[simp] theorem after_nil (log : Log) : log.after [] = log := rfl

@[simp] theorem after_cons (log : Log) (c : Change) (cs : List Change) :
    log.after (c :: cs) = (log.perform c).after cs := rfl

theorem after_append (log : Log) (cs ds : List Change) :
    log.after (cs ++ ds) = (log.after cs).after ds := List.foldl_append

/-- A change takes nothing back that is committed: a batch replaces no entry at or below the commit
index, and a snapshot that is not ignored lies above it, or the log has its term at its boundary. -/
def Spares (log : Log) : Change → Prop
  | .append .. => True
  | .merge batch after => log.mergeLapses batch after = []
  | .commit _ => True
  | .compact s => (log.snapshot.isSome ∧ s.about.index ≤ log.prevIndex) ∨
      log.committed < s.about.index ∨ log.termAt? s.about.index = some s.about.term

/-- The same for every change of a sequence, when its turn comes. -/
def SparesAll : Log → List Change → Prop
  | _, [] => True
  | log, c :: cs => log.Spares c ∧ (log.perform c).SparesAll cs

instance (log : Log) (c : Change) : Decidable (log.Spares c) :=
  match c with
  | .append .. => inferInstanceAs (Decidable True)
  | .merge batch after => inferInstanceAs (Decidable (log.mergeLapses batch after = []))
  | .commit _ => inferInstanceAs (Decidable True)
  | .compact s => inferInstanceAs (Decidable (
      (log.snapshot.isSome ∧ s.about.index ≤ log.prevIndex) ∨
        log.committed < s.about.index ∨ log.termAt? s.about.index = some s.about.term))

instance decidableSparesAll : (log : Log) → (cs : List Change) → Decidable (log.SparesAll cs)
  | _, [] => inferInstanceAs (Decidable True)
  | log, c :: cs =>
    have := decidableSparesAll (log.perform c) cs
    inferInstanceAs (Decidable (log.Spares c ∧ (log.perform c).SparesAll cs))

variable {log : Log}

/-! ### What holds whatever comes -/

theorem anchored_empty : ({} : Log).Anchored := ⟨contiguous_of_entries_eq_nil rfl, Nat.le_refl 0⟩

theorem anchored_ofSnapshot (s : Snapshot) : (ofSnapshot s).Anchored :=
  ⟨contiguous_of_entries_eq_nil rfl, Nat.le_refl _⟩

theorem Anchored.perform (h : log.Anchored) (c : Change) : (log.perform c).Anchored := by
  cases c with
  | append => exact ⟨h.contiguous.append rfl, h.prevIndex_le⟩
  | merge batch after =>
    refine ⟨h.contiguous.merge batch after, ?_⟩
    show (log.merge batch after).prevIndex ≤ (log.merge batch after).committed
    rw [prevIndex_merge, committed_merge]
    exact h.prevIndex_le
  | commit i => exact ⟨h.contiguous.commit i, Nat.le_trans h.prevIndex_le (Nat.le_max_left ..)⟩
  | compact s => exact h.compact s

/-- The boundary of the snapshot never moves back. -/
theorem prevIndex_le_perform (log : Log) (c : Change) :
    log.prevIndex ≤ (log.perform c).prevIndex := by
  cases c with
  | append | commit => exact Nat.le_refl _
  | merge batch after => exact Nat.le_of_eq (prevIndex_merge ..).symm
  | compact s => exact log.prevIndex_le_compact s

/-- The commit index never moves back. -/
theorem committed_le_perform (log : Log) (c : Change) :
    log.committed ≤ (log.perform c).committed := by
  cases c with
  | append => exact Nat.le_refl _
  | merge batch after => exact Nat.le_of_eq (committed_merge ..).symm
  | commit => exact Nat.le_max_left ..
  | compact s => exact log.committed_le_compact s

theorem Anchored.after (h : log.Anchored) (cs : List Change) : (log.after cs).Anchored := by
  induction cs generalizing log with
  | nil => exact h
  | cons c cs ih => exact ih (h.perform c)

theorem indices_le_after (log : Log) (cs : List Change) :
    log.prevIndex ≤ (log.after cs).prevIndex ∧ log.committed ≤ (log.after cs).committed := by
  induction cs generalizing log with
  | nil => exact ⟨Nat.le_refl _, Nat.le_refl _⟩
  | cons c cs ih =>
    obtain ⟨hprev, hcommitted⟩ := ih (log.perform c)
    exact ⟨Nat.le_trans (log.prevIndex_le_perform c) hprev,
      Nat.le_trans (log.committed_le_perform c) hcommitted⟩

/-! ### What stays if nothing committed is taken back -/

/-- A batch that cuts off nothing up to position `c` leaves the entries up to there alone. -/
theorem take_splice {prev after c : Nat} {live batch : List Entry}
    (h : spliceLapses prev after c live batch = []) (hc : c ≤ prev + live.length) :
    (splice prev after live batch).take (c - prev) = live.take (c - prev) := by
  induction batch generalizing live with
  | nil => rw [splice_nil]
  | cons e rest ih =>
    rcases lands prev after live e with hpass | ⟨j, hindex, hafter, hj, hterm⟩ | ⟨hindex, hafter⟩
    · rw [spliceLapses_passed hpass] at h
      rw [splice_passed hpass]
      exact ih h hc
    · obtain ⟨hbehind, hrest⟩ := behind_of_placed hindex hafter hj hterm hc h
      have hlength : (live.take j).length = j := by
        rw [List.length_take]
        omega
      rw [splice_placed hindex hafter hj hterm, ih hrest (by rw [List.length_append]; omega),
        List.take_append_of_le_length (by omega), List.take_take, Nat.min_eq_left hbehind]
    · rw [splice_missed hindex hafter]

namespace Contiguous

/-- What is committed stays when a batch spares it. -/
theorem take_merge (h : log.Contiguous) (hc : log.committed ≤ log.lastIndex)
    {batch : List Entry} {after : Nat} (hspares : log.mergeLapses batch after = []) :
    (log.merge batch after).entries.take (log.committed - log.prevIndex) =
      log.entries.take (log.committed - log.prevIndex) := by
  rw [h.lastIndex_eq] at hc
  rw [mergeLapses_eq_splice] at hspares
  rw [merge_eq_splice]
  exact take_splice hspares hc

theorem committed_le_lastIndex_merge (h : log.Contiguous) (hc : log.committed ≤ log.lastIndex)
    {batch : List Entry} {after : Nat} (hspares : log.mergeLapses batch after = []) :
    log.committed ≤ (log.merge batch after).lastIndex := by
  have hlength := congrArg List.length (h.take_merge hc hspares)
  rw [h.lastIndex_eq] at hc
  rw [List.length_take, List.length_take] at hlength
  rw [(h.merge batch after).lastIndex_eq, prevIndex_merge]
  omega

/-- Compaction does not move the end of a log that has the snapshot's term at its boundary. -/
theorem lastIndex_compact_eq (h : log.Contiguous) {s : Snapshot}
    (hnew : ¬ (log.snapshot.isSome ∧ s.about.index ≤ log.prevIndex))
    (hterm : log.termAt? s.about.index = some s.about.term)
    (hle : s.about.index ≤ log.lastIndex) : (log.compact s).lastIndex = log.lastIndex := by
  have hprev := log.prevIndex_le_of_not hnew
  rw [h.lastIndex_eq] at hle
  rw [(h.compact s).lastIndex_eq, h.lastIndex_eq, Log.compact, if_neg hnew, if_pos hterm]
  show s.about.index + (log.entries.filter (s.about.index < ·.index)).length = _
  rw [h.filter_lt, List.length_drop]
  omega

theorem committed_le_lastIndex_compact (h : log.Contiguous) (hc : log.committed ≤ log.lastIndex)
    {s : Snapshot} (hspares : log.Spares (.compact s)) :
    (log.compact s).committed ≤ (log.compact s).lastIndex := by
  by_cases hold : log.snapshot.isSome ∧ s.about.index ≤ log.prevIndex
  · rw [Log.compact, if_pos hold]
    exact hc
  have hcommitted : (log.compact s).committed = max log.committed s.about.index := by
    rw [Log.compact, if_neg hold]
  have hboundary : s.about.index ≤ (log.compact s).lastIndex := by
    have hprev := (h.compact s).prevIndex_le_lastIndex
    rwa [prevIndex, show (log.compact s).snapshot = some s by rw [Log.compact, if_neg hold]]
      at hprev
  rcases Nat.lt_or_ge log.committed s.about.index with hlt | hle
  · rw [hcommitted, Nat.max_eq_right (Nat.le_of_lt hlt)]
    exact hboundary
  · rcases hspares with hignored | habove | hterm
    · exact absurd hignored hold
    · omega
    · rw [hcommitted, Nat.max_eq_left hle,
        h.lastIndex_compact_eq hold hterm (Nat.le_trans hle hc)]
      exact hc

theorem committed_le_lastIndex_perform (h : log.Contiguous) (hc : log.committed ≤ log.lastIndex)
    {c : Change} (hspares : log.Spares c) :
    (log.perform c).committed ≤ (log.perform c).lastIndex := by
  cases c with
  | append term command client =>
    show log.committed ≤ (log.append _).lastIndex
    rw [lastIndex_append]
    exact Nat.le_succ_of_le hc
  | merge batch after =>
    show (log.merge batch after).committed ≤ _
    rw [committed_merge]
    exact h.committed_le_lastIndex_merge hc hspares
  | commit i => exact Nat.max_le.2 ⟨hc, Nat.min_le_right ..⟩
  | compact s => exact h.committed_le_lastIndex_compact hc hspares

end Contiguous

/-- A change that takes nothing back that is committed keeps a log well-formed. -/
theorem WellFormed.perform (h : log.WellFormed) {c : Change} (hspares : log.Spares c) :
    (log.perform c).WellFormed :=
  (h.isAnchored.perform c).wellFormed
    (h.isContiguous.committed_le_lastIndex_perform h.committed_le_lastIndex hspares)

theorem Anchored.committed_le_lastIndex_after (h : log.Anchored)
    (hc : log.committed ≤ log.lastIndex) {cs : List Change} (hspares : log.SparesAll cs) :
    (log.after cs).committed ≤ (log.after cs).lastIndex := by
  induction cs generalizing log with
  | nil => exact hc
  | cons c cs ih =>
    exact ih (h.perform c) (h.contiguous.committed_le_lastIndex_perform hc hspares.1) hspares.2

/-! ### Every log -/

/-- Whatever is done to a log from its beginning on, its live entries are numbered without gaps from
the boundary of the snapshot on, which is not above the commit index, and neither of the two ever
moves back. As long as nothing committed is taken back, the commit index lies within the log. -/
theorem representation_invariant {start : Log}
    (hstart : start = {} ∨ ∃ s, start = ofSnapshot s) (cs : List Change) :
    (∀ i e, (start.after cs).entries[i]? = some e →
        e.index = (start.after cs).prevIndex + 1 + i) ∧
      (start.after cs).prevIndex ≤ (start.after cs).committed ∧
      (∀ ds, (start.after cs).prevIndex ≤ (start.after (cs ++ ds)).prevIndex ∧
        (start.after cs).committed ≤ (start.after (cs ++ ds)).committed) ∧
      (start.SparesAll cs → (start.after cs).committed ≤ (start.after cs).lastIndex) := by
  have hanchored : start.Anchored := by
    rcases hstart with rfl | ⟨s, rfl⟩
    · exact anchored_empty
    · exact anchored_ofSnapshot s
  have hwithin : start.committed ≤ start.lastIndex := by
    rcases hstart with rfl | ⟨s, rfl⟩ <;> exact Nat.le_refl _
  have hafter := hanchored.after cs
  refine ⟨hafter.contiguous, hafter.prevIndex_le, fun ds => ?_,
    hanchored.committed_le_lastIndex_after hwithin⟩
  rw [after_append]
  exact (start.after cs).indices_le_after ds

/-- A log begins as a snapshot of two entries. -/
def opening : Log := ofSnapshot ⟨⟨2, 1, .unconfigured⟩, []⟩

/-- Two entries are added. One batch is out of order and another one has a gap. Of the three
snapshots the first one has the log's term at its boundary, the second one overruns the log, and the
third one is late. -/
def eventful : List Change :=
  [.append 1 .noop none,
   .append 1 (.application [7]) none,
   .merge [⟨2, 4, .noop, none⟩, ⟨2, 3, .noop, none⟩, ⟨2, 4, .noop, none⟩] 2,
   .merge [⟨3, 5, .noop, none⟩, ⟨3, 7, .noop, none⟩] 3,
   .commit 100,
   .compact ⟨⟨4, 2, .unconfigured⟩, []⟩,
   .compact ⟨⟨8, 3, .unconfigured⟩, []⟩,
   .compact ⟨⟨5, 3, .unconfigured⟩, []⟩,
   .append 3 .noop none]

/-- None of it takes back what is committed. -/
theorem representation_invariant_eventful : (∃ s, opening = ofSnapshot s) ∧
    opening.SparesAll eventful ∧
    (opening.after (eventful.take 5)).entries.map (·.index) = [3, 4, 5] ∧
    (opening.after (eventful.take 5)).committed = 5 ∧
    (opening.after eventful).entries.map (·.index) = [9] ∧
    (opening.after eventful).prevIndex = 8 ∧
    (opening.after eventful).committed ≤ (opening.after eventful).lastIndex := by
  have hspares : opening.SparesAll eventful := by decide
  obtain ⟨-, -, -, hwithin⟩ := representation_invariant (.inr ⟨_, rfl⟩) eventful
  exact ⟨⟨_, rfl⟩, hspares, by decide, by decide, by decide, by decide, hwithin hspares⟩

/-- Once a batch cuts off what is committed, the commit index can overrun the log. -/
example : let log := ({} : Log).after [.append 1 .noop none, .append 1 .noop none, .commit 2,
      .merge [⟨2, 1, .noop, none⟩] 0]
    log.lastIndex < log.committed := by decide

end Log

end Raft
