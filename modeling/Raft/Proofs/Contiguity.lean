import Raft.Proofs.Acts
import Raft.Proofs.Overlay

/-!
# The configuration that a log calls for

The configurations in a log are found by position, so what is said of them here rests on the live
entries being numbered without gaps. `Log.Contiguous` is this part of `Log.WellFormed`. Unlike the
rest it survives every batch and every snapshot, whoever sent it: `Contiguous.append`,
`Contiguous.merge`, `Contiguous.compact`.

* `Log.latestConfiguration?_eq`, the newest configuration of a log, and what becomes of it;
* `Node.origin`, the configuration from before the log had any;
* `Node.Synced`, the configuration in force is the one that the log calls for;
* `Node.BearsOut`, the log confirms all that is recorded of a capture.
-/

namespace Raft

namespace Log

/-- The live entries are numbered without gaps. -/
def Contiguous (log : Log) : Prop :=
  ∀ k e, log.entries[k]? = some e → e.index = log.prevIndex + 1 + k

theorem WellFormed.isContiguous {log : Log} (h : log.WellFormed) : log.Contiguous := by
  intro k e he
  obtain ⟨hk, rfl⟩ := List.getElem?_eq_some_iff.1 he
  exact h.contiguous k hk

theorem contiguous_of_entries_eq_nil {log : Log} (h : log.entries = []) : log.Contiguous := by
  intro k e he
  rw [h] at he
  cases he

/-- Behind the snapshot the entries are the live ones. -/
theorem get?_of_lt {log : Log} {i : Nat} (h : log.prevIndex < i) :
    log.get? i = log.entries[i - log.prevIndex - 1]? := if_neg (Nat.not_le.2 h)

namespace Contiguous

variable {log : Log}

theorem lastIndex_eq (h : log.Contiguous) : log.lastIndex = log.prevIndex + log.entries.length := by
  unfold lastIndex
  split
  next e he =>
    rw [List.getLast?_eq_getElem?] at he
    have hlt := (List.getElem?_eq_some_iff.1 he).1
    have hindex := h _ e he
    omega
  next hnone =>
    rw [List.getLast?_eq_none_iff] at hnone
    simp [hnone]

/-- A log ends no earlier than with its snapshot. -/
theorem prevIndex_le_lastIndex (h : log.Contiguous) : log.prevIndex ≤ log.lastIndex := by
  rw [h.lastIndex_eq]
  exact Nat.le_add_right ..

theorem le_lastIndex (h : log.Contiguous) {e : Entry} (he : e ∈ log.entries) :
    e.index ≤ log.lastIndex := by
  obtain ⟨k, hk⟩ := List.mem_iff_getElem?.1 he
  have hlt := (List.getElem?_eq_some_iff.1 hk).1
  have hindex := h k e hk
  rw [h.lastIndex_eq]
  omega

theorem get?_index (h : log.Contiguous) {e : Entry} (he : e ∈ log.entries) :
    log.get? e.index = some e := by
  obtain ⟨k, hk⟩ := List.mem_iff_getElem?.1 he
  have hindex := h k e hk
  rw [get?_of_lt (by omega), ← hk]
  congr 1
  omega

/-- A live entry stands at the position that it is numbered with. -/
theorem of_get? (h : log.Contiguous) {i : Nat} {e : Entry} (he : log.get? i = some e) :
    e ∈ log.entries ∧ e.index = i ∧ log.prevIndex < i := by
  unfold get? at he
  split at he
  next => cases he
  next hi =>
    have hindex := h _ e he
    exact ⟨List.mem_of_getElem? he, by omega, by omega⟩

theorem exists_get? (h : log.Contiguous) {i : Nat} (hlow : log.prevIndex < i)
    (hhigh : i ≤ log.lastIndex) : ∃ e, log.get? i = some e := by
  rw [h.lastIndex_eq] at hhigh
  rw [get?_of_lt hlow]
  exact ⟨_, List.getElem?_eq_getElem (by omega)⟩

/-! ### What a change of the log does -/

theorem append (h : log.Contiguous) {e : Entry} (he : e.index = log.nextIndex) :
    (log.append e).Contiguous := by
  intro k f hf
  change (log.entries ++ [e])[k]? = some f at hf
  show f.index = log.prevIndex + 1 + k
  rcases Nat.lt_or_ge k log.entries.length with hk | hk
  · rw [List.getElem?_append_left hk] at hf
    exact h k f hf
  · rw [List.getElem?_append_right hk, List.getElem?_singleton] at hf
    split at hf
    next hlast =>
      obtain rfl := Option.some.inj hf
      rw [he, nextIndex, h.lastIndex_eq]
      omega
    next => cases hf

theorem commit (h : log.Contiguous) (i : Nat) : (log.commit i).Contiguous := h

/-- Wherever a batch cuts or extends the live entries, it puts an entry at its own position. -/
theorem splice {prev after : Nat} {live batch : List Entry}
    (h : ∀ k e, live[k]? = some e → e.index = prev + 1 + k) :
    ∀ k e, (splice prev after live batch)[k]? = some e → e.index = prev + 1 + k := by
  induction batch generalizing live with
  | nil => rwa [splice_nil]
  | cons e rest ih =>
    have hput : ∀ j, j ≤ live.length → e.index = prev + 1 + j →
        ∀ k f, (live.take j ++ [e])[k]? = some f → f.index = prev + 1 + k := by
      intro j hj he k f hf
      rcases Nat.lt_or_ge k (live.take j).length with hk | hk
      · rw [List.getElem?_append_left hk] at hf
        rw [List.length_take] at hk
        exact h k f (by rwa [List.getElem?_take_of_lt (by omega)] at hf)
      · rw [List.getElem?_append_right hk, List.getElem?_singleton] at hf
        rw [List.length_take] at hk hf
        split at hf
        next hlast =>
          obtain rfl := Option.some.inj hf
          omega
        next => cases hf
    rcases lands prev after live e with hpass | ⟨j, hindex, hafter, hj, hterm⟩ | ⟨hindex, hafter⟩
    · rw [splice_passed hpass]
      exact ih h
    · rw [splice_placed hindex hafter hj hterm]
      exact ih (hput j hj hindex)
    · rw [splice_missed hindex hafter]
      exact h

theorem merge (h : log.Contiguous) (batch : List Entry) (after : Nat) :
    (log.merge batch after).Contiguous := by
  unfold Log.merge
  split
  next => exact splice h
  next => exact h

theorem index_of_mem (h : log.Contiguous) {e : Entry} (he : e ∈ log.entries) :
    log.prevIndex < e.index := by
  obtain ⟨k, hk⟩ := List.mem_iff_getElem?.1 he
  have hindex := h _ e hk
  omega

theorem index_of_mem_drop (h : log.Contiguous) {j : Nat} {e : Entry} (he : e ∈ log.entries.drop j) :
    log.prevIndex + j < e.index := by
  obtain ⟨k, hk⟩ := List.mem_iff_getElem?.1 he
  rw [List.getElem?_drop] at hk
  have hindex := h _ e hk
  omega

theorem index_of_mem_take (h : log.Contiguous) {j : Nat} {e : Entry} (he : e ∈ log.entries.take j) :
    e.index ≤ log.prevIndex + j := by
  obtain ⟨k, hk⟩ := List.mem_iff_getElem?.1 he
  have hlt := (List.getElem?_eq_some_iff.1 hk).1
  rw [List.length_take] at hlt
  rw [List.getElem?_take_of_lt (by omega)] at hk
  have hindex := h _ e hk
  omega

/-- The live entries up to a position are the first ones. -/
theorem filter_le (h : log.Contiguous) (i : Nat) :
    log.entries.filter (·.index ≤ i) = log.entries.take (i - log.prevIndex) := by
  have hbefore : (log.entries.take (i - log.prevIndex)).filter (·.index ≤ i) =
      log.entries.take (i - log.prevIndex) := by
    refine List.filter_eq_self.2 fun e he => ?_
    have hle := h.index_of_mem_take he
    have hlt := h.index_of_mem (List.mem_of_mem_take he)
    simp only [decide_eq_true_eq]
    omega
  have hbehind : (log.entries.drop (i - log.prevIndex)).filter (·.index ≤ i) = [] := by
    refine List.filter_eq_nil_iff.2 fun e he => ?_
    have hlt := h.index_of_mem_drop he
    simp only [decide_eq_true_eq]
    omega
  calc log.entries.filter (·.index ≤ i)
      = (log.entries.take (i - log.prevIndex) ++ log.entries.drop (i - log.prevIndex)).filter
          (·.index ≤ i) := by rw [List.take_append_drop]
    _ = log.entries.take (i - log.prevIndex) := by
        rw [List.filter_append, hbefore, hbehind, List.append_nil]

/-- The live entries behind a position are the last ones. -/
theorem filter_lt (h : log.Contiguous) (i : Nat) :
    log.entries.filter (i < ·.index) = log.entries.drop (i - log.prevIndex) := by
  have hbefore : (log.entries.take (i - log.prevIndex)).filter (i < ·.index) = [] := by
    refine List.filter_eq_nil_iff.2 fun e he => ?_
    have hle := h.index_of_mem_take he
    have hlt := h.index_of_mem (List.mem_of_mem_take he)
    simp only [decide_eq_true_eq]
    omega
  have hbehind : (log.entries.drop (i - log.prevIndex)).filter (i < ·.index) =
      log.entries.drop (i - log.prevIndex) := by
    refine List.filter_eq_self.2 fun e he => ?_
    have hlt := h.index_of_mem_drop he
    simp only [decide_eq_true_eq]
    omega
  calc log.entries.filter (i < ·.index)
      = (log.entries.take (i - log.prevIndex) ++ log.entries.drop (i - log.prevIndex)).filter
          (i < ·.index) := by rw [List.take_append_drop]
    _ = log.entries.drop (i - log.prevIndex) := by
        rw [List.filter_append, hbefore, hbehind, List.nil_append]

/-- A compaction removes the first live entries, or all of them. -/
theorem compact (h : log.Contiguous) (s : Snapshot) : (log.compact s).Contiguous := by
  unfold Log.compact
  split
  next => exact h
  next hnew =>
    split
    next =>
      intro k e he
      have hle : log.prevIndex ≤ s.about.index := log.prevIndex_le_of_not hnew
      change (log.entries.filter (s.about.index < ·.index))[k]? = some e at he
      show e.index = s.about.index + 1 + k
      rw [h.filter_lt, List.getElem?_drop] at he
      have hindex := h _ e he
      omega
    next => exact contiguous_of_entries_eq_nil rfl

end Contiguous

/-! ### The newest configuration -/

/-- The configuration in the last of the entries that carry one. -/
def newestIn (l : List Entry) : Option Configuration :=
  l.reverse.findSome? (·.command.configuration?)

theorem newestIn_append (l m : List Entry) :
    newestIn (l ++ m) = (newestIn m).or (newestIn l) := by
  rw [newestIn, List.reverse_append, List.findSome?_append]
  rfl

theorem newestIn_singleton (e : Entry) : newestIn [e] = e.command.configuration? := by
  simp [newestIn]

theorem newestIn_eq_some {l : List Entry} {c : Configuration} (h : newestIn l = some c) :
    ∃ before e behind, l = before ++ e :: behind ∧ e.command.configuration? = some c ∧
      ∀ f ∈ behind, f.command.configuration? = none := by
  obtain ⟨r, e, q, hsplit, he, hnone⟩ := List.findSome?_eq_some_iff.1 h
  refine ⟨q.reverse, e, r.reverse, ?_, he, fun f hf => hnone f (List.mem_reverse.1 hf)⟩
  have := congrArg List.reverse hsplit
  simpa using this

theorem newestIn_eq_none {l : List Entry} (h : newestIn l = none) :
    ∀ e ∈ l, e.command.configuration? = none := by
  intro e he
  exact List.findSome?_eq_none_iff.1 h e (List.mem_reverse.2 he)

variable {log : Log}

theorem configurationAt?_eq (h : log.Contiguous) (i : Nat) : log.configurationAt? i =
    (newestIn (log.entries.take (i - log.prevIndex))).or (log.snapshot.map (·.about.config)) := by
  rw [configurationAt?, h.filter_le]
  rfl

theorem latestConfiguration?_eq (h : log.Contiguous) : log.latestConfiguration? =
    (newestIn log.entries).or (log.snapshot.map (·.about.config)) := by
  rw [latestConfiguration?, configurationAt?_eq h, h.lastIndex_eq, Nat.add_sub_cancel_left,
    List.take_length]

theorem latestConfiguration?_append (h : log.Contiguous) {e : Entry}
    (he : e.index = log.nextIndex) : (log.append e).latestConfiguration? =
      e.command.configuration?.or log.latestConfiguration? := by
  rw [latestConfiguration?_eq (h.append he), latestConfiguration?_eq h, ← Option.or_assoc,
    ← newestIn_singleton, ← newestIn_append]
  rfl

theorem latestConfiguration?_commit (i : Nat) :
    (log.commit i).latestConfiguration? = log.latestConfiguration? := rfl

/-- How much of a log is committed does not matter for its configuration. -/
theorem latestConfiguration?_congr {log' : Log} (hentries : log'.entries = log.entries)
    (hsnapshot : log'.snapshot = log.snapshot) :
    log'.latestConfiguration? = log.latestConfiguration? := by
  obtain ⟨entries, committed, snapshot⟩ := log
  obtain ⟨entries', committed', snapshot'⟩ := log'
  obtain rfl := hentries
  obtain rfl := hsnapshot
  rfl

/-- A log that holds a snapshot has a configuration. -/
theorem latestConfiguration?_ne_none (h : log.snapshot ≠ none) :
    log.latestConfiguration? ≠ none := by
  obtain ⟨s, hs⟩ := Option.ne_none_iff_exists'.1 h
  simp [latestConfiguration?, configurationAt?, hs]

/-- What a log has as its newest configuration stays so when a snapshot takes the place of the first
entries, provided that the snapshot records the newest one among these. -/
theorem latestConfiguration?_compact (h : log.Contiguous) {s : Snapshot}
    (hterm : log.termAt? s.about.index = some s.about.term)
    (hnew : ¬ (log.snapshot.isSome ∧ s.about.index ≤ log.prevIndex)) :
    (log.compact s).latestConfiguration? =
      (newestIn (log.entries.drop (s.about.index - log.prevIndex))).or (some s.about.config) := by
  rw [latestConfiguration?_eq (h.compact s)]
  unfold compact
  rw [if_neg hnew, if_pos hterm, ← h.filter_lt]
  rfl

theorem latestConfiguration?_eq_or (h : log.Contiguous) (i : Nat) : log.latestConfiguration? =
    (newestIn (log.entries.drop (i - log.prevIndex))).or (log.configurationAt? i) := by
  rw [latestConfiguration?_eq h, configurationAt?_eq h, ← Option.or_assoc, ← newestIn_append,
    List.take_append_drop]

/-- Behind the snapshot the terms are those of the live entries. -/
theorem termAt?_of_lt {i : Nat} (h : log.prevIndex < i) :
    log.termAt? i = (log.get? i).map (·.term) := by
  unfold termAt?
  rw [if_neg (by omega), if_neg (by omega)]

theorem exists_get?_of_termAt? {i t : Nat} (h : log.termAt? i = some t)
    (hi : log.prevIndex < i) : ∃ e, log.get? i = some e ∧ e.term = t := by
  rw [termAt?_of_lt hi] at h
  exact Option.map_eq_some_iff.1 h

/-! ### Reading what was there before an entry was added -/

section Append

variable {e f : Entry} {k t : Nat}

theorem get?_append (h : log.get? k = some f) : (log.append e).get? k = some f := by
  unfold get? at h ⊢
  change (if k ≤ log.prevIndex then none else (log.entries ++ [e])[k - log.prevIndex - 1]?) = some f
  split at h
  next => cases h
  next hk =>
    rw [if_neg hk, List.getElem?_append_left (List.getElem?_eq_some_iff.1 h).1]
    exact h

theorem termAt?_append (h : log.termAt? k = some t) : (log.append e).termAt? k = some t := by
  unfold termAt? at h ⊢
  change (if k = 0 then some 0
    else if log.snapshot.isSome ∧ k = log.prevIndex then some log.prevTerm
    else ((log.append e).get? k).map (·.term)) = some t
  split at h
  next hk => rwa [if_pos hk]
  next hk =>
    rw [if_neg hk]
    split at h
    next hprev => rwa [if_pos hprev]
    next hprev =>
      obtain ⟨f, hf, rfl⟩ := Option.map_eq_some_iff.1 h
      rw [if_neg hprev, get?_append hf, Option.map_some]

/-- What a log records at a position, it goes on to record there when an entry is added. -/
theorem configurationAt?_append (h : log.Contiguous) (he : e.index = log.nextIndex)
    (hk : k ≤ log.lastIndex) : (log.append e).configurationAt? k = log.configurationAt? k := by
  rw [h.lastIndex_eq] at hk
  rw [configurationAt?_eq (h.append he), configurationAt?_eq h]
  change (newestIn ((log.entries ++ [e]).take (k - log.prevIndex))).or _ = _
  rw [List.take_append_of_le_length (by omega)]
  rfl

end Append

end Log

namespace Node

variable {n m : Node} {about : SnapshotMeta}

/-- The configuration in force before the log carried any. -/
def origin (n : Node) : Configuration := n.initialConfig.getD n.config

theorem configurationAt_eq (n : Node) (i : Nat) :
    n.configurationAt i = (n.log.configurationAt? i).getD n.origin := by
  unfold configurationAt origin
  cases n.log.configurationAt? i with
  | none => rfl
  | some c => rfl

/-- The configuration in force is the newest one in the log, or the one from before the log carried
any. -/
def Synced (n : Node) : Prop := n.config = n.log.latestConfiguration?.getD n.origin

/-- Two nodes have the same log and the same configurations. -/
structure SameRecord (n m : Node) : Prop where
  log : m.log = n.log
  config : m.config = n.config
  initialConfig : m.initialConfig = n.initialConfig

theorem SameRecord.refl (n : Node) : n.SameRecord n := ⟨rfl, rfl, rfl⟩

theorem SameRecord.origin (h : n.SameRecord m) : m.origin = n.origin := by
  rw [Node.origin, h.initialConfig, h.config, Node.origin]

/-- What is recorded of a capture is what a snapshot of this node at that position would record. -/
structure BearsOut (n : Node) (about : SnapshotMeta) : Prop where
  live : n.log.prevIndex < about.index
  committed : about.index ≤ n.log.committed
  term : n.log.termAt? about.index = some about.term
  config : n.configurationAt about.index = about.config

theorem SameRecord.bearsOut (h : n.SameRecord m) (hn : n.BearsOut about) : m.BearsOut about where
  live := by rw [h.log]; exact hn.live
  committed := by rw [h.log]; exact hn.committed
  term := by rw [h.log]; exact hn.term
  config := by
    rw [configurationAt_eq, h.log, h.origin, ← configurationAt_eq]
    exact hn.config

/-- A node bears out what it asks to be captured. -/
theorem bearsOut_of_snapshotDue? (h : n.snapshotDue? = .ok (some about)) : n.BearsOut about := by
  obtain ⟨-, -, hlive, term, hterm, rfl⟩ := eq_of_snapshotDue? h
  exact ⟨hlive, Nat.le_refl _, hterm, rfl⟩

end Node

end Raft
