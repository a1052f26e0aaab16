import Raft.Log

/-!
# Logs before and after compaction

`Log.Abridges log l` says that `log` is what compaction has left of the list `l` of all entries
from position 1 on. Everything that a log tells and does is then told in terms of `l`:

* reading: `lastIndex_eq`, `termIn?_lastTerm`, `get?_eq`, `termAt?_eq_of_le`, `slice_eq`,
  `batchFrom_eq`;
* writing: `append`, `commit`, `compact`, and in `Raft.Proofs.Overlay` the merge of a batch and the
  installation of a snapshot.
-/

namespace Raft

/-- The entries of a list stand at the positions that they are numbered with. -/
def Numbered (l : List Entry) : Prop := ∀ k e, l[k]? = some e → e.index = k + 1

/-- The term at a position of a list of entries, which is 0 before the first one. -/
def termIn? (l : List Entry) : Nat → Option Nat
  | 0 => some 0
  | k + 1 => l[k]?.map (·.term)

theorem termIn?_succ (l : List Entry) (k : Nat) : termIn? l (k + 1) = l[k]?.map (·.term) := rfl

theorem le_length_of_termIn? {l : List Entry} {i t : Nat} (h : termIn? l i = some t) :
    i ≤ l.length := by
  cases i with
  | zero => exact Nat.zero_le _
  | succ k =>
    obtain ⟨e, he, _⟩ := Option.map_eq_some_iff.1 h
    exact (List.getElem?_eq_some_iff.1 he).1

theorem exists_termIn? {l : List Entry} {i : Nat} (h : i ≤ l.length) :
    ∃ t, termIn? l i = some t := by
  cases i with
  | zero => exact ⟨0, rfl⟩
  | succ k => exact ⟨l[k].term, by rw [termIn?_succ, List.getElem?_eq_getElem h, Option.map_some]⟩

/-- A term is the same on every continuation of a list. -/
theorem termIn?_of_isPrefix {l m : List Entry} (h : l <+: m) {i : Nat} (hi : i ≤ l.length) :
    termIn? m i = termIn? l i := by
  cases i with
  | zero => rfl
  | succ k =>
    obtain ⟨r, rfl⟩ := h
    rw [termIn?_succ, termIn?_succ, List.getElem?_append_left hi]

namespace Numbered

variable {l m : List Entry}

theorem nil : Numbered [] := by simp [Numbered]

theorem of_isPrefix (hm : Numbered m) (h : l <+: m) : Numbered l := by
  intro k e he
  obtain ⟨r, rfl⟩ := h
  exact hm k e (by rw [List.getElem?_append_left (List.getElem?_eq_some_iff.1 he).1, he])

theorem append (hl : Numbered l) {e : Entry} (he : e.index = l.length + 1) :
    Numbered (l ++ [e]) := by
  intro k f hf
  rcases Nat.lt_or_ge k l.length with hk | hk
  · rw [List.getElem?_append_left hk] at hf
    exact hl k f hf
  · rw [List.getElem?_append_right hk, List.getElem?_singleton] at hf
    split at hf
    · cases hf
      omega
    · cases hf

theorem lt_of_mem_drop (hl : Numbered l) {e : Entry} {i : Nat} (h : e ∈ l.drop i) :
    i < e.index := by
  obtain ⟨k, hk⟩ := List.mem_iff_getElem?.1 h
  rw [List.getElem?_drop] at hk
  have := hl _ e hk
  omega

theorem le_of_mem_take (hl : Numbered l) {e : Entry} {i : Nat} (h : e ∈ l.take i) :
    e.index ≤ i := by
  obtain ⟨k, hk⟩ := List.mem_iff_getElem?.1 h
  have hki : k < i := by
    have := (List.getElem?_eq_some_iff.1 hk).1
    rw [List.length_take] at this
    omega
  rw [List.getElem?_take_of_lt hki] at hk
  have := hl k e hk
  omega

/-- The entries after one position and up to another can be picked by their numbers. -/
theorem filter_eq (hl : Numbered l) {p low : Nat} (high : Nat) (h : p ≤ low) :
    (l.drop p).filter (fun e => low < e.index ∧ e.index ≤ high) = (l.take high).drop low := by
  have split : l.drop p = (l.drop p).take (low - p) ++ l.drop low := by
    have := List.take_append_drop (low - p) (l.drop p)
    rw [List.drop_drop, show p + (low - p) = low by omega] at this
    exact this.symm
  have before : ((l.drop p).take (low - p)).filter
      (fun e => low < e.index ∧ e.index ≤ high) = [] := by
    refine List.filter_eq_nil_iff.2 fun e he => ?_
    rw [← List.drop_take] at he
    have := hl.le_of_mem_take (List.mem_of_mem_drop he)
    simp only [decide_eq_true_eq]
    omega
  have inside : ((l.drop low).take (high - low)).filter
      (fun e => low < e.index ∧ e.index ≤ high) = (l.drop low).take (high - low) := by
    refine List.filter_eq_self.2 fun e he => ?_
    have h₁ := hl.lt_of_mem_drop (List.mem_of_mem_take he)
    have h₂ : e.index ≤ max low high := by
      refine hl.le_of_mem_take (List.mem_of_mem_drop (i := low) ?_)
      rwa [List.drop_take, show max low high - low = high - low by omega]
    have h₃ : low ≤ high := by
      rcases Nat.lt_or_ge high low with h | h
      · rw [show high - low = 0 by omega] at he
        exact absurd he (by simp)
      · exact h
    simp only [decide_eq_true_eq]
    omega
  have after : ((l.drop low).drop (high - low)).filter
      (fun e => low < e.index ∧ e.index ≤ high) = [] := by
    refine List.filter_eq_nil_iff.2 fun e he => ?_
    rw [List.drop_drop] at he
    have := hl.lt_of_mem_drop he
    simp only [decide_eq_true_eq]
    omega
  rw [split, List.filter_append, before, List.nil_append,
    ← List.take_append_drop (high - low) (l.drop low), List.filter_append, inside, after,
    List.append_nil, List.drop_take]

end Numbered

namespace Log

/-- A snapshot that is not ignored covers all that is compacted away. -/
theorem prevIndex_le_of_not {log : Log} {i : Nat}
    (h : ¬ (log.snapshot.isSome ∧ i ≤ log.prevIndex)) : log.prevIndex ≤ i := by
  unfold prevIndex at h ⊢
  split
  next s hs =>
    rw [hs] at h
    exact Nat.le_of_lt (Nat.lt_of_not_le fun hle => h ⟨rfl, hle⟩)
  next => exact Nat.zero_le _

/-- The log is what compaction has left of `l`. -/
structure Abridges (log : Log) (l : List Entry) : Prop where
  numbered : Numbered l
  live : log.entries = l.drop log.prevIndex
  prevIndex_le : log.prevIndex ≤ log.committed
  committed_le : log.committed ≤ l.length
  boundary : ∀ s, log.snapshot = some s →
    0 < s.about.index ∧ termIn? l s.about.index = some s.about.term

theorem abridges_empty : Abridges {} [] where
  numbered := .nil
  live := rfl
  prevIndex_le := Nat.le_refl 0
  committed_le := Nat.le_refl 0
  boundary := by simp

namespace Abridges

variable {log : Log} {l : List Entry}

/-! ### Reading -/

theorem prevIndex_le_length (h : log.Abridges l) : log.prevIndex ≤ l.length :=
  Nat.le_trans h.prevIndex_le h.committed_le

theorem getLast?_entries (h : log.Abridges l) :
    log.entries.getLast? = if log.prevIndex < l.length then l[l.length - 1]? else none := by
  rw [h.live, List.getLast?_eq_getElem?, List.getElem?_drop, List.length_drop]
  split
  · rw [show log.prevIndex + (l.length - log.prevIndex - 1) = l.length - 1 by omega]
  · exact List.getElem?_eq_none (by omega)

theorem lastIndex_eq (h : log.Abridges l) : log.lastIndex = l.length := by
  have hp := h.prevIndex_le_length
  unfold lastIndex
  rw [h.getLast?_entries]
  split
  next e he =>
    split at he
    · have := h.numbered _ e he
      omega
    · cases he
  next he =>
    split at he
    next hlt => rw [List.getElem?_eq_none_iff] at he; omega
    next hlt => omega

theorem nextIndex_eq (h : log.Abridges l) : log.nextIndex = l.length + 1 := by
  rw [nextIndex, h.lastIndex_eq]

theorem termIn?_prevIndex (h : log.Abridges l) : termIn? l log.prevIndex = some log.prevTerm := by
  unfold prevIndex prevTerm
  split
  next s hs => exact (h.boundary s hs).2
  next => rfl

/-- The term that a log ends with is that of the last entry, compacted away or not. -/
theorem termIn?_lastTerm (h : log.Abridges l) : termIn? l l.length = some log.lastTerm := by
  have hp := h.prevIndex_le_length
  unfold lastTerm
  rw [h.getLast?_entries]
  split
  next e he =>
    split at he
    next hlt =>
      rw [show l.length = l.length - 1 + 1 by omega, termIn?_succ, he, Option.map_some]
    next => cases he
  next he =>
    split at he
    next hlt => rw [List.getElem?_eq_none_iff] at he; omega
    next hlt => rw [show l.length = log.prevIndex by omega]; exact h.termIn?_prevIndex

theorem get?_eq (h : log.Abridges l) (i : Nat) :
    log.get? i = if i ≤ log.prevIndex then none else l[i - 1]? := by
  unfold get?
  split
  · rfl
  · rw [h.live, List.getElem?_drop, show log.prevIndex + (i - log.prevIndex - 1) = i - 1 by omega]

theorem get?_succ_of_le (h : log.Abridges l) {k : Nat} (hk : log.prevIndex ≤ k) :
    log.get? (k + 1) = l[k]? := by
  rw [h.get?_eq, if_neg (by omega)]
  rfl

theorem termAt?_eq_of_le (h : log.Abridges l) {i : Nat} (hi : log.prevIndex ≤ i) :
    log.termAt? i = termIn? l i := by
  unfold termAt?
  split
  next h₀ => rw [h₀]; rfl
  next h₀ =>
    split
    next hb => rw [hb.2, h.termIn?_prevIndex]
    next hb =>
      have hlt : log.prevIndex < i := by
        rcases Nat.lt_or_ge log.prevIndex i with hlt | hge
        · exact hlt
        · -- without a snapshot the boundary is at 0
          exfalso
          have hi' : i = log.prevIndex := Nat.le_antisymm hge hi
          have hs : log.snapshot = none := by simpa [hi'] using hb
          exact h₀ (by rw [hi', prevIndex, hs])
      obtain ⟨k, rfl⟩ : ∃ k, i = k + 1 := ⟨i - 1, by omega⟩
      rw [h.get?_succ_of_le (by omega), termIn?_succ]

/-- A term that a log knows is right. -/
theorem termIn?_of_termAt? (h : log.Abridges l) {i t : Nat} (ht : log.termAt? i = some t) :
    termIn? l i = some t := by
  rcases Nat.lt_or_ge i log.prevIndex with hlt | hge
  · unfold termAt? at ht
    split at ht
    next h₀ => rw [h₀]; exact ht
    next h₀ =>
      rw [if_neg (by omega), h.get?_eq, if_pos (by omega)] at ht
      cases ht
  · rwa [← h.termAt?_eq_of_le hge]

theorem slice_eq (h : log.Abridges l) {low : Nat} (hlow : log.prevIndex ≤ low) (high : Nat) :
    log.slice low high = (l.take high).drop low := by
  rw [slice, h.live]
  exact h.numbered.filter_eq high hlow

theorem batchFrom_eq (h : log.Abridges l) (start count : Nat) :
    log.batchFrom start count = (l.drop (max start (log.prevIndex + 1) - 1)).take count := by
  rw [batchFrom, h.live, List.drop_drop]
  congr 2
  omega

/-! ### Writing -/

theorem append (h : log.Abridges l) {e : Entry} (he : e.index = log.nextIndex) :
    (log.append e).Abridges (l ++ [e]) where
  numbered := h.numbered.append (by rw [he, h.nextIndex_eq])
  live := by
    have := h.prevIndex_le_length
    show log.entries ++ [e] = (l ++ [e]).drop log.prevIndex
    rw [h.live, List.drop_append_of_le_length this]
  prevIndex_le := h.prevIndex_le
  committed_le := by
    have := h.committed_le
    rw [List.length_append]
    exact Nat.le_add_right_of_le this
  boundary s hs := by
    obtain ⟨hpos, ht⟩ := h.boundary s hs
    exact ⟨hpos, by rw [termIn?_of_isPrefix (List.prefix_append ..) (le_length_of_termIn? ht), ht]⟩

theorem commit (h : log.Abridges l) (i : Nat) : (log.commit i).Abridges l where
  numbered := h.numbered
  live := h.live
  prevIndex_le := Nat.le_trans h.prevIndex_le (Nat.le_max_left ..)
  committed_le := by
    have := h.committed_le
    have := h.lastIndex_eq
    simp only [Log.commit]
    omega
  boundary := h.boundary

/-- What a log shrinks to when a snapshot takes the place of all entries up to its boundary. -/
theorem of_snapshot (h : Numbered l) {s : Snapshot} {entries : List Entry} {committed : Nat}
    (hpos : 0 < s.about.index) (ht : termIn? l s.about.index = some s.about.term)
    (he : entries = l.drop s.about.index) (hc : committed ≤ l.length) :
    Abridges { entries, committed := max committed s.about.index, snapshot := some s } l where
  numbered := h
  live := he
  prevIndex_le := Nat.le_max_right ..
  committed_le := Nat.max_le.2 ⟨hc, le_length_of_termIn? ht⟩
  boundary s' hs := by
    cases hs
    exact ⟨hpos, ht⟩

/-- A snapshot of the log itself takes the place of what it covers. -/
theorem compact (h : log.Abridges l) {s : Snapshot} (hpos : 0 < s.about.index)
    (ht : termIn? l s.about.index = some s.about.term) : (log.compact s).Abridges l := by
  unfold Log.compact
  split
  next => exact h
  next hs =>
    have hle : log.prevIndex ≤ s.about.index := log.prevIndex_le_of_not hs
    have hl := le_length_of_termIn? ht
    refine of_snapshot h.numbered hpos ht ?_ h.committed_le
    rw [if_pos (by rw [h.termAt?_eq_of_le hle, ht]), h.live]
    have := h.numbered.filter_eq l.length hle
    rw [List.take_length] at this
    rw [← this]
    refine List.filter_congr fun e he => ?_
    have : e.index ≤ l.length := h.numbered.le_of_mem_take
      (by rw [List.take_length]; exact List.mem_of_mem_drop he)
    simp [this]

end Abridges

theorem lastIndex_append (log : Log) (e : Entry) : (log.append e).lastIndex = e.index := by
  simp [lastIndex, append]

theorem prevIndex_le_compact (log : Log) (s : Snapshot) :
    log.prevIndex ≤ (log.compact s).prevIndex := by
  unfold compact
  split
  next => exact Nat.le_refl _
  next hnew => exact log.prevIndex_le_of_not hnew

theorem committed_le_compact (log : Log) (s : Snapshot) :
    log.committed ≤ (log.compact s).committed := by
  unfold compact
  split
  next => exact Nat.le_refl _
  next => exact Nat.le_max_left ..

/-- A snapshot of what is committed leaves the commit index alone. -/
theorem committed_compact {log : Log} {s : Snapshot} (hs : s.about.index ≤ log.committed) :
    (log.compact s).committed = log.committed := by
  unfold compact
  split
  · rfl
  · exact Nat.max_eq_left hs

end Log

end Raft
