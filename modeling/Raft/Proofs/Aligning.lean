import Raft.Proofs.Installing
import Raft.Proofs.LogChanges

/-!
# Two logs that meet

A leader that looks for the place from which on it can send its log to a follower needs to know only
that nothing committed stands in the way. From the first place that fits the two logs meet: the next
batch fits behind that place, whatever else stands on the follower's log, and then they meet at its
end.

* `Log.Concurs`, behind a position what is committed on the one log has the terms of the other;
* `Log.Meets`, what a leader sends next fits;
* `Log.Concurs.meets_batch` and `Log.Concurs.meets_snapshot`, the logs meet at the end of what was
  sent.
-/

namespace Raft

theorem ConsecutiveAfter.lt_index {i : Nat} {e : Entry} {l : List Entry} (h : ConsecutiveAfter i l)
    (he : e ∈ l) : i < e.index := by
  obtain ⟨k, hk⟩ := List.mem_iff_getElem?.1 he
  have hindex := h k e hk
  omega

namespace Log

variable {log lead : Log} {k p count i t c : Nat} {batch : List Entry} {e : Entry} {s : Snapshot}

/-- Behind position `k`, all that a log has committed has the terms of a leader's log, wherever both
are known. -/
def Concurs (log lead : Log) (k : Nat) : Prop :=
  ∀ i, k < i → i ≤ log.committed → ∀ t u, log.termAt? i = some t → lead.termAt? i = some u → t = u

/-- A leader may send its entries behind position `k`: they fit, and nothing committed is in their
way. -/
structure Meets (log lead : Log) (k : Nat) : Prop where
  low : lead.prevIndex ≤ k
  fits : ∃ t, lead.termAt? k = some t ∧ log.matchesAt t k = true
  concurs : log.Concurs lead k

theorem Concurs.mono {j : Nat} (h : log.Concurs lead j) (hle : j ≤ k) : log.Concurs lead k :=
  fun i hi => h i (Nat.lt_of_le_of_lt hle hi)

/-- Inside the snapshot everything matches. -/
theorem matchesAt_of_lt_prevIndex (h : i < log.prevIndex) (t : Nat) (hzero : i = 0 → t = 0) :
    log.matchesAt t i = true := by
  unfold matchesAt
  split
  next hi => exact beq_iff_eq.2 (hzero hi)
  next =>
    refine if_pos ⟨?_, h⟩
    cases hs : log.snapshot with
    | none =>
      rw [prevIndex, hs] at h
      exact absurd h (Nat.not_lt_zero i)
    | some s => rfl

/-- Where nothing committed stands in the way, a leader's term matches at every position that is
committed. -/
theorem Concurs.matchesAt (h : log.Concurs lead k) (hlog : log.WellFormed) (hk : k < i)
    (hi : i ≤ log.committed) (ht : lead.termAt? i = some t) : log.matchesAt t i = true := by
  rcases Nat.lt_or_ge i log.prevIndex with hlt | hge
  · exact matchesAt_of_lt_prevIndex hlt t fun hzero => by omega
  · obtain ⟨u, hu⟩ := hlog.isContiguous.exists_termAt? hge
      (Nat.le_trans hi hlog.committed_le_lastIndex)
    obtain rfl := h i hk hi u t hu ht
    exact matchesAt_of_termAt? hu

/-! ### A batch -/

section Batch

variable (hlead : lead.Contiguous) (hlog : log.WellFormed)
  (hbatch : lead.Supplies p count batch)

theorem Supplies.termAt? (hlead : lead.Contiguous) (hbatch : lead.Supplies p count batch)
    (he : e ∈ batch) : lead.termAt? e.index = some e.term := by
  have hget := hbatch.live e he
  rw [termAt?_of_lt (hlead.of_get? hget).2.2, hget, Option.map_some]

include hlead hlog hbatch

/-- A batch cuts off nothing that is committed. -/
theorem Concurs.mergeLapses_eq_nil (h : log.Concurs lead p) : log.mergeLapses batch p = [] := by
  rw [mergeLapses_eq_splice]
  refine spliceLapses_eq_nil fun e he hlive hle => ?_
  obtain ⟨old, hold⟩ := hlog.isContiguous.exists_get? hlive
    (Nat.le_trans hle hlog.committed_le_lastIndex)
  have hterm : log.termAt? e.index = some old.term := by
    rw [termAt?_of_lt hlive, hold, Option.map_some]
  exact ⟨old, get?_of_lt hlive ▸ hold, h e.index (hbatch.consecutive.lt_index he) hle _ _ hterm
    (hbatch.termAt? hlead he)⟩

/-- A merged log matches the leader's at every entry of the batch. -/
theorem Concurs.matchesAt_merge (h : log.Concurs lead p) (hp : p ≤ log.lastIndex) (he : e ∈ batch) :
    (log.merge batch p).matchesAt e.term e.index = true := by
  have hprev := prevIndex_merge log batch p
  rcases hlog.isContiguous.includes_merge hbatch.consecutive hp e he with
    hunder | ⟨old, hold, hterm⟩
  · rcases Nat.eq_or_lt_of_le hunder with heq | hlt
    · -- at the boundary the snapshot has the leader's term, since the boundary is committed
      have hpos := hbatch.consecutive.lt_index he
      have hboundary : log.termAt? e.index = some log.prevTerm := by
        rw [heq, hprev]
        exact termAt?_prevIndex (by omega)
      have hboundary' : (log.merge batch p).termAt? e.index = some log.prevTerm := by
        rw [heq, termAt?_prevIndex (by omega), prevTerm, prevTerm, snapshot_merge]
      rw [← h e.index hpos (heq ▸ hprev ▸ hlog.prevIndex_le_committed) _ _ hboundary
        (hbatch.termAt? hlead he)]
      exact matchesAt_of_termAt? hboundary'
    · exact matchesAt_of_lt_prevIndex hlt _ fun hzero => by
        have := hbatch.consecutive.lt_index he
        omega
  · refine matchesAt_of_termAt? ?_
    rw [termAt?_of_lt ((hlog.isContiguous.merge batch p).of_get? hold).2.2, hold, Option.map_some,
      hterm]

/-- With a batch that fits, two logs meet at its end. -/
theorem Concurs.meets_batch (h : log.Concurs lead p) (hlow : lead.prevIndex ≤ p)
    (ht : lead.termAt? p = some t) (hmatch : log.matchesAt t p = true)
    (hc : c ≤ p + batch.length) :
    ((log.merge batch p).commit c).WellFormed ∧
      ((log.merge batch p).commit c).Meets lead (p + batch.length) := by
  have hp := hlog.isContiguous.le_lastIndex_of_matchesAt hmatch
  have hspares := h.mergeLapses_eq_nil hlead hlog hbatch
  have hmerged : (log.merge batch p).WellFormed := hlog.perform (c := .merge batch p) hspares
  refine ⟨hmerged.perform (c := .commit c) trivial, Nat.le_trans hlow (Nat.le_add_right ..), ?_,
    fun i hi hle => ?_⟩
  · rcases List.eq_nil_or_concat batch with rfl | ⟨init, e, rfl⟩
    · refine ⟨t, ht, ?_⟩
      rw [merge_nil]
      exact hmatch
    · have he : e ∈ init.concat e := by simp
      rw [← hbatch.consecutive.index_eq_of_concat]
      exact ⟨e.term, hbatch.termAt? hlead he, h.matchesAt_merge hlead hlog hbatch hp he⟩
  · -- what is committed behind the batch was committed before, and it was spared
    have hcommitted : ((log.merge batch p).commit c).committed = max log.committed c :=
      hlog.isContiguous.committed_commit_merge hbatch.consecutive hp hc
    have hle' : i ≤ log.committed := by omega
    have hget := hlog.isContiguous.get?_merge hlog.committed_le_lastIndex hspares hle'
    have hterm : ((log.merge batch p).commit c).termAt? i = log.termAt? i := by
      show (log.merge batch p).termAt? i = _
      rw [Log.termAt?, Log.termAt?, hget, prevIndex_merge, snapshot_merge, prevTerm, prevTerm,
        snapshot_merge]
    rw [hterm]
    exact h i (by omega) hle'

end Batch

/-! ### A snapshot -/

/-- With the leader's snapshot, two logs meet at its boundary. -/
theorem Concurs.meets_snapshot (hlog : log.WellFormed) (h : log.Concurs lead 0)
    (hs : lead.snapshot = some s) :
    (if log.committed < s.about.index then log.compact s else log).WellFormed ∧
      (if log.committed < s.about.index then log.compact s else log).Meets lead s.about.index := by
  have hprev : lead.prevIndex = s.about.index := by rw [prevIndex, hs]
  obtain ⟨t, ht⟩ := hprev ▸ lead.exists_termAt?_prevIndex
  split
  next hlt =>
    have hnew : ¬ (log.snapshot.isSome ∧ s.about.index ≤ log.prevIndex) := fun hold =>
      Nat.not_lt.2 (Nat.le_trans hold.2 hlog.prevIndex_le_committed) hlt
    have hsnapshot : (log.compact s).snapshot = some s := by rw [compact, if_neg hnew]
    have hcommitted : (log.compact s).committed = s.about.index := by
      rw [compact, if_neg hnew]
      exact Nat.max_eq_right (Nat.le_of_lt hlt)
    have hboundary : (log.compact s).prevIndex = s.about.index := by rw [prevIndex, hsnapshot]
    refine ⟨hlog.perform (c := .compact s) (.inr (.inl hlt)), Nat.le_of_eq hprev, ⟨t, ht, ?_⟩,
      fun i hi hle => absurd hi (Nat.not_lt.2 (hcommitted ▸ hle))⟩
    have hterm : (log.compact s).termAt? s.about.index = lead.termAt? s.about.index := by
      have hpos : s.about.index ≠ 0 := by omega
      have hlower : (log.compact s).termAt? (log.compact s).prevIndex = _ :=
        termAt?_prevIndex (by omega)
      have hlead : lead.termAt? lead.prevIndex = _ := termAt?_prevIndex (by omega)
      rw [hboundary, prevTerm, hsnapshot] at hlower
      rw [hprev, prevTerm, hs] at hlead
      rw [hlower, hlead]
    exact matchesAt_of_termAt? (hterm.trans ht)
  next hge =>
    refine ⟨hlog, Nat.le_of_eq hprev, ⟨t, ht, ?_⟩, h.mono (Nat.zero_le _)⟩
    rcases Nat.eq_zero_or_pos s.about.index with hzero | hpos
    · rw [hzero, termAt?_zero] at ht
      obtain rfl := Option.some.inj ht
      rw [hzero]
      exact matchesAt_of_termAt? log.termAt?_zero
    · exact h.matchesAt hlog hpos (Nat.le_of_not_lt hge) ht

end Log

end Raft
