import Raft.Proofs.Merging
import Raft.Proofs.Moves

/-!
# What a leader sends to a peer

A leader sends the snapshot to a peer whose next entry is compacted away. Every other peer gets the
entries from its next one on, at most a batch of them, together with the position before them and
the term there.

* `Log.Contiguous.exists_termAt?`, the term is known from the snapshot's boundary to the end;
* `Log.Supplies`, a batch of a log, and `Log.Contiguous.supplies_batchFrom`;
* `Node.nextMessage_of_le`, the message is one of these two, as long as the peer's next entry does
  not lie beyond the end of the log.
-/

namespace Raft

namespace Log

variable {log : Log} {batch : List Entry} {start count i p : Nat}

/-- The entries of a batch are those of the log behind position `p`, `count` of them if the log
reaches so far. -/
structure Supplies (log : Log) (p count : Nat) (batch : List Entry) : Prop where
  consecutive : ConsecutiveAfter p batch
  live : ∀ e ∈ batch, log.get? e.index = some e
  length : batch.length = min count (log.lastIndex - p)

theorem termAt?_zero (log : Log) : log.termAt? 0 = some 0 := if_pos rfl

/-- The term at the boundary of the snapshot. -/
theorem termAt?_prevIndex (hpos : log.prevIndex ≠ 0) :
    log.termAt? log.prevIndex = some log.prevTerm := by
  refine (if_neg hpos).trans (if_pos ⟨?_, rfl⟩)
  cases hs : log.snapshot with
  | none => exact absurd (by rw [prevIndex, hs]) hpos
  | some s => rfl

theorem exists_termAt?_prevIndex (log : Log) : ∃ t, log.termAt? log.prevIndex = some t := by
  rcases Nat.eq_zero_or_pos log.prevIndex with hzero | hpos
  · exact ⟨0, by rw [hzero, termAt?_zero]⟩
  · exact ⟨_, termAt?_prevIndex (Nat.ne_of_gt hpos)⟩

namespace Contiguous

theorem exists_termAt? (h : log.Contiguous) (hlow : log.prevIndex ≤ i) (hhigh : i ≤ log.lastIndex) :
    ∃ t, log.termAt? i = some t := by
  rcases Nat.eq_or_lt_of_le hlow with rfl | hlt
  · exact log.exists_termAt?_prevIndex
  · obtain ⟨e, he⟩ := h.exists_get? hlt hhigh
    exact ⟨e.term, by rw [termAt?_of_lt hlt, he, Option.map_some]⟩

/-- What is asked for from position `start` on follows the position before it. Positions begin
with 1. -/
theorem getElem?_batchFrom (h : log.prevIndex < start ∨ log.prevIndex = 0) (k : Nat) :
    (log.batchFrom start count)[k]? =
      if k < count then log.get? (max start 1 - 1 + 1 + k) else none := by
  rw [batchFrom, List.getElem?_take, List.getElem?_drop, get?_of_lt (by omega)]
  split
  next =>
    congr 1
    omega
  next => rfl

theorem supplies_batchFrom (h : log.Contiguous) (hstart : log.prevIndex < start ∨ log.prevIndex = 0)
    (count : Nat) : log.Supplies (max start 1 - 1) count (log.batchFrom start count) where
  consecutive := by
    intro k e he
    rw [getElem?_batchFrom hstart] at he
    split at he
    next => exact (h.of_get? he).2.1
    next => cases he
  live := by
    intro e he
    exact h.get?_index (List.mem_of_mem_drop (List.mem_of_mem_take he))
  length := by
    rw [batchFrom, List.length_take, List.length_drop, h.lastIndex_eq]
    omega

end Contiguous

/-- The position that is sent along with a batch is the one before it. -/
theorem Supplies.beforeBatch_eq (h : log.Supplies (max start 1 - 1) count batch) :
    beforeBatch batch start = max start 1 - 1 := by
  unfold beforeBatch
  split
  next e rest =>
    rw [h.consecutive.head]
    rfl
  next => omega

end Log

namespace Node

variable {n : Node}

/-- What a leader sends if the peer's next entry is not compacted away. -/
theorem appendMessage_eq (hlog : n.log.Contiguous) (peer : PeerId) {start : Nat}
    (hstart : n.log.prevIndex < start ∨ n.log.prevIndex = 0) (hle : start ≤ n.log.lastIndex + 1) :
    ∃ t, n.log.prevIndex ≤ max start 1 - 1 ∧ n.log.termAt? (max start 1 - 1) = some t ∧
      n.appendMessage peer start = .ok (.appendEntries n.id n.term t (max start 1 - 1)
        (n.log.batchFrom start n.settings.batchSize) n.log.committed) := by
  have hend := hlog.prevIndex_le_lastIndex
  have hlow : n.log.prevIndex ≤ max start 1 - 1 := by omega
  obtain ⟨t, ht⟩ := hlog.exists_termAt? hlow (by omega)
  have hbefore := (hlog.supplies_batchFrom hstart n.settings.batchSize).beforeBatch_eq
  refine ⟨t, hlow, ht, ?_⟩
  unfold appendMessage
  rw [if_neg (by rw [Log.nextIndex]; omega)]
  simp only
  split
  next hnone =>
    change n.log.termAt? (beforeBatch (n.log.batchFrom start n.settings.batchSize) start) = none
      at hnone
    rw [hbefore, ht] at hnone
    cases hnone
  next prevTerm hprev =>
    change n.log.termAt? (beforeBatch (n.log.batchFrom start n.settings.batchSize) start) =
      some prevTerm at hprev
    rw [hbefore, ht] at hprev
    obtain rfl := Option.some.inj hprev
    exact congrArg (fun p => Except.ok (Message.appendEntries _ _ t p _ _)) hbefore

/-- A leader sends its snapshot to a peer whose next entry is compacted away. -/
theorem nextMessage_eq (n : Node) (peer : PeerId) :
    (∃ s, n.log.snapshot = some s ∧ n.nextIndex.get peer ≤ s.about.index ∧
      n.nextMessage peer = .ok (.installSnapshot n.id n.term s)) ∨
    ((n.log.prevIndex < n.nextIndex.get peer ∨ n.log.prevIndex = 0) ∧
      n.nextMessage peer = n.appendMessage peer (n.nextIndex.get peer)) := by
  unfold nextMessage Log.prevIndex
  simp only
  cases n.log.snapshot with
  | none => exact .inr ⟨.inr rfl, rfl⟩
  | some s =>
    rcases Nat.lt_or_ge s.about.index (n.nextIndex.get peer) with hlt | hle
    · exact .inr ⟨.inl hlt, if_neg (Nat.not_le.2 hlt)⟩
    · exact .inl ⟨s, rfl, hle, if_pos hle⟩

/-- A leader has something to send to a peer whose next entry does not lie beyond the end of the
log: its snapshot, or a batch of its entries. -/
theorem nextMessage_of_le (hlog : n.log.Contiguous) {peer : PeerId}
    (hle : n.nextIndex.get peer ≤ n.log.lastIndex + 1) :
    (∃ s, n.log.snapshot = some s ∧ n.nextIndex.get peer ≤ s.about.index ∧
      n.nextMessage peer = .ok (.installSnapshot n.id n.term s)) ∨
    ∃ t batch, n.log.prevIndex ≤ max (n.nextIndex.get peer) 1 - 1 ∧
      n.log.termAt? (max (n.nextIndex.get peer) 1 - 1) = some t ∧
      n.log.Supplies (max (n.nextIndex.get peer) 1 - 1) n.settings.batchSize batch ∧
      n.nextMessage peer = .ok (.appendEntries n.id n.term t (max (n.nextIndex.get peer) 1 - 1)
        batch n.log.committed) := by
  rcases n.nextMessage_eq peer with hsnapshot | ⟨hstart, heq⟩
  · exact .inl hsnapshot
  · obtain ⟨t, hlow, ht, hmessage⟩ := appendMessage_eq hlog peer hstart hle
    exact .inr ⟨t, _, hlow, ht, hlog.supplies_batchFrom hstart _, heq.trans hmessage⟩

theorem exists_nextMessage (hlog : n.log.Contiguous) {peer : PeerId}
    (hle : n.nextIndex.get peer ≤ n.log.lastIndex + 1) : ∃ m, n.nextMessage peer = .ok m := by
  rcases nextMessage_of_le hlog hle with ⟨s, -, -, h⟩ | ⟨t, batch, -, -, -, h⟩
  · exact ⟨_, h⟩
  · exact ⟨_, h⟩

end Node

end Raft
