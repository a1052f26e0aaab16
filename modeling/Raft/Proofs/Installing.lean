import Raft.Proofs.Acknowledging
import Raft.Proofs.Compaction
import Raft.Proofs.Contracts

/-!
# A snapshot in place of the entries

A follower that is behind can be brought up to date by the leader's entries or by its snapshot.
These are two different paths: entries are merged behind what is committed, which cuts off whatever
does not fit, and a snapshot replaces everything up to its boundary and keeps what is behind only if
the terms agree there. They lead to the same place.

* `Log.Contiguous.getElem?_slice` and `Log.Contiguous.configurationAt?_slice`, what stands between
  two positions;
* `Log.Backs`, the leader's log as the follower may rely on it;
* `Log.Backs.compact_merge`, the snapshot leaves of the log what it leaves once the entries are
  merged, and `Log.Backs.latestConfiguration?_compact`, the newest configuration is the same;
* `snapshot_replaces_entries`, the two paths for transitions.
-/

namespace Raft

namespace Log

variable {log lead : Log} {a b i t : Nat} {e : Entry} {s : Snapshot}

theorem mem_slice : e ∈ log.slice a b ↔ e ∈ log.entries ∧ a < e.index ∧ e.index ≤ b := by
  rw [slice, List.mem_filter, decide_eq_true_eq]

theorem matchesAt_of_termAt? (h : log.termAt? i = some t) : log.matchesAt t i = true := by
  unfold matchesAt
  split
  next hzero =>
    rw [hzero, termAt?, if_pos rfl] at h
    obtain rfl := Option.some.inj h
    rfl
  next =>
    split
    next => rfl
    next => rw [h, beq_self_eq_true]

section Compact

variable (hnew : ¬ (log.snapshot.isSome ∧ s.about.index ≤ log.prevIndex))
include hnew

/-- How much is committed makes no difference to a snapshot that reaches further. -/
theorem compact_commit : (log.commit s.about.index).compact s = log.compact s := by
  have hnew' : ¬ ((log.commit s.about.index).snapshot.isSome ∧
      s.about.index ≤ (log.commit s.about.index).prevIndex) := hnew
  rw [compact, compact, if_neg hnew, if_neg hnew']
  congr 1
  show max (max log.committed (min s.about.index log.lastIndex)) s.about.index = _
  omega

/-- Of a log with another term at the boundary nothing is kept. -/
theorem compact_of_termAt?_ne (h : log.termAt? s.about.index ≠ some s.about.term) :
    log.compact s = { committed := max log.committed s.about.index, snapshot := some s } := by
  rw [compact, if_neg hnew, if_neg h]

/-- Of a log that does not reach beyond the boundary nothing is left. -/
theorem compact_of_forall_le (h : ∀ e ∈ log.entries, e.index ≤ s.about.index) :
    log.compact s = { committed := max log.committed s.about.index, snapshot := some s } := by
  have hbehind : log.entries.filter (s.about.index < ·.index) = [] :=
    List.filter_eq_nil_iff.2 fun e he hlt => Nat.not_lt.2 (h e he) (of_decide_eq_true hlt)
  rw [compact, if_neg hnew, hbehind, ite_self]

end Compact

namespace Contiguous

theorem take (h : log.Contiguous) (k : Nat) :
    ({ log with entries := log.entries.take k } : Log).Contiguous := by
  intro j e he
  have hlt := (List.getElem?_eq_some_iff.1 he).1
  simp only [List.length_take] at hlt
  exact h j e (by rwa [List.getElem?_take_of_lt (by omega)] at he)

theorem slice_eq (h : log.Contiguous) (a b : Nat) :
    log.slice a b = (log.entries.take (b - log.prevIndex)).drop (a - log.prevIndex) := by
  calc log.slice a b
      = (log.entries.filter (·.index ≤ b)).filter (a < ·.index) := by
        rw [slice, List.filter_filter]
        exact List.filter_congr fun e _ => Bool.decide_and ..
    _ = (log.entries.take (b - log.prevIndex)).filter (a < ·.index) := by rw [h.filter_le]
    _ = (log.entries.take (b - log.prevIndex)).drop (a - log.prevIndex) := (h.take _).filter_lt a

/-- Between two positions stands what the log has there. -/
theorem getElem?_slice (h : log.Contiguous) (ha : log.prevIndex ≤ a) (k : Nat) :
    (log.slice a b)[k]? = if a + 1 + k ≤ b then log.get? (a + 1 + k) else none := by
  rw [h.slice_eq, List.getElem?_drop, List.getElem?_take, get?_of_lt (by omega)]
  by_cases hk : a + 1 + k ≤ b
  · rw [if_pos hk, if_pos (by omega)]
    congr 1
    omega
  · rw [if_neg hk, if_neg (by omega)]

theorem consecutiveAfter_slice (h : log.Contiguous) (ha : log.prevIndex ≤ a) :
    ConsecutiveAfter a (log.slice a b) := by
  intro k e he
  rw [h.getElem?_slice ha] at he
  split at he
  next => exact (h.of_get? he).2.1
  next => cases he

theorem length_slice (h : log.Contiguous) (ha : log.prevIndex ≤ a) (hb : b ≤ log.lastIndex) :
    (log.slice a b).length = b - a := by
  rw [h.lastIndex_eq] at hb
  rw [h.slice_eq, List.length_drop, List.length_take]
  omega

/-- The newest configuration is looked for between two positions first, and then at the lower
one. -/
theorem configurationAt?_slice (h : log.Contiguous) (hab : a ≤ b) :
    log.configurationAt? b = (newestIn (log.slice a b)).or (log.configurationAt? a) := by
  have htake : log.entries.take (a - log.prevIndex) =
      (log.entries.take (b - log.prevIndex)).take (a - log.prevIndex) := by
    rw [List.take_take, Nat.min_eq_left (by omega)]
  rw [configurationAt?_eq h, configurationAt?_eq h, h.slice_eq, htake, ← Option.or_assoc,
    ← newestIn_append, List.take_append_drop]

end Contiguous

/-! ### What the follower may rely on -/

/-- The log of a leader behind a follower's: it has all that comes behind what the follower has
committed, it has the same term and the same newest configuration where that ends, and wherever the
two have the same term they have the same entries up to there. -/
structure Backs (lead log : Log) : Prop where
  contiguous : lead.Contiguous
  prevIndex_le : lead.prevIndex ≤ log.committed
  term : lead.termAt? log.committed = log.termAt? log.committed
  config : lead.configurationAt? log.committed = log.configurationAt? log.committed
  matching : ∀ i t, log.termAt? i = some t → lead.termAt? i = some t →
    ∀ j ≤ i, ∀ e f, log.get? j = some e → lead.get? j = some f → e = f

namespace Backs

variable (h : lead.Backs log) (hlog : log.WellFormed)
include h hlog

/-- What is no news to the follower is the leader's entry. -/
theorem get?_of_isNews_eq_false (he : e ∈ lead.slice log.committed b)
    (hnews : log.isNews e = false) : log.get? e.index = some e := by
  obtain ⟨hmem, hlow, -⟩ := mem_slice.1 he
  have hlead := h.contiguous.get?_index hmem
  have hlive : log.prevIndex < e.index := Nat.lt_of_le_of_lt hlog.prevIndex_le_committed hlow
  rcases hlog.isContiguous.isNews_eq_false_iff.1 hnews with hunder | ⟨old, hold, hterm⟩
  · exact absurd hlive (Nat.not_lt.2 hunder)
  · have hterm' : log.termAt? e.index = some e.term := by
      rw [termAt?_of_lt hlive, hold, Option.map_some, hterm]
    have hterm'' : lead.termAt? e.index = some e.term := by
      rw [termAt?_of_lt (Nat.lt_of_le_of_lt h.prevIndex_le hlow), hlead, Option.map_some]
    rw [hold, h.matching _ _ hterm' hterm'' _ (Nat.le_refl _) old e hold hlead]

/-- With the term of the leader's log at some position, the follower has no news up to there. -/
theorem isNews_eq_false_of_termAt? (ht : log.termAt? b = some t)
    (ht' : lead.termAt? b = some t) (he : e ∈ lead.slice log.committed b) :
    log.isNews e = false := by
  obtain ⟨hmem, hlow, hhigh⟩ := mem_slice.1 he
  have hcontiguous := hlog.isContiguous
  have hlive : log.prevIndex < e.index := Nat.lt_of_le_of_lt hlog.prevIndex_le_committed hlow
  obtain ⟨f, hf, -⟩ := exists_get?_of_termAt? ht (Nat.lt_of_lt_of_le hlive hhigh)
  obtain ⟨hfmem, hfindex, -⟩ := hcontiguous.of_get? hf
  obtain ⟨old, hold⟩ := hcontiguous.exists_get? hlive
    (Nat.le_trans hhigh (hfindex ▸ hcontiguous.le_lastIndex hfmem))
  obtain rfl := h.matching b t ht ht' e.index hhigh old e hold (h.contiguous.get?_index hmem)
  exact hcontiguous.isNews_eq_false_iff.2 (.inr ⟨old, hold, rfl⟩)

/-- The entries follow a position of the follower's log. -/
theorem merge_eq : log.merge (lead.slice log.committed b) log.committed =
    log.overwrite (lead.slice log.committed b) :=
  hlog.isContiguous.merge_eq (h.contiguous.consecutiveAfter_slice h.prevIndex_le)
    hlog.committed_le_lastIndex

/-- Once the entries are merged the follower has them. -/
theorem get?_merge (he : e ∈ lead.slice log.committed b) :
    (log.merge (lead.slice log.committed b) log.committed).get? e.index = some e := by
  have hmerged := hlog.isContiguous.merge (lead.slice log.committed b) log.committed
  have hmerge := h.merge_eq (b := b) hlog
  rcases log.news_cases (lead.slice log.committed b) with
    hnone | ⟨before, first, rest, hsplit, hbefore, hfirst⟩
  · rw [hmerge, overwrite_of_forall hnone]
    exact h.get?_of_isNews_eq_false hlog he (hnone e he)
  have hentries : (log.merge (lead.slice log.committed b) log.committed).entries =
      log.entries.filter (·.index < first.index) ++ first :: rest := by
    rw [hmerge, hsplit, overwrite_append hbefore hfirst]
  refine hmerged.get?_index ?_
  rw [hentries]
  have hconsecutive := h.contiguous.consecutiveAfter_slice (b := b) h.prevIndex_le
  rw [hsplit] at hconsecutive
  have he' := he
  rw [hsplit] at he'
  rcases List.mem_append.1 he' with hold | hnew
  · have hget := h.get?_of_isNews_eq_false hlog he (hbefore e hold)
    refine List.mem_append_left _ (List.mem_filter.2 ⟨(hlog.isContiguous.of_get? hget).1, ?_⟩)
    exact decide_eq_true (hconsecutive.lt_of_mem hold (List.mem_cons_self ..))
  · exact List.mem_append_right _ hnew

/-- Behind the leader's entries nothing is left that was not there with the leader's term. So what
the snapshot leaves of the log does not depend on whether they have been merged. -/
theorem compact_merge (hb : log.committed < s.about.index)
    (hterm : lead.termAt? s.about.index = some s.about.term) :
    (log.merge (lead.slice log.committed s.about.index) log.committed).compact s =
      log.compact s := by
  have hmerge := h.merge_eq (b := s.about.index) hlog
  rcases log.news_cases (lead.slice log.committed s.about.index) with
    hnone | ⟨before, first, rest, hsplit, hbefore, hfirst⟩
  · rw [hmerge, overwrite_of_forall hnone]
  · have hnew : ¬ (log.snapshot.isSome ∧ s.about.index ≤ log.prevIndex) := fun hold =>
      Nat.not_lt.2 (Nat.le_trans hold.2 hlog.prevIndex_le_committed) hb
    have hmem : first ∈ lead.slice log.committed s.about.index := by
      rw [hsplit]
      exact List.mem_append_right _ (List.mem_cons_self ..)
    have hother : log.termAt? s.about.index ≠ some s.about.term := fun hsame => by
      rw [h.isNews_eq_false_of_termAt? hlog hsame hterm hmem] at hfirst
      cases hfirst
    have hrest : ∀ e ∈ first :: rest, e.index ≤ s.about.index := fun e he => by
      have he' : e ∈ lead.slice log.committed s.about.index := by
        rw [hsplit]
        exact List.mem_append_right _ he
      exact (mem_slice.1 he').2.2
    rw [hmerge, hsplit, overwrite_append hbefore hfirst, compact_of_termAt?_ne hnew hother]
    refine compact_of_forall_le hnew fun e he => ?_
    rcases List.mem_append.1 he with hkept | htaken
    · have hlt := of_decide_eq_true (List.mem_filter.1 hkept).2
      exact Nat.le_trans (Nat.le_of_lt hlt) (hrest first (List.mem_cons_self ..))
    · exact hrest e htaken

/-- The merged log has the configuration of the leader's log at the end of the entries. -/
theorem configurationAt?_merge (hb : log.committed ≤ b)
    (hend : b ≤ lead.lastIndex) :
    (log.merge (lead.slice log.committed b) log.committed).configurationAt? b =
      lead.configurationAt? b := by
  have hmerged := hlog.isContiguous.merge (lead.slice log.committed b) log.committed
  have hprev : (log.merge (lead.slice log.committed b) log.committed).prevIndex ≤ log.committed :=
    Nat.le_trans (Nat.le_of_eq (prevIndex_merge ..)) hlog.prevIndex_le_committed
  have hspares : log.mergeLapses (lead.slice log.committed b) log.committed = [] := by
    rw [mergeLapses_eq_splice]
    exact spliceLapses_eq_nil fun e he _ hle => absurd (mem_slice.1 he).2.1 (Nat.not_lt.2 hle)
  have hslice : (log.merge (lead.slice log.committed b) log.committed).slice log.committed b =
      lead.slice log.committed b := by
    refine List.ext_getElem? fun k => ?_
    rw [hmerged.getElem?_slice hprev, h.contiguous.getElem?_slice h.prevIndex_le]
    split
    next hk =>
      obtain ⟨e, he⟩ := h.contiguous.exists_get? (i := log.committed + 1 + k)
        (by have := h.prevIndex_le; omega) (Nat.le_trans hk hend)
      obtain ⟨hmem, hindex, -⟩ := h.contiguous.of_get? he
      rw [he, ← hindex]
      exact h.get?_merge hlog (mem_slice.2 ⟨hmem, by omega, by omega⟩)
    next => rfl
  rw [hmerged.configurationAt?_slice hb, h.contiguous.configurationAt?_slice hb, hslice, h.config,
    hlog.isContiguous.configurationAt?_merge hlog.committed_le_lastIndex hspares (Nat.le_refl _)]

/-- The snapshot calls for the configuration that the merged log calls for, in a tail that is kept
or else at its boundary. -/
theorem latestConfiguration?_compact (hb : log.committed < s.about.index)
    (hterm : lead.termAt? s.about.index = some s.about.term)
    (hconfig : lead.configurationAt? s.about.index = some s.about.config) :
    (log.compact s).latestConfiguration? = (log.merge (lead.slice log.committed s.about.index)
      log.committed).latestConfiguration? := by
  have hmerged := hlog.isContiguous.merge (lead.slice log.committed s.about.index) log.committed
  have hlow : (log.merge (lead.slice log.committed s.about.index) log.committed).prevIndex <
      s.about.index := by
    rw [prevIndex_merge]
    exact Nat.lt_of_le_of_lt hlog.prevIndex_le_committed hb
  obtain ⟨e, he, heterm⟩ :=
    exists_get?_of_termAt? hterm (Nat.lt_of_le_of_lt h.prevIndex_le hb)
  obtain ⟨hmem, hindex, -⟩ := h.contiguous.of_get? he
  have hend : s.about.index ≤ lead.lastIndex := hindex ▸ h.contiguous.le_lastIndex hmem
  have hgot := h.get?_merge (b := s.about.index) hlog (mem_slice.2 ⟨hmem, by omega, by omega⟩)
  have hmterm : (log.merge (lead.slice log.committed s.about.index) log.committed).termAt?
      s.about.index = some s.about.term := by
    rw [termAt?_of_lt hlow, ← heterm]
    exact congrArg _ (hindex ▸ hgot)
  rw [← h.compact_merge hlog hb hterm,
    Log.latestConfiguration?_compact hmerged hmterm fun hold => Nat.not_lt.2 hold.2 hlow,
    Log.latestConfiguration?_eq_or hmerged s.about.index,
    h.configurationAt?_merge hlog (Nat.le_of_lt hb) hend, hconfig]

end Backs

end Log

/-- What a log calls for decides how the configurations change, and nothing else does. -/
theorem Turn.node_syncConfig_withLog (t : Turn) {f g : Log → Log}
    (h : (f t.node.log).latestConfiguration? = (g t.node.log).latestConfiguration?) :
    (t.withLog f).syncConfig.node =
      { (t.withLog g).syncConfig.node with log := f t.node.log } := by
  unfold syncConfig Node.config
  simp only [withLog, h]
  cases (g t.node.log).latestConfiguration? with
  | some c => by_cases hc : c = t.node.standing.config <;> simp [hc, useConfig, Node.config]
  | none =>
    cases t.node.initialConfig with
    | some c => by_cases hc : c = t.node.standing.config <;> simp [hc, useConfig, Node.config]
    | none => rfl

/-- A follower takes up a snapshot without raising anything. -/
theorem Node.process_installSnapshot {n : Node} (hrole : n.role = .follower)
    (sender leader : PeerId) (term : Nat) (s : Snapshot) :
    n.process (.message sender (.installSnapshot leader term s)) =
      .ok (n.turn.acceptSnapshot sender leader term s) := by
  refine Node.process_of_done ?_ (Turn.clean_acceptSnapshot ..).pending
  show n.turn.onInstallSnapshot sender leader term s = _
  have hturn : n.turn.node.role = .follower := hrole
  rw [Turn.onInstallSnapshot, hturn]

namespace Turn

variable {t : Turn} {lead : Log} {s : Snapshot}

/-- What becomes of a follower that takes over a snapshot from a leader of a current term. -/
theorem node_acceptSnapshot {term : Nat} (hterm : t.node.term ≤ term)
    (hnew : t.node.log.committed < s.about.index) (sender leader : PeerId) :
    (t.acceptSnapshot sender leader term s).node =
      ((t.heed leader term).withLog (·.compact s)).syncConfig.node := by
  rcases t.acceptSnapshot_cases sender leader term s with ⟨hlt, -⟩ | ⟨-, heq⟩
  · exact absurd hlt (Nat.not_lt.2 hterm)
  · rw [heq]
    have hnew' : (t.heed leader term).node.log.committed < s.about.index := hnew
    show ((t.heed leader term).takeSnapshot s).node = _
    rw [takeSnapshot, if_pos hnew', syncConfig_eq, syncConfig_eq ((t.heed leader term).withLog _)]
    rfl

/-- What becomes of a follower that takes over entries that fit. -/
theorem node_acceptEntries {term prevTerm prev : Nat} {entries : List Entry}
    (hterm : t.node.term ≤ term) (hmatch : t.node.log.matchesAt prevTerm prev = true)
    (hentries : entries ≠ []) (sender leader : PeerId) (commit : Nat) : ∃ capturing : Bool,
      (t.acceptEntries sender leader term prevTerm prev entries commit).node =
        { ((t.heed leader term).withLog (·.merge entries prev)).syncConfig.node with
          log := (t.node.log.merge entries prev).commit (min commit (lastOf entries prev))
          capturing := capturing } := by
  rcases t.acceptEntries_cases sender leader term prevTerm prev entries commit with
    ⟨hlt, -⟩ | ⟨-, ⟨-, heq⟩ | ⟨hother, -⟩⟩
  · exact absurd hlt (Nat.not_lt.2 hterm)
  · obtain ⟨u, capturing, hu, hnode⟩ :=
      node_takeEntries (t := t.heed leader term) sender prev entries commit
    obtain rfl : u = ((t.heed leader term).mergeEntries entries prev).syncConfig :=
      hu.resolve_left fun h => hentries h.1
    have hsynced : ((t.heed leader term).mergeEntries entries prev).syncConfig.node =
        ((t.heed leader term).withLog (·.merge entries prev)).syncConfig.node := by
      rw [syncConfig_eq, syncConfig_eq ((t.heed leader term).withLog _)]
      rfl
    refine ⟨capturing, ?_⟩
    rw [heq, hnode, hsynced, ((t.heed leader term).withLog _).synced_syncConfig.1]
    rfl
  · exact absurd (hother.symm.trans hmatch) Bool.false_ne_true

end Turn

/-- A follower that installs a snapshot of the leader's log ends up as if it had received the
leader's entries up to there, with all of them committed, and had then compacted its log with that
snapshot: with the same log, term, vote and leader and the same configuration in force, whatever it
had behind its commit index before. Only a capture that is under way is not ended by an
installation. -/
theorem snapshot_replaces_entries {n : Node} {lead : Log} {s : Snapshot} {term prevTerm : Nat}
    (hrole : n.role = .follower) (hlog : n.log.WellFormed) (hterm : n.term ≤ term)
    (hlead : lead.Backs n.log) (hprev : lead.termAt? n.log.committed = some prevTerm)
    (hs : n.log.committed < s.about.index)
    (hsterm : lead.termAt? s.about.index = some s.about.term)
    (hsconfig : lead.configurationAt? s.about.index = some s.about.config)
    (sender leader : PeerId) :
    ∃ m k k' es fs gs,
      step n (.message sender (.installSnapshot leader term s)) = .ok (m, es) ∧
      step n (.message sender (.appendEntries leader term prevTerm n.log.committed
        (lead.slice n.log.committed s.about.index) s.about.index)) = .ok (k, fs) ∧
      step k (.snapshotPrepared (some s)) = .ok (k', gs) ∧
      k' = { m with capturing := false } := by
  have hlive := Nat.lt_of_le_of_lt hlog.prevIndex_le_committed hs
  have hend : s.about.index ≤ lead.lastIndex :=
    hlead.contiguous.le_lastIndex_of_matchesAt (Log.matchesAt_of_termAt? hsterm)
  have hbatch := hlead.contiguous.consecutiveAfter_slice (b := s.about.index) hlead.prevIndex_le
  have hlength := hlead.contiguous.length_slice hlead.prevIndex_le hend
  have hlast : lastOf (lead.slice n.log.committed s.about.index) n.log.committed =
      s.about.index := by
    rw [hbatch.lastOf_eq, hlength]
    omega
  have hentries : lead.slice n.log.committed s.about.index ≠ [] := by
    rw [← List.length_pos_iff, hlength]
    omega
  have hcompact : ((n.log.merge (lead.slice n.log.committed s.about.index)
      n.log.committed).commit s.about.index).compact s = n.log.compact s := by
    rw [Log.compact_commit, hlead.compact_merge hlog hs hsterm]
    rw [Log.prevIndex_merge]
    exact fun hold => Nat.not_lt.2 hold.2 hlive
  have hinstalled := Turn.node_acceptSnapshot (t := n.turn) hterm hs sender leader
  have hsynced := (n.turn.heed leader term).node_syncConfig_withLog (f := (·.compact s))
    (g := (·.merge (lead.slice n.log.committed s.about.index) n.log.committed))
    (hlead.latestConfiguration?_compact hlog hs hsterm hsconfig)
  obtain ⟨capturing, htaken⟩ := Turn.node_acceptEntries (t := n.turn) hterm
    (Log.matchesAt_of_termAt? (hlead.term ▸ hprev)) hentries sender leader s.about.index
  rw [hlast, Nat.min_self] at htaken
  have hinstall := step_of_process (Node.process_installSnapshot hrole sender leader term s)
  have happend := step_of_process (Node.process_appendEntries hrole sender leader term prevTerm
    n.log.committed (lead.slice n.log.committed s.about.index) s.about.index)
  rw [hinstalled, hsynced] at hinstall
  rw [htaken] at happend
  refine ⟨_, _, _, _, _, _, hinstall, happend,
    step_of_process (t := Turn.finishCapture _ _) rfl, ?_⟩
  simp only [Turn.finishCapture, Node.turn, hcompact]
  rfl

/-- A follower that has been led astray behind position 1. A change of members that was never
committed is in force. -/
def astray : Node where
  id := ⟨2⟩
  role := .follower
  standing := { term := 1, config := .joint 1 (.ofList [⟨1⟩, ⟨2⟩]) (.ofList [⟨2⟩]) }
  log :=
    { entries :=
        [⟨1, 1, .noop, none⟩,
          ⟨1, 2, .configuration (.joint 1 (.ofList [⟨1⟩, ⟨2⟩]) (.ofList [⟨2⟩])), some ⟨3⟩⟩,
          ⟨1, 3, .noop, none⟩, ⟨1, 4, .noop, none⟩]
      committed := 1 }
  initialConfig := some (.stable 0 (.ofList [⟨1⟩, ⟨2⟩]))

/-- The log of the leader of term 2. -/
def guiding : Log where
  entries :=
    [⟨1, 1, .noop, none⟩, ⟨2, 2, .noop, none⟩,
      ⟨2, 3, .configuration (.stable 1 (.ofList [⟨1⟩, ⟨2⟩, ⟨3⟩])), none⟩, ⟨2, 4, .noop, none⟩]
  committed := 3

theorem backs_astray : guiding.Backs astray.log where
  contiguous := Log.WellFormed.isContiguous ⟨by decide, by decide, by decide⟩
  prevIndex_le := by decide
  term := by decide
  config := by decide
  matching := by
    intro i t ht ht' j hj e f he hf
    have hlog : astray.log.Contiguous :=
      Log.WellFormed.isContiguous ⟨by decide, by decide, by decide⟩
    have hi : i ≤ 4 := hlog.le_lastIndex_of_matchesAt (Log.matchesAt_of_termAt? ht)
    have hcommon : ∀ i ≤ 4, astray.log.termAt? i = guiding.termAt? i →
        ∀ j ≤ i, astray.log.get? j = guiding.get? j := by decide
    have hsame := hcommon i hi (ht.trans ht'.symm) j hj
    exact Option.some.inj (he.symm.trans (hsame.trans hf))

/-- The change is undone, and the configuration of the snapshot is in force. -/
theorem snapshot_replaces_entries_astray : astray.log.WellFormed ∧ guiding.Backs astray.log ∧
    ∃ m k k' es fs gs,
      step astray (.message ⟨1⟩ (.installSnapshot ⟨1⟩ 2
        ⟨⟨3, 2, .stable 1 (.ofList [⟨1⟩, ⟨2⟩, ⟨3⟩])⟩, [7]⟩)) = .ok (m, es) ∧
      step astray (.message ⟨1⟩ (.appendEntries ⟨1⟩ 2 1 1 (guiding.slice 1 3) 3)) = .ok (k, fs) ∧
      step k (.snapshotPrepared (some ⟨⟨3, 2, .stable 1 (.ofList [⟨1⟩, ⟨2⟩, ⟨3⟩])⟩, [7]⟩)) =
        .ok (k', gs) ∧
      k' = { m with capturing := false } := by
  have hlog : astray.log.WellFormed := ⟨by decide, by decide, by decide⟩
  exact ⟨hlog, backs_astray, snapshot_replaces_entries (n := astray) rfl hlog (by decide)
    backs_astray (by decide) (by decide) (by decide) (by decide) ⟨1⟩ ⟨1⟩⟩

end Raft
