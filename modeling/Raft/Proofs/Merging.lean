import Mathlib.Data.List.TakeWhile
import Raft.Proofs.Contiguity

/-!
# What a batch changes

A leader's batch changes a log from its first news on: the first entry above the snapshot that the
log ends before, or where it has another term. What stands before that place stays, and the rest of
the batch takes the place of everything behind it. Entries that are there already are no news, so a
batch that is delivered again, or late, changes nothing.

* `ConsecutiveAfter`, entries that are numbered without gaps behind a position;
* `Log.isNews` and `Log.overwrite`, the rule;
* `Log.Includes`, an entry is on the log or lies under its snapshot, and `Log.merge_of_includes`;
* `Log.Contiguous.merge_eq`, merging goes by the rule, and `Log.Contiguous.includes_merge`,
  afterwards the log includes the batch;
* `Log.merge_overwrites`, all of it together.
-/

namespace Raft

/-- Entries that are numbered without gaps from the position behind `i` on. -/
def ConsecutiveAfter (i : Nat) (l : List Entry) : Prop :=
  ∀ k e, l[k]? = some e → e.index = i + 1 + k

namespace ConsecutiveAfter

variable {i : Nat} {e : Entry} {l m : List Entry}

theorem nil : ConsecutiveAfter i [] := nofun

theorem cons (he : e.index = i + 1) (h : ConsecutiveAfter e.index l) :
    ConsecutiveAfter i (e :: l) := by
  intro k f hf
  cases k with
  | zero =>
    obtain rfl := Option.some.inj hf
    exact he
  | succ k =>
    have hindex := h k f hf
    omega

theorem head (h : ConsecutiveAfter i (e :: l)) : e.index = i + 1 := h 0 e rfl

theorem tail (h : ConsecutiveAfter i (e :: l)) : ConsecutiveAfter e.index l := by
  intro k f hf
  have hindex := h (k + 1) f hf
  have hhead := h.head
  omega

theorem of_append_left (h : ConsecutiveAfter i (l ++ m)) : ConsecutiveAfter i l := by
  intro k f hf
  have hlt := (List.getElem?_eq_some_iff.1 hf).1
  exact h k f (by rw [List.getElem?_append_left hlt, hf])

/-- The last entry stands at the end. -/
theorem index_eq_of_concat (h : ConsecutiveAfter i (l.concat e)) :
    e.index = i + (l.concat e).length := by
  have hindex : e.index = i + 1 + l.length := h l.length e (by simp)
  rw [List.length_concat]
  omega

theorem of_append_right (h : ConsecutiveAfter i (l ++ m)) : ConsecutiveAfter (i + l.length) m := by
  intro k f hf
  have hplace : (l ++ m)[l.length + k]? = some f := by
    rw [List.getElem?_append_right (Nat.le_add_right ..), Nat.add_sub_cancel_left, hf]
  have hindex := h _ f hplace
  omega

/-- What comes before the last part of a batch is numbered below it. -/
theorem lt_of_mem (h : ConsecutiveAfter i (l ++ m)) {f : Entry} (hf : f ∈ l) (he : e ∈ m) :
    f.index < e.index := by
  obtain ⟨j, hj⟩ := List.mem_iff_getElem?.1 hf
  obtain ⟨k, hk⟩ := List.mem_iff_getElem?.1 he
  have hlt := (List.getElem?_eq_some_iff.1 hj).1
  have hfirst := h.of_append_left j f hj
  have hsecond := h.of_append_right k e hk
  omega

end ConsecutiveAfter

namespace Log

variable {log : Log} {batch : List Entry} {e : Entry} {i after : Nat}

/-! ### The rule -/

/-- Whether an entry is news to a log: it lies above the snapshot, and the log ends before it or has
an entry of another term in its place. -/
def isNews (log : Log) (e : Entry) : Bool :=
  decide (log.prevIndex < e.index ∧
    (log.lastIndex < e.index ∨ ∃ old ∈ log.get? e.index, old.term ≠ e.term))

/-- The log with a batch put over it, from the first entry on that is news. -/
def overwrite (log : Log) (batch : List Entry) : Log :=
  match batch.dropWhile (!log.isNews ·) with
  | [] => log
  | first :: rest =>
    { log with entries := log.entries.filter (·.index < first.index) ++ first :: rest }

theorem overwrite_of_forall (h : ∀ e ∈ batch, log.isNews e = false) :
    log.overwrite batch = log := by
  have hnone : batch.dropWhile (!log.isNews ·) = [] :=
    List.dropWhile_eq_nil_iff.2 fun e he => by rw [h e he]; rfl
  rw [overwrite, hnone]

theorem overwrite_append {before rest : List Entry} {first : Entry}
    (h : ∀ e ∈ before, log.isNews e = false) (hfirst : log.isNews first = true) :
    log.overwrite (before ++ first :: rest) =
      { log with entries := log.entries.filter (·.index < first.index) ++ first :: rest } := by
  have hdrop : (before ++ first :: rest).dropWhile (!log.isNews ·) = first :: rest := by
    rw [List.dropWhile_append_of_pos fun e he => by rw [h e he]; rfl]
    exact List.dropWhile_cons_of_neg (by rw [hfirst]; exact Bool.false_ne_true)
  rw [overwrite, hdrop]

/-- A batch has no news, or there is a first one. -/
theorem news_cases (log : Log) (batch : List Entry) :
    (∀ e ∈ batch, log.isNews e = false) ∨ ∃ before first rest, batch = before ++ first :: rest ∧
      (∀ e ∈ before, log.isNews e = false) ∧ log.isNews first = true := by
  induction batch with
  | nil => exact .inl nofun
  | cons e batch ih =>
    cases he : log.isNews e with
    | true => exact .inr ⟨[], e, batch, rfl, nofun, he⟩
    | false =>
      rcases ih with hnone | ⟨before, first, rest, rfl, hbefore, hfirst⟩
      · exact .inl (List.forall_mem_cons.2 ⟨he, hnone⟩)
      · exact .inr ⟨e :: before, first, rest, rfl, List.forall_mem_cons.2 ⟨he, hbefore⟩, hfirst⟩

/-! ### What a log includes -/

/-- An entry lies under the snapshot of a log, or the log has an entry of its term in its place. -/
def Includes (log : Log) (e : Entry) : Prop :=
  e.index ≤ log.prevIndex ∨ ∃ old, log.get? e.index = some old ∧ old.term = e.term

/-- A batch that a log includes changes nothing, wherever it is said to follow. -/
theorem merge_of_includes (h : ∀ e ∈ batch, log.Includes e) (after : Nat) :
    log.merge batch after = log := by
  have hlacks : log.lacks batch = false := by
    refine List.any_eq_false.2 fun e he => ?_
    simp only [decide_eq_true_eq, not_and, Decidable.not_not]
    intro hlive
    rcases h e he with hle | ⟨old, hold, hterm⟩
    · omega
    · rw [termAt?_of_lt hlive, hold, Option.map_some, hterm]
  rw [merge, hlacks, if_neg Bool.false_ne_true]

/-! ### Running a batch along the live entries -/

section Splice

variable {prev : Nat} {live before rest : List Entry} {first : Entry}

/-- Entries that are there already are passed over. -/
theorem splice_append (h : ∀ e ∈ before, e.index ≤ prev ∨
      ∃ old, live[e.index - prev - 1]? = some old ∧ old.term = e.term) :
    splice prev after live (before ++ rest) = splice prev after live rest := by
  induction before with
  | nil => rfl
  | cons e before ih =>
    obtain ⟨he, hbefore⟩ := List.forall_mem_cons.1 h
    rw [List.cons_append, splice_passed (he.imp_right .inr), ih hbefore]

theorem spliceLapses_append {c : Nat} (h : ∀ e ∈ before, e.index ≤ prev ∨
      ∃ old, live[e.index - prev - 1]? = some old ∧ old.term = e.term) :
    spliceLapses prev after c live (before ++ rest) = spliceLapses prev after c live rest := by
  induction before with
  | nil => rfl
  | cons e before ih =>
    obtain ⟨he, hbefore⟩ := List.forall_mem_cons.1 h
    rw [List.cons_append, spliceLapses_passed (he.imp_right .inr), ih hbefore]

/-- What follows the last entry is added. -/
theorem splice_of_end (h : ConsecutiveAfter (prev + live.length) rest)
    (hafter : after ≤ prev + live.length) : splice prev after live rest = live ++ rest := by
  induction rest generalizing live with
  | nil => rw [splice_nil, List.append_nil]
  | cons e rest ih =>
    have hindex := h.head
    have hnone : ∀ old, live[live.length]? = some old → old.term ≠ e.term := by simp
    rw [splice_placed (by omega) (by omega) (Nat.le_refl _) hnone, List.take_length,
      ih (by simpa [← Nat.add_assoc, ← hindex] using h.tail)
        (by rw [List.length_append]; omega),
      List.append_assoc, List.singleton_append]

/-- At its first news a batch takes over. -/
theorem splice_cons (hprev : prev < first.index) (hafter : after < first.index)
    (hend : first.index - prev - 1 ≤ live.length)
    (hterm : ∀ old, live[first.index - prev - 1]? = some old → old.term ≠ first.term)
    (hrest : ConsecutiveAfter first.index rest) :
    splice prev after live (first :: rest) =
      live.take (first.index - prev - 1) ++ first :: rest := by
  have hplace : prev + (live.take (first.index - prev - 1) ++ [first]).length = first.index := by
    rw [List.length_append, List.length_take, List.length_singleton]
    omega
  rw [splice_placed (by omega) hafter hend hterm, splice_of_end (by rwa [hplace]) (by omega),
    List.append_assoc, List.singleton_append]

end Splice

/-- A batch of which a log lacks nothing is there already. -/
theorem live_of_lacks_eq_false (h : log.lacks batch = false) : ∀ e ∈ batch,
    e.index ≤ log.prevIndex ∨
      ∃ old, log.entries[e.index - log.prevIndex - 1]? = some old ∧ old.term = e.term := by
  intro e he
  have hterm := List.any_eq_false.1 h e he
  simp only [decide_eq_true_eq, not_and, Decidable.not_not] at hterm
  rcases Nat.lt_or_ge log.prevIndex e.index with hlive | hle
  · obtain ⟨old, hold, heq⟩ := exists_get?_of_termAt? (hterm hlive) hlive
    exact .inr ⟨old, get?_of_lt hlive ▸ hold, heq⟩
  · exact .inl hle

/-- The look for what a log lacks only saves the run, it makes no difference. -/
theorem merge_eq_splice (log : Log) (batch : List Entry) (after : Nat) :
    log.merge batch after =
      { log with entries := splice log.prevIndex after log.entries batch } := by
  unfold merge
  split
  next => rfl
  next hlacks =>
    have hlive := live_of_lacks_eq_false (Bool.eq_false_iff.2 hlacks)
    have hrun : splice log.prevIndex after log.entries (batch ++ []) = _ := splice_append hlive
    rw [List.append_nil, splice_nil] at hrun
    rw [hrun]

theorem mergeLapses_eq_splice (log : Log) (batch : List Entry) (after : Nat) :
    log.mergeLapses batch after =
      spliceLapses log.prevIndex after log.committed log.entries batch := by
  unfold mergeLapses
  split
  next => rfl
  next hlacks =>
    have hlive := live_of_lacks_eq_false (Bool.eq_false_iff.2 hlacks)
    have hrun : spliceLapses log.prevIndex after log.committed log.entries (batch ++ []) = _ :=
      spliceLapses_append hlive
    rw [List.append_nil, spliceLapses] at hrun
    exact hrun.symm

/-! ### Merging -/

namespace Contiguous

/-- What is no news is on the log already, or under its snapshot. -/
theorem isNews_eq_false_iff (h : log.Contiguous) : log.isNews e = false ↔ log.Includes e := by
  simp only [isNews, decide_eq_false_iff_not, Includes]
  constructor
  · intro hnot
    rcases Nat.lt_or_ge log.prevIndex e.index with hlow | hle
    · have hhigh : e.index ≤ log.lastIndex := Nat.le_of_not_lt fun hlt => hnot ⟨hlow, .inl hlt⟩
      obtain ⟨old, hold⟩ := h.exists_get? hlow hhigh
      refine .inr ⟨old, hold, ?_⟩
      by_contra hterm
      exact hnot ⟨hlow, .inr ⟨old, hold, hterm⟩⟩
    · exact .inl hle
  · rintro hincludes ⟨hlow, hnews⟩
    rcases hincludes with hle | ⟨old, hold, hterm⟩
    · omega
    obtain ⟨hmem, hindex, -⟩ := h.of_get? hold
    rcases hnews with hend | ⟨old', hold', hother⟩
    · have hle := h.le_lastIndex hmem
      omega
    · obtain rfl := Option.some.inj (hold.symm.trans hold')
      exact hother hterm

theorem index_le_of_includes (h : log.Contiguous) (he : log.Includes e) :
    e.index ≤ log.lastIndex := by
  rcases he with hle | ⟨old, hold, -⟩
  · exact Nat.le_trans hle h.prevIndex_le_lastIndex
  · obtain ⟨hmem, hindex, -⟩ := h.of_get? hold
    exact hindex ▸ h.le_lastIndex hmem

/-- The first news of a batch is not more than one place beyond the end of the log. -/
theorem index_le_of_first (h : log.Contiguous) {before rest : List Entry} {first : Entry}
    (hbatch : ConsecutiveAfter after (before ++ first :: rest)) (hafter : after ≤ log.lastIndex)
    (hbefore : ∀ e ∈ before, log.isNews e = false) : first.index ≤ log.lastIndex + 1 := by
  have hindex := hbatch.of_append_right.head
  rcases List.eq_nil_or_concat before with rfl | ⟨init, e, rfl⟩
  · rw [List.length_nil] at hindex
    omega
  have hlast := hbatch.of_append_left.index_eq_of_concat
  have hle := h.index_le_of_includes (h.isNews_eq_false_iff.1 (hbefore e (by simp)))
  omega

/-- Merging goes by the rule. -/
theorem merge_eq (h : log.Contiguous) (hbatch : ConsecutiveAfter after batch)
    (hafter : after ≤ log.lastIndex) : log.merge batch after = log.overwrite batch := by
  rcases log.news_cases batch with hnone | ⟨before, first, rest, rfl, hbefore, hfirst⟩
  · rw [overwrite_of_forall hnone]
    exact merge_of_includes (fun e he => h.isNews_eq_false_iff.1 (hnone e he)) after
  have hend := h.index_le_of_first hbatch hafter hbefore
  rw [h.lastIndex_eq] at hend
  obtain ⟨hlive, hnews⟩ := of_decide_eq_true hfirst
  have hindex := hbatch.of_append_right.head
  have hcut : log.entries.filter (·.index < first.index) =
      log.entries.take (first.index - log.prevIndex - 1) := by
    rw [show first.index - log.prevIndex - 1 = first.index - 1 - log.prevIndex by omega,
      ← h.filter_le]
    refine List.filter_congr fun e _ => ?_
    simp only [decide_eq_decide]
    omega
  rw [overwrite_append hbefore hfirst, hcut, merge_eq_splice]
  congr 1
  rw [splice_append fun e he => ?_]
  · refine splice_cons hlive (by omega) (by omega) (fun old hold hterm => ?_)
      hbatch.of_append_right.tail
    have hincludes : log.Includes first := .inr ⟨old, (get?_of_lt hlive).trans hold, hterm⟩
    rw [← h.isNews_eq_false_iff, hfirst] at hincludes
    cases hincludes
  · rcases h.isNews_eq_false_iff.1 (hbefore e he) with hle | ⟨old, hold, hterm⟩
    · exact .inl hle
    · rw [get?_of_lt (h.of_get? hold).2.2] at hold
      exact .inr ⟨old, hold, hterm⟩

/-- After a merge the log includes the whole batch. -/
theorem includes_merge (h : log.Contiguous) (hbatch : ConsecutiveAfter after batch)
    (hafter : after ≤ log.lastIndex) : ∀ e ∈ batch, (log.merge batch after).Includes e := by
  have hmerged := h.merge batch after
  have heq := h.merge_eq hbatch hafter
  have hprev := prevIndex_merge log batch after
  rcases log.news_cases batch with hnone | ⟨before, first, rest, rfl, hbefore, hfirst⟩
  · rw [heq, overwrite_of_forall hnone]
    exact fun e he => h.isNews_eq_false_iff.1 (hnone e he)
  rw [overwrite_append hbefore hfirst] at heq
  have hentries := congrArg Log.entries heq
  intro e he
  rcases List.mem_append.1 he with he | he
  · rcases h.isNews_eq_false_iff.1 (hbefore e he) with hle | ⟨old, hold, hterm⟩
    · exact .inl (hprev ▸ hle)
    · obtain ⟨hmem, hindex, -⟩ := h.of_get? hold
      have hlt := hbatch.lt_of_mem he (List.mem_cons_self ..)
      have hkept : old ∈ log.entries.filter (·.index < first.index) :=
        List.mem_filter.2 ⟨hmem, decide_eq_true (hindex ▸ hlt)⟩
      refine .inr ⟨old, hindex ▸ hmerged.get?_index ?_, hterm⟩
      rw [hentries]
      exact List.mem_append_left _ hkept
  · refine .inr ⟨e, hmerged.get?_index ?_, rfl⟩
    rw [hentries]
    exact List.mem_append_right _ he

/-- A log becomes shorter only where it had another term. -/
theorem exists_of_lastIndex_merge_lt (h : log.Contiguous) (hbatch : ConsecutiveAfter after batch)
    (hafter : after ≤ log.lastIndex)
    (hlt : (log.merge batch after).lastIndex < log.lastIndex) :
    ∃ e ∈ batch, ∃ old, log.get? e.index = some old ∧ old.term ≠ e.term := by
  rcases log.news_cases batch with hnone | ⟨before, first, rest, rfl, -, hfirst⟩
  · rw [h.merge_eq hbatch hafter, overwrite_of_forall hnone] at hlt
    omega
  have hmem : first ∈ before ++ first :: rest :=
    List.mem_append_right _ (List.mem_cons_self ..)
  have hle := (h.merge (before ++ first :: rest) after).index_le_of_includes
    (h.includes_merge hbatch hafter first hmem)
  rcases (of_decide_eq_true hfirst).2 with hend | ⟨old, hold, hterm⟩
  · omega
  · exact ⟨first, hmem, old, hold, hterm⟩

end Contiguous

/-- Merging a batch that follows a position of the log puts it over the log from its first news on,
and leaves the snapshot and the commit index alone. So once it is merged, neither the batch nor any
part of it changes anything, and the log becomes shorter only where it had another term. -/
theorem merge_overwrites (h : log.Contiguous) (hbatch : ConsecutiveAfter after batch)
    (hafter : after ≤ log.lastIndex) :
    log.merge batch after = log.overwrite batch ∧
      (log.merge batch after).snapshot = log.snapshot ∧
      (log.merge batch after).committed = log.committed ∧
      (log.merge batch after).merge batch after = log.merge batch after ∧
      (∀ part, part <:+: batch → ∀ i, (log.merge batch after).merge part i =
        log.merge batch after) ∧
      ((log.merge batch after).lastIndex < log.lastIndex →
        ∃ e ∈ batch, ∃ old, log.get? e.index = some old ∧ old.term ≠ e.term) := by
  have hincludes := h.includes_merge hbatch hafter
  refine ⟨h.merge_eq hbatch hafter, snapshot_merge .., committed_merge .., ?_, ?_, ?_⟩
  · exact merge_of_includes hincludes after
  · exact fun part hpart i => merge_of_includes (fun e he => hincludes e (hpart.subset he)) i
  · exact h.exists_of_lastIndex_merge_lt hbatch hafter

/-- A log with four entries of term 1 behind its snapshot. -/
def contested : Log where
  entries := [⟨1, 3, .noop, none⟩, ⟨1, 4, .noop, none⟩, ⟨1, 5, .noop, none⟩, ⟨1, 6, .noop, none⟩]
  committed := 3
  snapshot := some ⟨⟨2, 1, .unconfigured⟩, []⟩

/-- What a leader of term 2 sends. The first entry lies under the snapshot, the second is there
already, and the log has another term in the place of the third. -/
def contest : List Entry :=
  [⟨1, 2, .noop, none⟩, ⟨1, 3, .noop, none⟩, ⟨2, 4, .noop, none⟩, ⟨2, 5, .noop, none⟩]

/-- The batch takes over from its third entry on. Its middle does nothing afterwards. -/
theorem merge_overwrites_contested : contested.Contiguous ∧ ConsecutiveAfter 1 contest ∧
    1 ≤ contested.lastIndex ∧
    contested.merge contest 1 =
      { contested with
        entries := [⟨1, 3, .noop, none⟩, ⟨2, 4, .noop, none⟩, ⟨2, 5, .noop, none⟩] } ∧
    (contested.merge contest 1).merge [⟨1, 3, .noop, none⟩, ⟨2, 4, .noop, none⟩] 2 =
      contested.merge contest 1 ∧
    (contested.merge contest 1).lastIndex < contested.lastIndex ∧
    ∃ e ∈ contest, ∃ old, contested.get? e.index = some old ∧ old.term ≠ e.term := by
  have hlog : contested.Contiguous := WellFormed.isContiguous ⟨by decide, by decide, by decide⟩
  have hbatch : ConsecutiveAfter 1 contest := .cons rfl (.cons rfl (.cons rfl (.cons rfl .nil)))
  obtain ⟨heq, -, -, -, hparts, hshorter⟩ := merge_overwrites hlog hbatch (by decide)
  have hlt : (contested.merge contest 1).lastIndex < contested.lastIndex := by decide
  exact ⟨hlog, hbatch, by decide, heq.trans (by decide), hparts _ (by decide) 2, hlt, hshorter hlt⟩

end Log

end Raft
