import Raft.Proofs.LogChanges

/-!
# A log and its compacted copy

A snapshot takes the place of the first entries of a log. Whatever is done to the log later on, and
to a copy that was compacted, what the two answer from the boundary on stays the same.

* `Log.Condenses`, one log is another one without its first entries: `Condenses.of_compact` says how
  it begins, and `Condenses.perform` that a change of both keeps it;
* `Log.splice_drop_boundary`, why a batch that takes back nothing committed does so;
* `Log.AgreesFrom`, what can be read from two logs alike, and `Condenses.agreesFrom`;
* `Log.compaction_transparent`, the two together.
-/

namespace Raft

namespace Log

/-- Whether a change is a compaction. -/
def Change.isCompaction : Change → Bool
  | .compact _ => true
  | _ => false

variable {short long : Log} {i : Nat}

/-! ### What a merge leaves alone -/

namespace Contiguous

variable {log : Log} {batch : List Entry} {after : Nat}

/-- A merge that takes back nothing committed changes nothing that is read up to the commit
index. -/
theorem get?_merge (h : log.Contiguous) (hc : log.committed ≤ log.lastIndex)
    (hspares : log.mergeLapses batch after = []) (hi : i ≤ log.committed) :
    (log.merge batch after).get? i = log.get? i := by
  rw [get?, get?, prevIndex_merge]
  split
  next => rfl
  next hlive =>
    have hlt : i - log.prevIndex - 1 < log.committed - log.prevIndex := by omega
    rw [← List.getElem?_take_of_lt hlt, h.take_merge hc hspares, List.getElem?_take_of_lt hlt]

theorem configurationAt?_merge (h : log.Contiguous) (hc : log.committed ≤ log.lastIndex)
    (hspares : log.mergeLapses batch after = []) (hi : i ≤ log.committed) :
    (log.merge batch after).configurationAt? i = log.configurationAt? i := by
  have htake : (log.merge batch after).entries.take (i - log.prevIndex) =
      log.entries.take (i - log.prevIndex) := by
    have hle : i - log.prevIndex ≤ log.committed - log.prevIndex := by omega
    rw [← Nat.min_eq_left hle, ← List.take_take, h.take_merge hc hspares, List.take_take]
  rw [configurationAt?_eq (h.merge batch after), configurationAt?_eq h, prevIndex_merge, htake,
    snapshot_merge]

end Contiguous

/-- Running a batch along the live entries behind `b` leaves what stands there after running it
along all of them, if it cuts nothing off up to there. An entry up to `b` is then passed in both
runs, and every place is behind it. -/
theorem splice_drop_boundary {p b c after : Nat} {live batch : List Entry} (hpb : p ≤ b)
    (hbc : b ≤ c) (hc : c ≤ p + live.length) (h : spliceLapses p after c live batch = []) :
    splice b after (live.drop (b - p)) batch = (splice p after live batch).drop (b - p) := by
  induction batch generalizing live with
  | nil => rw [splice_nil, splice_nil]
  | cons e rest ih =>
    rcases lands p after live e with hpass | ⟨j, hindex, hafter, hj, hterm⟩ | ⟨hindex, hafter⟩
    · rw [spliceLapses_passed hpass] at h
      have hbehind : e.index ≤ b ∨ e.index ≤ after ∨
          ∃ old, (live.drop (b - p))[e.index - b - 1]? = some old ∧ old.term = e.term := by
        rcases Nat.lt_or_ge b e.index with hlt | hle
        · rcases hpass with hle | hle | ⟨old, hold, hterm⟩
          · omega
          · exact .inr (.inl hle)
          · refine .inr (.inr ⟨old, ?_, hterm⟩)
            rw [List.getElem?_drop, ← hold]
            congr 1
            omega
        · exact .inl hle
      rw [splice_passed hpass, splice_passed hbehind, ih hc h]
    · obtain ⟨hbehind, hrest⟩ := behind_of_placed hindex hafter hj hterm hc h
      have hplace : (live.take j ++ [e]).drop (b - p) =
          (live.drop (b - p)).take (j - (b - p)) ++ [e] := by
        rw [List.drop_append_of_le_length (by rw [List.length_take]; omega), List.drop_take]
      rw [splice_placed hindex hafter hj hterm,
        splice_placed (j := j - (b - p)) (by omega) hafter (by rw [List.length_drop]; omega)
          (by rwa [List.getElem?_drop, Nat.add_sub_cancel' (by omega)]),
        ← hplace]
      refine ih ?_ hrest
      rw [List.length_append, List.length_take, List.length_singleton]
      omega
    · rw [splice_missed hindex hafter,
        splice_missed (by rw [List.length_drop]; omega) hafter]

/-! ### The same log without its first entries -/

/-- One log is another one with a snapshot in place of its first entries, all of them committed. -/
structure Condenses (short long : Log) : Prop where
  contiguous : long.Contiguous
  committed_le : long.committed ≤ long.lastIndex
  live : long.prevIndex < short.prevIndex
  boundary_le : short.prevIndex ≤ long.committed
  committed : short.committed = long.committed
  entries : short.entries = long.entries.drop (short.prevIndex - long.prevIndex)
  term : long.termAt? short.prevIndex = some short.prevTerm
  config : long.configurationAt? short.prevIndex = short.snapshot.map (·.about.config)

namespace Condenses

theorem of_compact {log : Log} (h : log.WellFormed) {s : Snapshot}
    (hlive : log.prevIndex < s.about.index) (hle : s.about.index ≤ log.committed)
    (hterm : log.termAt? s.about.index = some s.about.term)
    (hconfig : log.configurationAt? s.about.index = some s.about.config) :
    (log.compact s).Condenses log := by
  have hcompact : log.compact s =
      { entries := log.entries.drop (s.about.index - log.prevIndex)
        committed := log.committed
        snapshot := some s } := by
    rw [compact, if_neg fun hold => by omega, if_pos hterm, h.isContiguous.filter_lt,
      Nat.max_eq_left hle]
  rw [hcompact]
  exact ⟨h.isContiguous, h.committed_le_lastIndex, hlive, hle, rfl, rfl, hterm, hconfig⟩

/-! ### What both have -/

theorem contiguous_short (h : short.Condenses long) : short.Contiguous := by
  intro k e he
  rw [h.entries, List.getElem?_drop] at he
  have hindex := h.contiguous _ e he
  have hlive := h.live
  omega

/-- The boundary lies within the longer log. -/
theorem boundary_le_length (h : short.Condenses long) :
    short.prevIndex - long.prevIndex ≤ long.entries.length := by
  have hle := Nat.le_trans h.boundary_le h.committed_le
  rw [h.contiguous.lastIndex_eq] at hle
  omega

theorem lastIndex (h : short.Condenses long) : short.lastIndex = long.lastIndex := by
  have hlength := h.boundary_le_length
  have hlive := h.live
  rw [h.contiguous_short.lastIndex_eq, h.contiguous.lastIndex_eq, h.entries, List.length_drop]
  omega

theorem nextIndex (h : short.Condenses long) : short.nextIndex = long.nextIndex :=
  congrArg (· + 1) h.lastIndex

theorem get? (h : short.Condenses long) (hi : short.prevIndex < i) :
    short.get? i = long.get? i := by
  have hlive := h.live
  rw [get?_of_lt hi, get?_of_lt (by omega), h.entries, List.getElem?_drop]
  congr 1
  omega

theorem isSome_snapshot (h : short.Condenses long) : short.snapshot.isSome := by
  have hlive := h.live
  unfold prevIndex at hlive
  cases hs : short.snapshot with
  | none => simp [hs] at hlive
  | some s => rfl

theorem termAt? (h : short.Condenses long) (hi : short.prevIndex ≤ i) :
    short.termAt? i = long.termAt? i := by
  have hlive := h.live
  rcases Nat.eq_or_lt_of_le hi with rfl | hlt
  · rw [h.term, Log.termAt?, if_neg (by omega), if_pos ⟨h.isSome_snapshot, rfl⟩]
  · rw [termAt?_of_lt hlt, termAt?_of_lt (by omega), h.get? hlt]

/-- If nothing is left behind the boundary, the last entry is the one that the snapshot ends
with. -/
theorem lastTerm (h : short.Condenses long) : short.lastTerm = long.lastTerm := by
  have hlive := h.live
  have hlength := h.boundary_le_length
  have hterm := h.term
  unfold Log.lastTerm
  rw [h.entries, List.getLast?_drop]
  split
  next e he =>
    split at he
    next => cases he
    next => rw [he]
  next hnone =>
    split at hnone
    next hall =>
      rw [termAt?_of_lt hlive, get?_of_lt hlive] at hterm
      obtain ⟨e, he, hterm⟩ := Option.map_eq_some_iff.1 hterm
      have hlast : long.entries.getLast? = some e := by
        rw [List.getLast?_eq_getElem?, ← he]
        congr 1
        omega
      rw [hlast]
      exact hterm.symm
    next hsome =>
      rw [List.getLast?_eq_none_iff] at hnone
      rw [hnone, List.length_nil] at hsome
      omega

theorem configurationAt? (h : short.Condenses long) (hi : short.prevIndex ≤ i) :
    short.configurationAt? i = long.configurationAt? i := by
  have hlive := h.live
  have hconfig := h.config
  rw [configurationAt?_eq h.contiguous] at hconfig
  have hsplit : long.entries.take (i - long.prevIndex) =
      long.entries.take (short.prevIndex - long.prevIndex) ++
        short.entries.take (i - short.prevIndex) := by
    rw [h.entries, ← List.take_add]
    congr 1
    omega
  rw [configurationAt?_eq h.contiguous_short, configurationAt?_eq h.contiguous, hsplit,
    newestIn_append, Option.or_assoc, hconfig]

theorem latestConfiguration? (h : short.Condenses long) :
    short.latestConfiguration? = long.latestConfiguration? := by
  have hle : short.prevIndex ≤ long.lastIndex := Nat.le_trans h.boundary_le h.committed_le
  rw [Log.latestConfiguration?, Log.latestConfiguration?, h.lastIndex, h.configurationAt? hle]

theorem batchFrom (h : short.Condenses long) (hi : short.prevIndex < i) (count : Nat) :
    short.batchFrom i count = long.batchFrom i count := by
  have hlive := h.live
  rw [Log.batchFrom, Log.batchFrom, h.entries, List.drop_drop]
  congr 2
  omega

theorem slice (h : short.Condenses long) {low : Nat} (hlow : short.prevIndex ≤ low)
    (high : Nat) : short.slice low high = long.slice low high := by
  have hlive := h.live
  have hbefore : (long.entries.take (short.prevIndex - long.prevIndex)).filter
      (fun e => low < e.index ∧ e.index ≤ high) = [] := by
    refine List.filter_eq_nil_iff.2 fun e he => ?_
    have hle := h.contiguous.index_of_mem_take he
    simp only [decide_eq_true_eq]
    omega
  rw [Log.slice, Log.slice, h.entries,
    ← List.take_append_drop (short.prevIndex - long.prevIndex) long.entries, List.filter_append,
    hbefore, List.nil_append, List.take_append_drop]

/-- What follows a position of the longer log follows it on the shorter one. There everything inside
the snapshot counts as equal. -/
theorem matchesAt (h : short.Condenses long) {t : Nat} (hmatch : long.matchesAt t i = true) :
    short.matchesAt t i = true := by
  have hlive := h.live
  unfold Log.matchesAt at hmatch ⊢
  by_cases hzero : i = 0
  · rwa [if_pos hzero] at hmatch ⊢
  rw [if_neg hzero] at hmatch ⊢
  by_cases hinside : i < short.prevIndex
  · rw [if_pos ⟨h.isSome_snapshot, hinside⟩]
  · rw [if_neg fun hold => hinside hold.2, h.termAt? (by omega)]
    rwa [if_neg fun hold => by omega] at hmatch

/-! ### Both change -/

theorem append (h : short.Condenses long) {e : Entry} (he : e.index = long.nextIndex) :
    (short.append e).Condenses (long.append e) where
  contiguous := h.contiguous.append he
  committed_le := by
    have hle := h.committed_le
    rw [lastIndex_append, he]
    exact Nat.le_succ_of_le hle
  live := h.live
  boundary_le := h.boundary_le
  committed := h.committed
  entries := by
    show short.entries ++ [e] = (long.entries ++ [e]).drop (short.prevIndex - long.prevIndex)
    rw [List.drop_append_of_le_length h.boundary_le_length, h.entries]
  term := termAt?_append h.term
  config :=
    (configurationAt?_append h.contiguous he (Nat.le_trans h.boundary_le h.committed_le)).trans
      h.config

theorem merge (h : short.Condenses long) {batch : List Entry} {after : Nat}
    (hspares : long.mergeLapses batch after = []) :
    (short.merge batch after).Condenses (long.merge batch after) where
  contiguous := h.contiguous.merge batch after
  committed_le := by
    rw [committed_merge]
    exact h.contiguous.committed_le_lastIndex_merge h.committed_le hspares
  live := by
    rw [prevIndex_merge, prevIndex_merge]
    exact h.live
  boundary_le := by
    rw [prevIndex_merge, committed_merge]
    exact h.boundary_le
  committed := by
    rw [committed_merge, committed_merge]
    exact h.committed
  entries := by
    have hc := h.committed_le
    rw [h.contiguous.lastIndex_eq] at hc
    rw [mergeLapses_eq_splice] at hspares
    rw [prevIndex_merge, prevIndex_merge, merge_eq_splice short, merge_eq_splice long]
    show splice short.prevIndex after short.entries batch = _
    rw [h.entries]
    exact splice_drop_boundary (Nat.le_of_lt h.live) h.boundary_le hc hspares
  term := by
    have hlive := h.live
    rw [prevIndex_merge, prevTerm_merge, ← h.term, termAt?_of_lt (by rwa [prevIndex_merge]),
      termAt?_of_lt hlive, h.contiguous.get?_merge h.committed_le hspares h.boundary_le]
  config := by
    rw [prevIndex_merge, snapshot_merge,
      h.contiguous.configurationAt?_merge h.committed_le hspares h.boundary_le, h.config]

theorem commit (h : short.Condenses long) (i : Nat) :
    (short.commit i).Condenses (long.commit i) where
  contiguous := h.contiguous
  committed_le := Nat.max_le.2 ⟨h.committed_le, Nat.min_le_right ..⟩
  live := h.live
  boundary_le := Nat.le_trans h.boundary_le (Nat.le_max_left ..)
  committed := by
    show max short.committed (min i short.lastIndex) = max long.committed (min i long.lastIndex)
    rw [h.committed, h.lastIndex]
  entries := h.entries
  term := h.term
  config := h.config

theorem perform (h : short.Condenses long) {c : Change} (hc : c.isCompaction = false)
    (hspares : long.Spares c) : (short.perform c).Condenses (long.perform c) := by
  cases c with
  | append term command client =>
    show (short.append { term, index := short.nextIndex, command, client }).Condenses
      (long.append { term, index := long.nextIndex, command, client })
    rw [h.nextIndex]
    exact h.append rfl
  | merge batch after => exact h.merge hspares
  | commit i => exact h.commit i
  | compact s => cases hc

theorem after (h : short.Condenses long) {cs : List Change}
    (hcs : ∀ c ∈ cs, c.isCompaction = false) (hspares : long.SparesAll cs) :
    (short.after cs).Condenses (long.after cs) := by
  induction cs generalizing short long with
  | nil => exact h
  | cons c cs ih =>
    obtain ⟨hc, hcs⟩ := List.forall_mem_cons.1 hcs
    exact ih (h.perform hc hspares.1) hcs hspares.2

end Condenses

/-! ### Reading both -/

/-- Two logs answer alike from a position on. What lies below it is known of both only as far as
something follows it. -/
structure AgreesFrom (b : Nat) (short long : Log) : Prop where
  lastIndex : short.lastIndex = long.lastIndex
  lastTerm : short.lastTerm = long.lastTerm
  nextIndex : short.nextIndex = long.nextIndex
  committed : short.committed = long.committed
  latestConfiguration : short.latestConfiguration? = long.latestConfiguration?
  termAt : ∀ i, b ≤ i → short.termAt? i = long.termAt? i
  configurationAt : ∀ i, b ≤ i → short.configurationAt? i = long.configurationAt? i
  get : ∀ i, b < i → short.get? i = long.get? i
  batchFrom : ∀ i count, b < i → short.batchFrom i count = long.batchFrom i count
  slice : ∀ low high, b ≤ low → short.slice low high = long.slice low high
  matchesAt : ∀ t i, long.matchesAt t i = true → short.matchesAt t i = true

theorem Condenses.agreesFrom (h : short.Condenses long) :
    AgreesFrom short.prevIndex short long where
  lastIndex := h.lastIndex
  lastTerm := h.lastTerm
  nextIndex := h.nextIndex
  committed := h.committed
  latestConfiguration := h.latestConfiguration?
  termAt _ := h.termAt?
  configurationAt _ := h.configurationAt?
  get _ := h.get?
  batchFrom _ count hi := h.batchFrom hi count
  slice _ high hlow := h.slice hlow high
  matchesAt _ _ := h.matchesAt

theorem prevIndex_perform (log : Log) {c : Change} (hc : c.isCompaction = false) :
    (log.perform c).prevIndex = log.prevIndex := by
  cases c with
  | append | commit => rfl
  | merge batch after => exact prevIndex_merge ..
  | compact s => cases hc

theorem prevIndex_after (log : Log) {cs : List Change}
    (hcs : ∀ c ∈ cs, c.isCompaction = false) : (log.after cs).prevIndex = log.prevIndex := by
  induction cs generalizing log with
  | nil => rfl
  | cons c cs ih =>
    obtain ⟨hc, hcs⟩ := List.forall_mem_cons.1 hcs
    rw [after_cons, ih _ hcs, prevIndex_perform log hc]

/-- A log and a copy of it that was compacted at a committed position go on to answer alike from
there on, whatever is done to both, as long as nothing committed is taken back. All the while the
copy holds no entry up to that position. -/
theorem compaction_transparent {log : Log} (h : log.WellFormed) {s : Snapshot}
    (hlive : log.prevIndex < s.about.index) (hle : s.about.index ≤ log.committed)
    (hterm : log.termAt? s.about.index = some s.about.term)
    (hconfig : log.configurationAt? s.about.index = some s.about.config)
    {cs : List Change} (hcs : ∀ c ∈ cs, c.isCompaction = false) (hspares : log.SparesAll cs) :
    ((log.compact s).after cs).prevIndex = s.about.index ∧
      AgreesFrom s.about.index ((log.compact s).after cs) (log.after cs) := by
  have hprev : ((log.compact s).after cs).prevIndex = s.about.index := by
    rw [prevIndex_after _ hcs, compact, if_neg fun hold => by omega]
    rfl
  have hcondenses := Condenses.of_compact h hlive hle hterm hconfig
  exact ⟨hprev, hprev ▸ (hcondenses.after hcs hspares).agreesFrom⟩

/-- A log that records a configuration among its committed entries. -/
def lengthy : Log where
  entries := [⟨1, 3, .configuration (.stable 5 .empty), none⟩, ⟨1, 4, .noop, none⟩,
    ⟨2, 5, .noop, none⟩]
  committed := 4
  snapshot := some ⟨⟨2, 1, .unconfigured⟩, []⟩

/-- What is committed of it. -/
def digest : Snapshot := ⟨⟨4, 1, .stable 5 .empty⟩, [7]⟩

/-- A new leader overrules the entries that are not committed, and a batch from before comes
late. -/
def turnover : List Change :=
  [.append 2 .noop none,
   .merge [⟨1, 4, .noop, none⟩, ⟨3, 5, .noop, none⟩, ⟨3, 6, .noop, none⟩] 3,
   .commit 5,
   .merge [⟨1, 3, .configuration (.stable 5 .empty), none⟩, ⟨1, 4, .noop, none⟩] 2,
   .append 3 .noop none]

/-- The compacted copy holds two entries less, and nothing else is different. -/
theorem compaction_transparent_turnover : lengthy.WellFormed ∧
    lengthy.prevIndex < digest.about.index ∧ digest.about.index ≤ lengthy.committed ∧
    lengthy.termAt? digest.about.index = some digest.about.term ∧
    lengthy.configurationAt? digest.about.index = some digest.about.config ∧
    (∀ c ∈ turnover, c.isCompaction = false) ∧ lengthy.SparesAll turnover ∧
    (lengthy.after turnover).entries.map (·.index) = [3, 4, 5, 6, 7] ∧
    ((lengthy.compact digest).after turnover).entries.map (·.index) = [5, 6, 7] ∧
    ((lengthy.compact digest).after turnover).prevIndex = 4 ∧
    AgreesFrom 4 ((lengthy.compact digest).after turnover) (lengthy.after turnover) := by
  have hlog : lengthy.WellFormed := ⟨by decide, by decide, by decide⟩
  have hspares : lengthy.SparesAll turnover := by decide
  obtain ⟨hprev, hagrees⟩ := compaction_transparent (s := digest) hlog (by decide) (by decide)
    (by decide) (by decide) (by decide) hspares
  exact ⟨hlog, by decide, by decide, by decide, by decide, by decide, hspares, by decide,
    by decide, hprev, hagrees⟩

end Log

end Raft
