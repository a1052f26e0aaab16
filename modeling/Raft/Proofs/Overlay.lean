import Raft.Proofs.Abridged

/-!
# Taking over what a leader sends

A follower that takes a batch into its log, or a snapshot in place of it, ends up with one of two
logs: its own, if the leader's entries up to the end of the batch are on it already, or else
exactly these entries. `overlay` is this choice, `Log.Abridges.merge` and
`Log.Abridges.install` say that the log's own operations make it.

A batch is run along the live entries one by one. `Log.lands` says what can become of one of them,
and what is proved of a batch by induction is proved for these three cases.
-/

namespace Raft

/-- A log that has taken over the entries `m` of a leader. -/
def overlay (l m : List Entry) : List Entry := if m <+: l then l else m

theorem overlay_eq_left {l m : List Entry} (h : m <+: l) : overlay l m = l := if_pos h

theorem overlay_eq_right {l m : List Entry} (h : ¬ m <+: l) : overlay l m = m := if_neg h

theorem prefix_overlay (l m : List Entry) : m <+: overlay l m := by
  unfold overlay
  split
  · assumption
  · exact List.prefix_rfl

/-- What the own log and the leader's have in common stays. -/
theorem prefix_overlay_of_common {l m L r : List Entry} (hl : r <+: l) (hr : r <+: L)
    (hm : m <+: L) : r <+: overlay l m := by
  unfold overlay
  split
  · exact hl
  next h =>
    rcases List.prefix_or_prefix_of_prefix hr hm with hrm | hmr
    · exact hrm
    · exact absurd (hmr.trans hl) h

theorem Numbered.overlay {l m : List Entry} (hl : Numbered l) (hm : Numbered m) :
    Numbered (overlay l m) := by
  unfold Raft.overlay
  split
  · exact hl
  · exact hm

/-- Entries of the two lists at one place are equal if their terms are. -/
def SameByTerm (l m : List Entry) : Prop :=
  ∀ (k : Nat) (x y : Entry), l[k]? = some x → m[k]? = some y → x.term = y.term → x = y

theorem sameByTerm_take (m : List Entry) (j : Nat) : SameByTerm (m.take j) m := by
  intro k x y hx hy _
  have hk : k < j := by
    have := (List.getElem?_eq_some_iff.1 hx).1
    rw [List.length_take] at this
    omega
  rw [List.getElem?_take_of_lt hk, hy] at hx
  exact (Option.some.inj hx).symm

/-- A common beginning goes on as long as the entries agree. -/
theorem take_succ_isPrefix {l m : List Entry} {j : Nat} {e : Entry} (h : m.take j <+: l)
    (hm : m[j]? = some e) (hl : l[j]? = some e) : m.take (j + 1) <+: l := by
  obtain ⟨hj, rfl⟩ := List.getElem?_eq_some_iff.1 hm
  refine List.prefix_iff_getElem?.2 fun k hk => ?_
  rw [List.length_take] at hk
  rw [List.getElem_take]
  rcases Nat.lt_or_ge k j with hlt | hge
  · have := List.prefix_iff_getElem?.1 h k (by rw [List.length_take]; omega)
    rwa [List.getElem_take] at this
  · obtain rfl : k = j := by omega
    exact hl

namespace Log

theorem splice_nil (prev after : Nat) (live : List Entry) : splice prev after live [] = live := by
  rw [splice.eq_def]

/-! ### One entry of a batch -/

/-- What becomes of an entry that is run along live entries. -/
inductive Lands (prev after : Nat) (live : List Entry) (e : Entry) : Prop
  /-- It is skipped, or there already. -/
  | passed (h : e.index ≤ prev ∨ e.index ≤ after ∨
      ∃ old, live[e.index - prev - 1]? = some old ∧ old.term = e.term)
  /-- It takes its place behind the first `j`, and whatever was there is cut off. -/
  | placed (j : Nat) (hindex : e.index = prev + 1 + j) (hafter : after < e.index)
    (hj : j ≤ live.length) (hterm : ∀ old, live[j]? = some old → old.term ≠ e.term)
  /-- It lies beyond the end by more than one place, and the run ends. -/
  | missed (hindex : prev + 1 + live.length < e.index) (hafter : after < e.index)

theorem lands (prev after : Nat) (live : List Entry) (e : Entry) : Lands prev after live e := by
  by_cases hskip : e.index ≤ prev ∨ e.index ≤ after
  · exact .passed (hskip.imp_right .inl)
  cases hold : live[e.index - prev - 1]? with
  | some old =>
    have hlt := (List.getElem?_eq_some_iff.1 hold).1
    by_cases hterm : old.term = e.term
    · exact .passed (.inr (.inr ⟨old, hold, hterm⟩))
    · refine .placed (e.index - prev - 1) (by omega) (by omega) (Nat.le_of_lt hlt) ?_
      intro old' hold'
      rwa [← Option.some.inj (hold.symm.trans hold')]
  | none =>
    have hle := List.getElem?_eq_none_iff.1 hold
    rcases Nat.eq_or_lt_of_le hle with hend | hgap
    · refine .placed (e.index - prev - 1) (by omega) (by omega) (by omega) ?_
      intro old hold'
      cases hold.symm.trans hold'
    · exact .missed (by omega) (by omega)

section Lands

variable {prev after c j : Nat} {live rest : List Entry} {e : Entry}

theorem splice_passed (h : e.index ≤ prev ∨ e.index ≤ after ∨
      ∃ old, live[e.index - prev - 1]? = some old ∧ old.term = e.term) :
    splice prev after live (e :: rest) = splice prev after live rest := by
  rw [splice]
  split
  next => rfl
  next hlive =>
    rcases h with h | h | ⟨old, hold, hterm⟩
    · exact absurd (.inl h) hlive
    · exact absurd (.inr h) hlive
    · rw [hold]
      exact if_pos hterm

theorem splice_placed (hindex : e.index = prev + 1 + j) (hafter : after < e.index)
    (hj : j ≤ live.length) (hterm : ∀ old, live[j]? = some old → old.term ≠ e.term) :
    splice prev after live (e :: rest) = splice prev after (live.take j ++ [e]) rest := by
  have hplace : e.index - prev - 1 = j := by omega
  rw [splice, if_neg (by omega), hplace]
  cases hold : live[j]? with
  | some old => exact if_neg (hterm old hold)
  | none =>
    have hend : j = live.length := Nat.le_antisymm hj (List.getElem?_eq_none_iff.1 hold)
    rw [hend, List.take_length]
    exact if_pos rfl

theorem splice_missed (hindex : prev + 1 + live.length < e.index) (hafter : after < e.index) :
    splice prev after live (e :: rest) = live := by
  rw [splice, if_neg (by omega), List.getElem?_eq_none (by omega)]
  exact if_neg (by omega)

theorem spliceLapses_passed (h : e.index ≤ prev ∨ e.index ≤ after ∨
      ∃ old, live[e.index - prev - 1]? = some old ∧ old.term = e.term) :
    spliceLapses prev after c live (e :: rest) = spliceLapses prev after c live rest := by
  rw [spliceLapses]
  split
  next => rfl
  next hlive =>
    rcases h with h | h | ⟨old, hold, hterm⟩
    · exact absurd (.inl h) hlive
    · exact absurd (.inr h) hlive
    · rw [hold]
      exact if_pos hterm

/-- An entry that takes its place cuts off nothing up to position `c` if it lies behind, or at the
end. -/
theorem spliceLapses_placed (hindex : e.index = prev + 1 + j) (hafter : after < e.index)
    (hj : j ≤ live.length) (hterm : ∀ old, live[j]? = some old → old.term ≠ e.term) :
    spliceLapses prev after c live (e :: rest) = [] ↔
      (j < live.length → c < e.index) ∧
        spliceLapses prev after c (live.take j ++ [e]) rest = [] := by
  have hplace : e.index - prev - 1 = j := by omega
  rw [spliceLapses, if_neg (by omega), hplace]
  cases hold : live[j]? with
  | some old =>
    have hlt := (List.getElem?_eq_some_iff.1 hold).1
    simp only [if_neg (hterm old hold), List.append_eq_nil_iff]
    refine and_congr_left fun _ => ⟨fun hcut _ => ?_, fun hcut => if_pos (hcut hlt)⟩
    refine Decidable.byContradiction fun hle => ?_
    rw [if_neg hle] at hcut
    cases hcut
  | none =>
    have hend : j = live.length := Nat.le_antisymm hj (List.getElem?_eq_none_iff.1 hold)
    rw [hend, List.take_length]
    simp

/-- If nothing up to position `c` is cut off, every place lies behind it. -/
theorem behind_of_placed (hindex : e.index = prev + 1 + j) (hafter : after < e.index)
    (hj : j ≤ live.length) (hterm : ∀ old, live[j]? = some old → old.term ≠ e.term)
    (hc : c ≤ prev + live.length) (h : spliceLapses prev after c live (e :: rest) = []) :
    c - prev ≤ j ∧ spliceLapses prev after c (live.take j ++ [e]) rest = [] := by
  obtain ⟨hcut, hrest⟩ := (spliceLapses_placed hindex hafter hj hterm).1 h
  refine ⟨?_, hrest⟩
  rcases Nat.eq_or_lt_of_le hj with hend | hlt
  · omega
  · have hlt := hcut hlt
    omega

theorem spliceLapses_missed (hindex : prev + 1 + live.length < e.index) (hafter : after < e.index) :
    spliceLapses prev after c live (e :: rest) = [] := by
  rw [spliceLapses, if_neg (by omega), List.getElem?_eq_none (by omega)]
  exact if_neg (by omega)

end Lands

variable {l m : List Entry} {prev after : Nat}

/-- The part of a batch inside the snapshot is skipped. -/
theorem splice_drop_of_le (hm : Numbered m) (live : List Entry) {j : Nat} (hj : j ≤ prev) :
    splice prev after live (m.drop j) = splice prev after live (m.drop prev) := by
  induction hn : prev - j generalizing j with
  | zero => rw [show j = prev by omega]
  | succ n ih =>
    rcases Nat.lt_or_ge j m.length with hlt | hge
    · have hi := hm j m[j] (List.getElem?_eq_getElem hlt)
      rw [List.drop_eq_getElem_cons hlt, splice_passed (Or.inl (by omega))]
      exact ih (by omega) (by omega)
    · rw [List.drop_eq_nil_of_le hge, List.drop_eq_nil_of_le (by omega)]

theorem overlay_take_self (m : List Entry) (j : Nat) : overlay (m.take j) m = m := by
  unfold overlay
  split
  next h => exact List.IsPrefix.eq_of_length_le (List.take_prefix ..) h.length_le
  next => rfl

/-- What live entries become where they end or disagree with the leader's next one. -/
theorem take_drop_append {j : Nat} (h : m.take j <+: l) (hj : j < m.length) (hp : prev ≤ j) :
    (l.drop prev).take (j - prev) ++ [m[j]] = (m.take (j + 1)).drop prev := by
  have htake : l.take j = m.take j := by
    have hsame := List.prefix_iff_eq_take.1 h
    rw [List.length_take, Nat.min_eq_left (Nat.le_of_lt hj)] at hsame
    exact hsame.symm
  rw [← List.drop_take, htake, List.take_add_one, List.getElem?_eq_getElem hj, Option.toList_some,
    List.drop_append_of_le_length (by rw [List.length_take]; omega)]

/-- The batch from a place on up to which the logs agree. The first disagreement puts the leader's
entries in place of the own ones, and from there on the two agree. -/
theorem splice_drop (hm : Numbered m) (hs : SameByTerm l m) {j : Nat} (hp : prev ≤ j)
    (ha : after ≤ j) (h : m.take j <+: l) :
    splice prev after (l.drop prev) (m.drop j) = (overlay l m).drop prev := by
  induction hn : m.length - j generalizing j l with
  | zero =>
    have hj : m.length ≤ j := by omega
    rw [List.drop_eq_nil_of_le hj, splice_nil]
    rw [List.take_of_length_le hj] at h
    rw [overlay_eq_left h]
  | succ n ih =>
    have hj : j < m.length := by omega
    have hgm : m[j]? = some m[j] := List.getElem?_eq_getElem hj
    have hi := hm j m[j] hgm
    have hlen : j ≤ l.length := by
      have := h.length_le
      rw [List.length_take] at this
      omega
    -- once the next entry is the leader's own, all that follows is
    have hnext : splice prev after ((m.take (j + 1)).drop prev) (m.drop (j + 1)) =
        m.drop prev := by
      rw [ih (sameByTerm_take m (j + 1)) (by omega) (by omega) List.prefix_rfl (by omega),
        overlay_take_self]
    rw [List.drop_eq_getElem_cons hj]
    rcases lands prev after (l.drop prev) m[j] with
      hpass | ⟨k, hindex, hafter, hk, hterm⟩ | ⟨hindex, -⟩
    · obtain ⟨old, hold, ht⟩ : ∃ old, l[j]? = some old ∧ old.term = m[j].term := by
        rcases hpass with hle | hle | ⟨old, hold, ht⟩
        · omega
        · omega
        · rw [hi, List.getElem?_drop, show prev + (j + 1 - prev - 1) = j by omega] at hold
          exact ⟨old, hold, ht⟩
      obtain rfl := hs j old m[j] hold hgm ht
      have hleft : m.length - (j + 1) = n := by clear hpass; omega
      rw [splice_passed hpass]
      exact ih hs (Nat.le_succ_of_le hp) (Nat.le_succ_of_le ha)
        (take_succ_isPrefix h hgm hold) hleft
    · obtain rfl : k = j - prev := by omega
      rw [splice_placed hindex hafter hk hterm, take_drop_append h hj hp, hnext, overlay_eq_right]
      intro hml
      have hown := List.prefix_iff_getElem?.1 hml j hj
      refine hterm m[j] ?_ rfl
      rw [List.getElem?_drop, show prev + (j - prev) = j by omega, hown]
    · rw [List.length_drop] at hindex
      omega

@[simp] theorem merge_nil (log : Log) (after : Nat) : log.merge [] after = log :=
  if_neg Bool.noConfusion

@[simp] theorem prevIndex_merge (log : Log) (batch : List Entry) (after : Nat) :
    (log.merge batch after).prevIndex = log.prevIndex := by
  unfold merge
  split <;> rfl

@[simp] theorem committed_merge (log : Log) (batch : List Entry) (after : Nat) :
    (log.merge batch after).committed = log.committed := by
  unfold merge
  split <;> rfl

@[simp] theorem snapshot_merge (log : Log) (batch : List Entry) (after : Nat) :
    (log.merge batch after).snapshot = log.snapshot := by
  unfold merge
  split <;> rfl

@[simp] theorem prevTerm_merge (log : Log) (batch : List Entry) (after : Nat) :
    (log.merge batch after).prevTerm = log.prevTerm := by
  rw [prevTerm, snapshot_merge, prevTerm]

namespace Abridges

variable {log : Log}

/-- A batch that brings nothing new is on the log already. -/
theorem prefix_of_lacks_eq_false (h : log.Abridges l) (hm : Numbered m) (hs : SameByTerm l m)
    (hagree : m.take (max after log.prevIndex) <+: l) (hl : log.lacks (m.drop after) = false) :
    m <+: l := by
  refine List.prefix_iff_getElem?.2 fun k hk => ?_
  rcases Nat.lt_or_ge k (max after log.prevIndex) with hlt | hge
  · have := List.prefix_iff_getElem?.1 hagree k (by rw [List.length_take]; omega)
    rwa [List.getElem_take] at this
  · have hgm : m[k]? = some m[k] := List.getElem?_eq_getElem hk
    have hi := hm k m[k] hgm
    have hmem : m[k] ∈ m.drop after := by
      refine List.mem_iff_getElem?.2 ⟨k - after, ?_⟩
      rw [List.getElem?_drop, show after + (k - after) = k by omega, hgm]
    have ht := List.any_eq_false.1 hl m[k] hmem
    simp only [decide_eq_true_eq, not_and, Decidable.not_not] at ht
    have := h.termIn?_of_termAt? (ht (by omega))
    rw [hi, termIn?_succ] at this
    obtain ⟨x, hx, hxt⟩ := Option.map_eq_some_iff.1 this
    rw [hx, hs k x m[k] hx hgm hxt]

theorem entries_merge (h : log.Abridges l) (hm : Numbered m) (hs : SameByTerm l m)
    (hagree : m.take (max after log.prevIndex) <+: l) :
    (log.merge (m.drop after) after).entries = (overlay l m).drop log.prevIndex := by
  unfold Log.merge
  split
  next =>
    show splice log.prevIndex after log.entries (m.drop after) = _
    rw [h.live]
    rcases Nat.le_total log.prevIndex after with hle | hle
    · rw [Nat.max_eq_left hle] at hagree
      exact splice_drop hm hs hle (Nat.le_refl _) hagree
    · rw [Nat.max_eq_right hle] at hagree
      rw [splice_drop_of_le hm _ hle]
      exact splice_drop hm hs (Nat.le_refl _) hle hagree
  next hl =>
    rw [overlay_eq_left (h.prefix_of_lacks_eq_false hm hs hagree (by simpa using hl)), h.live]

/-- Another list takes the place of `l` if the two agree on what is committed. -/
theorem replace (h : log.Abridges l) {log' : Log} {l' : List Entry} (hl' : Numbered l')
    (hc : l.take log.committed <+: l') (hsnap : log'.snapshot = log.snapshot)
    (hcom : log'.committed = log.committed) (he : log'.entries = l'.drop log'.prevIndex) :
    log'.Abridges l' where
  numbered := hl'
  live := he
  prevIndex_le := by
    have : log'.prevIndex = log.prevIndex := by rw [prevIndex, prevIndex, hsnap]
    rw [this, hcom]
    exact h.prevIndex_le
  committed_le := by
    have := hc.length_le
    rwa [List.length_take, Nat.min_eq_left h.committed_le, ← hcom] at this
  boundary s hs := by
    rw [hsnap] at hs
    obtain ⟨hpos, ht⟩ := h.boundary s hs
    have hle : s.about.index ≤ (l.take log.committed).length := by
      rw [List.length_take, Nat.min_eq_left h.committed_le]
      simpa only [prevIndex, hs] using h.prevIndex_le
    exact ⟨hpos, by rw [termIn?_of_isPrefix hc hle,
      ← termIn?_of_isPrefix (List.take_prefix log.committed l) hle, ht]⟩

/-- Merging a leader's batch into a log that agrees with the leader's up to the batch and up to
the snapshot. -/
theorem merge (h : log.Abridges l) (hm : Numbered m) (hs : SameByTerm l m)
    (hagree : m.take (max after log.prevIndex) <+: l) (hc : l.take log.committed <+: overlay l m) :
    (log.merge (m.drop after) after).Abridges (overlay l m) :=
  h.replace (h.numbered.overlay hm) hc (snapshot_merge ..) (committed_merge ..)
    (by rw [h.entries_merge hm hs hagree, prevIndex_merge])

/-- Installing a leader's snapshot, which stands for the entries `m`. -/
theorem install (h : log.Abridges l) (hm : Numbered m) {s : Snapshot}
    (hlen : m.length = s.about.index) (ht : termIn? m s.about.index = some s.about.term)
    (hmatch : termIn? l s.about.index = some s.about.term → m <+: l)
    (hc : log.committed < s.about.index) : (log.compact s).Abridges (overlay l m) := by
  have hp := h.prevIndex_le
  have hpos : 0 < s.about.index := by omega
  by_cases hl : termIn? l s.about.index = some s.about.term
  · rw [overlay_eq_left (hmatch hl)]
    exact h.compact hpos hl
  · have hnot : ¬ m <+: l := fun hml => hl (by rw [termIn?_of_isPrefix hml (by omega), ht])
    rw [overlay_eq_right hnot, Log.compact, if_neg (by omega)]
    refine of_snapshot hm hpos ht ?_ (by omega)
    rw [if_neg (by rwa [h.termAt?_eq_of_le (by omega)]), List.drop_eq_nil_of_le (by omega)]

end Abridges

theorem committed_compact_of_lt {log : Log} {s : Snapshot} (hp : log.prevIndex ≤ log.committed)
    (hs : log.committed < s.about.index) : (log.compact s).committed = s.about.index := by
  rw [compact, if_neg (by omega)]
  exact Nat.max_eq_right (Nat.le_of_lt hs)

end Log

end Raft
