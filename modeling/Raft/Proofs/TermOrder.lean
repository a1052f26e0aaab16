import Mathlib.Data.List.Pairwise
import Raft.Proofs.Amending
import Raft.Proofs.Stages

/-!
# The terms along a log

The terms in a log do not decrease, from the boundary of the snapshot to the last entry, and the
last one is not above the current term of the node. Votes and the matching of logs rest on it.

* `Log.terms`, the terms along a log, and what becomes of them when the log is changed;
* `Log.IsFitting`, a batch that keeps them in order, and `Log.renews_splice`, why it does;
* `Log.InOrder`, a log whose terms are in order, and `Log.IsWithin`, where the last one may be;
* `Node.InOrder`, the same for a node with its term, kept by every stage (`Turn.Amends.inOrder`);
* `Life.terms_inOrder`, for all moments in the life of a node.

A node that starts from a snapshot starts in term 0, below that of the snapshot. So it must not come
to lead before it has heard of a term that is not below (`Life.IsFitting.leads`), and
`Life.not_terms_inOrder_early` is a node that does. And a snapshot that is taken of nothing must not
have a term (`Life.IsFitting.grounded`), see `Life.not_terms_inOrder_rootless`.
-/

namespace Raft

namespace Log

/-- The terms along a log: that of the snapshot's boundary, then those of the live entries. -/
def terms (log : Log) : List Nat := log.prevTerm :: log.entries.map (·.term)

variable {log : Log}

theorem getLast?_terms (log : Log) : log.terms.getLast? = some log.lastTerm := by
  unfold terms lastTerm
  cases he : log.entries.getLast? with
  | none =>
    rw [List.getLast?_eq_none_iff] at he
    rw [he]
    rfl
  | some e => rw [List.getLast?_cons, List.getLast?_map, he]; rfl

theorem lastTerm_eq {t : Nat} (h : log.terms.getLast? = some t) : log.lastTerm = t :=
  Option.some.inj (log.getLast?_terms.symm.trans h)

theorem terms_eq_singleton (h : log.entries = []) : log.terms = [log.prevTerm] := by
  rw [terms, h]
  rfl

theorem lastTerm_eq_prevTerm (h : log.entries = []) : log.lastTerm = log.prevTerm :=
  lastTerm_eq (by rw [terms_eq_singleton h]; rfl)

@[simp] theorem terms_append (log : Log) (e : Entry) :
    (log.append e).terms = log.terms ++ [e.term] := by
  simp [terms, append, prevTerm]

@[simp] theorem terms_commit (log : Log) (i : Nat) : (log.commit i).terms = log.terms := rfl

/-- Nothing lies before the first entry, so it has no term. -/
def IsGrounded (log : Log) : Prop := log.prevIndex = 0 → log.prevTerm = 0

/-- From the boundary on the terms are known by their positions. -/
theorem termAt?_eq_terms (h : log.IsGrounded) {i : Nat} (hi : log.prevIndex ≤ i) :
    log.termAt? i = log.terms[i - log.prevIndex]? := by
  unfold termAt? terms
  by_cases hzero : i = 0
  · obtain rfl := hzero
    have hprev : log.prevIndex = 0 := Nat.le_zero.1 hi
    rw [if_pos rfl, Nat.zero_sub, List.getElem?_cons_zero, h hprev]
  · rw [if_neg hzero]
    by_cases heq : i = log.prevIndex
    · have hsome : log.snapshot.isSome = true := by
        unfold prevIndex at heq
        cases hs : log.snapshot with
        | none =>
          rw [hs] at heq
          exact absurd heq hzero
        | some s => rfl
      rw [if_pos ⟨hsome, heq⟩, heq, Nat.sub_self, List.getElem?_cons_zero]
    · have hpos : i - log.prevIndex = (i - log.prevIndex - 1) + 1 := by omega
      rw [if_neg fun h => heq h.2, get?, if_neg (by omega), hpos, List.getElem?_cons_succ,
        List.getElem?_map]
      rfl

/-- What a compaction leaves: all, or what stands behind a boundary that fits, or nothing. -/
theorem compact_cases (h : log.Contiguous) (hground : log.IsGrounded) (s : Snapshot) :
    log.compact s = log ∨
    (¬ (log.snapshot.isSome ∧ s.about.index ≤ log.prevIndex) ∧
      (log.compact s).snapshot = some s ∧
      ((log.terms[s.about.index - log.prevIndex]? = some s.about.term ∧
          (log.compact s).terms = log.terms.drop (s.about.index - log.prevIndex)) ∨
        (log.termAt? s.about.index ≠ some s.about.term ∧ (log.compact s).entries = [] ∧
          (log.compact s).terms = [s.about.term]))) := by
  unfold compact
  split
  next => exact .inl rfl
  next hnew =>
    have hle := log.prevIndex_le_of_not hnew
    refine .inr ⟨hnew, rfl, ?_⟩
    split
    next hterm =>
      have hknown := termAt?_eq_terms hground hle ▸ hterm
      refine .inl ⟨hknown, ?_⟩
      obtain ⟨hlt, hget⟩ := List.getElem?_eq_some_iff.1 hknown
      rw [List.drop_eq_getElem_cons hlt, hget]
      show s.about.term :: (log.entries.filter _).map _ = _
      rw [h.filter_lt, List.map_drop]
      rfl
    next hterm => exact .inr ⟨hterm, rfl, rfl⟩

/-! ### Merging a batch -/

/-- A batch behind position `prev` that keeps the terms of a log in order: its entries are numbered
from there on, their terms do not decrease from `prevTerm`, they are not above `term`, and where the
log is committed already they are the same. -/
structure IsFitting (log : Log) (term prevTerm prev : Nat) (batch : List Entry) : Prop where
  numbered : ∀ k e, batch[k]? = some e → e.index = prev + 1 + k
  ordered : (prevTerm :: batch.map (·.term)).Pairwise (· ≤ ·)
  bounded : ∀ e ∈ batch, e.term ≤ term
  agrees : ∀ e ∈ batch, e.index ≤ log.committed → ∀ t, log.termAt? e.index = some t → t = e.term

/-- A single entry fits behind what is committed, if its term is between the two. -/
theorem isFitting_singleton {term prevTerm prev : Nat} {e : Entry} (hindex : e.index = prev + 1)
    (hprev : prevTerm ≤ e.term) (hterm : e.term ≤ term) (hlog : log.committed ≤ prev) :
    log.IsFitting term prevTerm prev [e] where
  numbered k f hf := by
    match k with
    | 0 =>
      cases hf
      exact hindex
    | k + 1 => cases hf
  ordered := by simpa using hprev
  bounded f hf := by rwa [List.mem_singleton.1 hf]
  agrees f hf hle := by
    obtain rfl := List.mem_singleton.1 hf
    omega

/-- In an ascending list nothing is above the last entry. -/
theorem le_of_getLast? {l : List Nat} {p x : Nat} (h : l.Pairwise (· ≤ ·))
    (hp : l.getLast? = some p) (hx : x ∈ l) : x ≤ p := by
  have hlast := List.getLast?_eq_some_getLast (List.ne_nil_of_mem hx)
  rw [Option.some.inj (hp.symm.trans hlast)]
  exact h.rel_getLast hx

/-- Adding something that is not below the last one to an ascending list. -/
theorem pairwise_append_singleton {l : List Nat} {p q : Nat} (h : l.Pairwise (· ≤ ·))
    (hp : l.getLast? = some p) (hpq : p ≤ q) : (l ++ [q]).Pairwise (· ≤ ·) := by
  refine List.pairwise_append.2 ⟨h, List.pairwise_singleton .., fun x hx y hy => ?_⟩
  rw [List.mem_singleton.1 hy]
  exact Nat.le_trans (le_of_getLast? h hp hx) hpq

/-- The terms `b` are in order, and up to place `m` they are the terms `a`. -/
def Renews (m : Nat) (a b : List Nat) : Prop :=
  b.Pairwise (· ≤ ·) ∧ ∀ k ≤ m, ∀ t, a[k]? = some t → b[k]? = some t

theorem Renews.refl {m : Nat} {a : List Nat} (h : a.Pairwise (· ≤ ·)) : Renews m a a :=
  ⟨h, fun _ _ _ ht => ht⟩

theorem Renews.trans {m : Nat} {a b c : List Nat} (h : Renews m a b) (h' : Renews m b c) :
    Renews m a c := ⟨h'.1, fun k hk t ht => h'.2 k hk t (h.2 k hk t ht)⟩

/-- Terms in order are cut behind `p`, which is not before place `m`, and `q` takes the next
place. -/
theorem renews_put {m k p q : Nat} {a : List Nat} (h : a.Pairwise (· ≤ ·)) (hp : a[k]? = some p)
    (hpq : p ≤ q) (hm : m ≤ k ∨ a.length ≤ k + 1) : Renews m a (a.take (k + 1) ++ [q]) := by
  have hlast : (a.take (k + 1)).getLast? = some p := by
    rw [List.take_add_one, hp]
    simp
  refine ⟨pairwise_append_singleton (h.sublist (List.take_sublist ..)) hlast hpq,
    fun j hj t ht => ?_⟩
  have hlt := (List.getElem?_eq_some_iff.1 ht).1
  have hjk : j < k + 1 := by omega
  rw [List.getElem?_append_left (by rw [List.length_take]; omega), List.getElem?_take_of_lt hjk]
  exact ht

/-- The same for live entries behind a boundary of term `p₀`, and what becomes of the places. -/
theorem renews_take_append {m k p p₀ : Nat} {live : List Entry} {e : Entry}
    (hlive : (p₀ :: live.map (·.term)).Pairwise (· ≤ ·))
    (hp : (p₀ :: live.map (·.term))[k]? = some p) (hpe : p ≤ e.term)
    (hm : m ≤ k ∨ live.length ≤ k) :
    Renews m (p₀ :: live.map (·.term)) (p₀ :: (live.take k ++ [e]).map (·.term)) ∧
      (p₀ :: (live.take k ++ [e]).map (·.term)).length = k + 2 ∧
      (p₀ :: (live.take k ++ [e]).map (·.term))[k + 1]? = some e.term := by
  have hlt : k < live.length + 1 := by simpa using (List.getElem?_eq_some_iff.1 hp).1
  have hterms : p₀ :: (live.take k ++ [e]).map (·.term) =
      (p₀ :: live.map (·.term)).take (k + 1) ++ [e.term] := by
    simp [List.map_take]
  have hlength : ((p₀ :: live.map (·.term)).take (k + 1)).length = k + 1 := by
    simp
    omega
  rw [hterms]
  refine ⟨renews_put hlive hp hpe (hm.imp_right fun hle => by simpa using hle), ?_, ?_⟩
  · rw [List.length_append, hlength, List.length_singleton]
  · rw [List.getElem?_append_right (Nat.le_of_eq hlength), hlength, Nat.sub_self]
    rfl

section Splice

variable {prev after c p₀ : Nat}

/-- Running a batch along live entries keeps the terms in order, and those up to position `c` as
they are, if it agrees with them. The batch begins at position `x`, and `p` is the term before
it. -/
theorem renews_splice {live batch : List Entry} {x p : Nat} (hafter : after < x) (hc : prev ≤ c)
    (hlive : (p₀ :: live.map (·.term)).Pairwise (· ≤ ·))
    (hnumbered : ∀ k e, batch[k]? = some e → e.index = x + k)
    (hbatch : (p :: batch.map (·.term)).Pairwise (· ≤ ·))
    (hat : x ≤ prev ∨ (p₀ :: live.map (·.term))[x - prev - 1]? = some p)
    (hagrees : ∀ e ∈ batch, prev ≤ e.index → e.index ≤ c → ∀ t,
      (p₀ :: live.map (·.term))[e.index - prev]? = some t → t = e.term) :
    Renews (c - prev) (p₀ :: live.map (·.term))
      (p₀ :: (splice prev after live batch).map (·.term)) := by
  induction batch generalizing live x p with
  | nil =>
    rw [splice_nil]
    exact .refl hlive
  | cons e rest ih =>
    have hx : e.index = x := hnumbered 0 e rfl
    have hnumbered' : ∀ k f, rest[k]? = some f → f.index = x + 1 + k := by
      intro k f hf
      have := hnumbered (k + 1) f hf
      omega
    rw [List.map_cons, List.pairwise_cons] at hbatch
    obtain ⟨hpe, hrest⟩ := hbatch
    have hpe : p ≤ e.term := hpe e.term (List.mem_cons_self ..)
    have hagrees' := fun f hf => hagrees f (List.mem_cons_of_mem _ hf)
    have hagree := hagrees e (List.mem_cons_self ..)
    have hterms : ∀ j, (p₀ :: live.map (·.term))[j + 1]? = live[j]?.map (·.term) := fun j => by
      rw [List.getElem?_cons_succ, List.getElem?_map]
    rcases lands prev after live e with hpass | ⟨j, hindex, hplace, hj, hterm⟩ | ⟨hindex, hplace⟩
    · rw [splice_passed hpass]
      refine ih (Nat.lt_succ_of_lt hafter) hlive hnumbered' hrest ?_ hagrees'
      rcases Nat.lt_trichotomy x prev with hlt | hboundary | hgt
      · exact .inl hlt
      · -- the entry stands at the boundary, where everything is committed
        clear hpass
        have hterm := hagree (by omega) (by omega) p₀ (by rw [hx, hboundary, Nat.sub_self]; rfl)
        refine .inr ?_
        rw [show x + 1 - prev - 1 = 0 by omega]
        exact congrArg some hterm
      · rcases hpass with hle | hle | ⟨old, hold, heq⟩
        · omega
        · omega
        · refine .inr ?_
          rw [show x + 1 - prev - 1 = (e.index - prev - 1) + 1 by omega, hterms, hold, ← heq]
          rfl
    · have hprev : (p₀ :: live.map (·.term))[j]? = some p := by
        rcases hat with hat | hat
        · omega
        · rwa [show x - prev - 1 = j by omega] at hat
      have hkept : c - prev ≤ j ∨ live.length ≤ j := by
        rcases Nat.eq_or_lt_of_le hj with hend | hlt
        · exact .inr (Nat.le_of_eq hend.symm)
        · have hold : live[j]? = some live[j] := List.getElem?_eq_getElem hlt
          have hbehind : c < e.index := Nat.lt_of_not_le fun hle =>
            hterm live[j] hold (hagree (by omega) hle live[j].term (by
              rw [show e.index - prev = j + 1 by omega, hterms, hold]
              rfl))
          exact .inl (by omega)
      obtain ⟨hrenews, hlength, hlast⟩ := renews_take_append hlive hprev hpe hkept
      rw [splice_placed hindex hplace hj hterm]
      refine hrenews.trans (ih (Nat.lt_succ_of_lt hafter) hrenews.1 hnumbered' hrest (.inr ?_) ?_)
      · rwa [show x + 1 - prev - 1 = j + 1 by omega]
      · -- no other entry of the batch has a place yet
        intro f hf _ _ t ht
        obtain ⟨k, hk⟩ := List.mem_iff_getElem?.1 hf
        have hbelow := hnumbered' k f hk
        have hbehind := (List.getElem?_eq_some_iff.1 ht).1
        rw [hlength] at hbehind
        omega
    · rw [splice_missed hindex hplace]
      exact .refl hlive

/-- A batch changes nothing, or one of its entries is the last one afterwards. -/
theorem splice_cases (live batch : List Entry) : splice prev after live batch = live ∨
    ∃ e ∈ batch, (splice prev after live batch).getLast? = some e := by
  induction batch generalizing live with
  | nil => exact .inl (splice_nil ..)
  | cons e rest ih =>
    have hmem : ∀ l, splice prev after l rest = l ∨
        ∃ f ∈ e :: rest, (splice prev after l rest).getLast? = some f := fun l =>
      (ih l).imp_right fun ⟨f, hf, hlast⟩ => ⟨f, List.mem_cons_of_mem _ hf, hlast⟩
    have hput : ∀ l, ∃ f ∈ e :: rest, (splice prev after (l ++ [e]) rest).getLast? = some f := by
      intro l
      rcases hmem (l ++ [e]) with heq | hlast
      · rw [heq]
        exact ⟨e, List.mem_cons_self .., List.getLast?_concat ..⟩
      · exact hlast
    rcases lands prev after live e with hpass | ⟨j, hindex, hafter, hj, hterm⟩ | ⟨hindex, hafter⟩
    · rw [splice_passed hpass]
      exact hmem live
    · rw [splice_placed hindex hafter hj hterm]
      exact .inr (hput _)
    · exact .inl (splice_missed hindex hafter)

end Splice

/-- Where a batch fits, the term before it is known, or lies within the snapshot. -/
theorem terms_of_matchesAt (hground : log.IsGrounded) {prevTerm prev : Nat}
    (h : log.matchesAt prevTerm prev = true) :
    prev + 1 ≤ log.prevIndex ∨ log.terms[prev - log.prevIndex]? = some prevTerm := by
  rcases Nat.lt_or_ge prev log.prevIndex with hlt | hge
  · exact .inl hlt
  · refine .inr ?_
    rw [← termAt?_eq_terms hground hge]
    unfold matchesAt at h
    split at h
    next hzero =>
      obtain rfl := hzero
      rw [termAt?, if_pos rfl, beq_iff_eq.1 h]
    next =>
      rw [if_neg (by omega)] at h
      exact beq_iff_eq.1 h

/-! ### Logs whose terms are in order -/

/-- A log whose terms are in order. -/
structure InOrder (log : Log) : Prop where
  anchored : log.Anchored
  grounded : log.IsGrounded
  ordered : log.terms.Pairwise (· ≤ ·)

/-- Whether what is recorded of a capture is still in the log, or compacted away. -/
def Covers (log : Log) (about : SnapshotMeta) : Prop :=
  about.index ≤ log.committed ∧ ((log.snapshot.isSome ∧ about.index ≤ log.prevIndex) ∨
    (log.prevIndex < about.index ∧ log.terms[about.index - log.prevIndex]? = some about.term))

/-- A log that takes the place of another one: its terms are in order, and it has all that was
recorded of captures. -/
def Continues (log log' : Log) : Prop :=
  log'.InOrder ∧ ∀ about, log.Covers about → log'.Covers about

namespace InOrder

theorem commit (h : log.InOrder) (i : Nat) : log.Continues (log.commit i) := by
  have hle : log.committed ≤ (log.commit i).committed := Nat.le_max_left ..
  refine ⟨⟨⟨h.anchored.contiguous.commit i, Nat.le_trans h.anchored.prevIndex_le hle⟩,
    h.grounded, h.ordered⟩, fun about habout => ⟨Nat.le_trans habout.1 hle, habout.2⟩⟩

theorem append (h : log.InOrder) {e : Entry} (hindex : e.index = log.nextIndex)
    (hterm : log.lastTerm ≤ e.term) : log.Continues (log.append e) := by
  refine ⟨⟨⟨h.anchored.contiguous.append hindex, h.anchored.prevIndex_le⟩, h.grounded, ?_⟩,
    fun about habout => ⟨habout.1, ?_⟩⟩
  · rw [terms_append]
    exact pairwise_append_singleton h.ordered log.getLast?_terms hterm
  · refine habout.2.imp_right fun ⟨hlt, hknown⟩ => ⟨hlt, ?_⟩
    rw [terms_append]
    exact (List.getElem?_append_left (List.getElem?_eq_some_iff.1 hknown).1).trans hknown

theorem merge (h : log.InOrder) {term prevTerm prev : Nat} {batch : List Entry}
    (hfits : log.IsFitting term prevTerm prev batch) (hprev : log.matchesAt prevTerm prev = true) :
    log.Continues (log.merge batch prev) := by
  have hprevIndex := h.anchored.prevIndex_le
  have hterms : Renews (log.committed - log.prevIndex) log.terms (log.merge batch prev).terms := by
    unfold Log.merge
    split
    next =>
      refine renews_splice (Nat.lt_succ_self prev) hprevIndex h.ordered hfits.numbered
        hfits.ordered ?_ fun e he hle hcommitted t ht => ?_
      · rw [show prev + 1 - log.prevIndex - 1 = prev - log.prevIndex by omega]
        exact terms_of_matchesAt h.grounded hprev
      · exact hfits.agrees e he hcommitted t ((termAt?_eq_terms h.grounded hle).trans ht)
    next => exact .refl h.ordered
  refine ⟨⟨⟨h.anchored.contiguous.merge batch prev, ?_⟩, ?_, hterms.1⟩, fun about habout => ?_⟩
  · rw [prevIndex_merge, committed_merge]
    exact hprevIndex
  · unfold IsGrounded
    rw [prevIndex_merge, prevTerm_merge]
    exact h.grounded
  · unfold Covers
    rw [prevIndex_merge, committed_merge, snapshot_merge]
    have hplace := Nat.sub_le_sub_right habout.1 log.prevIndex
    exact ⟨habout.1, habout.2.imp_right fun ⟨hlt, hknown⟩ =>
      ⟨hlt, hterms.2 _ hplace _ hknown⟩⟩

/-- A snapshot that is installed, or one of the node's own. -/
theorem compact (h : log.InOrder) {s : Snapshot}
    (hs : log.committed < s.about.index ∨ log.Covers s.about) :
    log.Continues (log.compact s) := by
  have hprev := h.anchored.prevIndex_le
  rcases compact_cases h.anchored.contiguous h.grounded s with heq | ⟨hnew, hsnapshot, hkept⟩
  · rw [heq]
    exact ⟨h, fun _ habout => habout⟩
  have hprevIndex : (log.compact s).prevIndex = s.about.index := by rw [prevIndex, hsnapshot]
  have hlt : log.prevIndex < s.about.index := by
    rcases hs with hs | ⟨-, hold | ⟨hlt, -⟩⟩
    · omega
    · exact absurd hold hnew
    · exact hlt
  refine ⟨⟨h.anchored.compact s, fun hzero => ?_, ?_⟩, fun about habout => ⟨?_, ?_⟩⟩
  · omega
  · rcases hkept with ⟨-, hterms⟩ | ⟨-, -, hterms⟩ <;> rw [hterms]
    · exact h.ordered.sublist (List.drop_sublist ..)
    · exact List.pairwise_singleton ..
  · refine Nat.le_trans habout.1 ?_
    rw [Log.compact, if_neg hnew]
    exact Nat.le_max_left ..
  · rw [hprevIndex, hsnapshot]
    rcases Nat.lt_or_ge s.about.index about.index with hbehind | hbefore
    · -- only a snapshot of the node's own leaves anything committed behind it
      obtain ⟨hcommitted, habout⟩ := habout
      have hknown : log.terms[s.about.index - log.prevIndex]? = some s.about.term := by
        rcases hs with hs | ⟨-, hold | ⟨-, hknown⟩⟩
        · omega
        · exact absurd hold hnew
        · exact hknown
      have hterms : (log.compact s).terms = log.terms.drop (s.about.index - log.prevIndex) := by
        rcases hkept with ⟨-, hterms⟩ | ⟨hne, -⟩
        · exact hterms
        · exact absurd ((termAt?_eq_terms h.grounded (Nat.le_of_lt hlt)).trans hknown) hne
      refine .inr ⟨hbehind, ?_⟩
      rw [hterms, List.getElem?_drop, show s.about.index - log.prevIndex +
        (about.index - s.about.index) = about.index - log.prevIndex by omega]
      rcases habout with ⟨-, hle⟩ | ⟨-, hknown⟩
      · omega
      · exact hknown
    · exact .inl ⟨rfl, hbefore⟩

/-- What is recorded of a capture that is not compacted away yet is not above the last term. -/
theorem term_le_of_covers (h : log.InOrder) {about : SnapshotMeta} (habout : log.Covers about)
    (hnew : ¬ (log.snapshot.isSome ∧ about.index ≤ log.prevIndex)) :
    log.entries ≠ [] ∧ about.term ≤ log.lastTerm := by
  obtain ⟨hlt, hknown⟩ := habout.2.resolve_left hnew
  constructor
  · intro hentries
    have hlength := (List.getElem?_eq_some_iff.1 hknown).1
    rw [terms_eq_singleton hentries, List.length_singleton] at hlength
    omega
  · exact le_of_getLast? h.ordered log.getLast?_terms (List.mem_of_getElem? hknown)

end InOrder

theorem Continues.trans {log' log'' : Log} (h : log.Continues log') (h' : log'.Continues log'') :
    log.Continues log'' := ⟨h'.1, fun about habout => h'.2 about (h.2 about habout)⟩

/-! ### The last term -/

theorem lastTerm_append (log : Log) (e : Entry) : (log.append e).lastTerm = e.term :=
  lastTerm_eq (by rw [terms_append, List.getLast?_concat])

/-- The last term after a batch is that of one of its entries, unless it has changed nothing. -/
theorem merge_cases (log : Log) (batch : List Entry) (after : Nat) :
    log.merge batch after = log ∨ ∃ e ∈ batch, (log.merge batch after).lastTerm = e.term := by
  unfold merge
  split
  next =>
    rcases @splice_cases log.prevIndex after log.entries batch with heq | ⟨e, he, hlast⟩
    · rw [heq]
      exact .inl rfl
    · refine .inr ⟨e, he, ?_⟩
      rw [lastTerm, hlast]
  next => exact .inl rfl

/-- The last term after a compaction is what it was, or that of the snapshot. -/
theorem lastTerm_compact (h : log.InOrder) (s : Snapshot) : log.compact s = log ∨
    (log.compact s).lastTerm = s.about.term ∨
      (log.entries ≠ [] ∧ (log.compact s).lastTerm = log.lastTerm) := by
  rcases compact_cases h.anchored.contiguous h.grounded s with
    heq | ⟨-, -, ⟨hknown, hterms⟩ | ⟨-, -, hterms⟩⟩
  · exact .inl heq
  · obtain ⟨hlt, hget⟩ := List.getElem?_eq_some_iff.1 hknown
    have hlast : (log.compact s).lastTerm = log.lastTerm := lastTerm_eq (by
      rw [hterms, List.getLast?_drop, if_neg (Nat.not_le.2 hlt), getLast?_terms])
    by_cases hentries : log.entries = []
    · refine .inr (.inl ?_)
      rw [hlast, lastTerm_eq_prevTerm hentries, ← hget]
      simp [terms_eq_singleton hentries]
    · exact .inr (.inr ⟨hentries, hlast⟩)
  · exact .inr (.inl (lastTerm_eq (by rw [hterms]; rfl)))

/-- The last term is not above `term`, unless there is nothing but the snapshot that `base` has. -/
def IsWithin (log base : Log) (term : Nat) : Prop :=
  log.lastTerm ≤ term ∨ (log.entries = [] ∧ log.snapshot = base.snapshot)

namespace IsWithin

variable {base : Log} {term : Nat}

theorem mono {term' : Nat} (h : log.IsWithin base term) (hle : term ≤ term') :
    log.IsWithin base term' := h.imp_left fun hlast => Nat.le_trans hlast hle

theorem lastTerm_le_of_ne (h : log.IsWithin base term) (hentries : log.entries ≠ []) :
    log.lastTerm ≤ term := h.resolve_right fun hnone => hentries hnone.1

theorem lastTerm_le (h : log.IsWithin base term) (hbase : base.prevTerm ≤ term) :
    log.lastTerm ≤ term := by
  rcases h with hle | ⟨hentries, hsnapshot⟩
  · exact hle
  · rw [lastTerm_eq_prevTerm hentries, prevTerm, hsnapshot]
    exact hbase

/-- A snapshot whose term is not above `term`, or one of the node's own. -/
theorem compact (h : log.IsWithin base term) (hlog : log.InOrder) {s : Snapshot}
    (hs : s.about.term ≤ term ∨ log.Covers s.about) : (log.compact s).IsWithin base term := by
  by_cases hold : log.snapshot.isSome ∧ s.about.index ≤ log.prevIndex
  · rwa [Log.compact, if_pos hold]
  · have hle : s.about.term ≤ term := by
      refine hs.elim id fun hcovers => ?_
      obtain ⟨hentries, hle⟩ := hlog.term_le_of_covers hcovers hold
      exact Nat.le_trans hle (h.lastTerm_le_of_ne hentries)
    rcases lastTerm_compact hlog s with heq | hlast | ⟨hentries, hlast⟩
    · rwa [heq]
    · exact .inl (hlast ▸ hle)
    · exact .inl (hlast ▸ h.lastTerm_le_of_ne hentries)

end IsWithin

end Log

/-! ### Nodes -/

/-- An input that keeps the terms of a log in order. -/
def Input.IsFitting (i : Input) (log : Log) : Prop :=
  match i with
  | .message _ (.appendEntries _ term prevTerm prev entries _) =>
    log.IsFitting term prevTerm prev entries
  | .message _ (.installSnapshot _ term s) => s.about.term ≤ term
  | _ => True

/-- A node whose terms are in order up to its own, if it has started with the log `base`. It leads
in no term below that of the snapshot that it has started with. -/
structure Node.InOrder (base : Log) (n : Node) : Prop where
  log : n.log.InOrder
  bounded : n.log.IsWithin base n.term
  leads : n.role = .leader → base.prevTerm ≤ n.term

namespace Turn

variable {i : Input} {t u v : Turn} {es : List Effect} {ss : List Stage} {base : Log}

/-- What is committed before it is applied is in order, and the last term is not above the term that
the node has in the end. -/
theorem Basis.inOrder {n m : Node} {log : Log} (h : Basis i n m log) (hn : n.InOrder base)
    (hterm : n.term ≤ m.term) (hi : i.IsFitting n.log)
    (hleads : m.role = .leader → base.prevTerm ≤ m.term) :
    n.log.Continues log ∧ log.IsWithin base m.term := by
  have hbounded := hn.bounded.mono hterm
  cases h with
  | same => exact ⟨⟨hn.log, fun _ habout => habout⟩, hbounded⟩
  | @append e hindex heterm hlead =>
    have hbase : base.prevTerm ≤ m.term := by
      rcases hlead with hlead | hlead
      · exact Nat.le_trans (hn.leads hlead) hterm
      · exact hleads hlead
    refine ⟨hn.log.append hindex ?_, .inl ?_⟩
    · exact heterm ▸ hbounded.lastTerm_le hbase
    · exact Nat.le_of_eq ((n.log.lastTerm_append e).trans heterm)
  | @merge sender leader term prevTerm prev commit entries hmessage hmterm hprev =>
    subst hmessage
    have hfits : n.log.IsFitting term prevTerm prev entries := hi
    refine ⟨hn.log.merge hfits hprev, ?_⟩
    rcases n.log.merge_cases entries prev with heq | ⟨e, he, hlast⟩
    · rw [heq]
      exact hbounded
    · refine .inl ?_
      rw [hlast, hmterm]
      exact hfits.bounded e he

theorem CapturesAt.covers {log : Log} {captures : List Effect} (h : CapturesAt log captures)
    (hlog : log.InOrder) {about : SnapshotMeta} (habout : .prepareSnapshot about ∈ captures) :
    log.Covers about := by
  rcases h with rfl | ⟨about', rfl, hindex, hlive, hknown⟩
  · cases habout
  · obtain rfl : about = about' := by simpa using habout
    rw [← hindex] at hlive hknown
    rw [Log.termAt?_eq_terms hlog.grounded (Nat.le_of_lt hlive)] at hknown
    exact ⟨Nat.le_of_eq hindex, .inr ⟨hlive, hknown⟩⟩

/-- Every input that fits keeps the terms of a node in order. What was recorded of captures stays in
the log, and what is recorded now is in it. -/
theorem Amends.inOrder (h : Amends i t u) (hterm : t.node.term ≤ u.node.term)
    (ht : t.node.InOrder base) (hi : i.IsFitting t.node.log)
    (hanswer : ∀ s, i = .snapshotPrepared (some s) → t.node.log.Covers s.about)
    (hleads : u.node.role = .leader → base.prevTerm ≤ u.node.term)
    (hes : u.effects = t.effects ++ es) : u.node.InOrder base ∧
      (∀ about, t.node.log.Covers about → u.node.log.Covers about) ∧
      ∀ about, .prepareSnapshot about ∈ es → u.node.log.Covers about := by
  cases h with
  | @serve v hbasis hasked hserves =>
    obtain ⟨hcontinues, hbounded⟩ := hbasis.inOrder ht hterm hi hleads
    obtain ⟨j, respond, captures, hcommit, hcaptures, heffects⟩ := hserves
    have hwhole := hcontinues.trans (hcontinues.1.commit j)
    rw [← hcommit] at hwhole
    refine ⟨⟨hwhole.1, ?_, hleads⟩, hwhole.2, fun about habout => ?_⟩
    · rw [hcommit]
      exact hbounded
    · rw [hasked] at heffects
      rcases List.mem_append.1 (prepares_of_asked hes heffects habout) with hmem | hmem
      · obtain ⟨e, -, happlied⟩ := List.mem_filterMap.1 hmem
        unfold Entry.applied? at happlied
        split at happlied <;> cases happlied
      · exact hcaptures.covers hwhole.1 hmem
  | @install sender leader term s hmessage hmterm hs hcompact hasked =>
    subst hmessage
    have hsterm : s.about.term ≤ u.node.term := hmterm ▸ hi
    have hcontinues := ht.log.compact (.inl hs)
    have hbounded := (ht.bounded.mono hterm).compact ht.log (.inl hsterm)
    rw [← hcompact] at hcontinues hbounded
    refine ⟨⟨hcontinues.1, hbounded, hleads⟩, hcontinues.2, fun about habout => ?_⟩
    cases List.mem_singleton.1 (prepares_of_asked hes hasked habout)
  | @compact s hprepared hcompact hasked =>
    have hcovers := hanswer s hprepared
    have hcontinues := ht.log.compact (.inr hcovers)
    have hbounded := (ht.bounded.mono hterm).compact ht.log (.inr hcovers)
    rw [← hcompact] at hcontinues hbounded
    rw [← List.append_nil t.asked] at hasked
    refine ⟨⟨hcontinues.1, hbounded, hleads⟩, hcontinues.2, fun about habout => ?_⟩
    cases prepares_of_asked hes hasked habout

/-- All that follows from an input leaves the terms in order, and the log covers in the end what it
covered before and what a snapshot was asked of on the way. -/
theorem Thread.inOrder (h : Thread i t ss v) (ht : t.node.InOrder base)
    (hi : i.IsFitting t.node.log)
    (hanswer : ∀ s, i = .snapshotPrepared (some s) → t.node.log.Covers s.about)
    (hleads : ∀ s ∈ ss, s.after.role = .leader → base.prevTerm ≤ s.after.term) :
    v.node.InOrder base ∧ (∀ about, t.node.log.Covers about → v.node.log.Covers about) ∧
      ∀ about, .prepareSnapshot about ∈ ss.flatMap (·.effects) → v.node.log.Covers about := by
  induction h with
  | @last i t u es _ hu hes =>
    obtain ⟨hamends, hterm⟩ := amends_dispatch hu
    simpa using hamends.inOrder hterm ht hi hanswer (hleads _ (List.mem_singleton_self _)) hes
  | @next i j t u v es ss _ hu hes _ hj _ ih =>
    obtain ⟨hamends, hterm⟩ := amends_dispatch hu
    obtain ⟨hu', hkeeps, hasks⟩ :=
      hamends.inOrder hterm ht hi hanswer (hleads _ (List.mem_cons_self ..)) hes
    -- an input that is considered again finds the same log, and no other brings anything
    have hfits : j.IsFitting u.node.log := by
      rcases hj with ⟨rfl, -, hcalm⟩ | hraised
      · exact hcalm.retains.log ▸ hi
      · cases hraised <;> trivial
    obtain ⟨hv, hkeeps', hasks'⟩ :=
      ih hu' hfits (fun s hs => absurd hs (ne_snapshotPrepared_of_link hj _))
        fun s hs => hleads s (List.mem_cons_of_mem _ hs)
    refine ⟨hv, fun about habout => hkeeps' about (hkeeps about habout), fun about habout => ?_⟩
    rcases List.mem_append.1 habout with habout | habout
    · exact hkeeps' about (hasks about habout)
    · exact hasks' about habout

end Turn

/-! ### The life of a node -/

namespace Life

variable (l : Life)

/-- What the node is given up to moment `k` keeps its terms in order: batches that fit its log,
snapshots that are not above the term of their leader, and the snapshots of its own captures. It
comes to lead in no term below that of the snapshot that it has started with. -/
structure IsFitting (k : Nat) : Prop where
  grounded : l.start.log.IsGrounded
  inputs : ∀ j < k, ∀ i, l.inputs[j]? = some i → i.IsFitting (l.after j).log
  answered : l.Answered k
  leads : ∀ j < k, ∀ i m es, l.inputs[j]? = some i → step (l.after j) i = .ok (m, es) →
    ∀ s ∈ (l.after j).stages i, s.after.role = .leader → l.start.log.lastTerm ≤ s.after.term

variable {l} {k : Nat}

theorem IsFitting.mono {j : Nat} (h : l.IsFitting k) (hjk : j ≤ k) : l.IsFitting j where
  grounded := h.grounded
  inputs x hx := h.inputs x (Nat.lt_of_lt_of_le hx hjk)
  answered x hx := h.answered x (Nat.lt_of_lt_of_le hx hjk)
  leads x hx := h.leads x (Nat.lt_of_lt_of_le hx hjk)

theorem entries_start (l : Life) : l.start.log.entries = [] := by
  rcases l.isNew with ⟨id, settings, h⟩ | ⟨id, settings, s, h⟩ <;>
  · rw [h]
    rfl

theorem lastTerm_start (l : Life) : l.start.log.lastTerm = l.start.log.prevTerm :=
  Log.lastTerm_eq_prevTerm l.entries_start

/-- The terms are in order at every moment, and the log covers whatever a snapshot was asked of. -/
theorem inOrder_after (h : l.IsFitting k) : (l.after k).InOrder l.start.log ∧
    ∀ about, .prepareSnapshot about ∈ l.emitted k → (l.after k).log.Covers about := by
  induction k with
  | zero =>
    refine ⟨⟨⟨l.anchored_after 0, h.grounded, ?_⟩, .inr ⟨l.entries_start, rfl⟩, ?_⟩, nofun⟩
    · show l.start.log.terms.Pairwise _
      rw [Log.terms_eq_singleton l.entries_start]
      exact List.pairwise_singleton ..
    · exact fun hrole => nomatch l.role_start.symm.trans hrole
  | succ k ih =>
    obtain ⟨hn, hcovers⟩ := ih (h.mono (Nat.le_succ k))
    rcases l.emitted_succ_cases k with ⟨heq, hemitted⟩ | ⟨i, es, hi, hstep, hemitted⟩
    · rw [heq, hemitted]
      exact ⟨hn, hcovers⟩
    · obtain ⟨u, hu, -, hthread⟩ := thread_of_step hstep
      have hlt := Nat.lt_succ_self k
      obtain ⟨hm, hkeeps, hasks⟩ := hthread.inOrder hn (h.inputs k hlt i hi)
        (fun s hs => hcovers s.about (h.answered k hlt s (hs ▸ hi)))
        fun s hs hrole => l.lastTerm_start ▸ h.leads k hlt i _ es hi hstep s hs hrole
      rw [← effects_of_step hstep] at hasks
      rw [← hu, hemitted]
      refine ⟨hm, fun about habout => ?_⟩
      rcases List.mem_append.1 habout with habout | habout
      · exact hkeeps about (hcovers about habout)
      · exact hasks about habout

/-- The terms along the log of a node do not decrease, and the last one is not above the current
term. The only exception is a node that still has nothing but the snapshot that it has started with,
and has not heard of a term as high as that. -/
theorem terms_inOrder (h : l.IsFitting k) : (l.after k).log.terms.Pairwise (· ≤ ·) ∧
    ((l.after k).log.lastTerm ≤ (l.after k).term ∨
      ((l.after k).term < l.start.log.lastTerm ∧ (l.after k).log.entries = [] ∧
        (l.after k).log.snapshot = l.start.log.snapshot)) := by
  obtain ⟨hn, -⟩ := inOrder_after h
  refine ⟨hn.log.ordered, ?_⟩
  rcases Nat.lt_or_ge (l.after k).term l.start.log.lastTerm with hlt | hge
  · exact hn.bounded.imp_right fun hsame => ⟨hlt, hsame⟩
  · exact .inl (hn.bounded.lastTerm_le (l.lastTerm_start ▸ hge))

/-- Node 2 comes back with a snapshot, hears from the leader of a later term, and is elected. -/
def comeback : Life where
  start := .ofSnapshot ⟨2⟩ {} ⟨⟨5, 3, .stable 0 (.ofList [⟨1⟩, ⟨2⟩])⟩, []⟩
  isNew := .inr ⟨⟨2⟩, {}, ⟨⟨5, 3, .stable 0 (.ofList [⟨1⟩, ⟨2⟩])⟩, []⟩, rfl⟩
  inputs :=
    [.message ⟨1⟩ (.appendEntries ⟨1⟩ 4 3 5 [⟨4, 6, .noop, none⟩] 5),
      .message ⟨1⟩ (.changeConfiguration (.stable 0 (.ofList [⟨1⟩, ⟨2⟩]))),
      .message ⟨1⟩ (.appendEntries ⟨1⟩ 4 3 5 [⟨4, 6, .noop, none⟩] 5), .timeout .election,
      .message ⟨1⟩ (.grantVote 5)]

theorem isFitting_comeback : comeback.IsFitting 5 := by
  refine ⟨nofun, fun j hj i hi => ?_, fun j hj s hs => ?_, fun j hj i m es hi hstep => ?_⟩
  · match j, hj with
    | 0, _ | 2, _ =>
      cases hi
      exact Log.isFitting_singleton rfl (by decide) (by decide) (by decide +kernel)
    | 1, _ | 3, _ | 4, _ => cases hi; trivial
  · match j, hj with
    | 0, _ | 1, _ | 2, _ | 3, _ | 4, _ => cases hs
  · match j, hj with
    | 0, _ | 1, _ | 2, _ | 3, _ | 4, _ => cases hi; decide +kernel

theorem terms_inOrder_comeback :
    (comeback.after 5).role = .leader ∧ (comeback.after 5).log.terms = [3, 4, 5] ∧
      (comeback.after 5).log.terms.Pairwise (· ≤ ·) ∧
      (comeback.after 5).log.lastTerm ≤ (comeback.after 5).term := by
  obtain ⟨hordered, hlast⟩ := terms_inOrder isFitting_comeback
  refine ⟨by decide +kernel, by decide +kernel, hordered, hlast.resolve_right ?_⟩
  rintro ⟨-, hentries, -⟩
  revert hentries
  decide +kernel

/-- A node that is a cluster of its own comes back with a snapshot of term 3. -/
def early : Life where
  start := .ofSnapshot ⟨1⟩ { membersToFind := 1 } ⟨⟨5, 3, .stable 0 (.ofList [⟨1⟩])⟩, []⟩
  isNew := .inr ⟨⟨1⟩, { membersToFind := 1 }, ⟨⟨5, 3, .stable 0 (.ofList [⟨1⟩])⟩, []⟩, rfl⟩
  inputs := [.timeout .discovery, .timeout .election]

/-- It starts in term 0 and elects itself in term 1. Its first entry has this term, and stands
behind the term of the snapshot. -/
theorem not_terms_inOrder_early :
    (early.start.log.IsGrounded ∧
      (∀ j < 2, ∀ i, early.inputs[j]? = some i → i.IsFitting (early.after j).log) ∧
      early.Answered 2) ∧
    early.start.term < early.start.log.lastTerm ∧
    (early.after 2).role = .leader ∧ (early.after 2).term = 1 ∧
    (early.after 2).log.terms = [3, 1] ∧ ¬ (early.after 2).log.terms.Pairwise (· ≤ ·) := by
  refine ⟨⟨nofun, fun j hj i hi => ?_, fun j hj s hs => ?_⟩, by decide +kernel⟩
  · match j, hj with
    | 0, _ | 1, _ => cases hi; trivial
  · match j, hj with
    | 0, _ | 1, _ => cases hs

/-- Node 2 comes back with a snapshot of nothing that yet has a term. -/
def rootless : Life where
  start := .ofSnapshot ⟨2⟩ { membersToFind := 1 } ⟨⟨0, 3, .stable 0 (.ofList [⟨1⟩, ⟨2⟩])⟩, []⟩
  isNew := .inr ⟨⟨2⟩, { membersToFind := 1 }, ⟨⟨0, 3, .stable 0 (.ofList [⟨1⟩, ⟨2⟩])⟩, []⟩, rfl⟩
  inputs :=
    [.timeout .discovery, .message ⟨1⟩ (.appendEntries ⟨1⟩ 4 0 0 [⟨1, 1, .noop, none⟩] 0)]

/-- It follows the leader of term 4, and takes its first entry for one that stands behind nothing,
though the boundary of its log has a term. -/
theorem not_terms_inOrder_rootless :
    ((∀ j < 2, ∀ i, rootless.inputs[j]? = some i → i.IsFitting (rootless.after j).log) ∧
      rootless.Answered 2) ∧
    (rootless.after 2).term = 4 ∧ (rootless.after 2).log.terms = [3, 1] ∧
    ¬ (rootless.after 2).log.terms.Pairwise (· ≤ ·) := by
  refine ⟨⟨fun j hj i hi => ?_, fun j hj s hs => ?_⟩, by decide +kernel⟩
  · match j, hj with
    | 0, _ => cases hi; trivial
    | 1, _ =>
      cases hi
      exact Log.isFitting_singleton rfl (by decide) (by decide) (by decide +kernel)
  · match j, hj with
    | 0, _ | 1, _ => cases hs

end Life

end Raft
