import Mathlib.Order.Bounds.Basic
import Raft.Proofs.Majority

/-!
# What a quorum has reached

A leader looks for the index to commit by sorting what the members have reached and taking the place
in the middle, on either side if the members are about to change. What it looks for is the greatest
index that strictly more than half of the members have reached, on every side that counts.

* `Configuration.Quorum`, a property that a decision can rest on, and `Configuration.Peopled`, there
  is somebody to decide;
* `Progress.IsQuorumIndex`, what is looked for, and `Progress.le_quorumIndex_iff`, why the place in
  the middle is right;
* `Progress.quorumIndex_exact`, the leader finds it, and it grows with the progress of the members.
-/

namespace Raft

namespace Configuration

/-- A property that strictly more than half of the members have, of the old ones as well as of the
new ones while they change. -/
def Quorum (c : Configuration) (P : PeerId → Prop) : Prop :=
  match c with
  | stable _ members => members.Most P
  | joint _ old new => old.Most P ∧ new.Most P

/-- No side that a decision needs is without members. -/
def Peopled : Configuration → Prop
  | stable _ members => members.isEmpty = false
  | joint _ old new => old.isEmpty = false ∧ new.isEmpty = false

variable {c : Configuration} {P Q : PeerId → Prop}

theorem Quorum.mono (h : c.Quorum P) (hPQ : ∀ p ∈ c.members, P p → Q p) : c.Quorum Q := by
  cases c with
  | stable n members => exact PeerSet.Most.mono h hPQ
  | joint n old new =>
    exact ⟨h.1.mono fun p hp => hPQ p (PeerSet.mem_union.2 (.inl hp)),
      h.2.mono fun p hp => hPQ p (PeerSet.mem_union.2 (.inr hp))⟩

theorem Quorum.exists_mem (h : c.Quorum P) : ∃ p ∈ c.members, P p := by
  cases c with
  | stable n members => exact PeerSet.Most.exists_mem h
  | joint n old new =>
    obtain ⟨p, hp, hP⟩ := h.1.exists_mem
    exact ⟨p, PeerSet.mem_union.2 (.inl hp), hP⟩

end Configuration

theorem PeerSet.size_eq_zero_iff {s : PeerSet} : s.size = 0 ↔ s.isEmpty = true := by
  rw [size, isEmpty, List.length_eq_zero_iff, List.isEmpty_iff]

theorem PeerSet.size_pos_iff {s : PeerSet} : 0 < s.size ↔ s.isEmpty = false := by
  rw [Nat.pos_iff_ne_zero, Ne, size_eq_zero_iff, Bool.not_eq_true]

namespace Progress

variable {m : Progress} {c : Configuration} {q : Nat}

/-- The index that a leader looks for: the greatest one that a quorum has reached, or 0 if a side
that it needs has no members. -/
structure IsQuorumIndex (m : Progress) (c : Configuration) (q : Nat) : Prop where
  greatest : c.Peopled → IsGreatest {i | c.Quorum fun p => i ≤ m.get p} q
  eq_zero : ¬ c.Peopled → q = 0

/-- On either side the place in the middle is the greatest index that a majority has reached, so the
smaller one of the two is the greatest that both have. -/
theorem le_quorumIndex_iff (m : Progress) (h : c.Peopled) {i : Nat} :
    i ≤ m.quorumIndex c ↔ c.Quorum fun p => i ≤ m.get p := by
  cases c with
  | stable n members => exact m.le_majorityIndex_iff (PeerSet.size_pos_iff.2 h)
  | joint n old new =>
    calc i ≤ m.quorumIndex (.joint n old new)
        ↔ i ≤ m.majorityIndex old ∧ i ≤ m.majorityIndex new := Nat.le_min
      _ ↔ Configuration.Quorum (.joint n old new) fun p => i ≤ m.get p :=
        and_congr (m.le_majorityIndex_iff (PeerSet.size_pos_iff.2 h.1))
          (m.le_majorityIndex_iff (PeerSet.size_pos_iff.2 h.2))

theorem quorumIndex_of_not_peopled (m : Progress) (h : ¬ c.Peopled) : m.quorumIndex c = 0 := by
  have hside : ∀ s : PeerSet, s.isEmpty ≠ false → m.majorityIndex s = 0 := fun s hs =>
    m.majorityIndex_of_size_eq_zero (PeerSet.size_eq_zero_iff.2 (Bool.not_eq_false _ ▸ hs))
  cases c with
  | stable n members => exact hside members h
  | joint n old new =>
    rcases not_and_or.1 h with hold | hnew
    · exact Nat.min_eq_zero_iff.2 (.inl (hside old hold))
    · exact Nat.min_eq_zero_iff.2 (.inr (hside new hnew))

theorem isQuorumIndex_quorumIndex (m : Progress) (c : Configuration) :
    m.IsQuorumIndex c (m.quorumIndex c) where
  greatest h :=
    ⟨(m.le_quorumIndex_iff h).1 (Nat.le_refl _), fun _ hi => (m.le_quorumIndex_iff h).2 hi⟩
  eq_zero h := m.quorumIndex_of_not_peopled h

/-- There is only one such index. -/
theorem isQuorumIndex_iff : m.IsQuorumIndex c q ↔ q = m.quorumIndex c := by
  have hfound := m.isQuorumIndex_quorumIndex c
  constructor
  · intro h
    by_cases hc : c.Peopled
    · exact (h.greatest hc).unique (hfound.greatest hc)
    · exact (h.eq_zero hc).trans (hfound.eq_zero hc).symm
  · rintro rfl
    exact hfound

/-- Nobody has to reach further than the furthest. -/
theorem quorumIndex_le {b : Nat} (h : ∀ p, m.get p ≤ b) : m.quorumIndex c ≤ b := by
  by_cases hc : c.Peopled
  · obtain ⟨p, -, hp⟩ := ((m.le_quorumIndex_iff hc).1 (Nat.le_refl _)).exists_mem
    exact Nat.le_trans hp (h p)
  · rw [m.quorumIndex_of_not_peopled hc]
    exact Nat.zero_le b

theorem quorumIndex_mono {m' : Progress} (h : ∀ p ∈ c.members, m.get p ≤ m'.get p) :
    m.quorumIndex c ≤ m'.quorumIndex c := by
  by_cases hc : c.Peopled
  · have hreached := (m.le_quorumIndex_iff hc).1 (Nat.le_refl _)
    exact (m'.le_quorumIndex_iff hc).2
      (hreached.mono fun p hp hle => Nat.le_trans hle (h p hp))
  · rw [m.quorumIndex_of_not_peopled hc]
    exact Nat.zero_le _

/-- What a leader finds is the greatest index that a quorum has reached, and nothing else: strictly
more than half of the members have reached it, on both sides of a joint configuration, and none
above it. Where a side has no members it finds 0. If no member falls back, then neither does what
the leader finds. -/
theorem quorumIndex_exact (m : Progress) (c : Configuration) :
    (∀ q, m.IsQuorumIndex c q ↔ q = m.quorumIndex c) ∧
      ∀ m' : Progress, (∀ p ∈ c.members, m.get p ≤ m'.get p) →
        m.quorumIndex c ≤ m'.quorumIndex c :=
  ⟨fun _ => isQuorumIndex_iff, fun _ => quorumIndex_mono⟩

/-- A table with a tie, and a member that nothing is recorded for. -/
def uneven : Progress := { fallback := 2, known := [(⟨1⟩, 5), (⟨2⟩, 5), (⟨3⟩, 3), (⟨4⟩, 7)] }

/-- Three members make way for four, two of which are the same. -/
def overlapping : Configuration :=
  .joint 1 (.ofList [⟨1⟩, ⟨2⟩, ⟨3⟩]) (.ofList [⟨2⟩, ⟨3⟩, ⟨4⟩, ⟨5⟩])

/-- Two of the old members have reached 5, but only two of the four new ones. Three of these have
reached 3. Once node 3 gets on, there are three that have reached 5. -/
theorem quorumIndex_exact_uneven : overlapping.Peopled ∧
    IsGreatest {i | overlapping.Quorum fun p => i ≤ uneven.get p} 3 ∧
    (∀ p ∈ overlapping.members, uneven.get p ≤ (uneven.set ⟨3⟩ 6).get p) ∧
    uneven.quorumIndex overlapping ≤ (uneven.set ⟨3⟩ 6).quorumIndex overlapping ∧
    (uneven.set ⟨3⟩ 6).quorumIndex overlapping = 5 := by
  have hpeopled : overlapping.Peopled := ⟨by decide, by decide⟩
  have hmembers : ∀ p ∈ overlapping.members.toList,
      uneven.get p ≤ (uneven.set ⟨3⟩ 6).get p := by decide
  obtain ⟨hexact, hmono⟩ := quorumIndex_exact uneven overlapping
  have hthree : uneven.IsQuorumIndex overlapping 3 := (hexact 3).2 (by decide)
  exact ⟨hpeopled, hthree.greatest hpeopled, hmembers, hmono _ hmembers, by decide⟩

end Progress

end Raft
