import Mathlib.Data.List.Sort
import Raft.Progress
import Raft.Standing

/-!
# Majorities

`PeerSet.Most s P` says that strictly more than half of the members of `s` have the property `P`.
Two such properties have a member in common (`Most.meet`). A candidate with enough votes and an
index that a leader finds on a quorum both rest on such a majority (`most_of_hasMajority`,
`most_majorityIndex`). The latter is the greatest one that does (`le_majorityIndex_iff`).
-/

namespace Raft

instance : Std.Irrefl (α := PeerId) (· < ·) := ⟨PeerId.lt_irrefl⟩

instance : Std.Antisymm (α := PeerId) (· < ·) :=
  ⟨fun _ _ h h' => absurd (PeerId.lt_trans h h') (PeerId.lt_irrefl _)⟩

namespace PeerSet

/-- Sets with the same members are equal. -/
theorem ext {s t : PeerSet} (h : ∀ p, p ∈ s ↔ p ∈ t) : s = t := by
  cases s with
  | mk l hl =>
    cases t with
    | mk m hm =>
      obtain rfl : l = m := hl.eq_of_mem_iff hm h
      rfl

/-- Strictly more than half of the members have a property. -/
def Most (s : PeerSet) (P : PeerId → Prop) : Prop :=
  ∃ ps : List PeerId, ps.Nodup ∧ (∀ p ∈ ps, p ∈ s ∧ P p) ∧ s.size < 2 * ps.length

theorem nodup_toList (s : PeerSet) : s.toList.Nodup :=
  s.ascending.imp fun {p q} h (e : p = q) => PeerId.lt_irrefl p (by rwa [← e] at h)

theorem Most.mono {s : PeerSet} {P Q : PeerId → Prop} (h : s.Most P) (hPQ : ∀ p ∈ s, P p → Q p) :
    s.Most Q := by
  obtain ⟨ps, hnd, hps, hlen⟩ := h
  exact ⟨ps, hnd, fun p hp => ⟨(hps p hp).1, hPQ p (hps p hp).1 (hps p hp).2⟩, hlen⟩

/-- Two majorities of one set have a member in common. -/
theorem Most.meet {s : PeerSet} {P Q : PeerId → Prop} (hP : s.Most P) (hQ : s.Most Q) :
    ∃ p ∈ s, P p ∧ Q p := by
  obtain ⟨ps, hps, hP, hlenP⟩ := hP
  obtain ⟨qs, hqs, hQ, hlenQ⟩ := hQ
  by_cases hdis : ∃ p ∈ ps, p ∈ qs
  · obtain ⟨p, hp, hq⟩ := hdis
    exact ⟨p, (hP p hp).1, (hP p hp).2, (hQ p hq).2⟩
  · -- together they would be more than there are members
    have hnd : (ps ++ qs).Nodup := List.nodup_append.2
      ⟨hps, hqs, fun p hp q hq e => hdis ⟨p, hp, e ▸ hq⟩⟩
    have hsub : ps ++ qs ⊆ s.toList := by
      intro p hp
      rcases List.mem_append.1 hp with hp | hp
      · exact (hP p hp).1
      · exact (hQ p hp).1
    have hle := hnd.length_le_of_subset hsub
    rw [List.length_append] at hle
    have hsize : s.size = s.toList.length := rfl
    omega

/-- A majority has somebody in it. -/
theorem Most.exists_mem {s : PeerSet} {P : PeerId → Prop} (h : s.Most P) : ∃ p ∈ s, P p := by
  obtain ⟨p, hp, hP, -⟩ := h.meet h
  exact ⟨p, hp, hP⟩

/-- A majority can be counted. -/
theorem most_iff_countP {s : PeerSet} {P : PeerId → Prop} [DecidablePred P] :
    s.Most P ↔ s.size < 2 * s.toList.countP (P ·) := by
  rw [List.countP_eq_length_filter]
  constructor
  · rintro ⟨ps, hnd, hps, hlen⟩
    have hsub : ps ⊆ s.toList.filter (P ·) := fun p hp =>
      List.mem_filter.2 ⟨(hps p hp).1, decide_eq_true (hps p hp).2⟩
    have hle := hnd.length_le_of_subset hsub
    omega
  · intro hlen
    refine ⟨s.toList.filter (P ·), s.nodup_toList.filter _, fun p hp => ?_, hlen⟩
    obtain ⟨hmem, hp⟩ := List.mem_filter.1 hp
    exact ⟨hmem, of_decide_eq_true hp⟩

theorem length_insertAscending_of_not_mem {p : PeerId} {l : List PeerId} (h : p ∉ l) :
    (insertAscending p l).length = l.length + 1 := by
  induction l with
  | nil => rfl
  | cons q rest ih =>
    have hpq : p ≠ q := fun e => h (e ▸ List.mem_cons_self ..)
    have hrest : p ∉ rest := fun hp => h (List.mem_cons_of_mem _ hp)
    unfold insertAscending
    split
    · rfl
    · rw [List.length_cons, ih hrest, List.length_cons]

theorem size_insert_of_not_mem {s : PeerSet} {p : PeerId} (h : p ∉ s) :
    (s.insert p).size = s.size + 1 := length_insertAscending_of_not_mem h

/-- A set that is not smaller than one that contains it is the same. -/
theorem eq_of_subset_of_size_le {s t : PeerSet} (h : ∀ p ∈ s, p ∈ t) (hsize : t.size ≤ s.size) :
    s = t := by
  refine ext fun p => ⟨h p, fun hp => Decidable.byContradiction fun hnot => ?_⟩
  have hnd : (p :: s.toList).Nodup := List.nodup_cons.2 ⟨hnot, s.nodup_toList⟩
  have hsub : p :: s.toList ⊆ t.toList := List.cons_subset.2 ⟨hp, h⟩
  have hle := hnd.length_le_of_subset hsub
  exact absurd hsize (Nat.not_le.2 hle)

theorem union_self (s : PeerSet) : s.union s = s := ext fun p => by simp

end PeerSet

/-- A candidate with enough votes has them from a majority. -/
theorem Standing.most_of_hasMajority {s : Standing} (h : s.hasMajority = true) {granted : PeerSet}
    (hsize : s.votes = granted.size) {P : PeerId → Prop}
    (hgranted : ∀ p ∈ granted, p ∈ s.members ∧ P p) : s.members.Most P := by
  refine ⟨granted.toList, granted.nodup_toList, hgranted, ?_⟩
  have hlen : granted.toList.length = granted.size := rfl
  have hlt : s.members.size / 2 < s.votes := of_decide_eq_true h
  omega

namespace Progress

theorem get_raise_le (m : Progress) (p q : PeerId) (i : Nat) :
    (m.raise p i).get q ≤ if q = p then max (m.get q) i else m.get q := by
  unfold raise
  split
  next j hj =>
    have hget : m.get p = j := by rw [get, hj, Option.getD_some]
    split
    next => split <;> omega
    next hlt =>
      rw [get_set]
      split <;> omega
  next =>
    rw [get_set]
    split <;> omega

/-- What is recorded does not lead beyond what bounds everything. -/
theorem get_raise_le_of_le {m : Progress} {b : Nat} (h : ∀ p, m.get p ≤ b) (p : PeerId) {i : Nat}
    (hi : i ≤ b) (q : PeerId) : (m.raise p i).get q ≤ b := by
  refine Nat.le_trans (m.get_raise_le p q i) ?_
  split
  next => exact Nat.max_le.2 ⟨h q, hi⟩
  next => exact h q

theorem le_get_raise (m : Progress) (p : PeerId) (i : Nat) : i ≤ (m.raise p i).get p := by
  unfold raise
  split
  next j hj =>
    split
    next hle => rwa [get, hj, Option.getD_some]
    next => exact Nat.le_of_eq (by rw [get_set, if_pos rfl])
  next => exact Nat.le_of_eq (by rw [get_set, if_pos rfl])

theorem get_raise_self {m : Progress} {p : PeerId} {i : Nat} (h : m.get p ≤ i) :
    (m.raise p i).get p = i := by
  have hle := m.get_raise_le p p i
  rw [if_pos rfl, Nat.max_eq_right h] at hle
  exact Nat.le_antisymm hle (m.le_get_raise p i)

theorem insertAscending_eq_orderedInsert :
    insertAscending = List.orderedInsert (α := Nat) (· ≤ ·) := by
  funext i l
  induction l with
  | nil => rfl
  | cons j rest ih => rw [insertAscending, List.orderedInsert_cons, ih]

theorem sortAscending_eq_insertionSort (l : List Nat) :
    sortAscending l = l.insertionSort (· ≤ ·) := by
  rw [sortAscending, insertAscending_eq_orderedInsert]
  rfl

/-- What stands at a place of an ascending list is at least `i` if and only if as many numbers of
the list are as there are from that place on. -/
theorem le_getElem_iff_countP {l : List Nat} (h : l.Pairwise (· ≤ ·)) {i k : Nat}
    (hk : k < l.length) : i ≤ l[k] ↔ l.length - k ≤ l.countP (i ≤ ·) := by
  induction l generalizing k with
  | nil => cases hk
  | cons j rest ih =>
    obtain ⟨hj, hrest⟩ := List.pairwise_cons.1 h
    have hall : i ≤ j → rest.countP (i ≤ ·) = rest.length := fun hij =>
      List.countP_eq_length.2 fun x hx => decide_eq_true (Nat.le_trans hij (hj x hx))
    have hle : rest.countP (i ≤ ·) ≤ rest.length := List.countP_le_length
    rw [List.countP_cons, List.length_cons]
    cases k with
    | zero =>
      rw [List.getElem_cons_zero, Nat.sub_zero]
      by_cases hij : i ≤ j
      · simp [hij, hall hij]
      · rw [if_neg (by simpa using hij)]
        exact iff_of_false hij (by omega)
    | succ k =>
      rw [List.length_cons] at hk
      rw [List.getElem_cons_succ, ih hrest (Nat.lt_of_succ_lt_succ hk)]
      by_cases hij : i ≤ j
      · rw [if_pos (by simpa using hij), hall hij]
        omega
      · rw [if_neg (by simpa using hij)]
        omega

/-- The majority index is the greatest index that a majority has reached. -/
theorem le_majorityIndex_iff (m : Progress) {members : PeerSet} (h : 0 < members.size) {i : Nat} :
    i ≤ m.majorityIndex members ↔ members.Most fun p => i ≤ m.get p := by
  have hlen : ((members.toList.map m.get).insertionSort (· ≤ ·)).length = members.size := by
    rw [List.length_insertionSort, List.length_map]
    rfl
  have hk : (members.size + 1) / 2 - 1 <
      ((members.toList.map m.get).insertionSort (· ≤ ·)).length := by omega
  have hval : m.majorityIndex members =
      ((members.toList.map m.get).insertionSort (· ≤ ·))[(members.size + 1) / 2 - 1] := by
    rw [majorityIndex, sortAscending_eq_insertionSort, List.getD_eq_getElem?_getD,
      List.getElem?_eq_getElem hk]
    rfl
  rw [hval, le_getElem_iff_countP (List.pairwise_insertionSort (· ≤ ·) _) hk, hlen,
    (List.perm_insertionSort (· ≤ ·) _).countP_eq, List.countP_map, PeerSet.most_iff_countP]
  -- from the majority's place on, more than half of the members are left
  show _ ≤ members.toList.countP (fun p => decide (i ≤ m.get p)) ↔ _
  omega

theorem majorityIndex_of_size_eq_zero (m : Progress) {members : PeerSet} (h : members.size = 0) :
    m.majorityIndex members = 0 := by
  have hnil : members.toList = [] := List.length_eq_zero_iff.1 h
  rw [majorityIndex, hnil]
  rfl

/-- A majority has reached the majority index. -/
theorem most_majorityIndex (m : Progress) {members : PeerSet}
    (h : 0 < m.majorityIndex members) :
    members.Most fun p => m.majorityIndex members ≤ m.get p := by
  refine (m.le_majorityIndex_iff (Nat.pos_of_ne_zero fun hempty => ?_)).1 (Nat.le_refl _)
  rw [m.majorityIndex_of_size_eq_zero hempty] at h
  exact Nat.lt_irrefl 0 h

end Progress

end Raft
