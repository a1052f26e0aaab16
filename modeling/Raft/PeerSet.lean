import Raft.Ident

/-!
# Finite sets of peers

A `PeerSet` is a strictly ascending list of peers, so two sets with the same members are
equal. Every operation is described by what it does to membership (`mem_insert`, `mem_erase`,
`mem_union`, `mem_ofList`).
-/

namespace Raft

/-- A finite set of peers, kept as its strictly ascending list of members. -/
structure PeerSet where
  toList : List PeerId
  ascending : toList.Pairwise (· < ·)
  deriving DecidableEq

namespace PeerSet

instance : Membership PeerId PeerSet := ⟨fun s p => p ∈ s.toList⟩

instance (p : PeerId) (s : PeerSet) : Decidable (p ∈ s) :=
  inferInstanceAs (Decidable (p ∈ s.toList))

theorem mem_toList {p : PeerId} {s : PeerSet} : p ∈ s.toList ↔ p ∈ s := Iff.rfl

/-- The set without members. -/
def empty : PeerSet := ⟨[], .nil⟩

instance : Inhabited PeerSet := ⟨empty⟩

@[simp] theorem not_mem_empty (p : PeerId) : ¬ p ∈ empty := List.not_mem_nil

/-- Number of members. -/
def size (s : PeerSet) : Nat := s.toList.length

/-- Whether there is no member. -/
def isEmpty (s : PeerSet) : Bool := s.toList.isEmpty

/-- Whether `p` is a member. -/
def contains (s : PeerSet) (p : PeerId) : Bool := decide (p ∈ s)

@[simp] theorem contains_iff {s : PeerSet} {p : PeerId} : s.contains p = true ↔ p ∈ s := by
  simp [contains]

/-- Puts `p` at its place in an ascending list, unless it is there already. -/
def insertAscending (p : PeerId) : List PeerId → List PeerId
  | [] => [p]
  | q :: rest =>
    if p < q then p :: q :: rest
    else if p = q then q :: rest
    else q :: insertAscending p rest

theorem mem_insertAscending {p x : PeerId} {l : List PeerId} :
    x ∈ insertAscending p l ↔ x = p ∨ x ∈ l := by
  induction l with
  | nil => simp [insertAscending]
  | cons q rest ih =>
    by_cases h₁ : p < q
    · simp [insertAscending, h₁]
    · by_cases h₂ : p = q
      · simp [insertAscending, h₂]
      · simp only [insertAscending, h₁, h₂, if_false, List.mem_cons, ih]
        exact or_left_comm

theorem pairwise_insertAscending (p : PeerId) {l : List PeerId} (h : l.Pairwise (· < ·)) :
    (insertAscending p l).Pairwise (· < ·) := by
  induction l with
  | nil => simp [insertAscending]
  | cons q rest ih =>
    obtain ⟨hq, hrest⟩ := List.pairwise_cons.1 h
    by_cases h₁ : p < q
    · simp only [insertAscending, h₁, if_true, List.pairwise_cons]
      refine ⟨fun x hx => ?_, hq, hrest⟩
      rcases List.mem_cons.1 hx with rfl | hx
      · exact h₁
      · exact PeerId.lt_trans h₁ (hq x hx)
    · by_cases h₂ : p = q
      · simpa only [insertAscending, h₁, h₂, PeerId.lt_irrefl, if_false, if_true] using h
      · simp only [insertAscending, h₁, h₂, if_false, List.pairwise_cons]
        refine ⟨fun x hx => ?_, ih hrest⟩
        rcases mem_insertAscending.1 hx with rfl | hx
        · exact PeerId.lt_of_not_lt_of_ne h₁ h₂
        · exact hq x hx

/-- Adds a member. -/
def insert (s : PeerSet) (p : PeerId) : PeerSet :=
  ⟨insertAscending p s.toList, pairwise_insertAscending p s.ascending⟩

@[simp] theorem mem_insert {s : PeerSet} {p x : PeerId} : x ∈ s.insert p ↔ x = p ∨ x ∈ s :=
  mem_insertAscending

/-- Removes a member. -/
def erase (s : PeerSet) (p : PeerId) : PeerSet :=
  ⟨s.toList.filter (· != p), s.ascending.filter _⟩

@[simp] theorem mem_erase {s : PeerSet} {p x : PeerId} : x ∈ s.erase p ↔ x ∈ s ∧ x ≠ p := by
  simp [erase, ← mem_toList]

/-- The set of the peers on a list, which may be in any order and hold repetitions. -/
def ofList (l : List PeerId) : PeerSet := l.foldr (fun p s => s.insert p) empty

@[simp] theorem mem_ofList {l : List PeerId} {x : PeerId} : x ∈ ofList l ↔ x ∈ l := by
  induction l with
  | nil => simp [ofList]
  | cons p rest ih =>
    rw [List.mem_cons, ← ih]
    exact mem_insert

/-- The set with one member. -/
def singleton (p : PeerId) : PeerSet := empty.insert p

@[simp] theorem mem_singleton {p x : PeerId} : x ∈ singleton p ↔ x = p := by
  simp [singleton]

/-- The members of either set. -/
def union (s t : PeerSet) : PeerSet := t.toList.foldr (fun p u => u.insert p) s

@[simp] theorem mem_union {s t : PeerSet} {x : PeerId} : x ∈ s.union t ↔ x ∈ s ∨ x ∈ t := by
  have key : ∀ l : List PeerId,
      x ∈ l.foldr (fun p (u : PeerSet) => u.insert p) s ↔ x ∈ s ∨ x ∈ l := by
    intro l
    induction l with
    | nil => simp
    | cons p rest ih =>
      rw [List.foldr_cons, mem_insert, ih, List.mem_cons]
      exact or_left_comm
  exact key t.toList

end PeerSet

end Raft
