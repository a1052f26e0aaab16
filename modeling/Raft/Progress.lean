import Raft.Configuration

/-!
# Replication progress

A leader keeps two indices for every peer: the next entry to send and the last entry known to be
replicated. `Progress` is such a table. A peer without an entry of its own has the `fallback`.

Main definition: `Progress.quorumIndex`, the highest index that a quorum of a configuration has
reached. On one set of `n` members it is the value at place `⌈n / 2⌉`, counted from 1, of
their indices in ascending order, so that strictly more than half of the members have reached
it.
-/

namespace Raft

/-- An index for every peer. -/
structure Progress where
  fallback : Nat := 0
  known : List (PeerId × Nat) := []
  deriving DecidableEq

namespace Progress

instance : Inhabited Progress := ⟨{}⟩

/-- The table in which every peer is at `i`. -/
def uniform (i : Nat) : Progress := { fallback := i }

/-- The index recorded for `p` itself. -/
def recorded? (m : Progress) (p : PeerId) : Option Nat := m.known.lookup p

/-- The index of `p`. -/
def get (m : Progress) (p : PeerId) : Nat := (m.recorded? p).getD m.fallback

/-- Records `i` for `p`. -/
def set (m : Progress) (p : PeerId) (i : Nat) : Progress :=
  { m with known := (p, i) :: m.known.filter (·.1 != p) }

/-- Moves `p` one position back, though never before position 1. -/
def backOff (m : Progress) (p : PeerId) : Progress := m.set p (max (m.get p - 1) 1)

/-- Records `i` for `p` unless at least as much is recorded for it already. The fallback does
not count as recorded. -/
def raise (m : Progress) (p : PeerId) (i : Nat) : Progress :=
  match m.recorded? p with
  | some j => if i ≤ j then m else m.set p i
  | none => m.set p i

theorem lookup_filter_ne {p q : PeerId} (h : q ≠ p) (l : List (PeerId × Nat)) :
    (l.filter (·.1 != p)).lookup q = l.lookup q := by
  induction l with
  | nil => rfl
  | cons e rest ih =>
    obtain ⟨r, i⟩ := e
    by_cases hr : r = p
    · subst hr
      have : (q == r) = false := by simpa using h
      simp [List.lookup_cons, this, ih]
    · simp only [List.filter_cons, bne_iff_ne, ne_eq, hr, not_false_eq_true, if_true,
        List.lookup_cons, ih]

theorem recorded?_set (m : Progress) (p q : PeerId) (i : Nat) :
    (m.set p i).recorded? q = if q = p then some i else m.recorded? q := by
  by_cases h : q = p
  · simp [recorded?, set, h]
  · have : (q == p) = false := by simpa using h
    simp [recorded?, set, List.lookup_cons, h, this, lookup_filter_ne h]

@[simp] theorem fallback_set (m : Progress) (p : PeerId) (i : Nat) :
    (m.set p i).fallback = m.fallback := rfl

theorem get_set (m : Progress) (p q : PeerId) (i : Nat) :
    (m.set p i).get q = if q = p then i else m.get q := by
  by_cases h : q = p <;> simp [get, recorded?_set, h]

@[simp] theorem get_uniform (i : Nat) (p : PeerId) : (uniform i).get p = i := rfl

/-- Puts `i` at its place in an ascending list. -/
def insertAscending (i : Nat) : List Nat → List Nat
  | [] => [i]
  | j :: rest => if i ≤ j then i :: j :: rest else j :: insertAscending i rest

/-- The numbers of a list in ascending order, repetitions kept. -/
def sortAscending (l : List Nat) : List Nat := l.foldr insertAscending []

/-- The highest index that more than half of `members` have reached, 0 if there are none. -/
def majorityIndex (m : Progress) (members : PeerSet) : Nat :=
  (sortAscending (members.toList.map m.get)).getD ((members.size + 1) / 2 - 1) 0

/-- The highest index that a quorum of `c` has reached. A joint configuration needs a majority
of either side. -/
def quorumIndex (m : Progress) : Configuration → Nat
  | .stable _ members => m.majorityIndex members
  | .joint _ old new => min (m.majorityIndex old) (m.majorityIndex new)

end Progress

end Raft
