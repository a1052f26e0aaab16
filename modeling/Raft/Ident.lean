/-!
# Names and numbers of the protocol

* `PeerId`, the identity of a cluster member or of a client endpoint;
* `Bytes`, an opaque payload;
* `Term.label` and `PeerId.label`, how the two are shown to people.

Terms (election epochs, starting at 0), log positions (0 stands before the first entry) and
milliseconds are plain natural numbers. The wire format admits those below `wordLimit` only.
-/

namespace Raft

/-- Identity of a cluster member or of a client endpoint. -/
structure PeerId where
  number : Nat
  deriving DecidableEq

/-- An opaque payload. -/
abbrev Bytes := List UInt8

/-- The first number that does not fit into a 64-bit word, 2 to the power of 64. -/
def wordLimit : Nat := 18446744073709551616

namespace PeerId

instance (n : Nat) : OfNat PeerId n := ⟨⟨n⟩⟩

instance : Inhabited PeerId := ⟨0⟩

instance : LT PeerId := ⟨fun p q => p.number < q.number⟩

instance (p q : PeerId) : Decidable (p < q) := inferInstanceAs (Decidable (p.number < q.number))

theorem lt_iff {p q : PeerId} : p < q ↔ p.number < q.number := Iff.rfl

@[simp] theorem lt_irrefl (p : PeerId) : ¬ p < p := Nat.lt_irrefl p.number

theorem lt_trans {p q r : PeerId} (h₁ : p < q) (h₂ : q < r) : p < r := Nat.lt_trans h₁ h₂

/-- Of two different peers one comes first. -/
theorem lt_of_not_lt_of_ne {p q : PeerId} (h₁ : ¬ p < q) (h₂ : p ≠ q) : q < p :=
  Nat.lt_of_le_of_ne (Nat.le_of_not_lt h₁) fun e => h₂ (by cases p; cases q; simp_all)

/-- How a peer is shown to people. -/
def label (p : PeerId) : String := s!"node-{p.number}"

end PeerId

namespace Term

/-- The epoch after `t`. -/
def next (t : Nat) : Nat := t + 1

/-- How a term is shown to people. -/
def label (t : Nat) : String := s!"term-{t}"

end Term

end Raft
