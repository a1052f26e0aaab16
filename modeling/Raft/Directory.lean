import Raft.Ident

/-!
# Tables by peer

A `Directory α` lists peers in ascending order, each with a value.
-/

namespace Raft

/-- A value for each of some peers, in ascending order. -/
abbrev Directory (α : Type) := List (PeerId × α)

namespace Directory

variable {α : Type}

/-- The value of a peer. -/
def find? (d : Directory α) (p : PeerId) : Option α := d.lookup p

/-- Gives a peer a value, in place of the present one if there is one. -/
def put (d : Directory α) (p : PeerId) (x : α) : Directory α :=
  match d with
  | [] => [(p, x)]
  | (q, y) :: rest =>
    if p < q then (p, x) :: (q, y) :: rest
    else if p = q then (p, x) :: rest
    else (q, y) :: put rest p x

end Directory

end Raft
