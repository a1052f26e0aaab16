import Raft.Entry

/-!
# The snapshot store

A `SnapshotStore` keeps the newest snapshot. One that covers no more than the snapshot it has is
not taken.
-/

namespace Raft

/-- Keeps the newest snapshot. -/
structure SnapshotStore where
  latest : Option Snapshot := none
  deriving DecidableEq

namespace SnapshotStore

instance : Inhabited SnapshotStore := ⟨{}⟩

/-- Makes a snapshot of captured data and keeps it. There is none if the store has one that
covers as much. -/
def prepare (store : SnapshotStore) (about : SnapshotMeta) (data : Bytes) :
    SnapshotStore × Option Snapshot :=
  let taken := match store.latest with
    | some s => decide (s.about.index < about.index)
    | none => true
  if taken then ({ latest := some ⟨about, data⟩ }, some ⟨about, data⟩) else (store, none)

end SnapshotStore

end Raft
