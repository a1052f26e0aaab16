import Raft.Fault
import Raft.PeerSet

/-!
# Settings of a node

* `Settings`, what the transition function reads;
* `Options`, everything that a running node is configured with, its timers included.

`Options.check` refuses options that a node cannot run with, and `Options.settings` picks out
what the transition function reads.
-/

namespace Raft

/-- The settings that transitions depend on. -/
structure Settings where
  /-- Peers that are probed while the membership is unknown. -/
  seeds : PeerSet := .empty
  /-- Number of members that must be known before a node takes part. -/
  membersToFind : Nat := 3
  /-- The most entries in one message. -/
  batchSize : Nat := 1000
  /-- Committed live entries that set off a compaction, 0 for never. -/
  compactionThreshold : Nat := 1000
  deriving DecidableEq

instance : Inhabited Settings := ⟨{}⟩

/-- What a running node is configured with. Times are in milliseconds. -/
structure Options where
  id : PeerId := 1
  /-- Seeds in the order in which they were added. -/
  peers : List PeerId := []
  electionMin : Nat := 2000
  electionMax : Nat := 3000
  heartbeatInterval : Nat := 1000
  discoveryInterval : Nat := 10000
  membersToFind : Nat := 3
  batchSize : Nat := 1000
  compactionThreshold : Nat := 1000
  inboxCapacity : Nat := 1024
  deriving DecidableEq

namespace Options

instance : Inhabited Options := ⟨{}⟩

/-- Adds a seed. -/
def addPeer (o : Options) (p : PeerId) : Options := { o with peers := o.peers ++ [p] }

/-- Refuses options that a node cannot run with. Of several faults the first in this order is
reported. -/
def check (o : Options) : Except OptionsFault Unit :=
  if o.electionMin = 0 ∨ o.electionMax < o.electionMin then
    .error (.electionRange o.electionMin o.electionMax)
  else if o.heartbeatInterval = 0 ∨ o.electionMin ≤ o.heartbeatInterval then
    .error (.heartbeat o.heartbeatInterval)
  else if o.discoveryInterval = 0 then .error .discovery
  else if o.batchSize = 0 then .error .batch
  else if o.inboxCapacity = 0 then .error .inbox
  else .ok ()

/-- The settings that transitions depend on. -/
def settings (o : Options) : Settings where
  seeds := .ofList o.peers
  membersToFind := o.membersToFind
  batchSize := o.batchSize
  compactionThreshold := o.compactionThreshold

end Options

end Raft
