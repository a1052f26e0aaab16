import Raft.CommandLine.Arguments
import Raft.Simulation.Script

/-!
# A local cluster

`runCluster` boots a cluster inside the program, has a client replicate commands through it, and
reports the state of each node. Time is simulated, and what is sent arrives within the
millisecond.
-/

namespace Raft.CommandLine

/-- Why no cluster could be run. -/
inductive ClusterFault
  | noNodes
  | options (cause : OptionsFault)
  deriving DecidableEq

/-- The state of a node in the end. -/
structure NodeReport where
  id : PeerId
  role : Role
  term : Nat
  leader : Option PeerId
  commitIndex : Nat
  lastIndex : Nat
  snapshotIndex : Nat
  applied : Nat
  deriving DecidableEq

/-- The state of the cluster in the end. -/
structure ClusterReport where
  committed : Nat
  nodes : List NodeReport
  deriving DecidableEq

/-- The identity of the client. Those of the nodes start at 1. -/
def clientId : PeerId := 0

/-- How long the client waits for an answer. -/
def clientTimeout : Nat := 2000

/-- How long the client waits after a failure before it tries another node. -/
def retryPause : Nat := 100

/-- The identities of the nodes. -/
def Plan.ids (p : Plan) : List PeerId := (List.range p.nodes).map fun i => ⟨i + 1⟩

/-- The options of a node. -/
def Plan.options (p : Plan) (id : PeerId) : Options where
  id := id
  peers := p.ids.filter (· != id)
  electionMin := p.electionMin
  electionMax := p.electionMax
  heartbeatInterval := p.heartbeat
  discoveryInterval := p.heartbeat * 5
  membersToFind := p.nodes
  compactionThreshold := p.compactionThreshold

/-- What random choices are made by. Nodes differ, and so do the rounds of an election. -/
def chance (id : PeerId) (now : Nat) : Nat := 97 * id.number + 31 * now

/-- The most packets that arrive within a millisecond. -/
def trafficLimit : Nat := 100000

/-- Lets everything that was sent arrive. -/
def arrive (s : Simulation) : Simulation := (s.run trafficLimit).2

/-- Lets time pass, and everything arrive that is sent in it. -/
def sleep : Nat → Simulation → Simulation
  | 0, s => s
  | ms + 1, s => sleep ms (arrive s.tick)

/-- Waits for the client's call to end, up to some time. -/
def awaitCall : Nat → Simulation → Simulation × Option (Except Fault Reply)
  | 0, s => (s, s.ended.head?.map (·.result))
  | ms + 1, s =>
    match s.ended with
    | e :: _ => (s, some e.result)
    | [] => awaitCall ms (arrive s.tick)

/-- The node after `via`, in a circle. -/
def nextNode (p : Plan) (via : PeerId) : PeerId :=
  if via ∈ p.ids then ⟨via.number % p.nodes + 1⟩ else 1

/-- The command with a number, counted from 1. -/
def commandText (k : Nat) : Bytes := Json.Utf8.encode s!"message-{k}"

/-- Submits commands through whichever node claims to lead, with a bounded number of attempts. The
result says how many were committed. -/
def replicate (p : Plan) : Nat → PeerId → Nat → Simulation → Nat × Simulation
  | 0, _, committed, s => (committed, s)
  | attempts + 1, via, committed, s =>
    if p.commands ≤ committed then (committed, s)
    else
      let s := arrive (s.clearRecord.addCall clientId (.submit via (commandText (committed + 1))))
      match awaitCall (clientTimeout + 1) s with
      | (s, some (.ok _)) => replicate p attempts via (committed + 1) s
      | (s, some (.error (.notLeader (some leader)))) => replicate p attempts leader committed s
      | (s, _) => replicate p attempts (nextNode p via) committed (sleep retryPause s)

/-- The state of a member in the end. -/
def reportOf (m : Member) : NodeReport :=
  let n := m.replica.node
  { id := n.id
    role := n.role
    term := n.term
    leader := n.leaderHint
    commitIndex := n.log.committed
    lastIndex := n.log.lastIndex
    snapshotIndex := n.log.prevIndex
    applied := (m.replica.state.applied?.getD []).length }

/-- Runs a cluster. In the end the last commit index has time to reach every node. -/
def runCluster (p : Plan) : Except ClusterFault ClusterReport := do
  if p.nodes = 0 then throw .noNodes
  let boot (s : Simulation) (id : PeerId) : Except ClusterFault Simulation :=
    match s.startNode (p.options id) none (.recorder {}) with
    | .ok s => return s
    | .error e => throw (.options e)
  let s ← p.ids.foldlM boot { chance }
  let s := arrive (s.addClient ⟨clientId, clientTimeout⟩ true)
  let (committed, s) := replicate p (p.commands * 20 + 50) 1 0 s
  let s := sleep (p.heartbeat * 2) s
  return { committed, nodes := s.members.map fun e => reportOf e.2 }

end Raft.CommandLine
