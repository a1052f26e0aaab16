import Raft.Simulation

/-!
# What can be done to a simulated cluster

Nodes are started and stopped, inputs submitted, packets of the queue delivered, duplicated and
lost, links cut, clients created and given calls. Each function lets everybody react before it
returns.
-/

namespace Raft.Simulation

/-! ### Nodes -/

/-- Starts a node, in place of one with the same identity. -/
def startNode (s : Simulation) (o : Options) (earlier : Option Node) (service : Service) :
    Except OptionsFault Simulation := do
  let replica ← Replica.create o earlier service
  let network := match s.members.find? o.id with
    | some m => s.network.close m.inbox
    | none => s.network
  let (network, inbox) := network.openInbox o.inboxCapacity
  let s := { s with network := network.register o.id inbox }
  return (s.absorb o.id { replica, inbox } (replica.start (s.moment o.id))).react

/-- Stops a node, which keeps its state. -/
def stopNode (s : Simulation) (id : PeerId) : Simulation :=
  match s.members.find? id with
  | some m =>
    { s with
      network := s.network.close m.inbox
      members := s.members.put id { m with running := false } }.react
  | none => s

/-- Gives a running node an input of its own. -/
def submitInput (s : Simulation) (id : PeerId) (input : Input) : Except Fault Simulation :=
  match s.members.find? id with
  | some m =>
    if m.running then return { s with network := s.network.push m.inbox [input] }.react
    else throw (.channelClosed id)
  | none => throw (.channelClosed id)

/-- Takes a node or a client off the network. -/
def unregister (s : Simulation) (id : PeerId) : Simulation :=
  { s with network := s.network.unregister id }.react

/-! ### Links -/

/-- Does something with the link of every pair of a peer of one list and a peer of another. -/
def forLinks (s : Simulation) (ps qs : List PeerId) (f : Network → PeerId → PeerId → Network) :
    Simulation :=
  { s with network := ps.foldl (fun n p => qs.foldl (fun n q => f n p q) n) s.network }

/-- Cuts the links between two groups. -/
def disconnect (s : Simulation) (ps qs : List PeerId) : Simulation :=
  s.forLinks ps qs Network.disconnect

/-- Restores the links between two groups. -/
def reconnect (s : Simulation) (ps qs : List PeerId) : Simulation :=
  s.forLinks ps qs Network.reconnect

/-! ### The queue -/

/-- The packet at a position of the queue, counted around it. -/
def pick? (s : Simulation) (k : Nat) : Option (Packet × Nat) :=
  let i := k % s.queue.length
  s.queue[i]?.map (·, i)

/-- Delivers a packet of the queue. -/
def deliverAt (s : Simulation) (k : Nat) : Option (Packet × Simulation) :=
  (s.pick? k).map fun (p, i) => (p, { s with queue := s.queue.eraseIdx i }.handOver p)

/-- Delivers a packet of the queue and leaves it there. -/
def duplicateAt (s : Simulation) (k : Nat) : Option (Packet × Simulation) :=
  (s.pick? k).map fun (p, _) => (p, s.handOver p)

/-- Loses a packet of the queue. -/
def dropAt (s : Simulation) (k : Nat) : Option (Packet × Simulation) :=
  (s.pick? k).map fun (p, i) => (p, { s with queue := s.queue.eraseIdx i })

/-- Delivers the first packet of the queue, up to some number of times. The result says how
often. -/
def run : Nat → Simulation → Nat × Simulation
  | 0, s => (0, s)
  | n + 1, s =>
    match s.queue with
    | [] => (0, s)
    | p :: rest =>
      let (count, s) := run n ({ s with queue := rest }.handOver p)
      (count + 1, s)

/-- Loses all packets of the queue. The result says how many. -/
def flushQueue (s : Simulation) : Nat × Simulation := (s.queue.length, { s with queue := [] })

/-! ### Clients -/

/-- The capacity of a client's inbox. -/
def clientInbox : Nat := 64

/-- Creates a client. The calls of one with the same identity end because its inbox closes. -/
def addClient (s : Simulation) (client : Client) (direct : Bool) : Simulation :=
  let s := if (s.patrons.find? client.id).isSome then s.unregister client.id else s
  let (network, inbox) := s.network.openInbox clientInbox
  { s with
    network := network.register client.id inbox
    patrons := s.patrons.put client.id { client, inbox, direct } }

/-- Gives a client a call. It is opened when the calls before it have ended. -/
def addCall (s : Simulation) (client : PeerId) (call : Call) : Simulation :=
  match s.patrons.find? client with
  | some p =>
    let p := { p with waiting := p.waiting ++ [(s.nextCall, call)] }
    { s with patrons := s.patrons.put client p, nextCall := s.nextCall + 1 }.react
  | none => s

/-- A client wishes for other members. -/
def changeMembers (s : Simulation) (client via : PeerId) (members : PeerSet) : Simulation :=
  match s.patrons.find? client with
  | some p => (s.sendFrom p via (membershipWish members)).react
  | none => s

end Raft.Simulation
