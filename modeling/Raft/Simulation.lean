import Raft.Client
import Raft.Directory
import Raft.Network
import Raft.Replica

/-!
# A simulated cluster

A `Simulation` runs replicas and clients on a clock that moves only when it is told to. What they
send waits in one queue until a packet of it is handed to the network, so that every order of
delivery, loss and duplication can be played through.

* `settle` lets everybody who has something to do do it, until nothing happens any more;
* `handOver` delivers a packet and settles;
* `tick` lets one millisecond pass.

A direct client does not use the queue: its packets go to the network at once.
-/

namespace Raft

/-- The applications that simulated replicas run. -/
inductive Service
  | recorder (state : Recorder)
  | defective (state : Defective)

namespace Service

/-- The commands that a recorder has applied. -/
def applied? : Service → Option (List Bytes)
  | recorder r => some r.applied
  | defective _ => none

instance : StateMachine Service where
  apply
    | recorder r, command =>
      let (r, reply) := StateMachine.apply r command
      (recorder r, reply)
    | defective d, command =>
      let (d, reply) := StateMachine.apply d command
      (defective d, reply)
  capture
    | recorder r => StateMachine.capture r
    | defective d => StateMachine.capture d
  restore
    | recorder r, data => (StateMachine.restore r data).map recorder
    | defective d, data => (StateMachine.restore d data).map defective

end Service

/-- A replica with its inbox. One that was stopped stays as it is. -/
structure Member where
  replica : Replica Service
  inbox : Nat
  running : Bool := true

/-- A client with its inbox, its open call and the calls that wait for it to end. Calls have
numbers. -/
structure Patron where
  client : Client
  inbox : Nat
  direct : Bool := false
  current : Option (Nat × OpenCall) := none
  waiting : List (Nat × Call) := []

/-- A call that has ended. -/
structure Ended where
  client : PeerId
  number : Nat
  result : Except Fault Reply

/-- Everything in the simulated world. -/
structure Simulation where
  clock : Nat := 0
  network : Network := {}
  members : Directory Member := []
  patrons : Directory Patron := []
  /-- Packets that wait to be delivered. -/
  queue : List Packet := []
  /-- Packets that were sent but are not in the queue yet. -/
  outbox : List Packet := []
  /-- Packets that were sent since the record was last cleared. -/
  sent : List Packet := []
  /-- Calls that ended since the record was last cleared. -/
  ended : List Ended := []
  /-- The number of the next call. -/
  nextCall : Nat := 0
  /-- What random choices are made by, for each node and time. -/
  chance : PeerId → Nat → Nat := fun _ _ => 0

namespace Simulation

instance : Inhabited Simulation := ⟨{}⟩

/-! ### Nodes -/

/-- Present time, with what a node's random choices are made by. -/
def moment (s : Simulation) (id : PeerId) : Moment where
  now := s.clock
  pick := s.chance id s.clock

/-- Takes in what a replica did. Inputs that come back to it go into its inbox. -/
def absorb (s : Simulation) (id : PeerId) (m : Member) (stir : Stir Service) : Simulation :=
  { s with
    network := s.network.push m.inbox stir.inputs
    members := s.members.put id { m with replica := stir.replica }
    outbox := s.outbox ++ stir.packets }

/-- A running member processes the first input in its inbox, or else its timer that has run out
first. -/
def stirMember? (s : Simulation) (id : PeerId) (m : Member) : Option Simulation :=
  if m.running then
    match s.network.receive m.inbox with
    | (network, .input input) =>
      some ({ s with network }.absorb id m (m.replica.handle (s.moment id) input))
    | (_, _) => (m.replica.fire? (s.moment id)).map (s.absorb id m)
  else none

/-! ### Clients -/

/-- A client sends a message. -/
def sendFrom (s : Simulation) (p : Patron) (receiver : PeerId) (m : Message) : Simulation :=
  if p.direct then { s with network := s.network.deliver p.client.id receiver m }
  else { s with outbox := s.outbox ++ [⟨p.client.id, receiver, m⟩] }

/-- Ends a client's open call. -/
def endCall (s : Simulation) (p : Patron) (number : Nat) (result : Except Fault Reply) :
    Simulation :=
  { s with
    patrons := s.patrons.put p.client.id { p with current := none }
    ended := s.ended ++ [⟨p.client.id, number, result⟩] }

/-- Takes in what an arriving message meant to the open call. -/
def absorbProgress (s : Simulation) (p : Patron) (number : Nat) : CallProgress → Simulation
  | .done result => s.endCall p number result
  | .waiting o request =>
    let p := { p with current := some (number, o) }
    let s := { s with patrons := s.patrons.put p.client.id p }
    match request with
    | some m => s.sendFrom p o.target m
    | none => s

/-- The open call of a client reads the first input in the inbox. It ends when the inbox is
closed or the time is over. -/
def stirCall? (s : Simulation) (p : Patron) (number : Nat) (o : OpenCall) : Option Simulation :=
  match s.network.receive p.inbox with
  | (network, .input (.message sender m)) =>
    some ({ s with network }.absorbProgress p number (o.onMessage sender m))
  | (network, .input _) => some { s with network }
  | (_, .disconnected) => some (s.endCall p number (.error (.channelClosed p.client.id)))
  | (_, .empty) =>
    if o.deadline ≤ s.clock then some (s.endCall p number (.error (.timeout p.client.id)))
    else none

/-- A client goes on with its open call, or opens the next one. -/
def stirPatron? (s : Simulation) (p : Patron) : Option Simulation :=
  match p.current, p.waiting with
  | some (number, o), _ => s.stirCall? p number o
  | none, (number, call) :: rest =>
    let o := p.client.openCall s.clock call
    let p := { p with current := some (number, o), waiting := rest }
    some ({ s with patrons := s.patrons.put p.client.id p }.sendFrom p o.target
      (call.request p.client.id))
  | none, [] => none

/-! ### Settling -/

/-- Lets one of those who have something to do do it, nodes before clients and lower numbers
first. -/
def stir? (s : Simulation) : Option Simulation :=
  (s.members.findSome? fun e => s.stirMember? e.1 e.2).or
    (s.patrons.findSome? fun e => s.stirPatron? e.2)

/-- A bound on how often somebody has something to do: waiting inputs, calls and timers, each
with what can follow from it. -/
def load (s : Simulation) : Nat :=
  let inputs := s.network.inboxes.foldl (fun n b => n + b.waiting.length) 0
  let calls := s.patrons.foldl (fun n e => n + e.2.waiting.length + 1) 0
  4 * (inputs + calls + 3 * s.members.length) + 4

/-- Lets everybody who has something to do do it, as long as the budget lasts. -/
def settleWithin : Nat → Simulation → Simulation
  | 0, s => s
  | budget + 1, s =>
    match s.stir? with
    | some s => settleWithin budget s
    | none => s

/-- Lets everybody who has something to do do it. -/
def settle (s : Simulation) : Simulation := s.settleWithin s.load

/-- Puts what was sent into the queue. -/
def flushOutbox (s : Simulation) : Simulation :=
  { s with queue := s.queue ++ s.outbox, sent := s.sent ++ s.outbox, outbox := [] }

/-- Settles, and puts what was sent into the queue. -/
def react (s : Simulation) : Simulation := s.settle.flushOutbox

/-- Delivers a packet and lets everybody react to it. -/
def handOver (s : Simulation) (p : Packet) : Simulation :=
  { s with network := s.network.deliver p.sender p.receiver p.message }.react

/-- The calls on record that ended, in the order in which they were made. -/
def endedInOrder (s : Simulation) : List Ended :=
  s.ended.mergeSort fun a b => decide (a.number ≤ b.number)

/-- Clears the record of what was sent and which calls ended. -/
def clearRecord (s : Simulation) : Simulation := { s with sent := [], ended := [] }

/-! ### Time -/

/-- Puts a packet behind those whose sender does not come later. -/
def insertBySender (p : Packet) : List Packet → List Packet
  | [] => [p]
  | q :: rest => if p.sender < q.sender then p :: q :: rest else q :: insertBySender p rest

/-- The packets in the order of their senders, and those of one sender in their present order. -/
def sortBySender (ps : List Packet) : List Packet :=
  ps.foldl (fun sorted p => insertBySender p sorted) []

/-- Lets one millisecond pass. What is sent in it enters the queue in the order of the senders. -/
def tick (s : Simulation) : Simulation :=
  let s := { s with clock := s.clock + 1 }.settle
  { s with outbox := sortBySender s.outbox }.flushOutbox

/-- Lets time pass. -/
def advance : Nat → Simulation → Simulation
  | 0, s => s
  | ms + 1, s => advance ms s.tick

end Simulation

end Raft
