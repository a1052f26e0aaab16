import Raft.Node.Step
import Raft.SnapshotStore
import Raft.StateMachine
import Raft.TimerSet

/-!
# Running nodes

A `Replica` is a node with what it drives: its timers, the application's state machine and the
snapshot store. `Replica.handle` has the node process an input and carries out the effects in
order. A step that is given up changes nothing and has no effects.

The outcome is a `Stir`: the replica after it, the packets that it sent, and the inputs that will
come back to it, namely the outcome of a capture.
-/

namespace Raft

/-- A message on its way. -/
structure Packet where
  sender : PeerId
  receiver : PeerId
  message : Message
  deriving DecidableEq

/-- When something happens, with the number that random choices are made by. -/
structure Moment where
  now : Nat
  pick : Nat := 0
  deriving DecidableEq

/-- How long a timer runs. -/
def Options.delay (o : Options) (pick : Nat) : Timer → Nat
  | .election => (electionTimeout? o.electionMin o.electionMax pick).getD o.electionMin
  | .heartbeat => o.heartbeatInterval
  | .discovery => o.discoveryInterval

/-- A running node. -/
structure Replica (σ : Type) where
  options : Options
  node : Node
  timers : TimerSet := {}
  state : σ
  store : SnapshotStore := {}

/-- A replica that has just been active. -/
structure Stir (σ : Type) where
  replica : Replica σ
  packets : List Packet := []
  inputs : List Input := []

variable {σ : Type}

namespace Replica

/-- A node with the given options, which may continue from an earlier state. It does nothing
before it is started. -/
def create (o : Options) (earlier : Option Node) (state : σ) : Except OptionsFault (Replica σ) := do
  o.check
  let node := earlier.getD (.fresh o.id o.settings)
  if node.id = o.id then return { options := o, node, state }
  else throw (.foreignState node.id o.id)

/-- Replaces the application's state by that of a snapshot, if that is possible. -/
def restore [StateMachine σ] (r : Replica σ) (s : Snapshot) : Replica σ :=
  match StateMachine.restore r.state s.data with
  | .ok state => { r with state }
  | .error _ => r

/-- Starts a timer anew. -/
def arm (r : Replica σ) (moment : Moment) (timer : Timer) : Replica σ :=
  { r with timers := r.timers.arm timer moment.now (r.options.delay moment.pick timer) }

end Replica

namespace Stir

/-- Sends a packet. -/
def send (s : Stir σ) (p : Packet) : Stir σ := { s with packets := s.packets ++ [p] }

/-- Applies a committed command, and answers its client if that is asked for. -/
def apply [StateMachine σ] (s : Stir σ) (e : Entry) (respond : Bool) : Stir σ :=
  match e.command with
  | .application payload =>
    let (state, result) := StateMachine.apply s.replica.state payload
    let s := { s with replica := { s.replica with state } }
    match respond, e.client with
    | true, some client => s.send ⟨s.replica.node.id, client, .respond e.index result⟩
    | _, _ => s
  | _ => s

/-- Captures the application's state and hands it to the store. The outcome comes back to the
node. -/
def capture [StateMachine σ] (s : Stir σ) (about : SnapshotMeta) : Stir σ :=
  match StateMachine.capture s.replica.state with
  | .ok data =>
    let (store, snapshot) := s.replica.store.prepare about data
    { s with
      replica := { s.replica with store }
      inputs := s.inputs ++ [.snapshotPrepared snapshot] }
  | .error e => { s with inputs := s.inputs ++ [.snapshotFailed (Fault.snapshot e).message] }

/-- Carries out one effect. -/
def execute [StateMachine σ] (moment : Moment) (s : Stir σ) : Effect → Stir σ
  | .send receiver m => s.send ⟨s.replica.node.id, receiver, m⟩
  | .forward sender receiver m => s.send ⟨sender, receiver, m⟩
  | .arm timer => { s with replica := s.replica.arm moment timer }
  | .cancel timer =>
    { s with replica := { s.replica with timers := s.replica.timers.cancel timer } }
  | .apply e respond => s.apply e respond
  | .restore snapshot => { s with replica := s.replica.restore snapshot }
  | .prepareSnapshot about => s.capture about

end Stir

namespace Replica

variable [StateMachine σ]

/-- Processes one input. -/
def handle (r : Replica σ) (moment : Moment) (input : Input) : Stir σ :=
  match step r.node input with
  | .ok (node, effects) => effects.foldl (Stir.execute moment) { replica := { r with node } }
  | .error _ => { replica := r }

/-- Starts a node. One that does not know the cluster yet starts to look for it at once. -/
def start (r : Replica σ) (moment : Moment) : Stir σ :=
  let r := match r.node.log.snapshot with
    | some s => r.restore s
    | none => r
  match r.node.role with
  | .init => r.handle moment (.timeout .discovery)
  | .follower => { replica := r.arm moment .election }
  | .candidate => { replica := r.arm moment .election }
  | .leader => { replica := r.arm moment .heartbeat }

/-- Handles the timer that has run out first, if one has. It is stopped before. -/
def fire? (r : Replica σ) (moment : Moment) : Option (Stir σ) :=
  match r.timers.next? with
  | some (timer, deadline) =>
    if deadline ≤ moment.now then
      some ({ r with timers := r.timers.cancel timer }.handle moment (.timeout timer))
    else none
  | none => none

end Replica

end Raft
