import Raft.Node

/-!
# A transition in progress

A `Turn` is a node in the middle of processing an input: its state so far, the effects asked for
so far, the inputs that are still to be processed in the same transition, and the assertions of
the log that did not hold so far. Handlers are functions on turns. Those that can break an
internal contract return an `Except Violation Turn`.

* `emit` and its kin add an effect at the end;
* `redeliver` and `enqueue` add an input before and behind the pending ones;
* `appendEntry` and `mergeEntries` change the log and check what it asserts;
* `goto` changes the role, `stepDown` returns to the role of follower, and `stepDownTo` does so in
  a term that must not be lower than the present one.
-/

namespace Raft

/-- A transition in progress. -/
structure Turn where
  node : Node
  effects : List Effect := []
  pending : List Input := []
  /-- Failed assertions. They have no influence on the transition. -/
  lapses : List Log.Lapse := []
  deriving DecidableEq

namespace Turn

/-- Asks for an effect. -/
def emit (t : Turn) (e : Effect) : Turn := { t with effects := t.effects ++ [e] }

/-- Sends a message. -/
def send (t : Turn) (receiver : PeerId) (m : Message) : Turn := t.emit (.send receiver m)

/-- Passes a message on in the name of its sender. -/
def forward (t : Turn) (sender receiver : PeerId) (m : Message) : Turn :=
  t.emit (.forward sender receiver m)

/-- Starts a timer anew. -/
def arm (t : Turn) (timer : Timer) : Turn := t.emit (.arm timer)

/-- Stops a timer. -/
def cancel (t : Turn) (timer : Timer) : Turn := t.emit (.cancel timer)

/-- Processes a message next. -/
def redeliver (t : Turn) (sender : PeerId) (m : Message) : Turn :=
  { t with pending := .message sender m :: t.pending }

/-- Processes a message from the node to itself after all that is pending. -/
def enqueue (t : Turn) (m : Message) : Turn :=
  { t with pending := t.pending ++ [.message t.node.id m] }

/-- Changes the standing. -/
def withStanding (t : Turn) (f : Standing → Standing) : Turn :=
  { t with node := { t.node with standing := f t.node.standing } }

/-- Changes the log. -/
def withLog (t : Turn) (f : Log → Log) : Turn :=
  { t with node := { t.node with log := f t.node.log } }

/-- Adds an entry at the end of the log. -/
def appendEntry (t : Turn) (e : Entry) : Turn :=
  { t.withLog (·.append e) with lapses := t.lapses ++ t.node.log.appendLapses e }

/-- Merges a leader's batch into the log. -/
def mergeEntries (t : Turn) (batch : List Entry) (after : Nat) : Turn :=
  { t.withLog (·.merge batch after) with
    lapses := t.lapses ++ t.node.log.mergeLapses batch after }

/-- Stops the timer that belongs to the role left, and drops the votes of a candidacy. -/
def leaveRole (t : Turn) : Turn :=
  match t.node.role with
  | .init => t.cancel .discovery
  | .follower => t
  | .candidate => { t with node := { t.node with granted := .empty } }
  | .leader => t.cancel .heartbeat

/-- Takes up a role. A follower and a candidate wait for an election, a leader does not. -/
def enterRole (t : Turn) (role : Role) : Turn :=
  let t := { t with node := { t.node with role := role } }
  match role with
  | .init => t
  | .follower => t.arm .election
  | .candidate => t.arm .election
  | .leader => t.cancel .election

/-- Changes the role. The present role is not entered anew. -/
def goto (t : Turn) (role : Role) : Turn :=
  if t.node.role = role then t else t.leaveRole.enterRole role

/-- Becomes a follower, in a newer term if that is what the occasion is. -/
def stepDown (t : Turn) (term : Nat) : Turn :=
  (t.withStanding fun s => (s.advanceTo term).resign).goto .follower

/-- Becomes a follower in a term that must not be lower than the present one. -/
def stepDownTo (t : Turn) (term : Nat) : Except Violation Turn :=
  (t.node.standing.adopt term).map fun _ => t.stepDown term

/-- Puts a configuration in force that the log carries, and remembers what was in force before
the log carried any. -/
def useConfig (t : Turn) (c : Configuration) : Turn :=
  { t with
    node := { t.node with
      initialConfig := t.node.initialConfig.or (some t.node.config)
      standing := t.node.standing.reconfigure c } }

end Turn

end Raft
