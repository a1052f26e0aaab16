import Raft.Node.Turn

/-!
# Finding the cluster and changing its members

* `Turn.onDiscoveryTimeout`, a node without a configuration looks for others;
* `Turn.addMember`, it has found one;
* `Turn.joinLeader`, a leader has found it;
* `Turn.onChangeConfiguration`, a configuration arrives: the answer to a node's own question, or
  the wish of a client;
* `Turn.onRequestConfiguration`, another node asks for the configuration.
-/

namespace Raft

namespace Turn

/-- Looks for the seeds. A node without any other seed counts itself as found. -/
def onDiscoveryTimeout (t : Turn) : Turn :=
  let seeds := t.node.settings.seeds.toList.filter (· != t.node.id)
  let t :=
    if seeds.isEmpty then t.enqueue (.memberAdded t.node.id t.node.settings.membersToFind) else t
  (seeds.foldl (fun t p => t.send p .discover) t).arm .discovery

/-- Another node answers to the search. -/
def onDiscovered (t : Turn) (member : PeerId) : Turn :=
  if t.node.role = .init then t.enqueue (.memberAdded member t.node.settings.membersToFind) else t

/-- Adds a member to the provisional configuration. The node takes part once enough are known. -/
def addMember (t : Turn) (member : PeerId) (required : Nat) : Turn :=
  if t.node.role = .init then
    let members := (t.node.members.insert t.node.id).insert member
    let t := t.withStanding (·.reconfigure (.stable 0 members))
    if required ≤ members.size then t.goto .follower else t
  else t

/-- A leader has reached a node that is still looking for the cluster. The node asks it for the
configuration and waits for the answer as a candidate. -/
def joinLeader (t : Turn) (leader : PeerId) : Turn :=
  let t := t.send leader .requestConfiguration
  { t with node := { t.node with configAskedOf := some leader } }.goto .candidate

/-- Puts a configuration in force that did not come with the log. -/
def join (t : Turn) (c : Configuration) : Turn :=
  (t.withStanding (·.reconfigure c)).goto .follower

/-- A node that does not lead receives a configuration. It is meant for the node if the node has
asked the sender for it or has no members, and otherwise for the leader. -/
def receiveConfiguration (t : Turn) (sender : PeerId) (c : Configuration) : Turn :=
  let unconfigured := t.node.members.isEmpty
  if unconfigured ∨ t.node.configAskedOf = some sender then
    let t := { t with node := { t.node with configAskedOf := none } }
    if unconfigured ∨ c.isNewerThan t.node.config then t.join c else t
  else if c = t.node.config then t
  else
    match t.node.leaderHint with
    | some leader => t.forward sender leader (.changeConfiguration c)
    | none => t

/-- A configuration arrives. A leader takes it as the wish to change to its members, unless a
change is in progress. -/
def onChangeConfiguration (t : Turn) (sender : PeerId) (c : Configuration) : Turn :=
  match t.node.role with
  | .init => t.join c
  | .leader =>
    if t.node.config.isJoint then t
    else t.enqueue (.submit ⟨t.node.id, .configuration (t.node.config.transitionTo c)⟩)
  | _ => t.receiveConfiguration sender c

/-- Another node asks for the configuration, which is for the leader to tell. -/
def onRequestConfiguration (t : Turn) (sender : PeerId) : Turn :=
  match t.node.role with
  | .leader => t.send sender (.changeConfiguration t.node.config)
  | _ =>
    match t.node.leaderHint with
    | some leader => t.forward sender leader .requestConfiguration
    | none => t

end Turn

end Raft
