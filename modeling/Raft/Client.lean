import Raft.Fault
import Raft.Message

/-!
# Clients

A client has one call open at a time. `Call.request` is what the call sends at first,
`OpenCall.onMessage` what an arriving message means to it: nothing, another message to send, or
the end of the call.

A submitted command follows redirects to another node. An answer is taken for the answer to the
open call, whoever it was meant for.
-/

namespace Raft

/-- What a client can ask of the cluster, and through which node. -/
inductive Call
  /-- Have a command applied. -/
  | submit (via : PeerId) (command : Bytes)
  /-- Who leads? -/
  | whoLeads (via : PeerId)
  /-- Which role do you play? -/
  | askRole (node : PeerId)
  deriving DecidableEq

/-- What a call brings. -/
inductive Reply
  | applied (index : Nat) (result : Bytes)
  | leader (leader : Option PeerId)
  | role (role : Role)
  deriving DecidableEq

/-- A client's identity and how long it waits for an answer. -/
structure Client where
  id : PeerId
  timeout : Nat
  deriving DecidableEq

/-- A call that waits for its answer. `target` is the node that was asked last. -/
structure OpenCall where
  call : Call
  target : PeerId
  deadline : Nat
  deriving DecidableEq

/-- What becomes of a call: it goes on waiting, with a message to send if there is one, or it
ends. -/
inductive CallProgress
  | waiting (call : OpenCall) (request : Option Message)
  | done (result : Except Fault Reply)

namespace Call

/-- The node that is asked at first. -/
def via : Call → PeerId
  | submit via _ => via
  | whoLeads via => via
  | askRole node => node

/-- What is sent at first. -/
def request (client : PeerId) : Call → Message
  | submit _ command => .submit ⟨client, .application command⟩
  | whoLeads _ => .whoLeads
  | askRole _ => .askRole

end Call

/-- Opens a call. -/
def Client.openCall (c : Client) (now : Nat) (call : Call) : OpenCall :=
  { call, target := call.via, deadline := now + c.timeout }

/-- The wish for other members, which is not answered. -/
def membershipWish (members : PeerSet) : Message := .changeConfiguration (.stable 0 members)

namespace OpenCall

/-- The answer to a submitted command, or a redirect. -/
def onSubmitReply (o : OpenCall) : Message → CallProgress
  | .respond index result => .done (.ok (.applied index result))
  | .leaderIs leader pending =>
    match leader, pending with
    | some l, some r =>
      if l = o.target then .done (.error (.notLeader leader))
      else .waiting { o with target := l } (some (.submit r))
    | _, _ => .done (.error (.notLeader leader))
  | _ => .waiting o none

/-- A message arrives while the call is open. -/
def onMessage (o : OpenCall) (sender : PeerId) (m : Message) : CallProgress :=
  match o.call, m with
  | .submit .., m => o.onSubmitReply m
  | .whoLeads _, .leaderIs leader _ => .done (.ok (.leader leader))
  | .askRole node, .roleIs role =>
    if sender = node then .done (.ok (.role role)) else .waiting o none
  | _, _ => .waiting o none

end OpenCall

end Raft
