import Raft.Message

/-!
# The local network

A `Network` connects the inboxes of nodes and clients. An inbox is a bounded queue. It is known by
its number, and stays readable when another one takes its place as the endpoint of a peer.

* `deliver` puts a message at the end of the receiver's inbox. Nothing is reported when that is
  not possible: the link is cut, nobody is registered, the inbox is full or closed;
* `disconnect` cuts the link between two peers in both directions;
* `receive` takes the first waiting input.

`Hub` adds one inbox for each peer, addressed by the peer.
-/

namespace Raft

/-- A bounded queue of inputs. It is closed once nobody can read it any more. -/
structure Inbox where
  capacity : Nat
  waiting : List Input := []
  closed : Bool := false
  deriving DecidableEq

/-- Puts an input at the end of an inbox that is open and not full. -/
def Inbox.offer (b : Inbox) (input : Input) : Inbox :=
  if b.closed = false ∧ b.waiting.length < b.capacity then
    { b with waiting := b.waiting ++ [input] }
  else b

/-- What reading an inbox brings. -/
inductive Reception
  | input (input : Input)
  | empty
  /-- Nothing waits, and nothing can come any more. -/
  | disconnected
  deriving DecidableEq

/-- Inboxes, who is reached through them, and which links are cut. -/
structure Network where
  /-- The inboxes by their numbers. -/
  inboxes : List Inbox := []
  /-- The number of the inbox through which a peer is reached. -/
  endpoints : List (PeerId × Nat) := []
  /-- The directed links that are cut. -/
  severed : List (PeerId × PeerId) := []
  deriving DecidableEq

namespace Network

instance : Inhabited Network := ⟨{}⟩

/-- A new inbox, which nobody is reached through yet, and its number. -/
def openInbox (n : Network) (capacity : Nat) : Network × Nat :=
  ({ n with inboxes := n.inboxes ++ [{ capacity }] }, n.inboxes.length)

/-- Changes the inbox with a number. -/
def modifyInbox (n : Network) (k : Nat) (f : Inbox → Inbox) : Network :=
  { n with inboxes := n.inboxes.modify k f }

/-- Lets a peer be reached through an inbox, and through no other one any more. -/
def register (n : Network) (p : PeerId) (k : Nat) : Network :=
  { n with endpoints := (p, k) :: n.endpoints.filter (·.1 != p) }

/-- Lets a peer not be reached any more. -/
def unregister (n : Network) (p : PeerId) : Network :=
  { n with endpoints := n.endpoints.filter (·.1 != p) }

/-- Closes an inbox to further inputs. -/
def close (n : Network) (k : Nat) : Network := n.modifyInbox k ({ · with closed := true })

/-- Cuts the link between two peers. -/
def disconnect (n : Network) (p q : PeerId) : Network :=
  { n with severed := (p, q) :: (q, p) :: n.severed }

/-- Restores the link between two peers. -/
def reconnect (n : Network) (p q : PeerId) : Network :=
  { n with severed := n.severed.filter fun link => link != (p, q) && link != (q, p) }

/-- Whether messages pass from one peer to another. -/
def isConnected (n : Network) (sender receiver : PeerId) : Bool :=
  !n.severed.contains (sender, receiver)

/-- Puts an input at the end of an inbox. -/
def offer (n : Network) (k : Nat) (input : Input) : Network := n.modifyInbox k (·.offer input)

/-- Puts inputs at the end of an inbox, even if it is full or closed. -/
def push (n : Network) (k : Nat) (inputs : List Input) : Network :=
  n.modifyInbox k fun b => { b with waiting := b.waiting ++ inputs }

/-- Delivers a message, if that is possible. -/
def deliver (n : Network) (sender receiver : PeerId) (m : Message) : Network :=
  if n.isConnected sender receiver then
    match n.endpoints.lookup receiver with
    | some k => n.offer k (.message sender m)
    | none => n
  else n

/-- Takes the first waiting input of an inbox. -/
def receive (n : Network) (k : Nat) : Network × Reception :=
  match n.inboxes[k]? with
  | none => (n, .disconnected)
  | some b =>
    match b.waiting with
    | input :: rest => (n.modifyInbox k ({ · with waiting := rest }), .input input)
    | [] => (n, if n.endpoints.any (·.2 == k) then .empty else .disconnected)

end Network

/-- A network with an inbox to read for each of some peers. -/
structure Hub where
  network : Network := {}
  held : List (PeerId × Nat) := []
  deriving DecidableEq

namespace Hub

instance : Inhabited Hub := ⟨{}⟩

/-- Closes the inbox that is held for a peer. -/
def close (h : Hub) (p : PeerId) : Hub :=
  match h.held.lookup p with
  | some k => { network := h.network.close k, held := h.held.filter (·.1 != p) }
  | none => h

/-- Holds a new inbox for a peer in place of the present one, and lets the peer be reached
through it. -/
def register (h : Hub) (p : PeerId) (capacity : Nat) : Hub :=
  let h := h.close p
  let (n, k) := h.network.openInbox capacity
  { network := n.register p k, held := (p, k) :: h.held }

/-- Reads the inbox that is held for a peer, if there is one. -/
def receive (h : Hub) (p : PeerId) : Hub × Option Reception :=
  match h.held.lookup p with
  | some k =>
    let (n, r) := h.network.receive k
    ({ h with network := n }, some r)
  | none => (h, none)

end Hub

end Raft
