import Mathlib.Logic.Function.Basic
import Raft.Replica

/-!
# Clusters under every schedule

A `Cluster` has its running members and every packet that was ever sent. Nothing decides what
happens next: an `Event` may deliver any packet, early, late, again or never, let any timer of any
node run out, and bring the call of a client.

* `Cluster.accept`, a node processes an input, and the effects wait in its backlog;
* `Cluster.carryOut`, a node carries out the first effect that waits. Others may act in between;
* `Cluster.happen`, one event, and `Cluster.play`, a list of them;
* `Run`, everything that can happen to a cluster whose members stay the same.

A node that accepts an input and carries out all effects at once does what `Replica.handle` does
(`Raft.Cluster.drain_accept` in `Raft.Proofs.Effects`).
-/

namespace Raft

variable {σ : Type}

/-- A running member: its replica, the effects that it has yet to carry out, and the outcomes of
its captures. -/
structure Site (σ : Type) where
  replica : Replica σ
  backlog : List Effect := []
  outcomes : List Input := []

/-- The running members and every packet that was ever sent. -/
structure Cluster (σ : Type) where
  members : PeerSet
  site : PeerId → Site σ
  packets : List Packet := []

/-- What happens next. -/
inductive Event
  /-- The packet with this number reaches its receiver, perhaps not for the first time. -/
  | deliver (number : Nat)
  | expire (node : PeerId) (timer : Timer)
  /-- A client's message reaches a node. -/
  | call (client node : PeerId) (m : Message)
  | compact (node : PeerId)
  /-- The outcome with this number comes back to the node. -/
  | report (node : PeerId) (number : Nat)
  | carryOut (node : PeerId) (moment : Moment)

/-- Whether clients may send a message while the members stay the same: a command for the
application, or a question. -/
def Message.IsOrdinaryCall : Message → Prop
  | .submit r => ∃ payload, r.command = .application payload
  | .whoLeads => True
  | .askRole => True
  | _ => False

instance : DecidablePred Message.IsOrdinaryCall
  | .submit ⟨_, .application payload⟩ => .isTrue ⟨payload, rfl⟩
  | .submit ⟨_, .noop⟩ => .isFalse nofun
  | .submit ⟨_, .configuration _⟩ => .isFalse nofun
  | .whoLeads => .isTrue trivial
  | .askRole => .isTrue trivial
  | .requestVote .. => .isFalse id
  | .grantVote _ => .isFalse id
  | .declineVote _ => .isFalse id
  | .appendEntries .. => .isFalse id
  | .appendAccepted .. => .isFalse id
  | .appendRejected _ => .isFalse id
  | .installSnapshot .. => .isFalse id
  | .snapshotAccepted .. => .isFalse id
  | .snapshotRejected _ => .isFalse id
  | .changeConfiguration _ => .isFalse id
  | .requestConfiguration => .isFalse id
  | .discover => .isFalse id
  | .discovered _ => .isFalse id
  | .memberAdded .. => .isFalse id
  | .respond .. => .isFalse id
  | .leaderIs .. => .isFalse id
  | .roleIs _ => .isFalse id

/-- Whether an event leaves the members alone. -/
def Event.IsOrdinary : Event → Prop
  | .call _ _ m => m.IsOrdinaryCall
  | _ => True

instance : DecidablePred Event.IsOrdinary
  | .call _ _ m => inferInstanceAs (Decidable m.IsOrdinaryCall)
  | .deliver _ => .isTrue trivial
  | .expire .. => .isTrue trivial
  | .compact _ => .isTrue trivial
  | .report .. => .isTrue trivial
  | .carryOut .. => .isTrue trivial

namespace Cluster

/-- The node of a member. -/
def node (c : Cluster σ) (p : PeerId) : Node := (c.site p).replica.node

/-- The log of a member. -/
def log (c : Cluster σ) (p : PeerId) : Log := (c.node p).log

/-- The application's state at a member. -/
def state (c : Cluster σ) (p : PeerId) : σ := (c.site p).replica.state

/-- Whether a node leads in a term. -/
def Leads (c : Cluster σ) (p : PeerId) (t : Nat) : Prop :=
  (c.node p).role = .leader ∧ (c.node p).term = t

instance (c : Cluster σ) (p : PeerId) (t : Nat) : Decidable (c.Leads p t) :=
  inferInstanceAs (Decidable (_ ∧ _))

/-- Whether a node has carried out every effect of its transitions. -/
def Settled (c : Cluster σ) (p : PeerId) : Prop := (c.site p).backlog = []

instance (c : Cluster σ) (p : PeerId) : Decidable (c.Settled p) :=
  inferInstanceAs (Decidable (_ = _))

/-- Puts a site in place of a member's present one. -/
def put (c : Cluster σ) (p : PeerId) (s : Site σ) : Cluster σ :=
  { c with site := Function.update c.site p s }

/-- A node processes an input, provided that it has carried out all effects of the last one. A
transition that breaks an internal contract changes nothing. -/
def accept (c : Cluster σ) (p : PeerId) (input : Input) : Cluster σ :=
  if p ∈ c.members ∧ c.Settled p then
    match step (c.node p) input with
    | .ok (node, effects) =>
      c.put p { c.site p with replica := { (c.site p).replica with node }, backlog := effects }
    | .error _ => c
  else c

/-- The input that an event brings, and to whom. -/
def input? (c : Cluster σ) : Event → Option (PeerId × Input)
  | .deliver number =>
    c.packets[number]?.map fun packet => (packet.receiver, .message packet.sender packet.message)
  | .expire p timer => some (p, .timeout timer)
  | .call client p m => some (p, .message client m)
  | .compact p => some (p, .compactLog)
  | .report p number => (c.site p).outcomes[number]?.map (p, ·)
  | .carryOut .. => none

/-- What an event brings: a packet, an outcome, a client's message, or something of the node's own.
-/
theorem input_cases {c : Cluster σ} {e : Event} {p : PeerId} {input : Input}
    (h : c.input? e = some (p, input)) :
    (∃ k ∈ c.packets, p = k.receiver ∧ input = .message k.sender k.message) ∨
    input ∈ (c.site p).outcomes ∨
    (∃ client m, e = .call client p m ∧ input = .message client m) ∨
    (∃ timer, input = .timeout timer) ∨ input = .compactLog := by
  cases e with
  | deliver number =>
    obtain ⟨k, hk, heq⟩ := Option.map_eq_some_iff.1 h
    obtain ⟨rfl, rfl⟩ := Prod.mk.inj heq
    exact .inl ⟨k, List.mem_of_getElem? hk, rfl, rfl⟩
  | report q number =>
    obtain ⟨j, hj, heq⟩ := Option.map_eq_some_iff.1 h
    obtain ⟨rfl, rfl⟩ := Prod.mk.inj heq
    exact .inr (.inl (List.mem_of_getElem? hj))
  | call client q m =>
    obtain ⟨rfl, rfl⟩ := Prod.mk.inj (Option.some.inj h)
    exact .inr (.inr (.inl ⟨client, m, rfl, rfl⟩))
  | expire q timer =>
    obtain ⟨rfl, rfl⟩ := Prod.mk.inj (Option.some.inj h)
    exact .inr (.inr (.inr (.inl ⟨timer, rfl⟩)))
  | compact q =>
    obtain ⟨rfl, rfl⟩ := Prod.mk.inj (Option.some.inj h)
    exact .inr (.inr (.inr (.inr rfl)))
  | carryOut => cases h

@[simp] theorem site_put_self (c : Cluster σ) (p : PeerId) (s : Site σ) : (c.put p s).site p = s :=
  Function.update_self ..

theorem site_put_of_ne (c : Cluster σ) {p q : PeerId} (s : Site σ) (h : q ≠ p) :
    (c.put p s).site q = c.site q := Function.update_of_ne h ..

/-- A node that accepts an input takes a transition, or nothing changes. -/
theorem accept_cases (c : Cluster σ) (p : PeerId) (input : Input) : c.accept p input = c ∨
    ∃ n es, p ∈ c.members ∧ c.Settled p ∧ step (c.node p) input = .ok (n, es) ∧
      c.accept p input = c.put p { c.site p with
        replica := { (c.site p).replica with node := n }, backlog := es } := by
  unfold accept
  split
  next hp =>
    split
    next n es hstep => exact .inr ⟨n, es, hp.1, hp.2, hstep, rfl⟩
    next => exact .inl rfl
  next => exact .inl rfl

@[simp] theorem members_accept (c : Cluster σ) (p : PeerId) (input : Input) :
    (c.accept p input).members = c.members := by
  unfold accept
  split
  · split <;> rfl
  · rfl

variable [StateMachine σ]

/-- A member carries out the first effect that waits. -/
def carryOut (c : Cluster σ) (p : PeerId) (moment : Moment) : Cluster σ :=
  match (c.site p).backlog with
  | [] => c
  | effect :: rest =>
    let stir := Stir.execute moment { replica := (c.site p).replica } effect
    let outcomes := (c.site p).outcomes ++ stir.inputs
    { c.put p { replica := stir.replica, backlog := rest, outcomes } with
      packets := c.packets ++ stir.packets }

/-- One event. An event that is not possible changes nothing. -/
def happen (c : Cluster σ) (e : Event) : Cluster σ :=
  match e with
  | .carryOut p moment => c.carryOut p moment
  | e =>
    match c.input? e with
    | some (p, input) => c.accept p input
    | none => c

/-- One event after the other. -/
def play (c : Cluster σ) (es : List Event) : Cluster σ := es.foldl happen c

/-! ### One effect carried out -/

section CarryOut

variable {c : Cluster σ} {p : PeerId} {e : Effect} {rest : List Effect} (moment : Moment)

theorem carryOut_of_nil (h : (c.site p).backlog = []) : c.carryOut p moment = c := by
  unfold carryOut
  rw [h]

theorem site_carryOut_self (h : (c.site p).backlog = e :: rest) :
    (c.carryOut p moment).site p =
      { replica := (Stir.execute moment { replica := (c.site p).replica } e).replica
        backlog := rest
        outcomes := (c.site p).outcomes ++
          (Stir.execute moment { replica := (c.site p).replica } e).inputs } := by
  unfold carryOut
  rw [h]
  exact site_put_self c p _

theorem packets_carryOut (h : (c.site p).backlog = e :: rest) :
    (c.carryOut p moment).packets = c.packets ++
      (Stir.execute moment { replica := (c.site p).replica } e).packets := by
  unfold carryOut
  rw [h]

variable (c) in
theorem site_carryOut_of_ne {q : PeerId} (h : q ≠ p) :
    (c.carryOut p moment).site q = c.site q := by
  unfold carryOut
  split
  · rfl
  · exact site_put_of_ne c _ h

variable (c p) in
@[simp] theorem members_carryOut : (c.carryOut p moment).members = c.members := by
  unfold carryOut
  split <;> rfl

end CarryOut

theorem happen_eq_accept {c : Cluster σ} {e : Event} {p : PeerId} {input : Input}
    (h : c.input? e = some (p, input)) : c.happen e = c.accept p input := by
  cases e with
  | carryOut => cases h
  | _ => simp only [happen, h]

/-- A member that takes a transition has the effects to carry out. -/
theorem site_happen_of_step {c : Cluster σ} {e : Event} {p : PeerId} {input : Input} {n : Node}
    {es : List Effect} (h : c.input? e = some (p, input)) (hp : p ∈ c.members) (hs : c.Settled p)
    (hstep : step (c.node p) input = .ok (n, es)) : (c.happen e).site p =
      { c.site p with
        replica := { (c.site p).replica with node := n }, backlog := es } := by
  rw [happen_eq_accept h, accept, if_pos ⟨hp, hs⟩, hstep]
  exact site_put_self ..

/-- An event has a node carry out an effect or accept an input, or it changes nothing. -/
theorem happen_cases (c : Cluster σ) (e : Event) :
    (∃ p moment, c.happen e = c.carryOut p moment) ∨
    (∃ p input, c.input? e = some (p, input) ∧ c.happen e = c.accept p input) ∨
    c.happen e = c := by
  cases hinput : c.input? e with
  | some brought =>
    exact .inr (.inl ⟨brought.1, brought.2, rfl, happen_eq_accept hinput⟩)
  | none =>
    cases e with
    | carryOut p moment => exact .inl ⟨p, moment, rfl⟩
    | _ => exact .inr (.inr (by simp only [happen, hinput]))

@[simp] theorem members_happen (c : Cluster σ) (e : Event) :
    (c.happen e).members = c.members := by
  rcases c.happen_cases e with ⟨p, moment, heq⟩ | ⟨p, input, -, heq⟩ | heq
  · rw [heq, members_carryOut]
  · rw [heq, members_accept]
  · rw [heq]

theorem members_play (c : Cluster σ) (es : List Event) : (c.play es).members = c.members := by
  induction es generalizing c with
  | nil => rfl
  | cons e rest ih => exact (ih (c.happen e)).trans (c.members_happen e)

theorem play_append (c : Cluster σ) (es fs : List Event) :
    c.play (es ++ fs) = (c.play es).play fs := List.foldl_append ..

/-- From one moment to the next there is one event at most. -/
theorem play_take_succ (c : Cluster σ) (es : List Event) (i : Nat) :
    (∃ e, es[i]? = some e ∧ c.play (es.take (i + 1)) = (c.play (es.take i)).happen e) ∨
      c.play (es.take (i + 1)) = c.play (es.take i) := by
  rw [List.take_add_one, play_append]
  cases he : es[i]? with
  | none => exact .inr rfl
  | some e => exact .inl ⟨e, rfl, rfl⟩

end Cluster

/-- A node that starts as a follower in term 0, with an empty log and a configuration in force. -/
def Node.founding (id : PeerId) (settings : Settings) (config : Configuration) : Node :=
  { Node.fresh id settings with role := .follower, standing := { config } }

/-- A run of a cluster whose members stay the same. They all start as followers in term 0 with
empty logs, the same settled configuration of exactly these members, and the same state of the
application. -/
structure Run (σ : Type) where
  sequence : Nat := 0
  members : PeerSet
  options : PeerId → Options := fun p => { id := p }
  initial : σ
  events : List Event
  ordinary : ∀ e ∈ events, e.IsOrdinary

namespace Run

/-- The configuration in force. -/
def config (r : Run σ) : Configuration := .stable r.sequence r.members

/-- The cluster before anything happens. -/
def start (r : Run σ) : Cluster σ where
  members := r.members
  site p :=
    { replica :=
        { options := r.options p
          node := .founding p (r.options p).settings r.config
          state := r.initial } }

variable [StateMachine σ]

/-- The cluster after so many events. -/
def after (r : Run σ) (count : Nat) : Cluster σ := r.start.play (r.events.take count)

variable (r : Run σ)

/-- From one moment to the next there is one event at most. -/
theorem after_succ_cases (i : Nat) :
    (∃ e ∈ r.events, r.after (i + 1) = (r.after i).happen e) ∨ r.after (i + 1) = r.after i := by
  rcases r.start.play_take_succ r.events i with ⟨e, he, heq⟩ | heq
  · exact .inl ⟨e, List.mem_of_getElem? he, heq⟩
  · exact .inr heq

@[simp] theorem members_after (i : Nat) : (r.after i).members = r.members :=
  Cluster.members_play ..

end Run

end Raft
