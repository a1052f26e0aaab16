import Raft.Client
import Raft.Proofs.Answers
import Raft.Proofs.Effects

/-!
# A client submits a command

An answer does not say what it answers, and a client that has given up a call leaves the answer to
whatever it asks next. So a call gets the answer to its own command as long as nothing is left of
the calls before.

* `Exchange`, a cluster and a client with an open call, and `Occurrence`, what can happen to them:
  any packet can reach anybody, early, late, again or never;
* `Conversation`, one call in a cluster that may have seen anything before, with all that happens
  from then on;
* `Conversation.Belongs`, which packets are about this very call, and `Conversation.Keeps`,
  everything in the cluster that is about a request of the client stays so;
* `Conversation.reply_answered`, whose answer a call returns and what it sends;
* `Conversation.not_answered_belated`, a late answer is taken for the answer to the next call.
-/

namespace Raft

variable {σ : Type}

/-! ### Clusters with a client -/

/-- A cluster and how far a client has got with its call. -/
structure Exchange (σ : Type) where
  cluster : Cluster σ
  progress : CallProgress

/-- What happens next while a client waits. -/
inductive Occurrence
  /-- Something happens in the cluster. -/
  | elsewhere (e : Event)
  /-- The packet with this number reaches the client. -/
  | receive (number : Nat)
  /-- The client waits no longer. -/
  | giveUp (reason : Fault)

/-- A packet is sent. -/
def Cluster.post (c : Cluster σ) (k : Packet) : Cluster σ :=
  { c with packets := c.packets ++ [k] }

namespace Exchange

/-- Goes on with the call, and sends what there is to send. -/
def goOn (x : Exchange σ) (client : PeerId) (progress : CallProgress) : Exchange σ :=
  match progress with
  | .waiting o (some m) => { cluster := x.cluster.post ⟨client, o.target, m⟩, progress }
  | .waiting _ none => { x with progress }
  | .done _ => { x with progress }

/-- A packet reaches the client. One for somebody else means nothing to it. -/
def receive (x : Exchange σ) (client : PeerId) (k : Packet) : Exchange σ :=
  match x.progress with
  | .waiting o _ =>
    if k.receiver = client then x.goOn client (o.onMessage k.sender k.message) else x
  | .done _ => x

/-- The client waits no longer. -/
def giveUp (x : Exchange σ) (reason : Fault) : Exchange σ :=
  match x.progress with
  | .waiting .. => { x with progress := .done (.error reason) }
  | .done _ => x

variable [StateMachine σ]

/-- One occurrence. What is not possible changes nothing. -/
def happen (x : Exchange σ) (client : PeerId) : Occurrence → Exchange σ
  | .elsewhere e => { x with cluster := x.cluster.happen e }
  | .receive number =>
    match x.cluster.packets[number]? with
    | some k => x.receive client k
    | none => x
  | .giveUp reason => x.giveUp reason

end Exchange

/-- The number of the packet that arrives. -/
def Occurrence.number? : Occurrence → Option Nat
  | .elsewhere (.deliver number) => some number
  | .receive number => some number
  | _ => none

/-- Whether an occurrence is none of the client's doing, and nobody speaks in its name. Others may
send anything but entries. -/
def Occurrence.isApartFrom (client : PeerId) : Occurrence → Bool
  | .elsewhere (.call sender _ (.submit r)) => sender != client && r.client != client
  | .elsewhere (.call _ _ (.appendEntries ..)) => false
  | _ => true

/-- What every cluster is like from its start on. -/
structure Cluster.IsProper (c : Cluster σ) : Prop where
  /-- Every node goes by its own name. -/
  id_eq : ∀ p, (c.node p).id = p
  /-- What comes back to a node is the outcome of a capture. -/
  outcomes : ∀ p, ∀ i ∈ (c.site p).outcomes,
    (∃ s, i = .snapshotPrepared s) ∨ ∃ reason, i = .snapshotFailed reason
  /-- Only members have anything to carry out. -/
  backlog : ∀ p, p ∉ c.members → (c.site p).backlog = []

/-- A client submits a command to a cluster, with all that happens from then on. The cluster may
have seen anything before. -/
structure Conversation (σ : Type) where
  cluster : Cluster σ
  proper : cluster.IsProper
  client : Client
  outside : client.id ∉ cluster.members
  now : Nat := 0
  via : PeerId
  command : Bytes
  occurrences : List Occurrence
  apart : ∀ o ∈ occurrences, o.isApartFrom client.id = true

namespace Conversation

/-- The call. -/
def call (c : Conversation σ) : Call := .submit c.via c.command

/-- The request that the call is about. -/
def request (c : Conversation σ) : Request := ⟨c.client.id, .application c.command⟩

/-- The call is open, and the request is on its way. -/
def start (c : Conversation σ) : Exchange σ where
  cluster := c.cluster.post ⟨c.client.id, c.via, c.call.request c.client.id⟩
  progress := .waiting (c.client.openCall c.now c.call) none

variable [StateMachine σ]

/-- The state of affairs after so many occurrences. -/
def after (c : Conversation σ) (count : Nat) : Exchange σ :=
  (c.occurrences.take count).foldl (·.happen c.client.id) c.start

end Conversation

/-! ### Clusters stay proper -/

namespace Cluster

variable {c : Cluster σ}

theorem IsProper.post (h : c.IsProper) (k : Packet) : (c.post k).IsProper :=
  ⟨h.id_eq, h.outcomes, h.backlog⟩

theorem IsProper.accept (h : c.IsProper) (p : PeerId) (input : Input) :
    (c.accept p input).IsProper := by
  rcases c.accept_cases p input with heq | ⟨n, es, hp, -, hstep, heq⟩
  · rwa [heq]
  · rw [heq]
    refine ⟨fun q => ?_, fun q => ?_, fun q hq => ?_⟩ <;> by_cases hqp : q = p
    · subst hqp
      rw [node, site_put_self]
      exact (id_of_step hstep).trans (h.id_eq q)
    · rw [node, site_put_of_ne c _ hqp]
      exact h.id_eq q
    · subst hqp
      rw [site_put_self]
      exact h.outcomes q
    · rw [site_put_of_ne c _ hqp]
      exact h.outcomes q
    · exact absurd (hqp ▸ hp) hq
    · rw [site_put_of_ne c _ hqp]
      exact h.backlog q hq

variable [StateMachine σ]

theorem IsProper.carryOut (h : c.IsProper) (p : PeerId) (moment : Moment) :
    (c.carryOut p moment).IsProper := by
  cases hb : (c.site p).backlog with
  | nil =>
    rw [carryOut_of_nil moment hb]
    exact h
  | cons f rest =>
    have hself := site_carryOut_self moment hb
    refine ⟨fun q => ?_, fun q => ?_, fun q hq => ?_⟩ <;> by_cases hqp : q = p
    · subst hqp
      rw [node, hself, Stir.node_execute]
      exact h.id_eq q
    · rw [node, site_carryOut_of_ne c moment hqp]
      exact h.id_eq q
    · subst hqp
      rw [hself]
      intro i hi
      rcases List.mem_append.1 hi with hi | hi
      · exact h.outcomes q i hi
      · rcases Stir.mem_inputs_execute moment f hi with ⟨_, _, -, -, rfl⟩ | rfl | ⟨reason, rfl⟩
        · exact .inl ⟨_, rfl⟩
        · exact .inl ⟨_, rfl⟩
        · exact .inr ⟨reason, rfl⟩
    · rw [site_carryOut_of_ne c moment hqp]
      exact h.outcomes q
    · subst hqp
      rw [members_carryOut] at hq
      cases (h.backlog q hq).symm.trans hb
    · rw [members_carryOut] at hq
      rw [site_carryOut_of_ne c moment hqp]
      exact h.backlog q hq

theorem IsProper.happen (h : c.IsProper) (e : Event) : (c.happen e).IsProper := by
  rcases c.happen_cases e with ⟨p, moment, heq⟩ | ⟨p, input, -, heq⟩ | heq
  · rw [heq]
    exact h.carryOut p moment
  · rw [heq]
    exact h.accept p input
  · rwa [heq]

end Cluster

theorem Exchange.proper_goOn {x : Exchange σ} (h : x.cluster.IsProper) (client : PeerId)
    (progress : CallProgress) : (x.goOn client progress).cluster.IsProper := by
  unfold goOn
  split
  next => exact h.post _
  next => exact h
  next => exact h

theorem Exchange.proper_happen [StateMachine σ] {x : Exchange σ} (h : x.cluster.IsProper)
    (client : PeerId) (o : Occurrence) : (x.happen client o).cluster.IsProper := by
  cases o with
  | elsewhere e => exact h.happen e
  | receive number =>
    simp only [happen, receive]
    split
    next =>
      split
      next => split <;> first | exact proper_goOn h _ _ | exact h
      next => exact h
    next => exact h
  | giveUp reason =>
    simp only [happen, giveUp]
    split <;> exact h

namespace Conversation

variable [StateMachine σ] (c : Conversation σ)

theorem after_succ_cases (k : Nat) :
    (∃ o, c.occurrences[k]? = some o ∧ c.after (k + 1) = (c.after k).happen c.client.id o) ∨
      c.after (k + 1) = c.after k := by
  unfold after
  rw [List.take_add_one, List.foldl_append]
  cases c.occurrences[k]? with
  | none => exact .inr rfl
  | some o => exact .inl ⟨o, rfl, rfl⟩

/-- A call leaves the cluster such that another one can be made. -/
theorem proper_after (k : Nat) : (c.after k).cluster.IsProper := by
  induction k with
  | zero => exact c.proper.post _
  | succ k ih =>
    rcases c.after_succ_cases k with ⟨o, -, heq⟩ | heq
    · rw [heq]
      exact Exchange.proper_happen ih c.client.id o
    · rwa [heq]

/-! ### What belongs to the call -/

end Conversation

/-- Whether a packet is about a request of the client: it hands one in, answers it or sends it back.
-/
def Packet.Concerns (k : Packet) (client : PeerId) : Prop :=
  match k.message with
  | .submit r => k.sender = client ∨ r.client = client
  | .respond .. => k.receiver = client
  | .leaderIs _ (some _) => k.receiver = client
  | _ => False

namespace Conversation

variable [StateMachine σ] (c : Conversation σ)

/-- At moment `k` a member takes up the request, from a packet that was sent during the call, and
adds it to its log as the entry `e`. -/
structure TakesUp (k : Nat) (p : PeerId) (e : Entry) : Prop where
  arrives : ∃ number, c.occurrences[k]? = some (.elsewhere (.deliver number)) ∧
    c.cluster.packets.length ≤ number ∧
    (c.after k).cluster.packets[number]? = some ⟨c.client.id, p, .submit c.request⟩
  member : p ∈ c.cluster.members
  settled : (c.after k).cluster.Settled p
  succeeds : ∃ m es,
    step ((c.after k).cluster.node p) (.message c.client.id (.submit c.request)) = .ok (m, es)
  appended :
    ((c.after k).cluster.node p).appended? (.message c.client.id (.submit c.request)) = some e

/-- The entry was submitted by this call, before moment `k`. -/
def Submitted (k : Nat) (e : Entry) : Prop := ∃ j < k, ∃ p, c.TakesUp j p e

/-- An entry that was submitted by this call and that the member `p` has committed by moment `k`. -/
structure Committed (k : Nat) (p : PeerId) (e : Entry) : Prop where
  submitted : c.Submitted k e
  member : p ∈ c.cluster.members
  committed : ∃ j ≤ k, e ∈ ((c.after j).cluster.log p).entries ∧
    e.index ≤ ((c.after j).cluster.log p).committed

/-- An answer that a member has given before moment `k`: when it carried out a committed entry of
this call, its state machine replied so to the command. -/
def Answered (k index : Nat) (result : Bytes) : Prop :=
  ∃ p e, c.Committed k p e ∧ e.command = .application c.command ∧ e.index = index ∧
    ∃ j < k, ∃ moment, c.occurrences[j]? = some (.elsewhere (.carryOut p moment)) ∧
      ((c.after j).cluster.site p).backlog.head? = some (.apply e true) ∧
      (StateMachine.apply ((c.after j).cluster.state p) c.command).2 = result

/-- Packets that belong to this call. -/
inductive Belongs (k : Nat) : Packet → Prop
  | request (receiver : PeerId) : Belongs k ⟨c.client.id, receiver, .submit c.request⟩
  | sentBack (sender : PeerId) (hint : Option PeerId) :
    Belongs k ⟨sender, c.client.id, .leaderIs hint (some c.request)⟩
  | answer (sender : PeerId) {index : Nat} {result : Bytes} (h : c.Answered k index result) :
    Belongs k ⟨sender, c.client.id, .respond index result⟩

/-- An entry that is not the client's, or that every member has committed before the call. -/
def Past (c : Conversation σ) (e : Entry) : Prop :=
  e.client = some c.client.id → ∀ p ∈ c.cluster.members, e.index ≤ (c.cluster.log p).committed

/-- An entry that does not come from elsewhere: it is past, or of this call. -/
def Known (k : Nat) (e : Entry) : Prop := c.Past e ∨ c.Submitted k e

/-- A packet as the call can expect it. -/
structure Fair (k : Nat) (x : Packet) : Prop where
  entries : x.message.Holds (c.Known k) fun _ => True
  belongs : x.Concerns c.client.id → c.Belongs k x

/-- An effect that a member is to carry out, as the call can expect it. -/
structure Awaits (k : Nat) (p : PeerId) (f : Effect) : Prop where
  sends : f.Says (fun sender receiver m => c.Fair k ⟨sender, receiver, m⟩) (fun _ => True) p
  applies : ∀ e, f = .apply e true → e.client = some c.client.id → c.Committed k p e

/-- Whether the earlier calls of the client are over and done with when the call begins: its entries
are past, wherever they still are, and no member is about to speak of its requests. -/
structure IsFresh (c : Conversation σ) : Prop where
  logs : ∀ p ∈ c.cluster.members, ∀ e ∈ (c.cluster.log p).entries, c.Past e
  packets : ∀ x ∈ c.cluster.packets, x.message.Holds c.Past fun _ => True
  backlog : ∀ p ∈ c.cluster.members, ∀ f ∈ (c.cluster.site p).backlog,
    f.Says (fun sender receiver m => m.Holds c.Past (fun _ => True) ∧
      ¬ (⟨sender, receiver, m⟩ : Packet).Concerns c.client.id) (fun _ => True) p ∧
    ∀ e, f = .apply e true → e.client ≠ some c.client.id

/-- Whether nothing from before the call that is about a request of the client arrives up to moment
`k`, neither at a member nor at the client. -/
def Undisturbed (c : Conversation σ) (k : Nat) : Prop :=
  ∀ j < k, ∀ o number x, c.occurrences[j]? = some o → o.number? = some number →
    c.cluster.packets[number]? = some x → ¬ x.Concerns c.client.id

variable {c : Conversation σ} {j k : Nat} {p : PeerId} {e : Entry} {f : Effect} {x : Packet}

theorem Submitted.mono (h : c.Submitted j e) (hjk : j ≤ k) : c.Submitted k e := by
  obtain ⟨i, hi, hp⟩ := h
  exact ⟨i, Nat.lt_of_lt_of_le hi hjk, hp⟩

theorem Submitted.client_command (h : c.Submitted k e) :
    e.client = some c.client.id ∧ e.command = .application c.command := by
  obtain ⟨_, -, _, htaken⟩ := h
  obtain ⟨-, _, _, heq, hcommand⟩ := Node.appended?_eq_some htaken.appended
  cases heq
  exact ⟨Node.client_of_appended? htaken.appended, hcommand⟩

theorem Committed.mono (h : c.Committed j p e) (hjk : j ≤ k) : c.Committed k p e := by
  obtain ⟨i, hi, hat⟩ := h.committed
  exact ⟨h.submitted.mono hjk, h.member, i, Nat.le_trans hi hjk, hat⟩

theorem Answered.mono {index : Nat} {result : Bytes} (h : c.Answered j index result) (hjk : j ≤ k) :
    c.Answered k index result := by
  obtain ⟨p, e, hcommitted, hcommand, hindex, i, hi, hat⟩ := h
  exact ⟨p, e, hcommitted.mono hjk, hcommand, hindex, i, Nat.lt_of_lt_of_le hi hjk, hat⟩

theorem Belongs.mono (h : c.Belongs j x) (hjk : j ≤ k) : c.Belongs k x := by
  cases h with
  | request receiver => exact .request receiver
  | sentBack sender hint => exact .sentBack sender hint
  | answer sender h => exact .answer sender (h.mono hjk)

theorem Known.mono (h : c.Known j e) (hjk : j ≤ k) : c.Known k e := h.imp_right (·.mono hjk)

theorem Fair.mono (h : c.Fair j x) (hjk : j ≤ k) : c.Fair k x :=
  ⟨h.entries.imp (fun _ he => he.mono hjk) fun _ h => h, fun hx => (h.belongs hx).mono hjk⟩

theorem fair_request (c : Conversation σ) (k : Nat) (receiver : PeerId) :
    c.Fair k ⟨c.client.id, receiver, .submit c.request⟩ := ⟨trivial, fun _ => .request receiver⟩

theorem Awaits.mono (h : c.Awaits j p f) (hjk : j ≤ k) : c.Awaits k p f :=
  ⟨h.sends.imp (fun _ _ _ h => h.mono hjk) fun _ h => h,
    fun e hf he => (h.applies e hf he).mono hjk⟩

/-! ### The cluster during the call -/

/-- What the cluster is like at moment `k` of a call that is not disturbed. -/
structure Keeps (c : Conversation σ) (k : Nat) (d : Cluster σ) : Prop where
  proper : d.IsProper
  members : d.members = c.cluster.members
  committed_le : ∀ p, (c.cluster.log p).committed ≤ (d.log p).committed
  logs : ∀ p ∈ c.cluster.members, ∀ e ∈ (d.log p).entries, c.Known k e
  sent : ∃ xs, d.packets = c.cluster.packets ++ xs ∧ ∀ x ∈ xs, c.Fair k x
  backlog : ∀ p ∈ c.cluster.members, ∀ f ∈ (d.site p).backlog, c.Awaits k p f

namespace Keeps

variable {d : Cluster σ}

theorem mono (h : c.Keeps j d) (hjk : j ≤ k) : c.Keeps k d where
  proper := h.proper
  members := h.members
  committed_le := h.committed_le
  logs p hp e he := (h.logs p hp e he).mono hjk
  sent := by
    obtain ⟨xs, heq, hxs⟩ := h.sent
    exact ⟨xs, heq, fun x hx => (hxs x hx).mono hjk⟩
  backlog p hp f hf := (h.backlog p hp f hf).mono hjk

theorem post (h : c.Keeps k d) (hx : c.Fair k x) : c.Keeps k (d.post x) where
  proper := h.proper.post x
  members := h.members
  committed_le := h.committed_le
  logs := h.logs
  sent := by
    obtain ⟨xs, heq, hxs⟩ := h.sent
    refine ⟨xs ++ [x], by rw [Cluster.post, heq, List.append_assoc], fun y hy => ?_⟩
    rcases List.mem_append.1 hy with hy | hy
    · exact hxs y hy
    · rwa [List.mem_singleton.1 hy]
  backlog := h.backlog

theorem start (h : c.IsFresh) : c.Keeps 0 c.start.cluster := by
  refine Keeps.post (d := c.cluster) ?_ (c.fair_request 0 c.via)
  constructor
  case proper => exact c.proper
  case members => rfl
  case committed_le => exact fun _ => Nat.le_refl _
  case logs => exact fun p hp e he => .inl (h.logs p hp e he)
  case sent => exact ⟨[], (List.append_nil _).symm, nofun⟩
  case backlog =>
    intro p hp f hf
    obtain ⟨hsends, hanswer⟩ := h.backlog p hp f hf
    refine ⟨hsends.imp (fun _ _ _ hm => ?_) fun _ h => h, fun e heq hclient => ?_⟩
    · exact ⟨hm.1.imp (fun _ => .inl) fun _ h => h, fun hx => absurd hx hm.2⟩
    · exact absurd hclient (hanswer e heq)

/-- The entries in a packet are known, whenever it was sent. -/
theorem holds (h : c.Keeps k d) (hfresh : c.IsFresh) (hx : x ∈ d.packets) :
    x.message.Holds (c.Known k) fun _ => True := by
  obtain ⟨xs, heq, hxs⟩ := h.sent
  rw [heq] at hx
  rcases List.mem_append.1 hx with hx | hx
  · exact (hfresh.packets x hx).imp (fun _ => .inl) fun _ h => h
  · exact (hxs x hx).entries

/-- A packet that is about a request of the client belongs to the call, unless it was sent before.
-/
theorem belongs (h : c.Keeps k d) {number : Nat} (hx : d.packets[number]? = some x)
    (hold : ∀ y, c.cluster.packets[number]? = some y → ¬ y.Concerns c.client.id)
    (hconcerns : x.Concerns c.client.id) :
    c.cluster.packets.length ≤ number ∧ c.Belongs k x := by
  obtain ⟨xs, heq, hxs⟩ := h.sent
  rw [heq] at hx
  rcases Nat.lt_or_ge number c.cluster.packets.length with hlt | hge
  · rw [List.getElem?_append_left hlt] at hx
    exact absurd hconcerns (hold x hx)
  · rw [List.getElem?_append_right hge] at hx
    exact ⟨hge, (hxs x (List.mem_of_getElem? hx)).belongs hconcerns⟩

/-- Carrying out an effect sends what was to be expected. When it applies an entry of this call, the
answer belongs to the call. -/
theorem carryOut (h : c.Keeps k (c.after k).cluster) {moment : Moment}
    (hk : c.occurrences[k]? = some (.elsewhere (.carryOut p moment))) :
    c.Keeps (k + 1) ((c.after k).cluster.carryOut p moment) := by
  have hnext := h.mono (Nat.le_succ k)
  generalize hd : (c.after k).cluster = d at h hnext ⊢
  cases hb : (d.site p).backlog with
  | nil =>
    rw [Cluster.carryOut_of_nil moment hb]
    exact hnext
  | cons f rest =>
    have hself := Cluster.site_carryOut_self moment hb
    have hlog : ∀ q, (d.carryOut p moment).log q = d.log q := by
      intro q
      by_cases hqp : q = p
      · subst hqp
        rw [Cluster.log, Cluster.node, hself, Stir.node_execute]
        rfl
      · rw [Cluster.log, Cluster.node, Cluster.site_carryOut_of_ne d moment hqp]
        rfl
    have hp : p ∈ c.cluster.members := by
      by_contra hp
      cases (h.proper.backlog p (h.members ▸ hp)).symm.trans hb
    have hf : c.Awaits k p f := h.backlog p hp f (hb ▸ List.mem_cons_self ..)
    constructor
    case proper => exact h.proper.carryOut p moment
    case members => rw [Cluster.members_carryOut, h.members]
    case committed_le => exact fun q => hlog q ▸ h.committed_le q
    case logs => exact fun q hq e he => hnext.logs q hq e (hlog q ▸ he)
    case sent =>
      obtain ⟨xs, heq, hxs⟩ := hnext.sent
      refine ⟨xs ++ _, by rw [Cluster.packets_carryOut moment hb, heq, List.append_assoc], ?_⟩
      intro y hy
      rcases List.mem_append.1 hy with hy | hy
      · exact hxs y hy
      · obtain ⟨sender, receiver, m⟩ := y
        rcases Stir.mem_packets_execute moment f hy with
          ⟨hsender, rfl⟩ | rfl | ⟨e, payload, rfl, hclient, hpayload, rfl⟩
        · obtain rfl : sender = p := hsender.trans (h.proper.id_eq p)
          exact hf.sends.mono (Nat.le_succ k)
        · exact Fair.mono hf.sends (Nat.le_succ k)
        · refine ⟨trivial, fun hconcerns => ?_⟩
          obtain rfl : receiver = c.client.id := hconcerns
          have hcommitted := hf.applies e rfl hclient
          obtain ⟨-, hcommand⟩ := hcommitted.submitted.client_command
          obtain rfl : payload = c.command := by
            rw [hpayload] at hcommand
            exact Command.application.inj hcommand
          refine .answer _ ⟨p, e, hcommitted.mono (Nat.le_succ k), hcommand, rfl, k,
            Nat.lt_succ_self k, moment, hk, ?_, ?_⟩
          · rw [hd, hb]
            rfl
          · rw [hd]
            rfl
    case backlog =>
      intro q hq g hg
      by_cases hqp : q = p
      · subst hqp
        rw [hself] at hg
        exact hnext.backlog q hq g (hb ▸ List.mem_cons_of_mem _ hg)
      · rw [Cluster.site_carryOut_of_ne d moment hqp] at hg
        exact hnext.backlog q hq g hg

/-- What an event brings to a member: entries that are known, and of the client's requests none but
that of this call. -/
theorem brings {d : Cluster σ} (h : c.Keeps k d) (hfresh : c.IsFresh)
    (hcalm : c.Undisturbed (k + 1)) {event : Event} {input : Input}
    (hk : c.occurrences[k]? = some (.elsewhere event))
    (hinput : d.input? event = some (p, input)) : (∀ e ∈ input.batch, c.Known k e) ∧
      ∀ sender r, input = .message sender (.submit r) →
        sender = c.client.id ∨ r.client = c.client.id →
        sender = c.client.id ∧ r = c.request ∧ ∃ number, event = .deliver number ∧
          c.cluster.packets.length ≤ number ∧
          d.packets[number]? = some ⟨c.client.id, p, .submit c.request⟩ := by
  cases event with
  | deliver number =>
    obtain ⟨x, hx, heq⟩ := Option.map_eq_some_iff.1 hinput
    obtain ⟨rfl, rfl⟩ := Prod.mk.inj heq
    refine ⟨?_, fun sender r hsubmit hclient => ?_⟩
    · exact (Input.holds_iff (i := .message x.sender x.message)).1
        (h.holds hfresh (List.mem_of_getElem? hx))
    · obtain ⟨hsender, hmessage⟩ := Input.message.inj hsubmit
      have hconcerns : x.Concerns c.client.id := by
        rw [Packet.Concerns, hmessage]
        exact hclient.imp_left hsender.trans
      obtain ⟨hnumber, hbelongs⟩ :=
        h.belongs hx (fun y => hcalm k (Nat.lt_succ_self k) _ number y hk rfl) hconcerns
      cases hbelongs with
      | request receiver =>
        exact ⟨hsender.symm, (Message.submit.inj hmessage).symm, number, rfl, hnumber, hx⟩
      | sentBack | answer => cases hmessage
  | call sender q m =>
    obtain ⟨rfl, rfl⟩ := Prod.mk.inj (Option.some.inj hinput)
    have hapart := c.apart _ (List.mem_of_getElem? hk)
    cases m with
    | submit r =>
      refine ⟨nofun, fun sender' r' heq hclient => ?_⟩
      cases heq
      rw [Occurrence.isApartFrom, Bool.and_eq_true, bne_iff_ne, bne_iff_ne] at hapart
      exact absurd hclient (not_or.2 hapart)
    | appendEntries => cases hapart
    | _ => exact ⟨nofun, nofun⟩
  | report q number =>
    obtain ⟨i, hi, heq⟩ := Option.map_eq_some_iff.1 hinput
    obtain ⟨rfl, rfl⟩ := Prod.mk.inj heq
    rcases h.proper.outcomes q i (List.mem_of_getElem? hi) with ⟨s, rfl⟩ | ⟨reason, rfl⟩
    · exact ⟨nofun, nofun⟩
    · exact ⟨nofun, nofun⟩
  | expire | compact =>
    obtain ⟨rfl, rfl⟩ := Prod.mk.inj (Option.some.inj hinput)
    exact ⟨nofun, nofun⟩
  | carryOut => cases hinput

section Transition

variable {event : Event} {input : Input} {m : Node} {es : List Effect}

/-- A member that processes an input does not make up entries, and has no request of the client but
that of the call. -/
theorem vouches (h : c.Keeps k (c.after k).cluster) (hfresh : c.IsFresh)
    (hcalm : c.Undisturbed (k + 1)) (hk : c.occurrences[k]? = some (.elsewhere event))
    (hinput : (c.after k).cluster.input? event = some (p, input)) (hp : p ∈ c.cluster.members)
    (hsettled : (c.after k).cluster.Settled p)
    (hstep : step ((c.after k).cluster.node p) input = .ok (m, es)) :
    (∀ e ∈ m.log.entries, c.Known (k + 1) e) ∧
      ∀ f ∈ es, f.IsVouched input p (c.Known (k + 1)) := by
  obtain ⟨hbatch, hsubmit⟩ := h.brings hfresh hcalm hk hinput
  have hid := h.proper.id_eq p
  have hmine : ∀ e : Entry, (e.client = some c.client.id → c.Known (k + 1) e) →
      c.Known (k + 1) e := by
    intro e he
    by_cases hclient : e.client = some c.client.id
    · exact he hclient
    · exact .inl fun heq => absurd heq hclient
  have hvouches := vouches_of_step (Q := c.Known (k + 1)) hstep
    (fun e he => (h.logs p hp e he).mono (Nat.le_succ k))
    (fun e he => (hbatch e he).mono (Nat.le_succ k)) (fun e he => hmine e fun hclient => ?_)
    fun e he => hmine e fun hclient => ?_
  · rwa [hid] at hvouches
  · -- neither the client nor nobody is a member
    rcases he with he | he
    · cases he.symm.trans hclient
    · rw [hid] at he
      exact absurd (Option.some.inj (he.symm.trans hclient) ▸ hp) c.outside
  · obtain ⟨-, sender, r, rfl, -⟩ := Node.appended?_eq_some he
    have hr := (Node.client_of_appended? he).symm.trans hclient
    obtain ⟨rfl, rfl, number, rfl, hnumber, hx⟩ :=
      hsubmit sender r rfl (.inr (Option.some.inj hr))
    exact .inr ⟨k, Nat.lt_succ_self k, p, ⟨number, hk, hnumber, hx⟩, hp, hsettled, ⟨m, es, hstep⟩,
      he⟩

/-- What a transition asks for is to be expected, and an entry of the call that it applies comes to
be committed in it. -/
theorem awaits (h : c.Keeps k (c.after k).cluster) (hfresh : c.IsFresh)
    (hcalm : c.Undisturbed (k + 1)) (hk : c.occurrences[k]? = some (.elsewhere event))
    (hinput : (c.after k).cluster.input? event = some (p, input)) (hp : p ∈ c.cluster.members)
    (hsettled : (c.after k).cluster.Settled p)
    (hstep : step ((c.after k).cluster.node p) input = .ok (m, es))
    (hafter : (c.after (k + 1)).cluster.log p = m.log) (hf : f ∈ es) : c.Awaits (k + 1) p f := by
  obtain ⟨hlog, hvouched⟩ := h.vouches hfresh hcalm hk hinput hp hsettled hstep
  constructor
  case sends =>
    refine (hvouched f hf).imp (fun sender receiver message hv => ?_) fun _ h => h
    refine ⟨hv.entries, fun hconcerns => ?_⟩
    have habout : message.IsAboutRequest := by
      unfold Packet.Concerns at hconcerns
      simp only at hconcerns
      split at hconcerns <;> trivial
    obtain ⟨hint, r, rfl, hback⟩ := hv.sendsBack habout
    obtain rfl : receiver = c.client.id := hconcerns
    rcases hback with rfl | rfl
    · obtain ⟨-, rfl, -⟩ := (h.brings hfresh hcalm hk hinput).2 _ r rfl (.inl rfl)
      exact .sentBack sender hint
    · exact absurd hp c.outside
  case applies =>
    rintro e rfl hclient
    obtain ⟨hmem, hlt, hle⟩ := applied_of_step hstep hf
    rcases hlog e hmem with hpast | hsubmitted
    · have hbefore := hpast hclient p hp
      have hcommitted := h.committed_le p
      rw [Cluster.log, Cluster.log] at hcommitted
      rw [Cluster.log] at hbefore
      omega
    · exact ⟨hsubmitted, hp, k + 1, Nat.le_refl _, hafter ▸ hmem, hafter ▸ hle⟩

theorem accept (h : c.Keeps k (c.after k).cluster) (hfresh : c.IsFresh)
    (hcalm : c.Undisturbed (k + 1)) (hk : c.occurrences[k]? = some (.elsewhere event))
    (hinput : (c.after k).cluster.input? event = some (p, input))
    (hafter : (c.after (k + 1)).cluster = (c.after k).cluster.accept p input) :
    c.Keeps (k + 1) (c.after (k + 1)).cluster := by
  have hnext := h.mono (Nat.le_succ k)
  have hproper := h.proper.accept p input
  rcases (c.after k).cluster.accept_cases p input with heq | ⟨m, es, hp, hsettled, hstep, heq⟩
  · rwa [hafter, heq]
  · rw [← hafter] at hproper
    rw [heq] at hafter
    rw [h.members] at hp
    have hself : (c.after (k + 1)).cluster.log p = m.log := by
      rw [hafter, Cluster.log, Cluster.node, Cluster.site_put_self]
    have hothers : ∀ q, q ≠ p →
        (c.after (k + 1)).cluster.site q = (c.after k).cluster.site q := by
      intro q hqp
      rw [hafter, Cluster.site_put_of_ne _ _ hqp]
    constructor
    case proper => exact hproper
    case members =>
      rw [hafter]
      exact h.members
    case committed_le =>
      intro q
      by_cases hqp : q = p
      · subst hqp
        rw [hself]
        exact Nat.le_trans (h.committed_le q) (committed_le_of_step hstep)
      · show _ ≤ ((c.after (k + 1)).cluster.site q).replica.node.log.committed
        rw [hothers q hqp]
        exact h.committed_le q
    case logs =>
      intro q hq e he
      by_cases hqp : q = p
      · subst hqp
        rw [hself] at he
        exact (h.vouches hfresh hcalm hk hinput hp hsettled hstep).1 e he
      · rw [Cluster.log, Cluster.node, hothers q hqp] at he
        exact hnext.logs q hq e he
    case sent =>
      rw [hafter]
      exact hnext.sent
    case backlog =>
      intro q hq f hf
      by_cases hqp : q = p
      · subst hqp
        rw [hafter, Cluster.site_put_self] at hf
        exact h.awaits hfresh hcalm hk hinput hp hsettled hstep hself hf
      · rw [hothers q hqp] at hf
        exact hnext.backlog q hq f hf

end Transition

/-- What happens elsewhere in the cluster leaves everything as the call needs it. -/
theorem happen (h : c.Keeps k (c.after k).cluster) (hfresh : c.IsFresh)
    (hcalm : c.Undisturbed (k + 1)) {event : Event}
    (hk : c.occurrences[k]? = some (.elsewhere event))
    (hafter : (c.after (k + 1)).cluster = (c.after k).cluster.happen event) :
    c.Keeps (k + 1) (c.after (k + 1)).cluster := by
  cases hinput : (c.after k).cluster.input? event with
  | some brought =>
    rw [Cluster.happen_eq_accept hinput] at hafter
    exact h.accept hfresh hcalm hk hinput hafter
  | none =>
    cases event with
    | carryOut p moment =>
      rw [hafter]
      exact h.carryOut hk
    | _ =>
      rw [hafter]
      simp only [Cluster.happen, hinput]
      exact h.mono (Nat.le_succ k)

end Keeps

/-! ### The call -/

/-- What the call is like at moment `k` if it is not disturbed. -/
structure Sound (c : Conversation σ) (k : Nat) (x : Exchange σ) : Prop where
  cluster : c.Keeps k x.cluster
  waiting : ∀ o m, x.progress = .waiting o m → o.call = c.call
  done : ∀ reply, x.progress = .done (.ok reply) →
    ∃ index result, reply = .applied index result ∧ c.Answered k index result

namespace Sound

variable {x : Exchange σ}

theorem fail (h : c.Sound k x) (reason : Fault) :
    c.Sound k { x with progress := .done (.error reason) } :=
  ⟨h.cluster, nofun, nofun⟩

theorem wait (h : c.Sound k x) {o : OpenCall} (ho : o.call = c.call) :
    c.Sound k { x with progress := .waiting o none } where
  cluster := h.cluster
  waiting o' m heq := by
    cases heq
    exact ho
  done := nofun

/-- A message that belongs to the call leads to the answer or to the request being sent again. -/
theorem onSubmitReply (h : c.Sound k x) {o : OpenCall} (ho : o.call = c.call) {y : Packet}
    (hreceiver : y.receiver = c.client.id) (hy : y.Concerns c.client.id → c.Belongs k y) :
    c.Sound k (x.goOn c.client.id (o.onSubmitReply y.message)) := by
  obtain ⟨sender, receiver, m⟩ := y
  obtain rfl : receiver = c.client.id := hreceiver
  cases m with
  | respond index result =>
    refine ⟨h.cluster, nofun, fun reply heq => ?_⟩
    cases heq
    cases hy rfl with
    | answer _ hanswer => exact ⟨index, result, rfl, hanswer⟩
  | leaderIs leader pending =>
    cases leader with
    | none => exact h.fail _
    | some l =>
      cases pending with
      | none => exact h.fail _
      | some r =>
        cases hy rfl with
        | sentBack =>
          simp only [OpenCall.onSubmitReply]
          split
          next => exact h.fail _
          next =>
            refine ⟨h.cluster.post (c.fair_request k l), fun o' m heq => ?_, nofun⟩
            cases heq
            exact ho
  | _ => exact h.wait ho

theorem receive (h : c.Sound k x) {number : Nat} {y : Packet}
    (hy : x.cluster.packets[number]? = some y)
    (hold : ∀ z, c.cluster.packets[number]? = some z → ¬ z.Concerns c.client.id) :
    c.Sound k (x.receive c.client.id y) := by
  unfold Exchange.receive
  split
  next o m hwaiting =>
    split
    next hreceiver =>
      have ho := h.waiting o m hwaiting
      have hmessage : o.onMessage y.sender y.message = o.onSubmitReply y.message := by
        simp only [OpenCall.onMessage, ho, call]
      rw [hmessage]
      exact h.onSubmitReply ho hreceiver fun hconcerns => (h.cluster.belongs hy hold hconcerns).2
    next => exact h
  next => exact h

theorem mono (h : c.Sound j x) (hjk : j ≤ k) : c.Sound k x where
  cluster := h.cluster.mono hjk
  waiting := h.waiting
  done reply heq := by
    obtain ⟨index, result, hreply, hanswer⟩ := h.done reply heq
    exact ⟨index, result, hreply, hanswer.mono hjk⟩

end Sound

/-- At every moment of an undisturbed call the cluster owes the client the answer to this request
only. -/
theorem sound_after (hfresh : c.IsFresh) (hcalm : c.Undisturbed k) : c.Sound k (c.after k) := by
  induction k with
  | zero =>
    refine ⟨.start hfresh, fun o m heq => ?_, nofun⟩
    cases heq
    rfl
  | succ k ih =>
    have h := ih fun j hj => hcalm j (Nat.lt_succ_of_lt hj)
    have hnext := h.mono (Nat.le_succ k)
    rcases c.after_succ_cases k with ⟨o, ho, heq⟩ | heq
    · cases o with
      | elsewhere event =>
        have hcluster : (c.after (k + 1)).cluster = (c.after k).cluster.happen event := by
          rw [heq]
          rfl
        have hprogress : (c.after (k + 1)).progress = (c.after k).progress := by
          rw [heq]
          rfl
        refine ⟨h.cluster.happen hfresh hcalm ho hcluster, ?_, ?_⟩ <;> rw [hprogress]
        · exact hnext.waiting
        · exact hnext.done
      | receive number =>
        rw [heq]
        simp only [Exchange.happen]
        split
        next y hy => exact hnext.receive hy fun z => hcalm k (Nat.lt_succ_self k) _ number z ho rfl
        next => exact hnext
      | giveUp reason =>
        rw [heq]
        simp only [Exchange.happen, Exchange.giveUp]
        split
        next => exact hnext.fail reason
        next => exact hnext
    · rwa [heq]

/-- A client that submits a command gets the answer to this very command, and sends nothing but this
command, whatever becomes of its messages, as long as nothing is left of its earlier calls. The
answer is that of a member that carries out an entry with the command. The entry has got into the
log of a leader with a request that was sent during the call, and the member has committed it. -/
theorem reply_answered (hfresh : c.IsFresh) (hcalm : c.Undisturbed k) :
    (∀ reply, (c.after k).progress = .done (.ok reply) →
      ∃ index result, reply = .applied index result ∧ c.Answered k index result) ∧
    ∀ number x r, c.cluster.packets.length ≤ number →
      (c.after k).cluster.packets[number]? = some x → x.sender = c.client.id →
      x.message = .submit r → r = c.request := by
  have h := sound_after hfresh hcalm
  refine ⟨h.done, fun number x r hnumber hx hsender hmessage => ?_⟩
  have hconcerns : x.Concerns c.client.id := by
    rw [Packet.Concerns, hmessage]
    exact .inl hsender
  have hold : ∀ y, c.cluster.packets[number]? = some y → ¬ y.Concerns c.client.id := by
    intro y hy
    rw [List.getElem?_eq_none hnumber] at hy
    cases hy
  cases (h.cluster.belongs hx hold hconcerns).2 with
  | request => exact (Message.submit.inj hmessage).symm
  | sentBack | answer => cases hmessage

end Conversation

/-! ### Two calls in a row -/

/-- The answer to a submitted command, once there is one. -/
def CallProgress.answer? : CallProgress → Option (Nat × Bytes)
  | .done (.ok (.applied index result)) => some (index, result)
  | _ => none

theorem CallProgress.eq_of_answer? {p : CallProgress} {index : Nat} {result : Bytes}
    (h : p.answer? = some (index, result)) : p = .done (.ok (.applied index result)) := by
  unfold answer? at h
  split at h <;> cases h
  rfl

namespace Conversation

/-- So many effects are carried out. -/
def works (p : PeerId) (count : Nat) : List Occurrence :=
  List.replicate count (.elsewhere (.carryOut p ⟨0, 0⟩))

/-- A packet arrives, and the member carries out all that it asks for. -/
def handles (number : Nat) (p : PeerId) : List Occurrence :=
  .elsewhere (.deliver number) :: works p 6

/-- Two members elect the first of them and commit the command of client 9. The client has given up
by the time that the answer is on its way, as packet 7. -/
def overdue : Conversation Recorder where
  cluster :=
    ({ members := .ofList [⟨1⟩, ⟨2⟩], initial := {}, events := [], ordinary := nofun } :
      Run Recorder).start
  proper := ⟨fun _ => rfl, fun _ => nofun, fun _ _ => rfl⟩
  client := ⟨⟨9⟩, 500⟩
  outside := by decide
  via := ⟨1⟩
  command := [1]
  occurrences :=
    .elsewhere (.expire ⟨1⟩ .election) :: works ⟨1⟩ 6 ++ handles 1 ⟨2⟩ ++ handles 2 ⟨1⟩ ++
      handles 3 ⟨2⟩ ++ handles 4 ⟨1⟩ ++ handles 0 ⟨1⟩ ++ handles 5 ⟨2⟩ ++ handles 6 ⟨1⟩ ++
      .elsewhere (.expire ⟨1⟩ .heartbeat) :: works ⟨1⟩ 6 ++ handles 8 ⟨2⟩ ++ handles 9 ⟨1⟩ ++
      [.giveUp (.timeout ⟨9⟩)]
  apart := by decide +kernel

/-- The same client's next call, through the other member. -/
def secondCall (occurrences : List Occurrence)
    (apart : ∀ o ∈ occurrences, o.isApartFrom ⟨9⟩ = true) : Conversation Recorder where
  cluster := (overdue.after overdue.occurrences.length).cluster
  proper := overdue.proper_after _
  client := ⟨⟨9⟩, 500⟩
  outside := by decide +kernel
  via := ⟨2⟩
  command := [2]
  occurrences
  apart

/-- The late answer does not arrive. The call is sent on to the leader, and answered. -/
def patient : Conversation Recorder :=
  secondCall (handles 10 ⟨2⟩ ++ .receive 11 :: handles 12 ⟨1⟩ ++ handles 13 ⟨2⟩ ++ handles 14 ⟨1⟩ ++
    [.receive 15]) (by decide +kernel)

theorem isFresh_patient : patient.IsFresh := by
  have hmembers : ∀ p ∈ patient.cluster.members, p = ⟨1⟩ ∨ p = ⟨2⟩ := by decide +kernel
  have hpast : ∀ e : Entry, (e.client = some ⟨9⟩ → e.index ≤ 2) → patient.Past e := by
    intro e he hclient p hp
    have hcommitted : (patient.cluster.log p).committed = 2 := by
      rcases hmembers p hp with rfl | rfl <;> decide +kernel
    exact hcommitted ▸ he hclient
  constructor
  case logs =>
    intro p hp e he
    have hentries : ∀ e ∈ (patient.cluster.log p).entries, e.client = some ⟨9⟩ → e.index ≤ 2 := by
      rcases hmembers p hp with rfl | rfl <;> decide +kernel
    exact hpast e (hentries e he)
  case packets =>
    have hbatches : ∀ x ∈ patient.cluster.packets,
        ∀ e ∈ (Input.message x.sender x.message).batch, e.client = some ⟨9⟩ → e.index ≤ 2 := by
      decide +kernel
    intro x hx
    exact (Input.holds_iff (i := .message x.sender x.message)).2 fun e he =>
      hpast e (hbatches x hx e he)
  case backlog =>
    intro p hp f hf
    have hnone : (patient.cluster.site p).backlog = [] := by
      rcases hmembers p hp with rfl | rfl <;> decide +kernel
    rw [hnone] at hf
    cases hf

theorem undisturbed_patient (k : Nat) : patient.Undisturbed k := by
  intro j _ o number x ho hnumber hx
  have hlength : patient.cluster.packets.length = 10 := by decide +kernel
  have hnew : ∀ o ∈ patient.occurrences, ∀ number ∈ o.number?, 10 ≤ number := by decide +kernel
  have hle := hnew o (List.mem_of_getElem? ho) number hnumber
  rw [List.getElem?_eq_none (hlength ▸ hle)] at hx
  cases hx

theorem reply_answered_patient : patient.IsFresh ∧ patient.Undisturbed 30 ∧
    (patient.after 30).progress = .done (.ok (.applied 3 [50])) ∧ patient.Answered 30 3 [50] ∧
    ∀ x r, (patient.after 30).cluster.packets[12]? = some x → x.sender = ⟨9⟩ →
      x.message = .submit r → r = patient.request := by
  have hcalm := undisturbed_patient 30
  have hdone : (patient.after 30).progress = .done (.ok (.applied 3 [50])) :=
    CallProgress.eq_of_answer? (by decide +kernel)
  obtain ⟨hreply, hrequests⟩ := patient.reply_answered isFresh_patient hcalm
  obtain ⟨index, result, heq, hanswer⟩ := hreply _ hdone
  cases heq
  exact ⟨isFresh_patient, hcalm, hdone, hanswer, fun x r => hrequests 12 x r (by decide +kernel)⟩

/-- The late answer is taken for the answer to the call. -/
def belated : Conversation Recorder := secondCall [.receive 7] (by decide)

theorem not_answered_belated : (belated.after 1).progress = .done (.ok (.applied 2 [49])) ∧
    ((belated.after 1).cluster.log ⟨1⟩).entries.map (·.command) = [.noop, .application [1]] ∧
    belated.command = [2] ∧ ¬ belated.Answered 1 2 [49] := by
  refine ⟨CallProgress.eq_of_answer? (by decide +kernel), by decide +kernel, rfl, ?_⟩
  -- no member has taken up anything yet
  rintro ⟨p, e, ⟨⟨j, hj, q, htakes⟩, -, -⟩, -⟩
  obtain ⟨number, hdeliver, -⟩ := htakes.arrives
  obtain rfl : j = 0 := by omega
  cases hdeliver

end Conversation

end Raft
