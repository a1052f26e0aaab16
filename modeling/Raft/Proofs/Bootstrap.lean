import Raft.Proofs.Membership

/-!
# Finding the cluster and electing its first leaders

In a launch where every node looks for as many members as there are, a node takes part in one of
three ways. It finds all others. It is told the configuration of a leader. Or it meets a leader, and
then waits to be told. `Charter.whole`: who takes part knows all members or none, and who stands for
election knows them all, so that any two majorities meet. The `Votes` record who has voted for whom.

`Launch.leader_unique`: no two nodes ever lead in the same term, as long as no leader meets a node
that has found some of the others. `Launch.leads_halfJoined` shows that the condition is needed:
such a node keeps what it has found, and stands for election with it.
-/

namespace Raft

/-! ### Configurations -/

/-- All members, whether a change is in progress or not. -/
def Configuration.IsWhole (all : PeerSet) (c : Configuration) : Prop :=
  c.members = all ∧ c.finalMembers = all

/-- Who takes part knows all members or none. -/
def Charter.whole (all : PeerSet) : Charter where
  provisional c := (∀ p ∈ c.members, p ∈ all) ∧ c.finalMembers = c.members
  inForce c := c.members = .empty ∨ c.IsWhole all
  leading c := c.IsWhole all
  logged c := c.IsWhole all
  member p := p ∈ all
  enough required := required = all.size
  inForce_of_leading h := .inr h
  leading_of_logged h := h
  leading_of_inForce h hmembers := by
    rcases h with h | h
    · rw [h] at hmembers
      cases hmembers
    · exact h
  logged_settled {c} h hjoint := by
    cases c with
    | stable => cases hjoint
    | joint sequence old new => exact ⟨h.2, h.2⟩
  provisional_insert h hp hq := by
    refine ⟨fun x hx => ?_, rfl⟩
    rcases PeerSet.mem_insert.1 hx with rfl | hx
    · exact hq
    · rcases PeerSet.mem_insert.1 hx with rfl | hx
      · exact hp
      · exact h.1 x hx
  inForce_of_enough h henough hsize := by
    have hall := PeerSet.eq_of_subset_of_size_le h.1 (henough ▸ hsize)
    exact .inr ⟨hall, h.2.trans hall⟩

/-- A leader that is told all members proposes nothing else. -/
theorem Configuration.IsWhole.transitionTo {all : PeerSet} {c d : Configuration}
    (hc : c.IsWhole all) (hd : d.IsWhole all) : (c.transitionTo d).IsWhole all := by
  refine ⟨?_, hd.2⟩
  show c.members.union d.finalMembers = all
  rw [hc.1, hd.2, PeerSet.union_self]

/-! ### Votes -/

/-- Whom every node has voted for in a term. -/
abbrev Votes : Type := PeerId → Nat → Option PeerId

namespace Votes

/-- One more vote. -/
def record (v : Votes) (p : PeerId) (t : Nat) (c : PeerId) : Votes :=
  fun q u => if q = p ∧ u = t then some c else v q u

/-- Only the node `p` has voted, and it has not changed its mind. -/
structure Adds (p : PeerId) (v v' : Votes) : Prop where
  own : ∀ {t c}, v p t = some c → v' p t = some c
  others : ∀ {q}, q ≠ p → v' q = v q

variable {v v' v'' : Votes} {p q : PeerId} {t : Nat} {c : PeerId}

theorem record_self (v : Votes) (p : PeerId) (t : Nat) (c : PeerId) : v.record p t c p t = some c :=
  if_pos ⟨rfl, rfl⟩

theorem record_of_ne (v : Votes) (p : PeerId) {t u : Nat} (c : PeerId) (h : u ≠ t) :
    v.record p t c p u = v p u := if_neg fun h' => h h'.2

theorem Adds.refl (p : PeerId) (v : Votes) : v.Adds p v := ⟨id, fun _ => rfl⟩

theorem Adds.trans (h : v.Adds p v') (h' : v'.Adds p v'') : v.Adds p v'' :=
  ⟨fun hv => h'.own (h.own hv), fun hq => (h'.others hq).trans (h.others hq)⟩

theorem Adds.mono (h : v.Adds p v') (hv : v q t = some c) : v' q t = some c := by
  by_cases hq : q = p
  · subst hq
    exact h.own hv
  · rw [h.others hq, hv]

theorem adds_record (h : v p t = none ∨ v p t = some c) : v.Adds p (v.record p t c) := by
  refine ⟨fun {u d} hv => ?_, fun {q} hq => ?_⟩
  · by_cases hu : u = t
    · subst hu
      rw [record_self]
      rcases h with h | h
      · cases h.symm.trans hv
      · rwa [h] at hv
    · rw [record_of_ne v p c hu, hv]
  · funext u
    exact if_neg fun h => hq h.1

/-- A vote that is asked for is for the one who asks, and a vote that is granted is on record. -/
def Sent (v : Votes) (sender receiver : PeerId) : Message → Prop
  | .requestVote _ candidate _ _ => sender = candidate
  | .grantVote t => v sender t = some receiver
  | _ => True

theorem Sent.mono {m : Message} (h : v.Adds p v') {sender receiver : PeerId}
    (hm : v.Sent sender receiver m) : v'.Sent sender receiver m := by
  cases m with
  | grantVote => exact h.mono hm
  | requestVote => exact hm
  | _ => trivial

end Votes

/-- The votes of a node and those for it are on record, and whoever leads has the votes of a
majority. -/
structure Node.Polled (all : PeerSet) (v : Votes) (n : Node) : Prop where
  vote : v n.id n.term = n.standing.votedFor
  future : ∀ t, n.term < t → v n.id t = none
  granted : n.role = .candidate → ∀ q ∈ n.granted, q ∈ all ∧ v q n.term = some n.id
  won : n.role = .leader → all.Most fun q => v q n.term = some n.id

variable {all : PeerSet} {v v' : Votes} {p : PeerId} {i : Input} {n m : Node} {es : List Effect}
  {js : List Input}

namespace Node.Polled

/-- What others do leaves this so. -/
theorem mono (h : n.Polled all v) (hadds : v.Adds p v') (hp : n.id ≠ p) : n.Polled all v' where
  vote := by rw [hadds.others hp, h.vote]
  future := by
    rw [hadds.others hp]
    exact h.future
  granted hrole q hq := ⟨(h.granted hrole q hq).1, hadds.mono (h.granted hrole q hq).2⟩
  won hrole := (h.won hrole).mono fun _ _ hq => hadds.mono hq

theorem of_alike (h : n.Polled all v) (hm : n.Alike m) : m.Polled all v := by
  constructor
  case vote =>
    rw [hm.id, hm.term, hm.votedFor]
    exact h.vote
  case future =>
    rw [hm.id, hm.term]
    exact h.future
  case granted =>
    rw [hm.role, hm.id, hm.term, hm.granted]
    exact h.granted
  case won =>
    rw [hm.role, hm.id, hm.term]
    exact h.won

/-- A follower has only its own vote to answer for. -/
theorem of_follower (hrole : m.role = .follower) (hvote : v m.id m.term = m.standing.votedFor)
    (hfuture : ∀ t, m.term < t → v m.id t = none) : m.Polled all v where
  vote := hvote
  future := hfuture
  granted hr := nomatch hrole.symm.trans hr
  won hr := nomatch hrole.symm.trans hr

end Node.Polled

/-- Acts leave the votes on record, and new ones are added to it. -/
theorem Act.polled (a : Act i n es js m) (hn : n.Chartered (.whole all)) (h : n.Polled all v)
    (hi : i.Says (v.Sent · n.id) fun _ => True) :
    ∃ v', v.Adds n.id v' ∧ m.Polled all v' := by
  obtain ⟨hid, hshift⟩ := a.shift
  have hforce : n.role = .candidate → ∀ q ∈ n.members, n.members = all := by
    intro hrole q hq
    have hwhole := (Charter.whole all).leading_of_inForce (hn.inForce (by simp [hrole]))
      (PeerSet.isEmpty_eq_false_of_mem hq)
    exact hwhole.1
  cases hshift with
  | keep hm => exact ⟨v, .refl _ v, h.of_alike hm⟩
  | settle hrole hterm hvoted =>
    refine ⟨v, .refl _ v, .of_follower hrole ?_ ?_⟩
    · rw [hid, hterm, hvoted]
      exact h.vote
    · rw [hid, hterm]
      exact h.future
  | observe hrole hterm hvoted =>
    refine ⟨v, .refl _ v, .of_follower hrole ?_ fun t ht => ?_⟩
    · rw [hid, hvoted]
      exact h.future _ hterm
    · rw [hid]
      exact h.future t (Nat.lt_trans hterm ht)
  | @grant sender candidate _ _ _ hrole hvote hm =>
    subst hm
    have hadds : v.Adds n.id (v.record n.id n.term candidate) :=
      Votes.adds_record (h.vote ▸ hvote)
    refine ⟨_, hadds, .of_follower hrole (v.record_self _ _ _) fun t ht => ?_⟩
    exact (v.record_of_ne n.id candidate (Nat.ne_of_gt ht)).trans (h.future t ht)
  | campaign _ _ hm =>
    subst hm
    have hnext : n.term < Term.next n.term := Nat.lt_succ_self _
    have hadds : v.Adds n.id (v.record n.id (Term.next n.term) n.id) :=
      Votes.adds_record (.inl (h.future _ hnext))
    refine ⟨_, hadds, v.record_self _ _ _, fun t ht => ?_, fun _ q hq => ?_, nofun⟩
    · exact (v.record_of_ne n.id n.id (Nat.ne_of_gt ht)).trans
        (h.future t (Nat.lt_trans hnext ht))
    · obtain rfl := PeerSet.mem_singleton.1 hq
      exact ⟨hn.member, v.record_self _ _ _⟩
  | @count voter hvote hrole hmem _ hm =>
    subst hm hvote
    refine ⟨v, .refl _ v, h.vote, h.future, fun _ q hq => ?_, fun hr => nomatch hrole.symm.trans hr⟩
    rcases PeerSet.mem_insert.1 hq with rfl | hq
    · exact ⟨hforce hrole q hmem ▸ hmem, hi⟩
    · exact h.granted hrole q hq
  | elect _ hrole hmaj hm =>
    subst hm
    have hmembers : n.standing.members = all := (hn.leading_of_hasMajority hrole hmaj).1
    refine ⟨v, .refl _ v, h.vote, h.future, nofun, fun _ => ?_⟩
    rw [← hmembers]
    refine Standing.most_of_hasMajority hmaj (hn.tally.votes hrole) fun q hq => ?_
    exact ⟨hmembers ▸ (h.granted hrole q hq).1, (h.granted hrole q hq).2⟩
  | await _ hrole hm =>
    subst hm
    refine ⟨v, .refl _ v, h.vote, h.future, fun _ q hq => ?_, nofun⟩
    rw [show n.granted = .empty from (hn.tally.init hrole).2] at hq
    exact absurd hq (PeerSet.not_mem_empty q)

/-! ### What votes are sent -/

theorem Votes.sent_of_isPlain {sender receiver : PeerId} {message : Message}
    (h : message.IsPlain) : v.Sent sender receiver message := by
  cases message with
  | requestVote | grantVote => exact h.elim
  | _ => trivial

theorem Input.IsOwn.says_votes {C : SnapshotMeta → Prop} (h : i.IsOwn) :
    i.Says (v.Sent · p) C := by
  cases i with
  | message sender message =>
    cases message with
    | requestVote | grantVote => exact h.elim
    | _ => trivial
  | _ => exact h.elim

/-- What an act sends tells the truth about votes. -/
theorem Act.says_votes (a : Act i n es js m) (hi : i.Says (v.Sent · n.id) fun _ => True)
    (hvote : v m.id m.term = m.standing.votedFor) :
    ∀ e ∈ es, e.Says v.Sent (fun _ => True) n.id := by
  intro e he
  rcases a.effects_cases he with hplain | ⟨p, t, _, _, rfl⟩ | ⟨sender, candidate, _, _, rfl, hmsg,
    hid, hterm, hvoted⟩ | ⟨_, _, _, _, _, -, rfl⟩ | ⟨p, s, -, rfl, -⟩
  · exact hplain.imp (fun _ _ _ => Votes.sent_of_isPlain) fun _ h => h
  · rfl
  · subst hmsg
    obtain rfl : sender = candidate := hi
    rw [hid, hterm, hvoted] at hvote
    exact hvote
  · trivial
  · trivial

/-! ### The regime -/

theorem Votes.sent_of_call {sender receiver : PeerId} {message : Message}
    (h : message.IsOrdinaryCall) : v.Sent sender receiver message := by
  cases message with
  | requestVote | grantVote => exact h.elim
  | _ => trivial

/-- Who takes part knows all members, and the votes are on record. -/
def Votes.regime (all : PeerSet) : Regime Votes where
  Adds := Votes.Adds
  Inv p v n := n.id = p ∧ n.Chartered (.whole all) ∧ n.Polled all v
  Sent v sender receiver m := (Charter.whole all).Sent m ∧ v.Sent sender receiver m
  Captured about := (Charter.whole all).inForce about.config
  refl := Votes.Adds.refl
  trans := Votes.Adds.trans
  id h := h.1
  inv hp hadds h := ⟨h.1, h.2.1, h.2.2.mono hadds (h.1 ▸ hp)⟩
  sent hadds h := ⟨h.1, h.2.mono hadds⟩
  call h := ⟨Charter.sent_of_call _ h, Votes.sent_of_call h⟩
  respond := ⟨trivial, trivial⟩

/-- A node that starts keeps to the regime. -/
theorem Votes.regime_fresh {settings : Settings} (hp : p ∈ all)
    (hfind : settings.membersToFind = all.size) :
    (Votes.regime all).Inv p (fun _ _ => none) (.fresh p settings) :=
  ⟨rfl, Node.chartered_fresh hp hfind ⟨nofun, rfl⟩, rfl, fun _ _ => rfl, nofun, nofun⟩

/-- Whether an input is a batch of a leader. -/
def Input.isAppend : Input → Bool
  | .message _ (.appendEntries ..) => true
  | _ => false

theorem Input.IsOwn.isAppend {i : Input} (h : i.IsOwn) : i.isAppend = false := by
  unfold Input.isAppend
  split
  next => exact h.elim
  next => rfl

/-- Whether an input can make a node enroll somebody. -/
def Input.Enrolls : Input → Prop
  | .timeout .discovery => True
  | .message _ (.discovered _) => True
  | .message _ (.memberAdded ..) => True
  | _ => False

/-- An act keeps to the regime, unless it is that of a node that has found some members only and
meets a leader. -/
theorem Act.keeps_votes (a : Act i n es js m) (hn : (Votes.regime all).Inv p v n)
    (hi : (Votes.regime all).Good v p i)
    (hvacant : i.isAppend = true → n.role = .init → n.members = .empty) :
    (Votes.regime all).KeepsSoFar p v m es js := by
  obtain ⟨rfl, hchartered, hpolled⟩ := hn
  have hcharter : (Charter.whole all).Good i := hi.imp (fun _ _ h => h.1) fun _ h => h
  have hvotes : i.Says (v.Sent · n.id) fun _ => True := hi.imp (fun _ _ h => h.2) fun _ _ => trivial
  obtain ⟨hm, hes, hjs⟩ := a.chartered hchartered hcharter
    (by
      rintro hrole sender c rfl
      exact (hchartered.leading hrole).transitionTo hcharter)
    (by
      rintro hrole _ _ _ _ _ _ _ rfl
      exact .inl (hvacant rfl hrole))
  obtain ⟨v', hadds, hm'⟩ := a.polled hchartered hpolled hvotes
  have hvotes' : i.Says (v'.Sent · n.id) fun _ => True :=
    hvotes.imp (fun _ _ h => h.mono hadds) fun _ h => h
  have hraised := a.raises_keeps hvotes' fun _ hown => hown.says_votes
  exact ⟨v', hadds, ⟨a.id_settings.1, hm, hm'⟩,
    fun e he => (hes e he).and (a.says_votes hvotes' hm'.vote e he),
    fun j hj => (hjs j hj).and (hraised j hj)⟩

/-- A node that knows nobody finds nobody, unless the input is about it. -/
theorem Act.keeps_vacant (a : Act i n es js m) (hi : ¬ i.Enrolls)
    (hn : n.role = .init → n.members = .empty) :
    (m.role = .init → m.members = .empty) ∧ ∀ j ∈ js, ¬ j.Enrolls := by
  refine ⟨fun hrole => ?_, fun j hj => ?_⟩
  · obtain ⟨hinit, -, hconfig | ⟨sender, member, required, rfl, -⟩⟩ := a.of_init hrole
    · exact (congrArg Configuration.members hconfig).trans (hn hinit)
    · exact absurd trivial hi
  · cases a with
    | meet _ hmsg => rcases hmsg with ⟨rfl, -⟩ | ⟨sender, rfl⟩ <;> exact absurd trivial hi
    | conclude | propose =>
      obtain rfl := List.mem_singleton.1 hj
      exact id
    | again =>
      obtain rfl := List.mem_singleton.1 hj
      exact hi
    | _ => cases hj

/-- A transition keeps to the regime, unless it is that of a node that has found some members only
and meets a leader. -/
theorem keeps_votes_of_step (h : step n i = .ok (m, es)) (hn : (Votes.regime all).Inv p v n)
    (hi : (Votes.regime all).Good v p i)
    (hspares : i.isAppend = true → n.role = .init → n.members = .empty) :
    (Votes.regime all).Keeps p v m es := by
  by_cases happend : i.isAppend = true
  · -- the batch makes nobody known to the node, so it knows nobody as long as it looks for members
    refine (Votes.regime all).step (N := fun n => n.role = .init → n.members = .empty)
      (I := fun j => ¬ j.Enrolls) h hn hi (hspares happend) ?_ ?_ ?_
    · intro henrolls
      unfold Input.Enrolls at henrolls
      split at henrolls <;> first | cases happend | exact henrolls
    · exact fun hn hi a => a.keeps_vacant hi hn
    · exact fun hn hi hvacant _ a => a.keeps_votes hn hi fun _ => hvacant
  · refine (Votes.regime all).step (N := fun _ => True) (I := fun j => j.isAppend = false) h hn hi
      trivial (by simpa using happend) ?_ ?_
    · exact fun _ hi a => ⟨trivial, a.raises_keeps hi fun _ => Input.IsOwn.isAppend⟩
    · intro v i n m es js hn hi _ hi' a
      refine a.keeps_votes hn hi fun happend => ?_
      rw [hi'] at happend
      cases happend

/-! ### Launches in which all nodes look for all members -/

namespace Launch

variable {σ : Type} [StateMachine σ] (l : Launch σ)

/-- At the moment `k` no leader's batch reaches a node that has found some members but not all. -/
def SparesSeeker (k : Nat) : Prop :=
  ∀ x ∈ l.processed? k, x.2.isAppend = true → ((l.after k).node x.1).role = .init →
    ((l.after k).node x.1).members = .empty

instance (k : Nat) : Decidable (l.SparesSeeker k) :=
  inferInstanceAs (Decidable (∀ _ ∈ _, _ → _ → _))

/-- Up to any moment, whoever has led in some term had the votes of a majority in it. -/
theorem exists_votes (hfind : ∀ p ∈ l.members, (l.options p).membersToFind = l.members.size)
    {k : Nat} (h : ∀ j < k, l.SparesSeeker j) :
    ∃ v : Votes, ∀ i ≤ k, ∀ p t, (l.after i).Leads p t →
      l.members.Most fun q => v q t = some p := by
  obtain ⟨v, -, hv⟩ := l.exists_governed (Votes.regime l.members) (fun _ _ => none) (k := k)
    (Q := fun v c => ∀ p ∈ l.members, ∀ t, c.Leads p t → l.members.Most fun q => v q t = some p)
    (fun p hp => Votes.regime_fresh hp (hfind p hp))
    (fun j hj _ p i n es hprocessed hn hi hstep =>
      keeps_votes_of_step hstep hn hi (h j hj (p, i) hprocessed))
    (by
      rintro v c hgoverned hmembers p hp _ ⟨hrole, rfl⟩
      obtain ⟨hid, -, hpolled⟩ := hgoverned.nodes p (hmembers ▸ hp)
      have hwon := hpolled.won hrole
      rwa [hid] at hwon)
    (fun hQ hadds p hp t hleads => (hQ p hp t hleads).mono fun _ _ hq => hadds.mono hq)
  refine ⟨v, fun i hi p t hleads => hv i hi p ?_ t hleads⟩
  by_contra hp
  have hrole := hleads.1
  rw [l.node_after_of_not_mem hp] at hrole
  cases hrole

/-- As long as no leader's batch reaches a node that has found some members but not all, a term has
one leader at most. -/
theorem leader_unique (hfind : ∀ p ∈ l.members, (l.options p).membersToFind = l.members.size)
    {k : Nat} (h : ∀ j < k, l.SparesSeeker j) {i j : Nat} (hi : i ≤ k) (hj : j ≤ k) {p q : PeerId}
    {t : Nat} (hp : (l.after i).Leads p t) (hq : (l.after j).Leads q t) : p = q := by
  obtain ⟨v, hv⟩ := l.exists_votes hfind h
  obtain ⟨x, -, hxp, hxq⟩ := (hv i hi p t hp).meet (hv j hj q t hq)
  exact Option.some.inj (hxp.symm.trans hxq)

set_option maxRecDepth 2000 in
/-- Nodes 2 to 5 find all others, and node 1 only node 2. Node 3 wins with the votes of nodes 4 and
5 and sends node 1 a batch. Node 1 asks for the configuration. What it is told is not newer than
what it has found, so it stands for election among the two of them. -/
def halfJoined : Launch Recorder where
  members := .ofList [⟨1⟩, ⟨2⟩, ⟨3⟩, ⟨4⟩, ⟨5⟩]
  options p := { id := p, peers := [⟨1⟩, ⟨2⟩, ⟨3⟩, ⟨4⟩, ⟨5⟩].erase p, membersToFind := 5 }
  initial := {}
  events :=
    let calm (p count : Nat) : List Event := List.replicate count (.carryOut ⟨p⟩ { now := 0 })
    -- everybody probes everybody else, and all answer but those that node 1 has not found yet
    [1, 2, 3, 4, 5].flatMap (fun p => .expire ⟨p⟩ .discovery :: calm p 5) ++
    [(0, 2), (4, 1), (5, 3), (6, 4), (7, 5), (8, 1), (9, 2), (10, 4), (11, 5), (12, 1), (13, 2),
      (14, 3), (15, 5), (16, 1), (17, 2), (18, 3), (19, 4)].flatMap
        (fun (k, p) => .deliver k :: calm p 1) ++
    [.deliver 20] ++
    [(2, 21), (3, 25), (4, 29), (5, 33)].flatMap (fun (p, k) =>
      [.deliver k, .deliver (k + 1), .deliver (k + 2), .deliver (k + 3)] ++ calm p 2) ++
    -- node 3 wins, and node 4 follows it
    .expire ⟨3⟩ .election :: calm 3 6 ++
    .deliver 39 :: calm 4 2 ++ .deliver 40 :: calm 5 2 ++ .deliver 41 :: .deliver 42 :: calm 3 6 ++
    .deliver 45 :: calm 4 2 ++
    -- node 1 meets it, asks and is told
    .deliver 43 :: calm 1 3 ++ .deliver 48 :: calm 3 1 ++ [.deliver 49] ++
    -- node 1 wins
    .expire ⟨1⟩ .election :: calm 1 2 ++ .deliver 50 :: calm 2 2 ++ [.deliver 51]
  ordinary := by decide

theorem leader_unique_halfJoined :
    (halfJoined.after 104).Leads ⟨3⟩ 1 ∧ (halfJoined.after 113).Leads ⟨3⟩ 1 ∧
      (⟨3⟩ : PeerId) = ⟨3⟩ := by
  have h₁ : (halfJoined.after 104).Leads ⟨3⟩ 1 := by decide +kernel
  have h₂ : (halfJoined.after 113).Leads ⟨3⟩ 1 := by decide +kernel
  have hspares : ∀ j < 113, halfJoined.SparesSeeker j := by decide +kernel
  exact ⟨h₁, h₂, halfJoined.leader_unique (by decide +kernel) hspares (by decide) (by decide) h₁ h₂⟩

/-- Five nodes, and two of them lead in the same term. -/
theorem leads_halfJoined :
    (halfJoined.after 127).Leads ⟨1⟩ 1 ∧ (halfJoined.after 127).Leads ⟨3⟩ 1 := by
  decide +kernel

end Launch

end Raft
