import Raft.Proofs.Invariant

/-!
# Clusters that have yet to find themselves

A `Launch` is everything that can happen to a cluster whose members know nothing of each other when
they start. Clients submit commands for the application and ask questions, and nobody changes the
members.

* `Regime`, what every node of a cluster keeps to, what the messages say, and a record of the past
  that both may refer to;
* `Cluster.Governed`, the whole cluster keeps to a regime, and `Governed.happen`, an event leaves it
  so if the transition does that it sets off;
* `Regime.step`, a transition does so if every act does;
* `Launch.exists_governed`, one record for all moments of a launch.
-/

namespace Raft

variable {σ : Type}

/-- A run of a cluster whose members know of each other at most whom to probe. -/
structure Launch (σ : Type) where
  members : PeerSet
  options : PeerId → Options := fun p => { id := p }
  initial : σ
  events : List Event
  ordinary : ∀ e ∈ events, e.IsOrdinary

namespace Launch

/-- The cluster before anything happens. -/
def start (l : Launch σ) : Cluster σ where
  members := l.members
  site p :=
    { replica :=
        { options := l.options p
          node := .fresh p (l.options p).settings
          state := l.initial } }

variable [StateMachine σ] (l : Launch σ)

/-- The cluster after so many events. -/
def after (count : Nat) : Cluster σ := l.start.play (l.events.take count)

/-- The input that is processed at the moment `k`, and by which member. -/
def processed? (k : Nat) : Option (PeerId × Input) :=
  (l.events[k]?.bind (l.after k).input?).filter fun x =>
    x.1 ∈ l.members ∧ (l.after k).Settled x.1

@[simp] theorem members_after (k : Nat) : (l.after k).members = l.members :=
  Cluster.members_play ..

end Launch

/-! ### What messages say -/

/-- What an input says, when `S` is what messages say and `C` what captures are asked for with. -/
def Input.Says (S : PeerId → Message → Prop) (C : SnapshotMeta → Prop) : Input → Prop
  | .message sender m => S sender m
  | .snapshotPrepared (some s) => C s.about
  | _ => True

/-- What an effect of the node `me` says. -/
def Effect.Says (S : PeerId → PeerId → Message → Prop) (C : SnapshotMeta → Prop) (me : PeerId) :
    Effect → Prop
  | .send receiver m => S me receiver m
  | .forward sender receiver m => S sender receiver m
  | .prepareSnapshot about => C about
  | _ => True

theorem Input.Says.imp {S S' : PeerId → Message → Prop} {C C' : SnapshotMeta → Prop} {i : Input}
    (h : i.Says S C) (hS : ∀ sender m, S sender m → S' sender m)
    (hC : ∀ about, C about → C' about) : i.Says S' C' := by
  cases i with
  | message sender m => exact hS sender m h
  | snapshotPrepared s =>
    cases s with
    | none => trivial
    | some s => exact hC s.about h
  | _ => trivial

theorem Effect.Says.imp {S S' : PeerId → PeerId → Message → Prop} {C C' : SnapshotMeta → Prop}
    {me : PeerId} {e : Effect} (h : e.Says S C me)
    (hS : ∀ sender receiver m, S sender receiver m → S' sender receiver m)
    (hC : ∀ about, C about → C' about) : e.Says S' C' me := by
  cases e with
  | send receiver m => exact hS me receiver m h
  | forward sender receiver m => exact hS sender receiver m h
  | prepareSnapshot about => exact hC about h
  | _ => trivial

theorem Effect.says_of_isOnState {S : PeerId → PeerId → Message → Prop} {me : PeerId} {e : Effect}
    (h : e.isOnState) : e.Says S (fun _ => True) me := by
  cases e with
  | send | forward => cases h
  | _ => trivial

theorem Input.Says.and {S S' : PeerId → Message → Prop} {C C' : SnapshotMeta → Prop} {i : Input}
    (h : i.Says S C) (h' : i.Says S' C') : i.Says (fun sender m => S sender m ∧ S' sender m) C := by
  cases i with
  | message => exact ⟨h, h'⟩
  | snapshotPrepared s =>
    cases s with
    | none => trivial
    | some s => exact h
  | _ => trivial

theorem Effect.Says.and {S S' : PeerId → PeerId → Message → Prop} {C C' : SnapshotMeta → Prop}
    {me : PeerId} {e : Effect} (h : e.Says S C me) (h' : e.Says S' C' me) :
    e.Says (fun sender receiver m => S sender receiver m ∧ S' sender receiver m) C me := by
  cases e with
  | send | forward => exact ⟨h, h'⟩
  | prepareSnapshot => exact h
  | _ => trivial

/-! ### Regimes -/

/-- What the nodes of a cluster keep to and what their messages say. Both may refer to a record of
the past, to which every node adds what it is responsible for. -/
structure Regime (γ : Type) where
  /-- What a node may add. -/
  Adds : PeerId → γ → γ → Prop
  /-- What a node keeps to. -/
  Inv : PeerId → γ → Node → Prop
  /-- What a message from one node to another says. -/
  Sent : γ → PeerId → PeerId → Message → Prop
  /-- What a capture is asked for with. -/
  Captured : SnapshotMeta → Prop
  refl : ∀ p g, Adds p g g
  trans : ∀ {p g g' g''}, Adds p g g' → Adds p g' g'' → Adds p g g''
  id : ∀ {p g n}, Inv p g n → n.id = p
  inv : ∀ {p q g g' n}, q ≠ p → Adds p g g' → Inv q g n → Inv q g' n
  sent : ∀ {p g g' sender receiver m}, Adds p g g' → Sent g sender receiver m →
    Sent g' sender receiver m
  call : ∀ {g sender receiver m}, Message.IsOrdinaryCall m → Sent g sender receiver m
  respond : ∀ {g sender receiver index result}, Sent g sender receiver (.respond index result)

namespace Regime

variable {γ : Type} (r : Regime γ)

/-- What an input to the node `p` says. -/
def Good (g : γ) (p : PeerId) (i : Input) : Prop := i.Says (r.Sent g · p) r.Captured

/-- What an effect of the node `p` says. -/
def Fine (g : γ) (p : PeerId) (e : Effect) : Prop := e.Says (r.Sent g) r.Captured p

/-- A node has kept to the regime, and added to the record. -/
def Keeps (p : PeerId) (g : γ) (n : Node) (es : List Effect) : Prop :=
  ∃ g', r.Adds p g g' ∧ r.Inv p g' n ∧ ∀ e ∈ es, r.Fine g' p e

/-- One input has been processed in part, with what it raises: the node has kept to the regime. -/
def KeepsSoFar (p : PeerId) (g : γ) (n : Node) (es : List Effect) (js : List Input) : Prop :=
  ∃ g', r.Adds p g g' ∧ r.Inv p g' n ∧ (∀ e ∈ es, r.Fine g' p e) ∧ ∀ j ∈ js, r.Good g' p j

section Step

variable {p : PeerId} {N : Node → Prop} {I : Input → Prop}

/-- A regime whose acts all keep to it is a discipline for every node. Of the nodes and inputs in
between, `N` and `I` may be assumed, which every act leaves true. -/
def discipline
    (hkeeps : ∀ {i n m es js}, N n → I i → Act i n es js m → N m ∧ ∀ j ∈ js, I j)
    (hact : ∀ {g i n m es js}, r.Inv p g n → r.Good g p i → N n → I i → Act i n es js m →
      r.KeepsSoFar p g m es js) : Discipline γ where
  Le := r.Adds p
  Inv g n := r.Inv p g n ∧ N n
  Good g i := r.Good g p i ∧ I i
  Fine g e := r.Fine g p e
  refl := r.refl p
  trans := r.trans
  good hle hi := ⟨hi.1.imp (fun _ _ => r.sent hle) fun _ h => h, hi.2⟩
  fine hle he := he.imp (fun _ _ _ => r.sent hle) fun _ h => h
  act hn hi a := by
    obtain ⟨g', hadds, hm, hes, hjs⟩ := hact hn.1 hi.1 hn.2 hi.2 a
    obtain ⟨hN, hI⟩ := hkeeps hn.2 hi.2 a
    exact ⟨g', hadds, ⟨hm, hN⟩, hes, fun j hj => ⟨hjs j hj, hI j hj⟩⟩

/-- A transition keeps to the regime if every act does. -/
theorem step {g : γ} {n m : Node} {i : Input} {es : List Effect}
    (h : Raft.step n i = .ok (m, es)) (hn : r.Inv p g n) (hi : r.Good g p i) (hN : N n) (hI : I i)
    (hkeeps : ∀ {i n m es js}, N n → I i → Act i n es js m → N m ∧ ∀ j ∈ js, I j)
    (hact : ∀ {g i n m es js}, r.Inv p g n → r.Good g p i → N n → I i → Act i n es js m →
      r.KeepsSoFar p g m es js) : r.Keeps p g m es := by
  obtain ⟨g', hadds, hm, hes⟩ := (r.discipline hkeeps hact).step h ⟨hn, hN⟩ ⟨hi, hI⟩
  exact ⟨g', hadds, hm.1, hes⟩

end Step

end Regime

namespace Cluster

variable {γ : Type} {r : Regime γ} {g : γ} {c : Cluster σ} {p : PeerId} {i : Input}

/-- Every member keeps to the regime, and so does all that is on its way. -/
structure Governed (r : Regime γ) (g : γ) (c : Cluster σ) : Prop where
  nodes : ∀ p ∈ c.members, r.Inv p g (c.node p)
  carries : c.Carries (fun k => r.Sent g k.sender k.receiver k.message) (r.Fine g) (r.Good g)
  outside : ∀ p, p ∉ c.members → (c.site p).backlog = []

/-- What an event brings to a member says what it should, if what clients send does. -/
theorem Governed.input (h : c.Governed r g) {e : Event}
    (hcall : ∀ client q m, e = .call client q m → r.Sent g client q m)
    (hi : c.input? e = some (p, i)) (hp : p ∈ c.members) : r.Good g p i := by
  rcases c.input_cases hi with ⟨k, hk, rfl, rfl⟩ | hout | ⟨client, m, rfl, rfl⟩ | ⟨timer, rfl⟩ | rfl
  · exact h.carries.packets k hk
  · exact h.carries.outcomes p hp i hout
  · exact hcall client p m rfl
  · trivial
  · trivial

/-- A member has taken a transition that keeps to the regime. -/
theorem Governed.put (h : c.Governed r g) (hp : p ∈ c.members) {g' : γ} {n : Node}
    {es : List Effect} (hadds : r.Adds p g g') (hinv : r.Inv p g' n)
    (hes : ∀ e ∈ es, r.Fine g' p e) :
    (c.put p { c.site p with
      replica := { (c.site p).replica with node := n }, backlog := es }).Governed r g' := by
  constructor
  case nodes =>
    intro q hq
    by_cases hqp : q = p
    · subst hqp
      rwa [node_put_self]
    · rw [node_put_of_ne c _ hqp]
      exact r.inv hqp hadds (h.nodes q hq)
  case carries =>
    have hfine : ∀ {q e}, r.Fine g q e → r.Fine g' q e :=
      fun he => he.imp (fun _ _ _ => r.sent hadds) fun _ h => h
    have hgood : ∀ {q j}, r.Good g q j → r.Good g' q j :=
      fun hj => hj.imp (fun _ _ => r.sent hadds) fun _ h => h
    exact h.carries.put rfl (fun k => r.sent hadds) (fun q _ _ e => hfine) (fun q _ j => hgood) hes
  case outside =>
    intro q hq
    have hqp : q ≠ p := fun e => hq (e ▸ hp)
    rw [site_put_of_ne c _ hqp]
    exact h.outside q hq

/-- A member has been given an input, and its transition keeps to the regime. -/
theorem Governed.accept (h : c.Governed r g) (hstep : p ∈ c.members → c.Settled p →
      ∀ n es, step (c.node p) i = .ok (n, es) → r.Keeps p g n es) :
    ∃ g', (g' = g ∨ r.Adds p g g') ∧ (c.accept p i).Governed r g' := by
  rcases c.accept_cases p i with heq | ⟨n, es, hp, hs, hn, heq⟩
  · exact ⟨g, .inl rfl, heq.symm ▸ h⟩
  · obtain ⟨g', hadds, hinv, hes⟩ := hstep hp hs n es hn
    exact ⟨g', .inr hadds, heq.symm ▸ h.put hp hadds hinv hes⟩

variable [StateMachine σ]

/-- A member has carried out an effect. -/
theorem Governed.carryOut (h : c.Governed r g) (p : PeerId) (moment : Moment) :
    (c.carryOut p moment).Governed r g := by
  cases hb : (c.site p).backlog with
  | nil => rwa [carryOut_of_nil moment hb]
  | cons e rest =>
    have hp : p ∈ c.members := by
      by_contra hp
      rw [h.outside p hp] at hb
      cases hb
    have he : r.Fine g p e := by
      refine h.carries.backlog p hp e ?_
      rw [hb]
      exact List.mem_cons_self ..
    constructor
    case nodes =>
      intro q hq
      rw [members_carryOut] at hq
      rw [node_carryOut]
      exact h.nodes q hq
    case carries =>
      refine h.carries.carryOut moment hp hb ?_ ?_ ?_ ?_ trivial fun _ => trivial
      · rintro receiver m rfl
        rw [r.id (h.nodes p hp)]
        exact he
      · rintro sender receiver m rfl
        exact he
      · exact fun _ _ _ _ => r.respond
      · rintro about data rfl -
        exact he
    case outside =>
      intro q hq
      rw [members_carryOut] at hq
      have hqp : q ≠ p := fun e => hq (e ▸ hp)
      rw [site_carryOut_of_ne c moment hqp]
      exact h.outside q hq

/-- An event leaves a cluster governed if the transition that it sets off keeps to the regime. -/
theorem Governed.happen (h : c.Governed r g) {e : Event}
    (hcall : ∀ client q m, e = .call client q m → r.Sent g client q m)
    (hstep : ∀ p i n es, p ∈ c.members → c.Settled p → c.input? e = some (p, i) →
      r.Inv p g (c.node p) → r.Good g p i → step (c.node p) i = .ok (n, es) → r.Keeps p g n es) :
    ∃ g', (g' = g ∨ ∃ p, r.Adds p g g') ∧ (c.happen e).Governed r g' := by
  rcases c.happen_cases e with ⟨p, moment, heq⟩ | ⟨p, i, hi, heq⟩ | heq
  · exact ⟨g, .inl rfl, heq ▸ h.carryOut p moment⟩
  · obtain ⟨g', hg', hgoverned⟩ := h.accept (p := p) (i := i) fun hp hs n es =>
      hstep p i n es hp hs hi (h.nodes p hp) (h.input hcall hi hp)
    exact ⟨g', hg'.imp_right fun hadds => ⟨p, hadds⟩, heq ▸ hgoverned⟩
  · exact ⟨g, .inl rfl, heq.symm ▸ h⟩

end Cluster

/-! ### Launches -/

namespace Launch

variable [StateMachine σ] (l : Launch σ)

/-- From one moment to the next there is one event at most. -/
theorem after_succ_cases (k : Nat) :
    (∃ e, l.events[k]? = some e ∧ l.after (k + 1) = (l.after k).happen e) ∨
      l.after (k + 1) = l.after k := l.start.play_take_succ l.events k

/-- Nothing ever happens to a node that is not a member. -/
theorem node_after_of_not_mem {p : PeerId} (hp : p ∉ l.members) (k : Nat) :
    (l.after k).node p = .fresh p (l.options p).settings := by
  induction k with
  | zero => rfl
  | succ k ih =>
    rcases l.after_succ_cases k with ⟨e, -, heq⟩ | heq
    · rw [heq]
      rcases (l.after k).node_happen_cases e p with ⟨i, n, es, -, hmem, -⟩ | hn
      · exact absurd (l.members_after k ▸ hmem) hp
      · rw [hn, ih]
    · rw [heq, ih]

/-- One record for all moments so far. What it says of a cluster at some moment is true of this
moment ever after. -/
theorem exists_governed {γ : Type} (r : Regime γ) (g₀ : γ) {Q : γ → Cluster σ → Prop} {k : Nat}
    (hstart : ∀ p ∈ l.members, r.Inv p g₀ (.fresh p (l.options p).settings))
    (hstep : ∀ j < k, ∀ g p i n es, l.processed? j = some (p, i) →
      r.Inv p g ((l.after j).node p) →
      r.Good g p i → step ((l.after j).node p) i = .ok (n, es) → r.Keeps p g n es)
    (htells : ∀ {g c}, Cluster.Governed r g c → c.members = l.members → Q g c)
    (hmono : ∀ {g g' c p}, Q g c → r.Adds p g g' → Q g' c) :
    ∃ g, (l.after k).Governed r g ∧ ∀ i ≤ k, Q g (l.after i) := by
  induction k with
  | zero =>
    have hgoverned : l.start.Governed r g₀ :=
      ⟨hstart, ⟨by simp [start], by simp [start], by simp [start]⟩, fun _ _ => rfl⟩
    refine ⟨g₀, hgoverned, fun i hi => ?_⟩
    obtain rfl := Nat.le_zero.1 hi
    exact htells hgoverned rfl
  | succ k ih =>
    obtain ⟨g, hg, hpast⟩ := ih fun j hj => hstep j (Nat.lt_succ_of_lt hj)
    have hnext : ∃ g', (g' = g ∨ ∃ p, r.Adds p g g') ∧ (l.after (k + 1)).Governed r g' := by
      rcases l.after_succ_cases k with ⟨e, he, heq⟩ | heq
      · rw [heq]
        have hcall : ∀ client q m, e = .call client q m → r.Sent g client q m := by
          rintro client q m rfl
          exact r.call (l.ordinary _ (List.mem_of_getElem? he))
        refine hg.happen hcall fun p i n es hp hs hi => ?_
        rw [members_after] at hp
        refine hstep k (Nat.lt_succ_self k) g p i n es ?_
        rw [processed?, he, Option.bind_some, hi, Option.filter_some, if_pos (by simp [hp, hs])]
      · exact ⟨g, .inl rfl, heq ▸ hg⟩
    obtain ⟨g', hle, hg'⟩ := hnext
    refine ⟨g', hg', fun i hi => ?_⟩
    rcases Nat.lt_or_eq_of_le hi with hlt | rfl
    · rcases hle with rfl | ⟨p, hadds⟩
      · exact hpast i (Nat.le_of_lt_succ hlt)
      · exact hmono (hpast i (Nat.le_of_lt_succ hlt)) hadds
    · exact htells hg' (l.members_after _)

end Launch

end Raft
