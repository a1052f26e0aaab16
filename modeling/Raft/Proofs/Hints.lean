import Mathlib.Data.List.Chain
import Mathlib.Logic.Relation
import Raft.Proofs.Charter

/-!
# Where hints at the leader lead

A follower remembers who led it last, passes questions for the leader on to that peer, and never
forgets it, so there may be hints from many terms in a cluster at the same time. They form no cycle
all the same. What carries the proof is the term in which a node has last learnt of a leader, or has
begun to lead (`Node.Hinted`). No other member than the leader of that term is what the hint is at,
and the leader itself cannot have learnt of anybody in an earlier term. So if it follows somebody
else by now, this is because of a later term.

* `Act.hinted` and `Act.names`, what one act does to the hint, and whom it sends hints at;
* `hinting`, the regime that relates the hints of a cluster to its history;
* `Cluster.Hinting.exists_rank`, along hints there is a number that grows;
* `Run.hints_acyclic`, no cycle, and no way back to a node for a question that is passed on.
-/

namespace Raft

/-! ### What is said of leaders -/

/-- Whoever a message has as the leader of its term satisfies `A` together with this term. -/
def Message.Names (A : Nat → PeerId → Prop) : Message → Prop
  | .appendEntries leader t _ _ _ _ => A t leader
  | .installSnapshot leader t _ => A t leader
  | _ => True

section Names

variable {A B : Nat → PeerId → Prop} {me : PeerId} {message : Message}

theorem Message.Names.imp (h : message.Names A) (hAB : ∀ t q, A t q → B t q) :
    message.Names B := by
  cases message with
  | appendEntries | installSnapshot => exact hAB _ _ h
  | _ => trivial

theorem Message.Names.and (h : message.Names A) (h' : message.Names B) :
    message.Names fun t q => A t q ∧ B t q := by
  cases message with
  | appendEntries | installSnapshot => exact ⟨h, h'⟩
  | _ => trivial

theorem Message.IsIdle.names (h : message.IsIdle) : message.Names A := by
  cases message with
  | appendEntries | installSnapshot => exact h.elim
  | _ => trivial

theorem Message.IsPlain.names (h : message.IsPlain) : message.Names A := by
  cases message with
  | appendEntries | installSnapshot => exact h.elim
  | _ => trivial

/-- Whoever an effect of the node `me` has as a leader satisfies `A`. -/
def Effect.Names (A : Nat → PeerId → Prop) (me : PeerId) (e : Effect) : Prop :=
  e.Says (fun _ _ message => message.Names A) (fun _ => True) me

/-- Whoever an input has as a leader satisfies `A`. -/
def Input.Names (A : Nat → PeerId → Prop) (i : Input) : Prop :=
  i.Says (fun _ message => message.Names A) fun _ => True

/-- It does not matter whose effect it is. -/
theorem Effect.Names.imp {e : Effect} {p : PeerId} (h : e.Names A me)
    (hAB : ∀ t q, A t q → B t q) : e.Names B p := by
  cases e with
  | send receiver message => exact Message.Names.imp h hAB
  | forward sender receiver message => exact Message.Names.imp h hAB
  | _ => trivial

theorem Effect.Names.and {e : Effect} (h : e.Names A me) (h' : e.Names B me) :
    e.Names (fun t q => A t q ∧ B t q) me := by
  cases e with
  | send receiver message => exact Message.Names.and h h'
  | forward sender receiver message => exact Message.Names.and h h'
  | _ => trivial

theorem Effect.IsIdle.names {e : Effect} (h : e.IsIdle) : e.Names A me := by
  cases e with
  | send receiver m => exact Message.IsIdle.names h
  | forward sender receiver m => exact Message.IsIdle.names h
  | _ => trivial

theorem Input.IsOwn.names {i : Input} (h : i.IsOwn) : i.Names A := by
  unfold Input.IsOwn at h
  split at h
  next => trivial
  next => trivial
  next => exact h.elim

end Names

/-! ### One act -/

variable {i : Input} {n m : Node} {es : List Effect} {js : List Input}

/-- Only a leader names a leader: itself, in its own term. -/
theorem Act.names (a : Act i n es js m) : ∀ e ∈ es,
    e.Names (fun t q => n.role = .leader ∧ q = n.id ∧ t = n.term) n.id := by
  intro e he
  rcases a.effects_cases he with hplain | ⟨_, _, _, _, rfl⟩ | ⟨_, _, _, _, rfl, -⟩ |
    ⟨_, _, _, _, _, hrole, rfl⟩ | ⟨_, _, hrole, rfl, -⟩
  · exact hplain.imp (fun _ _ _ hm => hm.names) fun _ h => h
  · trivial
  · trivial
  · exact ⟨hrole, rfl, rfl⟩
  · exact ⟨hrole, rfl, rfl⟩

/-- The node has last learnt of a leader, or begun to lead, in the term `w`. Whoever else it holds
for the leader satisfies `A` together with this term. -/
structure Node.Hinted (A : Nat → PeerId → Prop) (w : Nat) (n : Node) : Prop where
  le : w ≤ n.term
  leading : n.role = .leader → w = n.term
  hint : ∀ q, n.leader = some q → q ≠ n.id → A w q

section Hinted

variable {A B : Nat → PeerId → Prop} {w : Nat}

theorem Node.Hinted.imp (h : n.Hinted A w) (hAB : ∀ t q, A t q → B t q) : n.Hinted B w :=
  ⟨h.le, h.leading, fun q hq hne => hAB w q (h.hint q hq hne)⟩

/-- The node holds the same peer for the leader. If it leads, it did so before in the same term. -/
theorem Node.Hinted.of_kept (h : n.Hinted A w) (hid : m.id = n.id) (hterm : n.term ≤ m.term)
    (hlead : m.role = .leader → n.role = .leader ∧ m.term = n.term)
    (hleader : m.leader = n.leader) : m.Hinted A w where
  le := Nat.le_trans h.le hterm
  leading hrole := by
    obtain ⟨hn, heq⟩ := hlead hrole
    exact (h.leading hn).trans heq.symm
  hint q hq hne := h.hint q (hleader ▸ hq) (hid ▸ hne)

theorem Node.Hinted.of_same (h : n.Hinted A w) (hsame : n.Same m) : m.Hinted A w :=
  h.of_kept hsame.id (Nat.le_of_eq hsame.term.symm) (fun hrole => ⟨hsame.role ▸ hrole, hsame.term⟩)
    hsame.leader

/-- An act leaves the hint alone, or it brings one of the present term. -/
theorem Act.hinted (a : Act i n es js m) (hi : i.Names A) (h : n.Hinted A w) :
    ∃ w', w ≤ w' ∧ m.Hinted A w' := by
  cases a with
  | elect =>
    exact ⟨n.term, h.le, Nat.le_refl _, fun _ => rfl,
      fun q hq hne => absurd (Option.some.inj hq).symm hne⟩
  | follow hrole hmsg =>
    refine ⟨n.term, h.le, Nat.le_refl _, fun _ => rfl, fun q hq _ => ?_⟩
    obtain rfl := Option.some.inj hq
    rcases hmsg with ⟨_, _, _, _, rfl⟩ | ⟨_, rfl⟩ <;> exact hi
  | observe => exact ⟨w, Nat.le_refl w, h.of_kept rfl (Standing.term_le_advanceTo ..) nofun rfl⟩
  | campaign => exact ⟨w, Nat.le_refl w, h.of_kept rfl (Nat.le_succ _) nofun rfl⟩
  | yield | await | enter | adopt =>
    exact ⟨w, Nat.le_refl w, h.of_kept rfl (Nat.le_refl _) nofun rfl⟩
  | append => exact ⟨w, Nat.le_refl w, h.of_same (n.turn.same_append ..)⟩
  | commit => exact ⟨w, Nat.le_refl w, h.of_same (n.turn.same_commitUntil ..)⟩
  | accept => exact ⟨w, Nat.le_refl w, h.of_same (n.turn.same_takeEntries ..)⟩
  | install => exact ⟨w, Nat.le_refl w, h.of_same (n.turn.same_takeSnapshot ..)⟩
  | @enroll _ member required _ hrole =>
    obtain ⟨role, hm, hcases⟩ := Turn.addMember_cases hrole member required
    rw [hm]
    refine ⟨w, Nat.le_refl w, h.of_kept rfl (Nat.le_refl _) (fun hlead => ?_) rfl⟩
    rcases hcases with ⟨rfl, -⟩ | ⟨rfl, -⟩ <;> cases hlead
  | _ => exact ⟨w, Nat.le_refl w, h.of_kept rfl (Nat.le_refl _) (fun hrole => ⟨hrole, rfl⟩) rfl⟩

/-- A node learns of leaders in ever later terms, and it sends hints at nobody but itself, and at
that only in terms in which it knew that it leads. -/
def hintDiscipline (A : Nat → PeerId → Prop) (me : PeerId) : Discipline Nat where
  Le := (· ≤ ·)
  Inv w n := n.id = me ∧ n.Hinted A w
  Good _ i := i.Names A
  Fine w e := e.Names (fun t q => q = me ∧ t ≤ w) me
  refl := Nat.le_refl
  trans := Nat.le_trans
  good _ h := h
  fine hle h := h.imp fun _ _ ht => ⟨ht.1, Nat.le_trans ht.2 hle⟩
  act := by
    intro w i n m es js hn hi a
    obtain ⟨rfl, hhinted⟩ := hn
    obtain ⟨w', hle, hm⟩ := a.hinted hi hhinted
    refine ⟨w', hle, ⟨a.shift.1, hm⟩, fun e he => ?_, a.raises_keeps hi fun _ => Input.IsOwn.names⟩
    refine (a.names e he).imp ?_
    rintro t q ⟨hrole, rfl, rfl⟩
    exact ⟨rfl, hhinted.leading hrole ▸ hle⟩

end Hinted

/-! ### The history of the hints -/

theorem Move.names {x y : Core} (move : Move i x es y) : ∀ e ∈ es,
    e.Names (fun t q => x.role = .leader ∧ q = x.id ∧ t = x.term) x.id := by
  intro e he
  cases move with
  | idle hidle =>
    rw [List.mem_singleton.1 he]
    exact hidle.names
  | campaign _ hes =>
    obtain ⟨p, rfl⟩ := hes e he
    trivial
  | sendEntries _ hrole | sendSnapshot _ hrole =>
    rw [List.mem_singleton.1 he]
    exact ⟨hrole, rfl, rfl⟩
  | commit _ _ _ _ hes => rcases hes.cases he with ⟨_, _, rfl⟩ | ⟨_, rfl, -⟩ <;> trivial
  | accept _ _ _ _ hes =>
    rcases List.mem_append.1 he with he | he
    · rcases hes.cases he with ⟨_, _, rfl⟩ | ⟨_, rfl, -⟩ <;> trivial
    · rw [List.mem_singleton.1 he]
      trivial
  | install =>
    rcases List.mem_cons.1 he with rfl | he
    · trivial
    · rw [List.mem_singleton.1 he]
      trivial
  | grant | covered | capture =>
    rw [List.mem_singleton.1 he]
    trivial
  | _ => cases he

/-- What is known of the hints in a cluster: its history, and for each member the term in which it
has last learnt of a leader or begun to lead. -/
structure HintRecord where
  history : History
  since : PeerId → Nat

namespace HintRecord

/-- The member `q` is the leader of the term `t`, and it has not learnt of a leader since before. -/
def Led (x : HintRecord) (t : Nat) (q : PeerId) : Prop :=
  x.history.leader t = some q ∧ t ≤ x.since q

/-- The member `p` has added to the record. -/
structure Adds (p : PeerId) (x y : HintRecord) : Prop where
  history : x.history ≤ y.history
  le : x.since p ≤ y.since p
  since : ∀ q, q ≠ p → y.since q = x.since q

variable {p : PeerId} {x y z : HintRecord}

theorem Adds.refl (p : PeerId) (x : HintRecord) : Adds p x x :=
  ⟨x.history.le_refl, Nat.le_refl _, fun _ _ => rfl⟩

theorem Adds.trans (h : Adds p x y) (h' : Adds p y z) : Adds p x z where
  history := History.le_trans h.history h'.history
  le := Nat.le_trans h.le h'.le
  since q hq := (h'.since q hq).trans (h.since q hq)

theorem Led.mono {t : Nat} {q : PeerId} (h : x.Led t q) (hadds : Adds p x y) : y.Led t q := by
  refine ⟨hadds.history.leader h.1, Nat.le_trans h.2 ?_⟩
  by_cases hqp : q = p
  · exact hqp ▸ hadds.le
  · exact Nat.le_of_eq (hadds.since q hqp).symm

end HintRecord

/-- Whatever hint a member has or sends is at the leader of its term. -/
def hinting : Regime HintRecord where
  Adds := HintRecord.Adds
  Inv p x n := n.id = p ∧ n.Hinted x.Led (x.since p)
  Sent x _ _ message := message.Names x.Led
  Captured _ := True
  refl := HintRecord.Adds.refl
  trans := HintRecord.Adds.trans
  id := And.left
  inv hqp hadds hn := by
    rw [hadds.since _ hqp]
    exact ⟨hn.1, hn.2.imp fun _ _ h => h.mono hadds⟩
  sent hadds h := h.imp fun _ _ h => h.mono hadds
  call {_ _ _ message} h := by
    cases message with
    | appendEntries | installSnapshot => exact h.elim
    | _ => trivial
  respond := trivial

/-! ### Clusters -/

namespace Cluster

variable {σ : Type} {x : HintRecord} {sequence : Nat} {c : Cluster σ} {p q : PeerId}

/-- A sound cluster whose hints are as its history says. -/
structure Hinting (x : HintRecord) (sequence : Nat) (c : Cluster σ) : Prop where
  sound : c.Sound x.history sequence
  governed : c.Governed hinting x

/-- A member has taken a transition. -/
theorem Hinting.put (h : c.Hinting x sequence) (hp : p ∈ c.members)
    (hi : i.Vouched x.history c.members p (c.commits x.history p) ∧
      i.Steady (.stable sequence c.members))
    (hnames : i.Names x.Led) (hstep : step (c.node p) i = .ok (n, es)) :
    ∃ y, (c.put p { c.site p with
      replica := { (c.site p).replica with node := n }, backlog := es }).Hinting y sequence := by
  have hid : (c.node p).core.id = p := h.sound.id p hp
  have hvouched : i.Vouched x.history c.members (c.node p).core.id (c.commits x.history p) := by
    rw [hid]
    exact hi.1
  -- whoever sends a hint is in the history as the leader by then
  obtain ⟨g, hpres, hleaders⟩ := (h.sound.moves hp hi.2 hstep).preserved_with
    (F := fun g e => e.Names (fun t q => g.leader t = some q) p)
    (fun hle he => he.imp fun _ _ => hle.leader) (fun hx move e he => (move.names e he).imp (by
      rintro t q ⟨hrole, rfl, rfl⟩
      exact (hx.leadership hrole).leader))
    h.sound.coherent (h.sound.describes p hp) (h.sound.steady p hp) hi.2 hvouched
  obtain ⟨w, hle, ⟨-, hhinted⟩, hown⟩ := (hintDiscipline x.Led p).step hstep
    ⟨hid, (h.governed.nodes p hp).2⟩ hnames
  let y : HintRecord := ⟨g, Function.update x.since p w⟩
  have hsince : y.since p = w := Function.update_self ..
  have hadds : HintRecord.Adds p x y :=
    ⟨hpres.extension.le, hsince ▸ hle, fun q hq => Function.update_of_ne hq ..⟩
  refine ⟨y, h.sound.put hp hi.2 hstep hpres, h.governed.put hp hadds ⟨hpres.id.trans hid, ?_⟩ ?_⟩
  · rw [hsince]
    exact hhinted.imp fun _ _ hled => hled.mono hadds
  · intro e he
    refine ((hleaders e he).and (hown e he)).imp ?_
    rintro t q ⟨hleader, rfl, ht⟩
    exact ⟨hleader, hsince ▸ ht⟩

theorem Hinting.accept (h : c.Hinting x sequence)
    (hi : p ∈ c.members → i.Vouched x.history c.members p (c.commits x.history p) ∧
      i.Steady (.stable sequence c.members))
    (hnames : p ∈ c.members → i.Names x.Led) : ∃ y, (c.accept p i).Hinting y sequence := by
  rcases c.accept_cases p i with heq | ⟨n, es, hp, -, hstep, heq⟩
  · exact ⟨x, heq.symm ▸ h⟩
  · obtain ⟨y, hy⟩ := h.put hp (hi hp) (hnames hp) hstep
    exact ⟨y, heq.symm ▸ hy⟩

variable [StateMachine σ]

theorem Hinting.happen (h : c.Hinting x sequence) {e : Event} (he : e.IsOrdinary) :
    ∃ y, (c.happen e).Hinting y sequence := by
  rcases c.happen_cases e with ⟨p, moment, heq⟩ | ⟨p, i, hi, heq⟩ | heq
  · exact ⟨x, heq.symm ▸ ⟨h.sound.carryOut p moment, h.governed.carryOut p moment⟩⟩
  · have hcall : ∀ client q m, e = .call client q m → hinting.Sent x client q m := by
      rintro client q m rfl
      exact hinting.call he
    obtain ⟨y, hy⟩ := h.accept (fun hp => h.sound.input he hi hp)
      fun hp => h.governed.input hcall hi hp
    exact ⟨y, heq.symm ▸ hy⟩
  · exact ⟨x, heq.symm ▸ h⟩

end Cluster

/-! ### The graph of hints -/

/-- A question for the leader is answered, or a follower passes it on to the leader it knows. -/
theorem Turn.onWhoLeads_cases (t : Turn) (sender : PeerId) :
    (∃ message, t.onWhoLeads sender = t.send sender message) ∨
    ∃ leader, t.node.role = .follower ∧ t.node.leader = some leader ∧ leader ≠ t.node.id ∧
      t.onWhoLeads sender = t.forward sender leader .whoLeads := by
  unfold onWhoLeads
  split
  next leader hrole hleader =>
    split
    next => exact .inl ⟨_, rfl⟩
    next hne => exact .inr ⟨leader, hrole, hleader, hne, rfl⟩
  next => exact .inl ⟨_, rfl⟩

theorem Turn.onWhoLeads_of_hint {t : Turn} {sender leader : PeerId}
    (hrole : t.node.role = .follower) (hleader : t.node.leader = some leader)
    (hne : leader ≠ t.node.id) :
    t.onWhoLeads sender = t.forward sender leader .whoLeads := by
  unfold onWhoLeads
  rw [hrole, hleader]
  exact if_neg hne

namespace Cluster

variable {σ : Type} {x : HintRecord} {sequence : Nat} {c : Cluster σ} {p q : PeerId}

/-- The follower `p` holds `q` for the leader. -/
def Points (c : Cluster σ) (p q : PeerId) : Prop :=
  p ∈ c.members ∧ (c.node p).role = .follower ∧ (c.node p).leader = some q

instance : Decidable (c.Points p q) := inferInstanceAs (Decidable (_ ∧ _ ∧ _))

/-- The member `p` passes a question for the leader on to `q`. -/
def PassesOn (c : Cluster σ) (p q : PeerId) : Prop :=
  p ∈ c.members ∧ ∃ sender n es, step (c.node p) (.message sender .whoLeads) = .ok (n, es) ∧
    .forward sender q .whoLeads ∈ es

/-- Questions are passed on along the hints at other nodes. -/
theorem passesOn_iff (hid : (c.node p).id = p) : c.PassesOn p q ↔ c.Points p q ∧ p ≠ q := by
  have hanswer (sender : PeerId) : step (c.node p) (.message sender .whoLeads) =
      .ok (((c.node p).turn.onWhoLeads sender).node, ((c.node p).turn.onWhoLeads sender).effects) :=
    step_of_process <| Node.process_of_done rfl <| by
      rcases (c.node p).turn.onWhoLeads_cases sender with ⟨m, h⟩ | ⟨leader, -, -, -, h⟩ <;>
      · rw [h]
        rfl
  constructor
  · rintro ⟨hp, sender, n, es, hstep, he⟩
    obtain ⟨-, rfl⟩ := Prod.mk.inj (Except.ok.inj ((hanswer sender).symm.trans hstep))
    rcases (c.node p).turn.onWhoLeads_cases sender with ⟨m, h⟩ | ⟨leader, hrole, hleader, hne, h⟩
    · rw [h] at he
      cases List.mem_singleton.1 he
    · rw [h] at he
      cases List.mem_singleton.1 he
      exact ⟨⟨hp, hrole, hleader⟩, fun heq => hne (heq.symm.trans hid.symm)⟩
  · rintro ⟨⟨hp, hrole, hleader⟩, hne⟩
    refine ⟨hp, p, _, _, hanswer p, ?_⟩
    rw [Turn.onWhoLeads_of_hint hrole hleader fun heq => hne (hid.symm.trans heq.symm)]
    exact List.mem_singleton_self _

namespace Hinting

theorem led (h : c.Hinting x sequence) (hpoints : c.Points p q) (hne : p ≠ q) :
    x.Led (x.since p) q := by
  obtain ⟨hp, -, hleader⟩ := hpoints
  obtain ⟨hid, hhinted⟩ := h.governed.nodes p hp
  exact hhinted.hint q hleader (hid.symm ▸ hne.symm)

/-- A node that a hint is at has a hint at somebody else only from a later term, because a term has
one leader. -/
theorem since_lt {s : PeerId} (h : c.Hinting x sequence) (hpq : c.Points p q) (hne : p ≠ q)
    (hqs : c.Points q s) (hne' : q ≠ s) : x.since p < x.since q := by
  obtain ⟨hleader, hle⟩ := h.led hpq hne
  obtain ⟨hleader', -⟩ := h.led hqs hne'
  refine Nat.lt_of_le_of_ne hle fun heq => hne' ?_
  rw [heq, hleader'] at hleader
  exact (Option.some.inj hleader).symm

/-- Along hints at other nodes a number grows: twice the term of the hint, or one more where the
hints end. -/
theorem exists_rank (h : c.Hinting x sequence) :
    ∃ rank : PeerId → Nat, ∀ p q, c.Points p q → p ≠ q → rank p < rank q := by
  classical
  refine ⟨fun p => 2 * x.since p + if ∃ q, c.Points p q ∧ p ≠ q then 0 else 1, ?_⟩
  intro p q hpq hne
  have hle : x.since p ≤ x.since q := (h.led hpq hne).2
  simp only
  rw [if_pos ⟨q, hpq, hne⟩]
  split
  next hon =>
    obtain ⟨s, hqs, hne'⟩ := hon
    have hlt := h.since_lt hpq hne hqs hne'
    omega
  next => omega

end Hinting

/-- With such a number, hints lead to ever greater ones, unless they stay where they are. -/
theorem rank_lt_of_transGen {rank : PeerId → Nat}
    (hrank : ∀ p q, c.Points p q → p ≠ q → rank p < rank q)
    (h : Relation.TransGen c.Points p q) : p = q ∨ rank p < rank q := by
  induction h with
  | @single q hpq =>
    by_cases hne : p = q
    · exact .inl hne
    · exact .inr (hrank p q hpq hne)
  | @tail q s _ hqs ih =>
    by_cases hne : q = s
    · exact hne ▸ ih
    · have hlt := hrank q s hqs hne
      rcases ih with rfl | hlt'
      · exact .inr hlt
      · exact .inr (Nat.lt_trans hlt' hlt)

end Cluster

namespace Run

section Start

variable {σ : Type} (r : Run σ)

theorem hinting_start : r.start.Hinting ⟨.empty, fun _ => 0⟩ r.sequence := by
  refine ⟨r.sound_start, ?_⟩
  constructor
  case nodes => exact fun p _ => ⟨rfl, Nat.le_refl _, nofun, nofun⟩
  case carries => exact ⟨by simp [start], by simp [start], by simp [start]⟩
  case outside => exact fun _ _ => rfl

end Start

variable {σ : Type} [StateMachine σ] (r : Run σ)

/-- At every moment the hints are as some history says. -/
theorem exists_hinting (k : Nat) : ∃ x, (r.after k).Hinting x r.sequence := by
  induction k with
  | zero => exact ⟨_, r.hinting_start⟩
  | succ k ih =>
    obtain ⟨x, hx⟩ := ih
    rcases r.after_succ_cases k with ⟨e, he, heq⟩ | heq
    · rw [heq]
      exact hx.happen (r.ordinary e he)
    · exact ⟨x, heq.symm ▸ hx⟩

/-- At no moment is there a cycle of hints through different nodes, and as the hints are then, a
question for the leader that is passed on from node to node comes to none of them twice. -/
theorem hints_acyclic (k : Nat) :
    (∀ p q, p ≠ q → Relation.TransGen (r.after k).Points p q →
      ¬ Relation.TransGen (r.after k).Points q p) ∧
    ∀ path : List PeerId, path.IsChain (r.after k).PassesOn → path.Nodup := by
  obtain ⟨x, hx⟩ := r.exists_hinting k
  obtain ⟨rank, hrank⟩ := hx.exists_rank
  constructor
  · intro p q hne hpq hqp
    have hlt := (Cluster.rank_lt_of_transGen hrank hpq).resolve_left hne
    have hlt' := (Cluster.rank_lt_of_transGen hrank hqp).resolve_left (Ne.symm hne)
    omega
  · intro path hpath
    have hgrows : path.IsChain fun p q => rank p < rank q := by
      refine hpath.imp fun p q hpasses => ?_
      obtain ⟨hpoints, hne⟩ := (Cluster.passesOn_iff (hx.sound.id p hpasses.1)).1 hpasses
      exact hrank p q hpoints hne
    have hpairwise : path.Pairwise fun p q => rank p < rank q :=
      List.isChain_iff_pairwise.1 hgrows
    refine hpairwise.imp ?_
    rintro p q hlt rfl
    exact Nat.lt_irrefl _ hlt

/-- Hints from two terms. Members 2 and 3 learn that member 1 leads the first term. Then member 2
wins the second one with the vote of member 1, which learns of it, while member 3 does not. -/
def staleHint : Run Recorder where
  members := .ofList [⟨1⟩, ⟨2⟩, ⟨3⟩]
  initial := {}
  events :=
    let calm (p : Nat) : List Event := List.replicate 6 (.carryOut ⟨p⟩ { now := 0 })
    [.expire ⟨1⟩ .election] ++ calm 1 ++ [.deliver 0] ++ calm 2 ++ [.deliver 2] ++ calm 1 ++
    [.deliver 3] ++ calm 2 ++ [.deliver 4] ++ calm 3 ++
    [.expire ⟨2⟩ .election] ++ calm 2 ++ [.deliver 7] ++ calm 1 ++ [.deliver 9] ++ calm 2 ++
    [.deliver 10] ++ calm 1
  ordinary := by decide

/-- A question passed on by member 3 is passed on once more, and then it is with the leader. -/
theorem hints_acyclic_staleHint :
    ¬ Relation.TransGen (staleHint.after 63).Points ⟨2⟩ ⟨3⟩ ∧
      ([⟨3⟩, ⟨1⟩, ⟨2⟩] : List PeerId).IsChain (staleHint.after 63).PassesOn ∧
      ([⟨3⟩, ⟨1⟩, ⟨2⟩] : List PeerId).Nodup := by
  have h₃₁ : (staleHint.after 63).Points ⟨3⟩ ⟨1⟩ := by decide +kernel
  have h₁₂ : (staleHint.after 63).Points ⟨1⟩ ⟨2⟩ := by decide +kernel
  obtain ⟨hacyclic, hnodup⟩ := staleHint.hints_acyclic 63
  have hpath : ([⟨3⟩, ⟨1⟩, ⟨2⟩] : List PeerId).IsChain (staleHint.after 63).PassesOn := by
    rw [List.isChain_cons_cons, List.isChain_cons_cons]
    exact ⟨(Cluster.passesOn_iff (by decide +kernel)).2 ⟨h₃₁, by decide⟩,
      (Cluster.passesOn_iff (by decide +kernel)).2 ⟨h₁₂, by decide⟩, List.isChain_singleton _⟩
  exact ⟨hacyclic ⟨3⟩ ⟨2⟩ (by decide) (.tail (.single h₃₁) h₁₂), hpath, hnodup _ hpath⟩

end Run

end Raft
