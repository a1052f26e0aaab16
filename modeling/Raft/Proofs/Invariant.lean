import Raft.Proofs.Effects
import Raft.Proofs.Replicating
import Raft.Proofs.Steadiness

/-!
# Every run has a history

`Cluster.Sound g sequence c`: the history `g` is coherent and describes every member of the cluster
`c`, and every packet, every effect that waits and every outcome of a capture is vouched for.

* `Sound.preserved`, a transition has a history that follows the present one;
* `Sound.put` and `Sound.carryOut`, a node takes a transition and carries out an effect of it;
* `History.Explains`, what remains true of a member at one moment when the history goes on;
* `Run.exists_history`, one history explains all that a run has been through so far.
-/

namespace Raft

variable {σ : Type}

namespace Cluster

/-- The committed entries of a member. -/
def commits (c : Cluster σ) (g : History) (p : PeerId) : List Entry := g.commits (c.node p).core

/-- A coherent history describes every member, and vouches for all that is on its way. -/
structure Sound (g : History) (sequence : Nat) (c : Cluster σ) : Prop where
  coherent : g.Coherent c.members
  id : ∀ p ∈ c.members, (c.node p).id = p
  describes : ∀ p ∈ c.members, g.Describes c.members (c.node p).core
  steady : ∀ p ∈ c.members, (c.node p).core.Steady (.stable sequence c.members)
  packets : ∀ k ∈ c.packets, k.message.Vouched g c.members k.sender k.receiver ∧
    (Input.message k.sender k.message).Steady (.stable sequence c.members)
  backlog : ∀ p ∈ c.members, ∀ e ∈ (c.site p).backlog,
    e.Vouched g c.members p (c.commits g p) ∧ e.Steady (.stable sequence c.members)
  outcomes : ∀ p ∈ c.members, ∀ i ∈ (c.site p).outcomes,
    i.Vouched g c.members p (c.commits g p) ∧ i.Steady (.stable sequence c.members)
  outside : ∀ p, p ∉ c.members → (c.site p).backlog = [] ∧ (c.node p).role = .follower

variable {g g' : History} {sequence : Nat} {c : Cluster σ} {p : PeerId} {i : Input} {n : Node}
  {es : List Effect}

/-! ### A transition -/

theorem Sound.moves (h : c.Sound g sequence) (hp : p ∈ c.members)
    (hi : i.Steady (.stable sequence c.members)) (hstep : step (c.node p) i = .ok (n, es)) :
    Moves i (c.node p).core es n.core := step_moves hi (h.steady p hp) hstep

/-- A transition has a history that follows the present one. -/
theorem Sound.preserved (h : c.Sound g sequence) (hp : p ∈ c.members)
    (hi : i.Vouched g c.members p (c.commits g p) ∧ i.Steady (.stable sequence c.members))
    (hstep : step (c.node p) i = .ok (n, es)) :
    ∃ g', History.Preserved g g' c.members (c.node p).core es n.core := by
  obtain ⟨hvouched, hsteady⟩ := hi
  refine (h.moves hp hsteady hstep).preserved h.coherent (h.describes p hp) (h.steady p hp) hsteady
    ?_
  rwa [show (c.node p).core.id = p from h.id p hp]

theorem node_put_self (c : Cluster σ) (p : PeerId) (s : Site σ) :
    (c.put p s).node p = s.replica.node := by rw [node, site_put_self]

theorem node_put_of_ne (c : Cluster σ) {p q : PeerId} (s : Site σ) (h : q ≠ p) :
    (c.put p s).node q = c.node q := by rw [node, site_put_of_ne c s h, node]

/-- What a node adds to the history leaves the committed entries of the others alone. -/
theorem Sound.commits_of_extends (h : c.Sound g sequence) (hext : g.Extends g' p) {q : PeerId}
    (hq : q ∈ c.members) (hqp : q ≠ p) : c.commits g' q = c.commits g q := by
  have hid : (c.node q).core.id = q := h.id q hq
  rw [commits, commits, History.commits, History.commits, hid, hext.log hqp]

/-- All that is on its way is vouched for and steady, when `a` is what each member has committed. -/
def Vouched (g : History) (sequence : Nat) (members : PeerSet) (a : PeerId → List Entry)
    (c : Cluster σ) : Prop :=
  c.Carries
    (fun k => k.message.Vouched g members k.sender k.receiver ∧
      (Input.message k.sender k.message).Steady (.stable sequence members))
    (fun p e => e.Vouched g members p (a p) ∧ e.Steady (.stable sequence members))
    (fun p i => i.Vouched g members p (a p) ∧ i.Steady (.stable sequence members))

theorem Sound.vouched (h : c.Sound g sequence) :
    c.Vouched g sequence c.members (c.commits g) where
  packets := h.packets
  backlog := h.backlog
  outcomes := h.outcomes

/-- A member has taken a transition. -/
theorem Sound.put (h : c.Sound g sequence) (hp : p ∈ c.members)
    (hi : i.Steady (.stable sequence c.members)) (hstep : step (c.node p) i = .ok (n, es))
    (hpres : History.Preserved g g' c.members (c.node p).core es n.core) :
    (c.put p { c.site p with
      replica := { (c.site p).replica with node := n }, backlog := es }).Sound g' sequence := by
  have hid : (c.node p).core.id = p := h.id p hp
  have hext := hpres.extension
  rw [hid] at hext
  have hmoves := h.moves hp hi hstep
  generalize hs : ({ c.site p with
    replica := { (c.site p).replica with node := n }, backlog := es } : Site σ) = s
  have hnode : (c.put p s).node p = n := by rw [node_put_self, ← hs]
  have hcommits : (c.put p s).commits g' p = g'.commits n.core := by rw [commits, hnode]
  -- the others notice of the new history only that there is more of it
  have hother : ∀ q ∈ c.members, q ≠ p → (c.put p s).commits g' q = c.commits g q := by
    intro q hq hqp
    rw [← h.commits_of_extends hext hq hqp, commits, node_put_of_ne c s hqp, commits]
  have hgrows : ∀ q ∈ c.members, c.commits g q <+: (c.put p s).commits g' q := by
    intro q hq
    by_cases hqp : q = p
    · subst hqp
      rw [hcommits]
      exact hpres.journal.isPrefix
    · exact hother q hq hqp ▸ List.prefix_rfl
  have hnew : ∀ e ∈ s.backlog, e.Vouched g' c.members p ((c.put p s).commits g' p) ∧
      e.Steady (.stable sequence c.members) := by
    intro e he
    rw [← hs] at he
    have hvouched := hpres.vouched e he
    rw [hid] at hvouched
    rw [hcommits]
    exact ⟨hvouched, hmoves.effects_steady hi (h.steady p hp) e he⟩
  have hvouched : (c.put p s).Vouched g' sequence c.members ((c.put p s).commits g') :=
    h.vouched.put (by rw [← hs]) (fun k hk => ⟨hk.1.mono hext.le, hk.2⟩)
      (fun q hq _ e he => ⟨he.1.mono hext.le (hgrows q hq), he.2⟩)
      (fun q hq j hj => ⟨hj.1.mono hext.le (hgrows q hq), hj.2⟩) hnew
  constructor
  case coherent => exact hpres.coherent
  case id =>
    intro q hq
    by_cases hqp : q = p
    · subst hqp
      rw [hnode]
      exact hpres.id.trans hid
    · rw [node_put_of_ne c s hqp]
      exact h.id q hq
  case describes =>
    intro q hq
    by_cases hqp : q = p
    · subst hqp
      rw [hnode]
      exact hpres.describes
    · rw [node_put_of_ne c s hqp]
      refine (h.describes q hq).of_extends h.coherent hext ?_
      rwa [show (c.node q).core.id = q from h.id q hq]
  case steady =>
    intro q hq
    by_cases hqp : q = p
    · subst hqp
      rw [hnode]
      exact hmoves.steady hi (h.steady q hq)
    · rw [node_put_of_ne c s hqp]
      exact h.steady q hq
  case packets => exact hvouched.packets
  case backlog => exact hvouched.backlog
  case outcomes => exact hvouched.outcomes
  case outside =>
    intro q hq
    have hqp : q ≠ p := fun e => hq (e ▸ hp)
    rw [site_put_of_ne c s hqp, node_put_of_ne c s hqp]
    exact h.outside q hq

/-! ### An input -/

/-- What an event brings to a member is vouched for. -/
theorem Sound.input (h : c.Sound g sequence) {e : Event} (he : e.IsOrdinary)
    (hi : c.input? e = some (p, i)) (hp : p ∈ c.members) :
    i.Vouched g c.members p (c.commits g p) ∧ i.Steady (.stable sequence c.members) := by
  rcases c.input_cases hi with ⟨k, hk, rfl, rfl⟩ | hout | ⟨client, m, rfl, rfl⟩ | ⟨timer, rfl⟩ | rfl
  · exact h.packets k hk
  · exact h.outcomes p hp i hout
  · cases m with
    | submit r =>
      obtain ⟨payload, hr⟩ := he
      exact ⟨trivial, by rw [Input.IsQuiet, Message.IsQuiet, hr]; rfl, trivial⟩
    | whoLeads | askRole => exact ⟨trivial, trivial, trivial⟩
    | _ => exact he.elim
  · exact ⟨trivial, trivial, trivial⟩
  · exact ⟨trivial, trivial, trivial⟩

/-- A member has been given an input. -/
theorem Sound.accept (h : c.Sound g sequence) (hi : p ∈ c.members →
      i.Vouched g c.members p (c.commits g p) ∧ i.Steady (.stable sequence c.members)) :
    ∃ g', g ≤ g' ∧ (c.accept p i).Sound g' sequence := by
  rcases c.accept_cases p i with heq | ⟨n, es, hp, -, hstep, heq⟩
  · exact ⟨g, g.le_refl, heq.symm ▸ h⟩
  · obtain ⟨g', hpres⟩ := h.preserved hp (hi hp) hstep
    exact ⟨g', hpres.extension.le, heq.symm ▸ h.put hp (hi hp).2 hstep hpres⟩

/-! ### An effect -/

/-- Only members have anything to carry out. -/
theorem Sound.mem_of_backlog (h : c.Sound g sequence) {e : Effect}
    (he : e ∈ (c.site p).backlog) : p ∈ c.members := by
  by_cases hp : p ∈ c.members
  · exact hp
  · rw [(h.outside p hp).1] at he
    cases he

variable [StateMachine σ] {moment : Moment}

theorem node_carryOut (c : Cluster σ) (p q : PeerId) (moment : Moment) :
    (c.carryOut p moment).node q = c.node q := by
  by_cases hqp : q = p
  · subst hqp
    cases hb : (c.site q).backlog with
    | nil => rw [carryOut_of_nil moment hb]
    | cons e rest =>
      rw [node, site_carryOut_self moment hb]
      exact Stir.node_execute ..
  · rw [node, site_carryOut_of_ne c moment hqp, node]

/-- With an event, a node has taken a transition as a member, or it is what it was. -/
theorem node_happen_cases (c : Cluster σ) (e : Event) (p : PeerId) :
    (∃ i n es, c.input? e = some (p, i) ∧ p ∈ c.members ∧ step (c.node p) i = .ok (n, es) ∧
      (c.happen e).node p = n) ∨ (c.happen e).node p = c.node p := by
  rcases c.happen_cases e with ⟨q, moment, heq⟩ | ⟨q, i, hi, heq⟩ | heq
  · exact .inr (by rw [heq, node_carryOut])
  · rw [heq]
    rcases c.accept_cases q i with hsame | ⟨n, es, hq, -, hstep, hput⟩
    · exact .inr (by rw [hsame])
    · rw [hput]
      by_cases hpq : p = q
      · subst hpq
        exact .inl ⟨i, n, es, hi, hq, hstep, node_put_self ..⟩
      · exact .inr (node_put_of_ne c _ hpq)
  · exact .inr (by rw [heq])

theorem commits_carryOut (c : Cluster σ) (g : History) (p q : PeerId) (moment : Moment) :
    (c.carryOut p moment).commits g q = c.commits g q := by rw [commits, commits, node_carryOut]

/-- A member has carried out an effect. -/
theorem Sound.carryOut (h : c.Sound g sequence) (p : PeerId) (moment : Moment) :
    (c.carryOut p moment).Sound g sequence := by
  cases hb : (c.site p).backlog with
  | nil => rwa [carryOut_of_nil moment hb]
  | cons e rest =>
    have he : e ∈ (c.site p).backlog := by
      rw [hb]
      exact List.mem_cons_self ..
    have hp : p ∈ c.members := h.mem_of_backlog he
    have hid : (c.site p).replica.node.id = p := h.id p hp
    obtain ⟨hvouched, hsteady⟩ := h.backlog p hp e he
    have hcarried : (c.carryOut p moment).Vouched g sequence c.members (c.commits g) := by
      refine h.vouched.carryOut moment hp hb ?_ ?_ ?_ ?_ ⟨trivial, trivial, trivial⟩ ?_
      · rintro receiver m rfl
        rw [show (c.node p).id = p from hid]
        exact ⟨hvouched, hsteady.quiet, hsteady.holds⟩
      · rintro sender receiver m rfl
        exact ⟨hvouched, hsteady.quiet, hsteady.holds⟩
      · exact fun sender receiver index result => ⟨trivial, trivial, trivial⟩
      · rintro about data rfl -
        exact ⟨hvouched, trivial, hsteady.asks⟩
      · exact fun reason => ⟨trivial, trivial, trivial⟩
    constructor <;> simp only [members_carryOut, node_carryOut, commits_carryOut]
    case coherent => exact h.coherent
    case id => exact h.id
    case describes => exact h.describes
    case steady => exact h.steady
    case packets => exact hcarried.packets
    case backlog => simpa only [members_carryOut] using hcarried.backlog
    case outcomes => simpa only [members_carryOut] using hcarried.outcomes
    case outside =>
      intro q hq
      have hqp : q ≠ p := fun e => hq (e ▸ hp)
      rw [site_carryOut_of_ne c moment hqp]
      exact h.outside q hq

/-! ### Any event -/

theorem Sound.happen (h : c.Sound g sequence) {e : Event} (he : e.IsOrdinary) :
    ∃ g', g ≤ g' ∧ (c.happen e).Sound g' sequence := by
  rcases c.happen_cases e with ⟨p, moment, heq⟩ | ⟨p, i, hi, heq⟩ | heq
  · exact ⟨g, g.le_refl, heq ▸ h.carryOut p moment⟩
  · rw [heq]
    exact h.accept fun hp => h.input he hi hp
  · exact ⟨g, g.le_refl, heq.symm ▸ h⟩

end Cluster

/-! ### Runs -/

/-- What a history says of the member `p` at some moment, also when the history has gone on: `n` is
the node and `l` are its entries at that moment. -/
structure History.Explains (g : History) (members : PeerSet) (p : PeerId) (n : Node)
    (l : List Entry) : Prop where
  abridges : n.log.Abridges l
  certified : g.Certified l
  terms : ∀ e ∈ l, e.term ≤ n.term
  committed : g.CommittedBy members n.term (l.take n.log.committed)
  leads : n.role = .leader → g.leader n.term = some p ∧
    ∃ b, g.ballot p n.term = some b ∧ b <+: l

theorem History.Explains.mono {g g' : History} {members : PeerSet} {p : PeerId} {n : Node}
    {l : List Entry} (h : g.Explains members p n l) (hle : g ≤ g') :
    g'.Explains members p n l where
  abridges := h.abridges
  certified := h.certified.mono hle
  terms := h.terms
  committed := h.committed.mono hle (Nat.le_refl _)
  leads hrole := by
    obtain ⟨hl, b, hb, hbl⟩ := h.leads hrole
    exact ⟨hle.leader hl, b, hle.ballot hb, hbl⟩

theorem Cluster.Sound.explains {g : History} {sequence : Nat} {c : Cluster σ} {p : PeerId}
    (h : c.Sound g sequence) (hp : p ∈ c.members) :
    g.Explains c.members p (c.node p) (g.log (c.node p).id) where
  abridges := (h.describes p hp).abridges
  certified := (h.describes p hp).certified
  terms := (h.describes p hp).terms
  committed := (h.describes p hp).committed
  leads hrole := by
    obtain ⟨hleader, hledger, -⟩ := (h.describes p hp).leadership hrole
    obtain ⟨b, hb, hbl, -⟩ := h.coherent.begun hleader
    have hid : (c.node p).core.id = p := h.id p hp
    rw [hid] at hleader hb
    exact ⟨hleader, b, hb, hledger ▸ hbl⟩

/-- Only members ever lead. -/
theorem Cluster.Sound.mem_of_leads {g : History} {sequence t : Nat} {c : Cluster σ} {p : PeerId}
    (h : c.Sound g sequence) (hp : c.Leads p t) : p ∈ c.members := by
  by_cases hmem : p ∈ c.members
  · exact hmem
  · have hrole := hp.1
    rw [(h.outside p hmem).2] at hrole
    cases hrole

section Founding

variable {p : PeerId} {settings : Settings} {config : Configuration} {members : PeerSet}

theorem describes_founding :
    History.empty.Describes members (Node.founding p settings config).core where
  abridges := Log.abridges_empty
  certified := History.certified_nil
  terms := by simp [History.empty]
  vote := rfl
  future _ _ := ⟨rfl, rfl, rfl⟩
  candidacy h := by simp [Node.founding, Node.core] at h
  leadership h := by simp [Node.founding, Node.core] at h
  retained t l hl _ := Or.inl hl
  committed := Or.inl rfl

theorem steady_founding (hp : p ∈ config.members) (hconfig : config.isJoint = false) :
    (Node.founding p settings config).core.Steady config where
  config := rfl
  isJoint := hconfig
  mem := hp
  role := by simp [Node.founding, Node.core]
  configAskedOf := rfl
  initialConfig d hd := by simp [Node.founding, Node.fresh, Node.core] at hd
  log := ⟨by simp [Node.founding, Node.fresh, Node.core],
    by simp [Node.founding, Node.fresh, Node.core]⟩

end Founding

namespace Run

variable (r : Run σ)

/-- Nothing has happened yet when a run starts. -/
theorem sound_start : r.start.Sound .empty r.sequence where
  coherent := History.coherent_empty _
  id _ _ := rfl
  describes _ _ := describes_founding
  steady _ hp := steady_founding hp rfl
  packets := by simp [start]
  backlog := by simp [start]
  outcomes := by simp [start]
  outside _ _ := ⟨rfl, rfl⟩

variable [StateMachine σ]

/-- One history for all moments so far. At every event the history of an invariant may go on, and
what it says at a moment is true of this moment ever after. -/
theorem exists_throughout {P Q : History → Cluster σ → Prop} (hstart : P .empty r.start)
    (hhappen : ∀ {g c e}, P g c → e.IsOrdinary → ∃ g', g ≤ g' ∧ P g' (c.happen e))
    (htells : ∀ {g c}, P g c → Q g c) (hmono : ∀ {g g' c}, Q g c → g ≤ g' → Q g' c) (k : Nat) :
    ∃ g, P g (r.after k) ∧ ∀ i ≤ k, Q g (r.after i) := by
  induction k with
  | zero =>
    refine ⟨.empty, hstart, fun i hi => ?_⟩
    obtain rfl := Nat.le_zero.1 hi
    exact htells hstart
  | succ k ih =>
    obtain ⟨g, hg, hpast⟩ := ih
    have hnext : ∃ g', g ≤ g' ∧ P g' (r.after (k + 1)) := by
      rcases r.after_succ_cases k with ⟨e, he, heq⟩ | heq
      · rw [heq]
        exact hhappen hg (r.ordinary e he)
      · exact ⟨g, g.le_refl, heq ▸ hg⟩
    obtain ⟨g', hle, hg'⟩ := hnext
    refine ⟨g', hg', fun i hi => ?_⟩
    rcases Nat.lt_or_eq_of_le hi with hlt | rfl
    · exact hmono (hpast i (Nat.le_of_lt_succ hlt)) hle
    · exact htells hg'

/-- One history explains every member at every moment so far. -/
theorem exists_history (k : Nat) : ∃ g, (r.after k).Sound g r.sequence ∧
    g.Coherent r.members ∧
    ∀ p ∈ r.members, ∀ i ≤ k, ∃ l, g.Explains r.members p ((r.after i).node p) l := by
  obtain ⟨g, hg, hexplains⟩ := r.exists_throughout (P := fun g c => c.Sound g r.sequence)
    (Q := fun g c => ∀ p ∈ c.members, ∃ l, g.Explains c.members p (c.node p) l)
    r.sound_start (fun h he => h.happen he) (fun h p hp => ⟨_, h.explains hp⟩)
    (fun h hle p hp => (h p hp).imp fun _ hl => hl.mono hle) k
  refine ⟨g, hg, r.members_after k ▸ hg.coherent, fun p hp i hi => ?_⟩
  have := hexplains i hi p (by rwa [members_after])
  rwa [members_after] at this

end Run

end Raft
