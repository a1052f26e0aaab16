import Raft.Proofs.Hints
import Raft.Proofs.Stages

/-!
# Nodes that point at themselves

A node that comes to lead remembers itself as the leader, and a follower remembers whom it has
heeded last. Nothing else changes what a node remembers. A leader that steps down without having
heeded anybody else goes on to remember itself, so as a follower it tells clients that it leads, and
passes on to itself what is meant for the leader.

* `Turn.View`, what the processing of one input comes to for what a node remembers and says of the
  leader, with `Turn.view_dispatch`;
* `LastLed`, the last that bears on what a node remembers is that it led itself, and
  `Node.Remembers`, this is when it remembers itself;
* `Life.Deposed`, a follower that has led last, and `Life.leaderHint_self_iff`, the leader and such
  a follower are the only nodes that point at themselves.
-/

namespace Raft

/-! ### What is said of the leader -/

/-- Whether an effect says something of the leader or is meant for it. -/
def Effect.IsPointer : Effect → Prop
  | .forward .. => True
  | .send _ (.leaderIs ..) => True
  | _ => False

/-- Whether an effect has the peer `p` for the leader. -/
def Effect.PointsAt (p : PeerId) : Effect → Prop
  | .forward _ receiver _ => receiver = p
  | .send _ (.leaderIs hint _) => hint = some p
  | _ => False

/-- Whether an effect is the answer of the leader `p` to somebody who asks who leads. -/
def Effect.IsClaim (p : PeerId) (e : Effect) : Prop :=
  ∃ receiver, e = .send receiver (.leaderIs (some p) none)

theorem Effect.PointsAt.isPointer {p : PeerId} {e : Effect} (h : e.PointsAt p) : e.IsPointer := by
  cases e with
  | forward => trivial
  | send receiver m =>
    cases m with
    | leaderIs => trivial
    | _ => exact h.elim
  | _ => exact h.elim

theorem Effect.IsRoutine.not_isPointer {e : Effect} (h : e.IsRoutine) : ¬ e.IsPointer := by
  cases e with
  | send receiver m =>
    cases m with
    | leaderIs => exact h.elim
    | _ => exact id
  | arm | cancel => exact id
  | _ => exact h.elim

theorem Effect.not_isPointer_of_isOnState {e : Effect} (h : e.isOnState) : ¬ e.IsPointer := by
  cases e with
  | send | forward => cases h
  | _ => exact id

theorem Input.Brings.names {A : Nat → PeerId → Prop} {leader : PeerId} {term : Nat} {i : Input}
    (h : i.Brings leader term) (hi : i.Names A) : A term leader := by
  cases i with
  | message sender m =>
    cases m with
    | appendEntries | installSnapshot =>
      obtain ⟨rfl, rfl⟩ := h
      exact hi
    | _ => exact h.elim
  | _ => exact h.elim

/-- The node follows, and on the input it heeds the leader of its own or a newer term. -/
def Node.HeedsLeader (n : Node) (i : Input) : Prop :=
  n.role = .follower ∧ ∃ leader term, i.Brings leader term ∧ n.term ≤ term

/-! ### One input -/

namespace Turn

variable {i : Input} {t u v : Turn}

/-- From `t` to `u` nothing is said of the leader. -/
def Mute (t u : Turn) : Prop := t.Emits (fun e => ¬ e.IsPointer) u

/-- From `t` to `u` nothing is said of the leader either, what the node remembers stays, and it does
not come to lead. -/
structure Loyal (t u : Turn) : Prop where
  leader : u.node.leader = t.node.leader
  leads : u.node.role = .leader → t.node.role = .leader
  mute : t.Mute u

/-- From `t` to `u` the node comes to lead, and remembers that. -/
structure Wins (t u : Turn) : Prop where
  leads : u.node.role = .leader
  leader : u.node.leader = some u.node.id
  mute : t.Mute u

/-- What the processing of the input `i` comes to for what the node remembers and says of the
leader. -/
inductive View (i : Input) (t u : Turn) : Prop
  | loyal (hheeds : ¬ t.node.HeedsLeader i) (hloyal : t.Loyal u)
  | wins (hheeds : ¬ t.node.HeedsLeader i) (hwins : t.Wins u)
  | heed {leader : PeerId} {term : Nat} (hrole : t.node.role = .follower)
    (hi : i.Brings leader term) (hterm : t.node.term ≤ term)
    (hleader : u.node.leader = some leader) (hfollows : u.node.role = .follower)
    (hmute : t.Mute u)
  /-- The node tells or passes on what it knows of the leader. -/
  | speak {e : Effect} (hheeds : ¬ t.node.HeedsLeader i) (hnode : u.node = t.node)
    (hpending : u.pending = t.pending) (heffects : u.effects = t.effects ++ [e])
    (he : e.PointsAt t.node.id → t.node.leaderHint = some t.node.id ∧
      (t.node.role = .leader → e.IsClaim t.node.id))

/-! #### What is said -/

theorem Calm.mute (h : Calm i t u) : t.Mute u := h.emits.mono Effect.IsRoutine.not_isPointer

theorem mute_advanceCommit (t : Turn) : t.Mute t.advanceCommit :=
  t.emits_advanceCommit.mono Effect.not_isPointer_of_isOnState

theorem Heard.mute (h : Heard i t u) : t.Mute u :=
  h.emits.mono fun he => he.elim Effect.not_isPointer_of_isOnState
    fun hplain => hplain.isRoutine.not_isPointer

/-! #### Who leads -/

theorem Loyal.trans (h : t.Loyal v) (h' : v.Loyal u) : t.Loyal u :=
  ⟨h'.leader.trans h.leader, fun hu => h.leads (h'.leads hu), h.mute.trans h'.mute⟩

theorem Mute.loyal (h : t.Mute u) (hsame : t.node.Same u.node) : t.Loyal u :=
  ⟨hsame.leader, fun hu => hsame.role ▸ hu, h⟩

theorem Calm.loyal (h : Calm i t u) : t.Loyal u :=
  ⟨h.retains.leader, fun hu => (h.retains.leads hu).1, h.mute⟩

theorem loyal_advanceCommit (t : Turn) : t.Loyal t.advanceCommit :=
  t.mute_advanceCommit.loyal t.same_advanceCommit

theorem loyal_appendRequest {r : Request} (hrole : t.node.role = .leader)
    (h : t.appendRequest r = .ok u) : t.Loyal u := by
  have happend := Mute.loyal (.of_eq (effects_append t r.command (some r.client)))
    (t.same_append r.command (some r.client))
  obtain ⟨v, hsent, -, -, hleave, -⟩ := exists_of_appendRequest (i := .compactLog) hrole h
  exact ((happend.trans hsent.loyal).trans (loyal_advanceCommit v)).trans hleave.loyal

theorem wins_lead (h : t.lead = .ok u) : t.Wins u := by
  obtain ⟨v, hsent, hnode, rfl⟩ := exists_of_lead (i := .compactLog) h
  have hown : t.elected.node.Same (t.elected.appendOwn .noop none).node :=
    t.elected.same_append .noop none
  have hsame : t.elected.node.Same v.advanceCommit.node := by
    refine hown.trans ?_
    rw [← hnode]
    exact same_advanceCommit v
  have helected : t.Mute t.elected := t.emits_elected.mono fun he => he.isRoutine.not_isPointer
  have happend : t.elected.Mute (t.elected.appendOwn .noop none) := .of_eq rfl
  refine ⟨hsame.role.trans t.role_elected, ?_, ?_⟩
  · rw [hsame.leader, hsame.id]
    rfl
  · exact ((helected.trans happend).trans hsent.mute).trans (mute_advanceCommit v)

/-- What a node says of the leader is what it knows. -/
theorem pointsAt_of_tells {n : Node} {e : Effect} (h : e.Tells n) (hpoints : e.PointsAt n.id) :
    n.leaderHint = some n.id ∧ (n.role = .leader → e.IsClaim n.id) := by
  cases h with
  | @hint receiver r hr =>
    have hhint : n.leaderHint = some n.id := hpoints
    exact ⟨hhint, fun hlead => ⟨receiver, by rw [hr hlead, hhint]⟩⟩
  | @pass sender leader m hrole hleader =>
    obtain rfl : leader = n.id := hpoints
    exact ⟨hleader, fun hlead => absurd hlead hrole⟩

theorem view_dispatch (h : t.dispatch i = .ok u) : View i t u := by
  by_cases hheeds : t.node.HeedsLeader i
  · obtain ⟨hrole, leader, term, hbrings, hle⟩ := hheeds
    have hheard := heard_dispatch h hrole hbrings hle
    have hheed : t.Mute (t.heed leader term) := .emit t id
    exact .heed hrole hbrings hle hheard.same.leader (hheard.same.role.trans hrole)
      (hheed.trans hheard.mute)
  · cases deed_dispatch h with
    | calm h => exact .loyal hheeds h.loyal
    | again _ _ h hu =>
      have hloyal := h.loyal
      exact .loyal hheeds (hu ▸ ⟨hloyal.leader, hloyal.leads, hloyal.mute⟩)
    | meet _ _ h hnode =>
      have hmute : t.Mute u := h.mute
      exact .loyal hheeds (hmute.loyal (hnode ▸ .refl _))
    | propose _ _ _ hu => exact .loyal hheeds (hu ▸ ⟨rfl, id, .of_eq rfl⟩)
    | speak _ he hu => exact hu ▸ .speak hheeds rfl rfl rfl (pointsAt_of_tells he)
    | lead h _ _ _ _ hu =>
      have hwins := wins_lead hu
      exact .wins hheeds ⟨hwins.leads, hwins.leader, h.mute.trans hwins.mute⟩
    | append _ hrole hu => exact .loyal hheeds (loyal_appendRequest hrole hu)
    | @record peer last _ _ _ hu =>
      have hnote : t.Loyal { t with node := t.node.noting peer last } :=
        ⟨rfl, id, .of_eq rfl⟩
      exact .loyal hheeds (hu ▸ hnote.trans (loyal_advanceCommit _))
    | heed hrole hi hle => exact absurd ⟨hrole, _, _, hi, hle⟩ hheeds
    | capture _ hu =>
      have hmute : t.Mute u := (emits_capture hu).mono Effect.not_isPointer_of_isOnState
      exact .loyal hheeds (hmute.loyal (same_capture hu))
    | finish _ hu => exact .loyal hheeds (hu ▸ ⟨rfl, id, .of_eq rfl⟩)

end Turn

/-! ### What a node remembers -/

/-- The last of the stages that bears on who leads is one after which the node led itself: since
then it has heeded nobody. -/
def LastLed (ss : List Stage) : Prop :=
  ∃ earlier s later, ss = earlier ++ s :: later ∧ s.after.role = .leader ∧
    ∀ x ∈ later, ¬ x.before.HeedsLeader x.input

theorem not_lastLed_nil : ¬ LastLed [] := by
  rintro ⟨earlier, s, later, heq, -⟩
  cases (List.append_eq_nil_iff.1 heq.symm).2

theorem LastLed.of_leads (ss : List Stage) {s : Stage} (h : s.after.role = .leader) :
    LastLed (ss ++ [s]) := ⟨ss, s, [], rfl, h, fun _ hx => absurd hx List.not_mem_nil⟩

theorem LastLed.concat {ss : List Stage} {s : Stage} (h : LastLed ss)
    (hs : ¬ s.before.HeedsLeader s.input) : LastLed (ss ++ [s]) := by
  obtain ⟨earlier, x, later, rfl, hleads, hsince⟩ := h
  refine ⟨earlier, x, later ++ [s], List.append_assoc .., hleads, fun z hz => ?_⟩
  rcases List.mem_append.1 hz with hz | hz
  · exact hsince z hz
  · exact List.mem_singleton.1 hz ▸ hs

theorem LastLed.of_concat {ss : List Stage} {s : Stage} (h : LastLed (ss ++ [s])) :
    s.after.role = .leader ∨ (LastLed ss ∧ ¬ s.before.HeedsLeader s.input) := by
  obtain ⟨earlier, x, later, heq, hleads, hsince⟩ := h
  rcases List.eq_nil_or_concat later with rfl | ⟨rest, y, rfl⟩
  · obtain ⟨-, hx⟩ := List.append_inj' heq rfl
    exact .inl (List.head_eq_of_cons_eq hx ▸ hleads)
  · rw [List.concat_eq_append, ← List.cons_append, ← List.append_assoc] at heq
    obtain ⟨rfl, hy⟩ := List.append_inj' heq rfl
    obtain rfl := List.head_eq_of_cons_eq hy
    rw [List.concat_eq_append] at hsince
    have hlast := hsince s (List.mem_append_right _ (List.mem_singleton_self s))
    refine .inr ⟨⟨earlier, x, rest, rfl, hleads, fun z hz => ?_⟩, hlast⟩
    exact hsince z (List.mem_append_left _ hz)

/-- After these stages the node remembers itself just if it is the last that it knows to have led,
and as a leader it does. -/
structure Node.Remembers (ss : List Stage) (n : Node) : Prop where
  leader : n.leader = some n.id ↔ LastLed ss
  leads : n.role = .leader → LastLed ss

namespace Turn

variable {i : Input} {t u v : Turn} {ss later : List Stage} {es : List Effect}

theorem remembers_dispatch (es : List Effect) (h : t.dispatch i = .ok u) (hn : t.node.Remembers ss)
    (hi : i.Names fun _ p => p ≠ t.node.id) :
    u.node.id = t.node.id ∧ u.node.Remembers (ss ++ [⟨t.node, i, es, u.node⟩]) := by
  obtain ⟨_, _, -, -, hacts⟩ := performs_dispatch h
  have hid : u.node.id = t.node.id := (hacts.keeps (·.id = t.node.id) (fun _ => True) rfl
    fun hx a => ⟨a.shift.1.trans hx, fun _ _ => trivial⟩).1
  refine ⟨hid, ?_⟩
  -- the stage adds to what bears on who leads only if the node leads after it or heeds somebody
  have hlast (hled : LastLed ss) (hheeds : ¬ t.node.HeedsLeader i) :
      LastLed (ss ++ [⟨t.node, i, es, u.node⟩]) := hled.concat hheeds
  have hof (h : LastLed (ss ++ [⟨t.node, i, es, u.node⟩])) :
      u.node.role = .leader ∨ (LastLed ss ∧ ¬ t.node.HeedsLeader i) := h.of_concat
  refine ⟨?_, fun hleads => .of_leads ss hleads⟩
  cases view_dispatch h with
  | loyal hheeds hloyal =>
    rw [hloyal.leader, hid, hn.leader]
    refine ⟨fun hled => hlast hled hheeds, fun hled => ?_⟩
    exact (hof hled).elim (fun hleads => hn.leads (hloyal.leads hleads)) And.left
  | wins _ hwins => exact ⟨fun _ => .of_leads ss hwins.leads, fun _ => hwins.leader⟩
  | @heed leader term hrole hbrings hterm hleader hfollows =>
    have hother : leader ≠ t.node.id := hbrings.names hi
    have hheeds : t.node.HeedsLeader i := ⟨hrole, leader, term, hbrings, hterm⟩
    rw [hleader, hid]
    refine ⟨fun heq => absurd (Option.some.inj heq) hother, fun hled => ?_⟩
    rcases hof hled with hleads | ⟨-, hnone⟩
    · cases hfollows.symm.trans hleads
    · exact absurd hheeds hnone
  | speak hheeds hnode =>
    have hleads (hled : u.node.role = .leader) : t.node.role = .leader := hnode ▸ hled
    have hleader : u.node.leader = some u.node.id ↔ LastLed ss := hnode ▸ hn.leader
    refine ⟨fun hled => hlast (hleader.1 hled) hheeds, fun hled => hleader.2 ?_⟩
    exact (hof hled).elim (fun hled => hn.leads (hleads hled)) And.left

/-- What points at the node itself is said by a leader that is asked, or by a follower that
remembers itself. Nothing comes after it. -/
theorem points_dispatch (h : t.dispatch i = .ok u) (heffects : u.effects = t.effects ++ es)
    {e : Effect} (he : e ∈ es) (hpoints : e.PointsAt t.node.id) :
    u.pending = t.pending ∧ u.node = t.node ∧
      ((t.node.role = .leader ∧ e.IsClaim t.node.id) ∨
        (t.node.role = .follower ∧ t.node.leader = some t.node.id)) := by
  have hmute : ¬ t.Mute u := by
    rintro ⟨fs, hfs, hnone⟩
    obtain rfl := List.append_cancel_left (heffects.symm.trans hfs)
    exact hnone e he hpoints.isPointer
  cases view_dispatch h with
  | loyal _ hloyal => exact absurd hloyal.mute hmute
  | wins _ hwins => exact absurd hwins.mute hmute
  | heed _ _ _ _ _ hm => exact absurd hm hmute
  | @speak f _ hnode hpending hsaid hf =>
    obtain rfl := List.append_cancel_left (heffects.symm.trans hsaid)
    obtain rfl := List.mem_singleton.1 he
    obtain ⟨hhint, hclaim⟩ := hf hpoints
    refine ⟨hpending, hnode, ?_⟩
    unfold Node.leaderHint at hhint
    split at hhint
    next hrole => exact .inl ⟨hrole, hclaim hrole⟩
    next hrole => exact .inr ⟨hrole, hhint⟩
    next => cases hhint
    next => cases hhint

/-- A node remembers all along by whom it was deposed. Only the last stage can point at the node,
because something comes after every other one. -/
theorem Thread.remembers (h : Thread i t later v) (hn : t.node.Remembers ss)
    (hi : i.Names fun _ p => p ≠ t.node.id) :
    v.node.id = t.node.id ∧ v.node.Remembers (ss ++ later) ∧
      ∀ s ∈ later, ∀ e ∈ s.effects, e.PointsAt t.node.id →
        (v.node.role = .leader ∧ e.IsClaim t.node.id) ∨
          (v.node.role = .follower ∧ v.node.leader = some t.node.id) := by
  induction h generalizing ss with
  | @last i t u es _ hu hes =>
    obtain ⟨hid, hremembers⟩ := remembers_dispatch es hu hn hi
    refine ⟨hid, hremembers, fun s hs e he hpoints => ?_⟩
    obtain rfl := List.mem_singleton.1 hs
    obtain ⟨-, hnode, hsays⟩ := points_dispatch hu hes he hpoints
    rwa [hnode]
  | @next i j t u w es later ht hu hes hpending hj hrest ih =>
    obtain ⟨hid, hremembers⟩ := remembers_dispatch es hu hn hi
    have hnext : j.Names fun _ p => p ≠ u.node.id := by
      rcases hj with ⟨rfl, -⟩ | hraised
      · rwa [hid]
      · exact hraised.isOwn.names
    obtain ⟨hid', hremembers', hsays⟩ := ih hremembers hnext
    refine ⟨hid'.trans hid, by rwa [List.append_cons], fun s hs e he hpoints => ?_⟩
    rcases List.mem_cons.1 hs with rfl | hs
    · obtain ⟨hnone, -⟩ := points_dispatch hu hes he hpoints
      cases hpending.symm.trans (hnone.trans ht)
    · have hsaid : e.PointsAt u.node.id → _ := hsays s hs e he
      rw [hid] at hsaid
      exact hsaid hpoints

end Turn

/-! ### A node from its start on -/

namespace Life

/-- The stages of the transitions that the node has made with its first inputs. -/
def stages (l : Life) : Nat → List Stage
  | 0 => []
  | k + 1 =>
    l.stages k ++
      match l.inputs[k]? with
      | some i =>
        match step (l.after k) i with
        | .ok (_, _) => (l.after k).stages i
        | .error _ => []
      | none => []

variable (l : Life)

/-- At moment `k` the node follows, and since it has led last it has heeded nobody. -/
def Deposed (k : Nat) : Prop := (l.after k).role = .follower ∧ LastLed (l.stages k)

theorem stages_succ_cases (k : Nat) :
    (l.after (k + 1) = l.after k ∧ l.stages (k + 1) = l.stages k) ∨
      ∃ i es, l.inputs[k]? = some i ∧ step (l.after k) i = .ok (l.after (k + 1), es) ∧
        l.stages (k + 1) = l.stages k ++ (l.after k).stages i :=
  l.gathered_succ_cases l.stages (fun n i _ => n.stages i) (fun _ => rfl) k

variable {l}

theorem remembers_after (h : ∀ i ∈ l.inputs, i.Names fun _ p => p ≠ l.start.id) (k : Nat) :
    (l.after k).id = l.start.id ∧ (l.after k).Remembers (l.stages k) := by
  induction k with
  | zero =>
    refine ⟨rfl, ?_⟩
    show l.start.Remembers []
    rcases l.isNew with ⟨id, settings, heq⟩ | ⟨id, settings, s, heq⟩ <;>
    · rw [heq]
      exact ⟨⟨nofun, fun hled => absurd hled not_lastLed_nil⟩, nofun⟩
  | succ k ih =>
    rcases l.stages_succ_cases k with ⟨hafter, hstages⟩ | ⟨i, es, hi, hstep, hstages⟩
    · rwa [hafter, hstages]
    · obtain ⟨u, hu, -, hthread⟩ := thread_of_step hstep
      have hnames := h i (List.mem_of_getElem? hi)
      rw [← ih.1] at hnames
      obtain ⟨hid, hremembers, -⟩ := hthread.remembers ih.2 hnames
      rw [← hu, hstages]
      exact ⟨hid.trans ih.1, hremembers⟩

/-- Where every leader that a node hears of is somebody else, exactly a leader, and a follower that
has heeded nobody since it has led, name themselves as the leader. What a transition says or passes
on to the leader has the node itself for it only in the latter state, or if a leader answers who
leads. -/
theorem leaderHint_self_iff (h : ∀ i ∈ l.inputs, i.Names fun _ p => p ≠ l.start.id) (k : Nat) :
    ((l.after k).leaderHint = some (l.after k).id ↔
      (l.after k).role = .leader ∨ l.Deposed k) ∧
    ∀ i es, l.inputs[k]? = some i → step (l.after k) i = .ok (l.after (k + 1), es) →
      ∀ e ∈ es, e.PointsAt (l.after k).id → l.Deposed (k + 1) ∨
        ((l.after (k + 1)).role = .leader ∧ e.IsClaim (l.after k).id) := by
  obtain ⟨hid, hremembers⟩ := remembers_after h k
  constructor
  · unfold Node.leaderHint Deposed
    rw [← hremembers.leader]
    cases (l.after k).role <;> simp
  · intro i es hi hstep e he hpoints
    obtain ⟨u, hu, hes, hthread⟩ := thread_of_step hstep
    have hnames := h i (List.mem_of_getElem? hi)
    rw [← hid] at hnames
    obtain ⟨hid', -, hsays⟩ := hthread.remembers hremembers hnames
    rw [effects_of_step hstep] at he
    obtain ⟨s, hs, hes⟩ := List.mem_flatMap.1 he
    rw [hu] at hid' hsays
    rcases hsays s hs e hes hpoints with hleads | ⟨hrole, hleader⟩
    · exact .inr hleads
    · refine .inl ⟨hrole, (remembers_after h (k + 1)).2.leader.1 ?_⟩
      rw [hleader]
      exact congrArg some hid'.symm

/-- A node is told of the configuration and leads the first term of it with the vote of the other
member, which then asks for its vote in the second term. A new node asks it for the
configuration. -/
def supplanted : Life where
  start := .fresh ⟨2⟩ {}
  isNew := .inl ⟨⟨2⟩, {}, rfl⟩
  inputs :=
    [.message ⟨1⟩ (.changeConfiguration (.stable 1 (.ofList [⟨1⟩, ⟨2⟩]))),
      .timeout .election,
      .message ⟨1⟩ (.grantVote 1),
      .message ⟨1⟩ (.requestVote 2 ⟨1⟩ 1 1),
      .message ⟨3⟩ .requestConfiguration]

theorem names_supplanted :
    ∀ i ∈ supplanted.inputs, i.Names fun _ p => p ≠ supplanted.start.id := by
  simp only [supplanted, List.forall_mem_cons]
  exact ⟨trivial, trivial, trivial, trivial, trivial, nofun⟩

/-- The node has voted for the other member, it has not heard of it as a leader yet, and it passes
the question on to itself. -/
theorem leaderHint_self_iff_supplanted :
    (supplanted.after 3).role = .leader ∧
      (supplanted.after 3).leaderHint = some (supplanted.after 3).id ∧
      supplanted.Deposed 4 ∧ supplanted.Deposed 5 := by
  have h := names_supplanted
  have hleads : (supplanted.after 3).role = .leader := by decide +kernel
  have hdeposed := ((supplanted.leaderHint_self_iff h 4).1.1 (by decide +kernel)).resolve_left
    (by decide +kernel)
  have hasked : step (supplanted.after 4) (.message ⟨3⟩ .requestConfiguration) =
      .ok (supplanted.after 5, [.forward ⟨3⟩ ⟨2⟩ .requestConfiguration]) := by decide +kernel
  have hself : (⟨2⟩ : PeerId) = (supplanted.after 4).id := by decide +kernel
  have hfollows : (supplanted.after 5).role = .follower := by decide +kernel
  have hstill := ((supplanted.leaderHint_self_iff h 4).2 _ _ rfl hasked _
    (List.mem_singleton_self _) hself).resolve_right fun hled =>
      nomatch hfollows.symm.trans hled.1
  exact ⟨hleads, (supplanted.leaderHint_self_iff h 3).1.2 (.inl hleads), hdeposed, hstill⟩

/-- So it is not only the leader that names itself. -/
theorem not_leaderHint_self_supplanted :
    (∀ i ∈ supplanted.inputs, i.Names fun _ p => p ≠ supplanted.start.id) ∧
    (supplanted.after 4).role = .follower ∧
    (supplanted.after 4).leaderHint = some (supplanted.after 4).id ∧
    step (supplanted.after 4) (.message ⟨3⟩ .requestConfiguration) =
      .ok (supplanted.after 5, [.forward ⟨3⟩ (supplanted.after 4).id .requestConfiguration]) :=
  ⟨names_supplanted, by decide +kernel, by decide +kernel, by decide +kernel⟩

end Life

end Raft
