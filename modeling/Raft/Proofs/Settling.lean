import Raft.Proofs.CommitRule

/-!
# How many inputs one transition processes

A follow-up can raise a follow-up of its own, so a transition could go on and on. It does not,
because what a node raises is closer to the end than what it was raised on.

* `Input.IsFinal`, an input on which a node raises nothing (`Turn.pending_of_isFinal`): the node is
  told of another one, it is a follower that considers what it could not consider before, or it
  appends a stable configuration that is newer than the one in force;
* `Turn.next_cases`, what is raised is final, but for the joint configuration that a leader proposes
  to itself, and that one is raised on the wish of others only;
* `Turn.EndsWithin`, how many inputs a turn processes at most, whatever the budget, and `Frugal`,
  nothing that a node attempts fails because the budget is used up;
* `process_short`, so every input is settled within three, and each of them proposes a sequence
  number at most one beyond those before it.
-/

namespace Raft

/-! ### What raises nothing -/

/-- What the node `n` takes up without raising anything. -/
inductive Input.IsFinal (n : Node) : Input → Prop
  | added {sender member : PeerId} {required : Nat} :
    Input.IsFinal n (.message sender (.memberAdded member required))
  | reconsidered {i : Input} (hi : i.IsForFollower) (hrole : n.role = .follower) :
    Input.IsFinal n i
  | successor {sender client : PeerId} {c : Configuration} (hstable : c.isJoint = false)
    (hnewer : c.isNewerThan n.config = true) :
    Input.IsFinal n (.message sender (.submit ⟨client, .configuration c⟩))

/-- Whether an input is a wish for other members. -/
def Input.IsWish : Input → Prop
  | .message _ (.changeConfiguration _) => True
  | _ => False

/-- The sequence number of the configuration that an input proposes, if it proposes one. -/
def Input.sequence : Input → Nat
  | .message _ (.changeConfiguration c) => c.sequence
  | .message _ (.submit r) => (r.command.configuration?.map (·.sequence)).getD 0
  | _ => 0

variable {i j : Input} {n m : Node} {es : List Effect} {js : List Input}

theorem Input.IsForFollower.not_isWish (h : i.IsForFollower) : ¬ i.IsWish := by
  cases i with
  | message sender m =>
    cases m with
    | changeConfiguration => exact h.elim
    | _ => exact id
  | _ => exact id

/-- A node raises no wish of its own. What it raises on anything but a wish is final. -/
theorem Input.Raises.isFinal (h : i.Raises n j) : ¬ j.IsWish ∧ (¬ i.IsWish → j.IsFinal n) := by
  cases h with
  | found member => exact ⟨id, fun _ => .added⟩
  | settled hjoint =>
    refine ⟨id, fun _ => .successor (Configuration.isJoint_settled _) ?_⟩
    exact decide_eq_true (Configuration.sequence_lt_settled hjoint)
  | proposed hi => exact ⟨id, fun hwish => absurd (hi ▸ trivial) hwish⟩

/-- What is raised is one step ahead of the configuration in force and of what was proposed. -/
theorem Input.Raises.sequence_le (h : i.Raises n j) :
    j.sequence ≤ max n.config.sequence i.sequence + 1 := by
  cases h with
  | found member => exact Nat.zero_le _
  | settled hjoint =>
    have hsettled : n.config.settled.sequence = n.config.sequence + 1 := by
      cases hc : n.config with
      | stable => simp [hc, Configuration.isJoint] at hjoint
      | joint => rfl
    show n.config.settled.sequence ≤ _
    omega
  | proposed hi => exact hi ▸ Nat.le_refl _

/-- An act puts nothing in force that is ahead of what was in force and of what is proposed. Only
the log of another node can be ahead. -/
theorem Act.sequence_le (a : Act i n es js m) (hi : ¬ i.IsForFollower) :
    m.config.sequence ≤ max n.config.sequence i.sequence := by
  cases a with
  | @observe t =>
    have hconfig : (n.standing.advanceTo t).config = n.config := Standing.config_advanceTo ..
    show (n.standing.advanceTo t).config.sequence ≤ _
    rw [hconfig]
    exact Nat.le_max_left ..
  | @append command client _ happends =>
    rw [Turn.config_append]
    split
    next c hc =>
      split
      next =>
        rcases happends with ⟨rfl, -⟩ | ⟨sender, r, rfl, rfl, -⟩
        · cases hc
        · simp [Input.sequence, hc]
      next => exact Nat.le_max_left ..
    next => exact Nat.le_max_left ..
  | commit =>
    obtain ⟨_, _, hnode, -⟩ := n.turn.commitUntil_cases _ true
    rw [hnode]
    exact Nat.le_max_left ..
  | accept hmsg | install hmsg => exact absurd (hmsg ▸ trivial) hi
  | enroll _ hrole =>
    obtain ⟨role, hnode, -⟩ := Turn.addMember_cases hrole _ _
    rw [hnode]
    exact Nat.zero_le _
  | enter hmsg | adopt hmsg => exact hmsg ▸ Nat.le_max_right ..
  | _ => exact Nat.le_max_left ..

namespace Turn

variable {t u : Turn}

theorem sequence_le (h : t.dispatch i = .ok u) (hi : ¬ i.IsForFollower) :
    u.node.config.sequence ≤ max t.node.config.sequence i.sequence := by
  obtain ⟨_, _, -, -, hacts⟩ := performs_dispatch h
  refine (hacts.keeps (·.config.sequence ≤ max t.node.config.sequence i.sequence) (fun _ => True)
    (Nat.le_max_left ..) fun hn a => ⟨?_, fun _ _ => trivial⟩).1
  have := a.sequence_le hi
  omega

/-- What is for a follower raises nothing, but a node that is not one leaves it to the follower that
it becomes. -/
theorem again_cases (hi : i.IsForFollower) (h : t.dispatch i = .ok u) : u.pending = t.pending ∨
    (t.node.role ≠ .follower ∧ u.pending = i :: t.pending ∧ u.node.role = .follower ∧
      u.node.config = t.node.config) := by
  cases deed_dispatch h with
  | calm h => exact .inl h.clean.pending
  | @again term _ hrole h hu =>
    refine .inr ⟨hrole, ?_⟩
    rw [hu]
    exact ⟨congrArg _ h.clean.pending, role_stepDown t term, (sameRecord_stepDown t term).config⟩
  | speak _ _ hu => exact .inl (hu ▸ rfl)
  | heed _ _ _ h => exact .inl h.pending_eq
  | meet _ hmeet => rcases hmeet with ⟨rfl, -⟩ | ⟨sender, rfl⟩ <;> exact hi.elim
  | propose hmsg | append hmsg | capture hmsg => exact (hmsg ▸ hi).elim
  | lead _ _ _ _ hwon => rcases hwon with rfl | ⟨voter, rfl⟩ <;> exact hi.elim
  | record hmsg => rcases hmsg with rfl | rfl <;> exact hi.elim
  | finish hmsg => rcases hmsg with rfl | ⟨-, reason, rfl⟩ <;> exact hi.elim

/-- The configuration is in force as soon as it is appended, so no change is left to finish. -/
theorem pending_of_successor {sender client : PeerId} {c : Configuration}
    (hstable : c.isJoint = false) (hnewer : c.isNewerThan t.node.config = true)
    (h : t.dispatch (.message sender (.submit ⟨client, .configuration c⟩)) = .ok u) :
    u.pending = t.pending := by
  simp only [dispatch, onMessage, onSubmit] at h
  split at h
  next =>
    have hconfig : u.node.config = c := (config_appendRequest h).trans (if_pos hnewer)
    exact pending_appendRequest h (hconfig ▸ hstable)
  next => exact Except.ok.inj h ▸ rfl

theorem pending_of_isFinal (hi : i.IsFinal t.node) (h : t.dispatch i = .ok u) :
    u.pending = t.pending := by
  cases hi with
  | @added sender member required =>
    exact Except.ok.inj h ▸ (calm_addMember t sender member required).clean.pending
  | reconsidered hi hrole => exact (again_cases hi h).resolve_right fun hagain => hagain.1 hrole
  | successor hstable hnewer => exact pending_of_successor hstable hnewer h

/-- What comes after an input, if anything does. -/
theorem next_cases (ht : t.pending = []) (h : t.dispatch i = .ok u) : u.pending = [] ∨
    ∃ j, u.pending = [j] ∧ ¬ j.IsWish ∧ (¬ i.IsWish → j.IsFinal u.node) ∧
      max u.node.config.sequence j.sequence ≤ max t.node.config.sequence i.sequence + 1 := by
  by_cases hi : i.IsForFollower
  · rcases again_cases hi h with hdone | ⟨-, hagain, hrole, hconfig⟩
    · exact .inl (hdone.trans ht)
    · refine .inr ⟨i, by rw [hagain, ht], hi.not_isWish, fun _ => .reconsidered hi hrole, ?_⟩
      rw [hconfig]
      exact Nat.le_succ _
  · cases ends_dispatch h with
    | still _ hpending => exact .inl (hpending.trans ht)
    | again _ hfollower => exact absurd hfollower hi
    | @raised j _ hj hpending =>
      obtain ⟨hwish, hfinal⟩ := hj.isFinal
      refine .inr ⟨j, by rw [hpending, ht, List.nil_append], hwish, hfinal, ?_⟩
      have hforce := sequence_le h hi
      have hraised := hj.sequence_le
      omega

/-! ### What an attempt fails for -/

end Turn

/-- What fails does so for a reason of its own, not because the budget is used up. -/
def Frugal {α : Type} (x : Except Violation α) : Prop :=
  ∀ limit, x ≠ .error (.tooManyFollowUps limit)

theorem frugal_ok {α : Type} (a : α) : Frugal (.ok a) := nofun

theorem Frugal.map {α β : Type} {x : Except Violation α} (h : Frugal x) (f : α → β) :
    Frugal (x.map f) := by
  cases x with
  | ok a => exact frugal_ok _
  | error v => exact fun limit heq => h limit (congrArg _ (Except.error.inj heq))

theorem Frugal.bind {α β : Type} {x : Except Violation α} (h : Frugal x)
    {f : α → Except Violation β} (hf : ∀ a, Frugal (f a)) : Frugal (x.bind f) := by
  cases x with
  | ok a => exact hf a
  | error v => exact fun limit heq => h limit (congrArg _ (Except.error.inj heq))

namespace Turn

variable {t u : Turn}

theorem frugal_sendEntries (t : Turn) (peer : PeerId) : Frugal (t.sendEntries peer) := by
  have happend : ∀ start, Frugal (t.node.appendMessage peer start) := by
    intro start limit heq
    unfold Node.appendMessage at heq
    split at heq
    next => cases heq
    next => simp only at heq; split at heq <;> cases heq
  refine Frugal.map ?_ _
  unfold Node.nextMessage
  simp only
  split
  next => exact happend _
  next =>
    split
    next => exact frugal_ok _
    next => exact happend _

theorem frugal_replicate (t : Turn) : Frugal t.replicate := by
  unfold replicate
  generalize (t.node.standing.membersWithout t.node.id).toList = peers
  induction peers generalizing t with
  | nil => exact frugal_ok _
  | cons p rest ih =>
    rw [List.foldlM_cons]
    exact (frugal_sendEntries t p).bind ih

theorem frugal_capture (t : Turn) : Frugal t.capture := by
  intro limit heq
  unfold capture Node.snapshotDue? at heq
  simp only at heq
  split at heq
  next hdue =>
    split at hdue
    next => cases hdue
    next => split at hdue <;> cases hdue; cases heq
  next => cases heq
  next => cases heq

theorem frugal_appendRequest (t : Turn) (r : Request) : Frugal (t.appendRequest r) := by
  rw [appendRequest_eq]
  exact (frugal_replicate _).map _

/-- Whatever fails in an attempt, it is not for want of a budget. -/
theorem Attempt.frugal {x : Except Violation Turn} (h : Attempt i t x) : Frugal x := by
  cases h with
  | done => exact frugal_ok _
  | serve | retry => exact frugal_sendEntries _ _
  | heartbeat => exact (frugal_replicate t).map _
  | lead =>
    rw [lead_eq]
    exact (frugal_replicate _).map _
  | append => exact frugal_appendRequest t _
  | record =>
    refine Frugal.map ?_ _
    unfold recordProgress
    split
    next => exact fun limit heq => nomatch heq
    next => exact frugal_ok _
  | capture => exact frugal_capture t

/-! ### The budget -/

/-- From `t` on at most `k` inputs are processed. -/
def EndsWithin : Nat → Turn → Prop
  | 0, t => t.pending = []
  | k + 1, t => ∀ j rest u, t.pending = j :: rest →
    ({ t with pending := rest } : Turn).dispatch j = .ok u → EndsWithin k u

theorem endsWithin_of_nil (h : t.pending = []) (k : Nat) : EndsWithin k t := by
  cases k with
  | zero => exact h
  | succ k => exact fun j rest u hj => nomatch h.symm.trans hj

theorem settle_of_cons {rest : List Input} (hp : t.pending = j :: rest) (budget : Nat) :
    t.settle (budget + 1) =
      (({ t with pending := rest } : Turn).dispatch j).bind (settle budget) := by
  rw [settle, hp]
  rfl

namespace EndsWithin

variable {k budget : Nat}

/-- A larger budget makes no difference. -/
theorem settle_eq (h : EndsWithin k t) (hk : k ≤ budget) : t.settle budget = t.settle k := by
  induction k generalizing t budget with
  | zero => rw [settle_of_nil h, settle_of_nil h]
  | succ k ih =>
    obtain ⟨b, rfl⟩ := Nat.exists_eq_add_of_lt hk
    cases hp : t.pending with
    | nil => rw [settle_of_nil hp, settle_of_nil hp]
    | cons j rest =>
      rw [settle_of_cons hp, settle_of_cons hp]
      cases hu : ({ t with pending := rest } : Turn).dispatch j with
      | error v => rfl
      | ok u => exact ih (h j rest u hp hu) (Nat.le_add_right k b)

theorem frugal (h : EndsWithin k t) : Frugal (t.settle k) := by
  induction k generalizing t with
  | zero =>
    rw [settle_of_nil h]
    exact frugal_ok t
  | succ k ih =>
    cases hp : t.pending with
    | nil =>
      rw [settle_of_nil hp]
      exact frugal_ok t
    | cons j rest =>
      rw [settle_of_cons hp]
      cases hu : ({ t with pending := rest } : Turn).dispatch j with
      | error v =>
        have hdispatch := (attempt_dispatch { t with pending := rest } j).frugal
        rw [hu] at hdispatch
        exact fun limit heq => hdispatch limit (congrArg _ (Except.error.inj heq))
      | ok u => exact ih (h j rest u hp hu)

/-- No more inputs are dispatched than it takes, whatever the budget. -/
theorem length_moments (h : EndsWithin k t) (budget : Nat) :
    (t.moments budget).length ≤ k := by
  induction k generalizing t budget with
  | zero => simp [moments_of_nil h]
  | succ k ih =>
    cases budget with
    | zero => exact Nat.zero_le _
    | succ b =>
      unfold moments
      split
      next => exact Nat.zero_le _
      next j rest hp =>
        refine Nat.succ_le_succ ?_
        split
        next u hu => exact ih (h j rest u hp hu) b
        next => exact Nat.zero_le _

end EndsWithin

/-- What is final is the last input, what is no wish is the last but one, and after a wish two more
can follow. -/
theorem endsWithin_of_isFinal (hp : t.pending = [i]) (hi : i.IsFinal t.node) : EndsWithin 1 t := by
  intro j rest u hj hu
  obtain ⟨rfl, rfl⟩ := List.cons.inj (hp.symm.trans hj)
  exact pending_of_isFinal (t := { t with pending := [] }) hi hu

theorem endsWithin_of_not_isWish (hp : t.pending = [i]) (hi : ¬ i.IsWish) : EndsWithin 2 t := by
  intro j rest u hj hu
  obtain ⟨rfl, rfl⟩ := List.cons.inj (hp.symm.trans hj)
  rcases next_cases rfl hu with hdone | ⟨j, hnext, -, hfinal, -⟩
  · exact endsWithin_of_nil hdone 1
  · exact endsWithin_of_isFinal hnext (hfinal hi)

theorem endsWithin_three (hp : t.pending = [i]) : EndsWithin 3 t := by
  intro j rest u hj hu
  obtain ⟨rfl, rfl⟩ := List.cons.inj (hp.symm.trans hj)
  rcases next_cases rfl hu with hdone | ⟨j, hnext, hwish, -⟩
  · exact endsWithin_of_nil hdone 2
  · exact endsWithin_of_not_isWish hnext hwish

/-- Every input proposes a sequence number at most one beyond what is in force or was proposed when
the one before it was processed. -/
theorem sequence_moments_le {budget k : Nat} {x : Node × Input} (hp : t.pending = [i])
    (hx : (t.moments budget)[k]? = some x) :
    x.2.sequence ≤ max t.node.config.sequence i.sequence + k := by
  induction budget generalizing t i k with
  | zero => cases hx
  | succ b ih =>
    unfold moments at hx
    simp only [hp] at hx
    cases k with
    | zero =>
      obtain rfl := Option.some.inj hx
      exact Nat.le_max_right ..
    | succ k =>
      rw [List.getElem?_cons_succ] at hx
      split at hx
      next u hu =>
        rcases next_cases rfl hu with hdone | ⟨j, hnext, -, -, hsequence⟩
        · rw [moments_of_nil hdone] at hx
          cases hx
        · have := ih hnext hx
          simp only at hsequence
          omega
      next => cases hx

end Turn

/-- Whatever state a node is in and whatever input it gets, at most three inputs are processed, so
the limit on follow-ups is never what ends a transition, and any other limit from three on would
do. The configuration that the `k`-th follow-up proposes is at most `k` ahead of the sequence
numbers that the transition began with, so it stays within a word if these are two below. -/
theorem process_short (n : Node) (i : Input) :
    (n.moments i).length ≤ 3 ∧
      (∀ limit, step n i ≠ .error (.tooManyFollowUps limit)) ∧
      (∀ budget, 3 ≤ budget →
        Turn.settle budget { n.turn with pending := [i] } = n.process i) ∧
      ∀ k x, (n.moments i)[k]? = some x →
        x.2.sequence ≤ max n.config.sequence i.sequence + k := by
  have hends : Turn.EndsWithin 3 { n.turn with pending := [i] } := Turn.endsWithin_three rfl
  have hlimit : n.process i = Turn.settle 3 { n.turn with pending := [i] } :=
    hends.settle_eq (by decide)
  refine ⟨hends.length_moments _, ?_, fun budget hbudget => ?_, fun k x hx => ?_⟩
  · have hprocess : Frugal (n.process i) := hlimit ▸ hends.frugal
    exact hprocess.map _
  · rw [hlimit, hends.settle_eq hbudget]
  · exact Turn.sequence_moments_le (t := { n.turn with pending := [i] }) rfl hx

/-- Both bounds are reached. In a cluster of one node the wish for other members is proposed and
committed, and its successor is the second follow-up. -/
theorem process_short_renewal :
    ((Life.renewal.after 2).moments
      (.message ⟨9⟩ (.changeConfiguration (.stable 0 (.ofList [⟨1⟩]))))).length = 3 ∧
    (Life.renewal.after 2).config.sequence = 0 ∧
    ∃ x, ((Life.renewal.after 2).moments
      (.message ⟨9⟩ (.changeConfiguration (.stable 0 (.ofList [⟨1⟩])))))[2]? = some x ∧
      x.2.sequence = 2 := by
  obtain ⟨hlength, -, -, hsequence⟩ := process_short (Life.renewal.after 2)
    (.message ⟨9⟩ (.changeConfiguration (.stable 0 (.ofList [⟨1⟩]))))
  obtain ⟨x, hx, hx2⟩ : ∃ x, ((Life.renewal.after 2).moments
      (.message ⟨9⟩ (.changeConfiguration (.stable 0 (.ofList [⟨1⟩])))))[2]? = some x ∧
      2 ≤ x.2.sequence := by decide +kernel
  have hlt := (List.getElem?_eq_some_iff.1 hx).1
  refine ⟨Nat.le_antisymm hlength hlt, by decide +kernel, x, hx, Nat.le_antisymm ?_ hx2⟩
  exact hsequence 2 x hx

end Raft
