import Raft.Proofs.Contiguity
import Raft.Proofs.Transitions

/-!
# One input after the other

`Raft.Proofs.Transitions` says what the processing of an input can consist of, but not in which
order it ends. Here is how it ends (`Turn.ends_dispatch`): at most one follow-up is pending, namely
the input itself for the follower that the node has become, or one that the node's last state calls
for (`Input.Raises`). Whatever was asked to be captured is borne out by that state.

So the inputs of a transition form a single thread:

* `Node.moments`, the inputs that one transition processes, each with the node that takes it up;
* `Turn.settle_thread` and `step_thread`, what passes from each input to the one that it raises
  holds at every moment and at the end.
-/

namespace Raft

/-- Whether an effect asks for a capture. -/
def Effect.IsCapture : Effect → Prop
  | .prepareSnapshot _ => True
  | _ => False

theorem Effect.IsRoutine.not_isCapture {e : Effect} (h : e.IsRoutine) : ¬ e.IsCapture := by
  cases e with
  | prepareSnapshot => exact h.elim
  | _ => exact id

theorem Effect.Tells.not_isCapture {n : Node} {e : Effect} (h : e.Tells n) : ¬ e.IsCapture := by
  cases h <;> exact id

/-- What the node `n` raises for itself when it has processed the input `i`. -/
inductive Input.Raises (i : Input) (n : Node) : Input → Prop
  /-- Another node was found. -/
  | found (member : PeerId) :
    Input.Raises i n (.message n.id (.memberAdded member n.settings.membersToFind))
  /-- The joint configuration in force is committed. -/
  | settled (hjoint : n.config.isJoint = true) (hcommitted : n.hasCommitted n.config = true) :
    Input.Raises i n (.message n.id (.submit ⟨n.id, .configuration n.config.settled⟩))
  /-- Somebody wishes for other members, and no change is in progress. -/
  | proposed {sender : PeerId} {c : Configuration}
    (hi : i = .message sender (.changeConfiguration c)) (hstable : n.config.isJoint = false) :
    Input.Raises i n (.message n.id (.submit ⟨n.id, .configuration (n.config.transitionTo c)⟩))

theorem Input.Raises.isOwn {i j : Input} {n : Node} (h : i.Raises n j) : j.IsOwn := by
  cases h <;> trivial

/-- What a node raises depends on its configuration and on its log. -/
theorem Input.Raises.of_sameRecord {i j : Input} {n m : Node} (h : i.Raises n j)
    (hsame : n.SameRecord m) (hid : m.id = n.id) (hsettings : m.settings = n.settings) :
    i.Raises m j := by
  cases h with
  | found member =>
    rw [← hid, ← hsettings]
    exact .found member
  | settled hjoint hcommitted =>
    rw [← hid, ← hsame.config]
    refine .settled (hsame.config ▸ hjoint) ?_
    rw [Node.hasCommitted, hsame.log, hsame.config]
    exact hcommitted
  | proposed hi hstable =>
    rw [← hid, ← hsame.config]
    exact .proposed hi (hsame.config ▸ hstable)

namespace Turn

variable {i j : Input} {t u v : Turn}

/-! ### How the processing of an input ends -/

/-- From `t` to `u` no capture is asked for. -/
def Spares (t u : Turn) : Prop := t.Emits (fun e => ¬ e.IsCapture) u

/-- The captures that are asked for from `t` to `u` are such as the node bears out in the end. -/
def Asks (t u : Turn) : Prop :=
  ∃ es, u.effects = t.effects ++ es ∧
    ∀ about, .prepareSnapshot about ∈ es → u.node.BearsOut about

/-- The part of a turn from `t` to `u` raises one input at most, one that its last node calls
for. -/
structure Closes (i : Input) (t u : Turn) : Prop where
  asks : t.Asks u
  pending : u.pending = t.pending ∨ ∃ j, i.Raises u.node j ∧ u.pending = t.pending ++ [j]

/-- How the processing of the input `i` can end. -/
inductive Ends (i : Input) (t u : Turn) : Prop
  | still (hasks : t.Asks u) (hpending : u.pending = t.pending)
  /-- The node has become a follower, which considers the input again. -/
  | again (h : Calm i t { u with pending := t.pending }) (hi : i.IsForFollower)
    (hpending : u.pending = i :: t.pending)
  | raised {j : Input} (hasks : t.Asks u) (hj : i.Raises u.node j)
    (hpending : u.pending = t.pending ++ [j])

/-! #### Captures -/

theorem Spares.asks (h : t.Spares u) : t.Asks u := by
  obtain ⟨es, hes, hspares⟩ := h
  exact ⟨es, hes, fun _ he => absurd trivial (hspares _ he)⟩

theorem Spares.trans_asks (h : t.Spares v) (h' : v.Asks u) : t.Asks u := by
  obtain ⟨es, hes, hspares⟩ := h
  obtain ⟨fs, hfs, hasks⟩ := h'
  refine ⟨es ++ fs, by rw [hfs, hes, List.append_assoc], fun about he => ?_⟩
  exact (List.mem_append.1 he).elim (fun he => absurd trivial (hspares _ he)) (hasks about)

theorem Asks.trans_spares (h : t.Asks v) (h' : v.Spares u) (hsame : v.node.SameRecord u.node) :
    t.Asks u := by
  obtain ⟨es, hes, hasks⟩ := h
  obtain ⟨fs, hfs, hspares⟩ := h'
  refine ⟨es ++ fs, by rw [hfs, hes, List.append_assoc], fun about he => ?_⟩
  rcases List.mem_append.1 he with he | he
  · exact hsame.bearsOut (hasks about he)
  · exact absurd trivial (hspares _ he)

theorem Calm.spares (h : Calm i t u) : t.Spares u := h.emits.mono Effect.IsRoutine.not_isCapture

theorem spares_send (t : Turn) (p : PeerId) (m : Message) : t.Spares (t.send p m) := .emit t id

theorem spares_takeSnapshot (t : Turn) (s : Snapshot) : t.Spares (t.takeSnapshot s) :=
  (emits_takeSnapshot t s).mono fun he => he ▸ id

/-- What is committed is applied, and a capture that is asked for covers exactly that. -/
theorem asks_commitUntil (t : Turn) (k : Nat) (respond : Bool) :
    t.Asks (t.commitUntil k respond) := by
  obtain ⟨capturing, captures, hnode, heffects, hcaptures⟩ := t.commitUntil_cases k respond
  refine ⟨_, heffects, fun about he => ?_⟩
  rcases List.mem_append.1 he with he | he
  · obtain ⟨e, -, happlied⟩ := List.mem_filterMap.1 he
    unfold Entry.applied? at happlied
    split at happlied <;> cases happlied
  · rcases hcaptures with rfl | ⟨about', rfl, hdue⟩
    · cases he
    · obtain rfl : about = about' := by simpa using he
      have hsame : ({ t.node with log := t.node.log.commit k } : Node).SameRecord
          (t.commitUntil k respond).node := by
        rw [hnode]
        exact ⟨rfl, rfl, rfl⟩
      exact hsame.bearsOut (Node.bearsOut_of_snapshotDue? hdue)

theorem asks_takeEntries (t : Turn) (sender : PeerId) (prev : Nat) (entries : List Entry)
    (commit : Nat) : t.Asks (t.takeEntries sender prev entries commit) := by
  have hcommit : ∀ (v : Turn) (k : Nat) (m : Message),
      v.Asks ((v.commitUntil k false).send sender m) := fun v k m =>
    (v.asks_commitUntil k false).trans_spares (spares_send ..) ⟨rfl, rfl, rfl⟩
  unfold takeEntries
  simp only
  split
  next => exact hcommit t _ _
  next =>
    refine Spares.trans_asks (Emits.of_eq ?_) (hcommit _ _ _)
    rw [syncConfig_eq]
    rfl

theorem asks_capture (h : t.capture = .ok u) : t.Asks u := by
  rcases capture_cases h with ⟨-, rfl⟩ | ⟨about, hdue, rfl⟩
  · exact Spares.asks (.of_eq rfl)
  · refine ⟨[.prepareSnapshot about], rfl, fun about' he => ?_⟩
    obtain rfl : about' = about := by simpa using he
    have hsame : t.node.SameRecord { t.node with capturing := true } := ⟨rfl, rfl, rfl⟩
    exact hsame.bearsOut (Node.bearsOut_of_snapshotDue? hdue)

/-! #### What a leader raises -/

theorem Closes.ends (h : t.Closes i u) : t.Ends i u := by
  obtain ⟨hasks, hpending | ⟨j, hj, hpending⟩⟩ := h
  · exact .still hasks hpending
  · exact .raised hasks hj hpending

/-- What comes before does not matter for how the processing ends. -/
theorem Spares.closes (h : t.Spares v) (hpending : v.pending = t.pending) (h' : v.Closes i u) :
    t.Closes i u := ⟨h.trans_asks h'.asks, hpending ▸ h'.pending⟩

theorem sameRecord_stepDown (t : Turn) (term : Nat) :
    t.node.SameRecord (t.stepDown term).node := by
  rw [node_stepDown]
  refine ⟨rfl, ?_, rfl⟩
  show ((t.node.standing.advanceTo term).resign).config = t.node.config
  exact Standing.config_advanceTo ..

theorem sameRecord_leaveIfRemoved (t : Turn) : t.node.SameRecord t.leaveIfRemoved.node := by
  unfold leaveIfRemoved
  split
  next => exact .refl _
  next => exact sameRecord_stepDown ..

theorem closes_finishChange (hasks : t.Asks v) (hpending : v.pending = t.pending) :
    t.Closes i v.finishChange := by
  unfold finishChange
  simp only
  split
  next h => exact ⟨hasks, .inr ⟨_, .settled h.1 h.2, hpending ▸ rfl⟩⟩
  next => exact ⟨hasks, .inl hpending⟩

theorem closes_advanceCommit (t : Turn) : t.Closes i t.advanceCommit := by
  unfold advanceCommit
  simp only
  split
  next => exact closes_finishChange (asks_commitUntil ..) (clean_commitUntil ..).pending
  next => exact closes_finishChange (Spares.asks (.of_eq rfl)) rfl

theorem closes_leaveIfRemoved (h : t.Closes i v) (hcalm : Calm i v v.leaveIfRemoved) :
    t.Closes i v.leaveIfRemoved := by
  have hsame := sameRecord_leaveIfRemoved v
  have hkeeps : v.leaveIfRemoved.node.id = v.node.id ∧
      v.leaveIfRemoved.node.settings = v.node.settings := by
    unfold leaveIfRemoved
    split
    next => exact ⟨rfl, rfl⟩
    next =>
      rw [node_stepDown]
      exact ⟨rfl, rfl⟩
  refine ⟨h.asks.trans_spares hcalm.spares hsame, ?_⟩
  rw [hcalm.clean.pending]
  rcases h.pending with hpending | ⟨j, hj, hpending⟩
  · exact .inl hpending
  · exact .inr ⟨j, hj.of_sameRecord hsame hkeeps.1 hkeeps.2, hpending⟩

theorem closes_appendRequest {r : Request} (hrole : t.node.role = .leader)
    (h : t.appendRequest r = .ok u) : t.Closes i u := by
  obtain ⟨v, hsent, -, -, hleave, rfl⟩ := exists_of_appendRequest (i := i) hrole h
  refine Spares.closes ?_ ?_ (closes_leaveIfRemoved (closes_advanceCommit v) hleave)
  · exact (Emits.of_eq (effects_append ..)).trans hsent.spares
  · rw [hsent.clean.pending, pending_append]

theorem closes_lead (h : t.lead = .ok u) : t.Closes i u := by
  obtain ⟨v, hsent, -, rfl⟩ := exists_of_lead (i := i) h
  have helected : t.Spares (t.elected.appendOwn .noop none) :=
    t.emits_elected.mono fun he => he.isRoutine.not_isCapture
  refine Spares.closes (helected.trans hsent.spares) ?_ (closes_advanceCommit v)
  exact hsent.clean.pending.trans (clean_elected t).pending

/-! #### The whole input -/

theorem ends_enqueue {m : Message} (hspares : (t.enqueue m).Spares u)
    (hpending : u.pending = (t.enqueue m).pending) (hm : i.Raises u.node (.message t.node.id m)) :
    t.Ends i u := .raised hspares.asks hm hpending

/-- The processing of an input raises one follow-up at most. -/
theorem Deed.ends (h : Deed i t u) : t.Ends i u := by
  cases h with
  | calm h => exact .still h.spares.asks h.clean.pending
  | @again term hi _ h hu =>
    have hpending : (t.stepDown term).pending = t.pending := h.clean.pending
    refine .again ?_ hi (by rw [hu, ← hpending])
    rw [hu, ← hpending]
    exact h
  | meet _ _ h hnode =>
    exact ends_enqueue h.spares h.clean.pending (hnode ▸ .found _)
  | propose hi _ hstable hu => exact hu ▸ ends_enqueue (.of_eq rfl) rfl (.proposed hi hstable)
  | @speak e _ he hu =>
    have hspares : t.Spares (t.emit e) := .emit t he.not_isCapture
    exact hu ▸ .still hspares.asks rfl
  | lead h _ _ _ _ hu => exact (h.spares.closes h.clean.pending (closes_lead hu)).ends
  | append _ hrole hu => exact (closes_appendRequest hrole hu).ends
  | @record peer last _ _ _ hu =>
    have hnote : t.Spares { t with node := t.node.noting peer last } := .of_eq rfl
    exact hu ▸ (hnote.closes rfl (closes_advanceCommit _)).ends
  | @heed leader term _ _ _ h =>
    have hheed : t.Spares (t.heed leader term) := .emit t id
    refine .still (hheed.trans_asks ?_) h.pending_eq
    cases h with
    | accept _ _ hu => exact hu ▸ asks_takeEntries ..
    | refuse hu => exact hu ▸ (spares_send ..).asks
    | install _ hu => exact hu ▸ Spares.asks ((spares_takeSnapshot ..).trans (spares_send ..))
  | capture _ hu => exact .still (asks_capture hu) (clean_of_capture hu).pending
  | finish _ hu =>
    rw [hu]
    exact .still (Spares.asks (.of_eq rfl)) rfl

theorem ends_dispatch (h : t.dispatch i = .ok u) : t.Ends i u := (deed_dispatch h).ends

/-! ### The thread of a transition -/

/-- The inputs that are processed, each with the node that takes it up. -/
def moments : Nat → Turn → List (Node × Input)
  | 0, _ => []
  | budget + 1, t =>
    match t.pending with
    | [] => []
    | i :: rest =>
      (t.node, i) ::
        match ({ t with pending := rest } : Turn).dispatch i with
        | .ok u => moments budget u
        | .error _ => []

theorem moments_of_nil (h : t.pending = []) (budget : Nat) : t.moments budget = [] := by
  cases budget with
  | zero => rfl
  | succ budget =>
    unfold moments
    rw [h]

theorem moments_of_cons {j : Input} {rest : List Input} (hp : t.pending = j :: rest)
    (hu : ({ t with pending := rest } : Turn).dispatch j = .ok u) (budget : Nat) :
    t.moments (budget + 1) = (t.node, j) :: u.moments budget := by
  rw [moments, hp]
  simp only [hu]

/-- What is true of a turn that is about to take up an input, and passes on to the turn that takes
up the follow-up, holds at all moments, and what follows from it holds in the end. -/
theorem settle_thread {P : Input → Turn → Prop} {Q : Turn → Prop}
    (hlast : ∀ {i t u}, P i t → t.dispatch i = .ok u → t.Ends i u → Q u)
    (hagain : ∀ {i t u}, P i t → t.dispatch i = .ok u →
      Calm i t { u with pending := t.pending } → i.IsForFollower → P i { u with pending := [] })
    (hraised : ∀ {i j t u}, P i t → t.dispatch i = .ok u → t.Asks u → i.Raises u.node j →
      P j { u with pending := [] })
    {budget : Nat} (h : t.settle budget = .ok u) (hp : t.pending = [i])
    (hi : P i { t with pending := [] }) :
    Q u ∧ ∀ x ∈ t.moments budget, ∃ s : Turn, s.node = x.1 ∧ P x.2 s := by
  induction budget using Nat.strongRecOn generalizing t i with
  | ind budget ih =>
    rcases settle_cases h with ⟨hnone, -⟩ | ⟨j, rest, b, v, hj, rfl, hv, hsettle⟩
    · cases hp.symm.trans hnone
    obtain ⟨rfl, rfl⟩ := List.cons.inj (hp.symm.trans hj)
    have ih := @ih b (Nat.lt_succ_self b)
    -- either this was the last input, or one more is pending, of which the same is true
    have hrest : Q u ∧ ∀ x ∈ v.moments b, ∃ s : Turn, s.node = x.1 ∧ P x.2 s := by
      cases ends_dispatch hv with
      | still hasks hpending =>
        rw [settle_of_nil hpending] at hsettle
        refine ⟨Except.ok.inj hsettle ▸ hlast hi hv (.still hasks hpending), fun x hx => ?_⟩
        rw [moments_of_nil hpending] at hx
        cases hx
      | again hcalm hfollower hpending =>
        exact ih hsettle hpending (hagain hi hv hcalm hfollower)
      | raised hasks hj hpending => exact ih hsettle hpending (hraised hi hv hasks hj)
    refine ⟨hrest.1, fun x hx => ?_⟩
    rw [moments_of_cons hp hv] at hx
    rcases List.mem_cons.1 hx with rfl | hx
    · exact ⟨{ t with pending := [] }, rfl, hi⟩
    · exact hrest.2 x hx

end Turn

/-- The inputs that one transition processes, each with the node that takes it up. -/
def Node.moments (n : Node) (i : Input) : List (Node × Input) :=
  Turn.moments followUpLimit { n.turn with pending := [i] }

/-- The same for a whole transition. -/
theorem step_thread {P : Input → Turn → Prop} {Q : Turn → Prop}
    (hlast : ∀ {i t u}, P i t → t.dispatch i = .ok u → t.Ends i u → Q u)
    (hagain : ∀ {i t u}, P i t → t.dispatch i = .ok u →
      Turn.Calm i t { u with pending := t.pending } → i.IsForFollower →
      P i { u with pending := [] })
    (hraised : ∀ {i j t u}, P i t → t.dispatch i = .ok u → t.Asks u → i.Raises u.node j →
      P j { u with pending := [] })
    {n m : Node} {i : Input} {es : List Effect} (h : step n i = .ok (m, es)) (hi : P i n.turn) :
    (∃ t : Turn, t.node = m ∧ t.effects = es ∧ Q t) ∧
      ∀ x ∈ n.moments i, ∃ s : Turn, s.node = x.1 ∧ P x.2 s := by
  obtain ⟨t, ht, rfl, rfl⟩ := exists_process_of_step h
  obtain ⟨hQ, hmoments⟩ := Turn.settle_thread hlast hagain hraised ht rfl hi
  exact ⟨⟨t, rfl, rfl, hQ⟩, hmoments⟩

end Raft
