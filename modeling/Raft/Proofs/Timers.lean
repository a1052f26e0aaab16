import Raft.Proofs.Deeds
import Raft.Proofs.Effects

/-!
# The timer of the role

A node that waits for a timer which does not run is silent for ever, and one that runs without being
waited for is noise at best. `Replica.Driven` is a replica that was started and has handled inputs
and timers since then, each timer stopped before it is handled. Whatever it was started with, the
timer that runs is the one of its role, and there is no other (`Replica.Driven.runs_iff`).

The order of the effects counts: one input can take a follower to candidate, to leader and back, and
each change of role stops and sets timers. Each role waits for one timer, and a turn `Turn.Fits` if
this is the one that runs. After it has run out none does, and the turn is still `Turn.Due`.
`Turn.Deed.fits` goes through what an input can come to while the timer of the role runs.
`Turn.fits_onTimeout` is for the one input that finds it stopped.
-/

namespace Raft

/-! ### The timers that run -/

/-- Which timers run after an effect. -/
def Effect.wind (runs : Timer → Bool) : Effect → Timer → Bool
  | .arm timer, other => if other = timer then true else runs other
  | .cancel timer, other => if other = timer then false else runs other
  | _, other => runs other

theorem Effect.wind_of_not_isTimer {e : Effect} (h : ¬ e.IsTimer) (runs : Timer → Bool) :
    e.wind runs = runs := by
  cases e with
  | arm | cancel => exact absurd trivial h
  | _ => rfl

namespace Turn

variable {i : Input} {t u v : Turn} {x : Except Violation Turn} {runs : Timer → Bool}

/-- The timers that run after the effects of a turn, if `runs` did before. -/
def running (runs : Timer → Bool) (t : Turn) : Timer → Bool := t.effects.foldl Effect.wind runs

/-- No timer runs but the one that the node waits for. -/
def Due (runs : Timer → Bool) (t : Turn) : Prop :=
  ∀ timer, t.running runs timer = true → timer = t.node.role.timer

/-- The timer that the node waits for runs, and no other. -/
def Fits (runs : Timer → Bool) (t : Turn) : Prop :=
  ∀ timer, t.running runs timer = true ↔ timer = t.node.role.timer

/-- From `t` to `u` the timers stay in order. -/
structure Winds (t u : Turn) : Prop where
  due : ∀ {runs}, t.Due runs → u.Due runs
  fits : ∀ {runs}, t.Fits runs → u.Fits runs

theorem Fits.due (h : t.Fits runs) : t.Due runs := fun timer => (h timer).1

theorem running_emit (t : Turn) (e : Effect) :
    (t.emit e).running runs = e.wind (t.running runs) := by
  simp [running, emit]

theorem running_of_emits (h : t.Emits (fun e => ¬ e.IsTimer) u) :
    u.running runs = t.running runs := by
  obtain ⟨es, heffects, hes⟩ := h
  rw [running, heffects, List.foldl_append, ← running]
  generalize t.running runs = on
  clear heffects
  induction es with
  | nil => rfl
  | cons e rest ih =>
    rw [List.foldl_cons, Effect.wind_of_not_isTimer (hes e (List.mem_cons_self ..)),
      ih fun f hf => hes f (List.mem_cons_of_mem _ hf)]

namespace Winds

theorem refl (t : Turn) : t.Winds t := ⟨id, id⟩

theorem trans (h : t.Winds v) (h' : v.Winds u) : t.Winds u :=
  ⟨fun hdue => h'.due (h.due hdue), fun hfits => h'.fits (h.fits hfits)⟩

theorem of_timer (h : t.Emits (fun e => ¬ e.IsTimer) u)
    (htimer : u.node.role.timer = t.node.role.timer) : t.Winds u := by
  constructor <;>
  · intro runs h' timer
    rw [running_of_emits h, htimer]
    exact h' timer

/-- What sets no timer and leaves the role leaves the timers in order. -/
theorem of_role (h : t.Emits (fun e => ¬ e.IsTimer) u) (hrole : u.node.role = t.node.role) :
    t.Winds u := .of_timer h (by rw [hrole])

theorem of_same (heffects : u.effects = t.effects) (hrole : u.node.role = t.node.role) :
    t.Winds u := .of_role (.of_eq heffects) hrole

end Winds

theorem fits_arm (h : t.Due runs) : (t.arm t.node.role.timer).Fits runs := by
  intro timer
  rw [arm, running_emit, Effect.wind]
  show _ ↔ timer = t.node.role.timer
  split
  next heq => simp [heq]
  next hne => exact ⟨h timer, fun heq => absurd heq hne⟩

theorem fits_arm_of_eq {timer : Timer} (htimer : t.node.role.timer = timer) (h : t.Due runs) :
    (t.arm timer).Fits runs := htimer ▸ fits_arm h

theorem winds_arm (t : Turn) : t.Winds (t.arm t.node.role.timer) :=
  ⟨fun h => (fits_arm h).due, fun h => fits_arm h.due⟩

/-- A node that takes up the role of follower or candidate leaves no timer behind but the one that
it waits for now. -/
theorem fits_goto {role : Role} (hrole : role = .follower ∨ role = .candidate)
    (hne : t.node.role ≠ role) (h : t.Due runs) : (t.goto role).Fits runs := by
  have htimer : role.timer = .election := by rcases hrole with rfl | rfl <;> rfl
  have hgoto : (t.goto role).running runs = (Effect.arm .election).wind
      (t.leaveRole.running runs) := by
    rw [goto, if_neg hne, ← running_emit]
    rcases hrole with rfl | rfl <;> rfl
  intro timer
  rw [hgoto, node_goto]
  show _ ↔ timer = role.timer
  rw [htimer, Effect.wind]
  split
  next heq => simp [heq]
  next hother =>
    -- the timer of the role that is left has been stopped, unless it is the same
    refine iff_of_false (fun hruns => ?_) hother
    unfold leaveRole at hruns
    have hold := h timer
    cases hinit : t.node.role with
    | init =>
      simp only [hinit, cancel, running_emit, Effect.wind, Role.timer] at hruns hold
      split at hruns
      · cases hruns
      · exact absurd (hold hruns) ‹_›
    | leader =>
      simp only [hinit, cancel, running_emit, Effect.wind, Role.timer] at hruns hold
      split at hruns
      · cases hruns
      · exact absurd (hold hruns) ‹_›
    | follower | candidate =>
      rw [hinit] at hruns hold
      exact hother (hold hruns)

theorem winds_goto (t : Turn) {role : Role} (hrole : role = .follower ∨ role = .candidate) :
    t.Winds (t.goto role) := by
  by_cases hsame : t.node.role = role
  · rw [goto, if_pos hsame]
    exact .refl t
  · exact ⟨fun h => (fits_goto hrole hsame h).due, fun h => fits_goto hrole hsame h.due⟩

/-! ### Inputs while the timer of the role runs -/

theorem Calm.winds (h : Calm i t u) : t.Winds u := by
  induction h with
  | refl => exact .refl t
  | @act u m es _ _ _ htimer hes ih =>
    exact ih.trans (.of_timer (.put u m fun e he => (hes e he).not_isTimer) htimer)
  | arm _ ih => exact ih.trans (winds_arm _)
  | @shift u m es role _ _ _ hsame hrole hes ih =>
    have hput : u.Winds (u.put m es) :=
      .of_role (.put u m fun e he => (hes e he).not_isTimer) hsame
    exact ih.trans (hput.trans (winds_goto _ hrole))

theorem winds_advanceCommit (t : Turn) : t.Winds t.advanceCommit :=
  .of_role (t.emits_advanceCommit.mono Effect.not_isTimer_of_isOnState) t.role_advanceCommit

theorem winds_append (t : Turn) (command : Command) (client : Option PeerId) :
    t.Winds ((t.appendOwn command client).adoptNewer command) :=
  .of_same (effects_append ..) (t.same_append command client).role

/-- A leader that has served its peers waits for the next time. -/
theorem fits_heartbeat (hrole : t.node.role = .leader) (hdue : t.Due runs)
    (h : t.replicate = .ok u) : (u.arm .heartbeat).Fits runs := by
  have htimer : u.node.role.timer = .heartbeat := by rw [node_replicate h, hrole]; rfl
  have hsent : t.Winds u :=
    .of_role ((emits_replicate h).mono Effect.IsPlain.not_isTimer) (by rw [node_replicate h])
  exact fits_arm_of_eq htimer (hsent.due hdue)

/-- A candidate that comes to lead stops the timer of the election and starts that of the
heartbeat. -/
theorem fits_lead (hrole : t.node.role = .candidate) (hdue : t.Due runs) (h : t.lead = .ok u) :
    u.Fits runs := by
  have hcancel : t.elected.running runs = (Effect.cancel .election).wind (t.running runs) := by
    rw [← running_emit]
    simp [elected, goto, withStanding, hrole, leaveRole, enterRole, cancel, emit, running]
  have helected : t.elected.Due runs := by
    intro timer htimer
    rw [hcancel, Effect.wind] at htimer
    split at htimer
    next => cases htimer
    next hne =>
      have heq := hdue timer htimer
      rw [hrole] at heq
      exact absurd heq hne
  have hown : t.elected.Winds (t.elected.appendOwn .noop none) := winds_append _ .noop none
  have hvrole : (t.elected.appendOwn .noop none).node.role = .leader := t.role_elected
  rw [lead_eq] at h
  obtain ⟨w, hw, rfl⟩ := exists_of_map h
  exact (winds_advanceCommit _).fits (fits_heartbeat hvrole (hown.due helected) hw)

theorem Contends.fits (h : Contends i t x) (hx : x = .ok u) (hfits : t.Fits runs) :
    u.Fits runs := by
  cases h with
  | wait h => exact Except.ok.inj hx ▸ h.winds.fits hfits
  | lead h _ hrole => exact fits_lead hrole (h.winds.fits hfits).due hx

theorem winds_capture (h : t.capture = .ok u) : t.Winds u :=
  .of_role ((emits_capture h).mono Effect.not_isTimer_of_isOnState) (same_capture h).role

theorem winds_heed (t : Turn) (leader : PeerId) (term : Nat) (hrole : t.node.role = .follower) :
    t.Winds (t.heed leader term) := by
  have hfollow : t.Winds { t with node := (t.heed leader term).node } := .of_same rfl rfl
  have htimer : (t.heed leader term).node.role.timer = .election := by
    show t.node.role.timer = _
    rw [hrole]
    rfl
  have harm := winds_arm { t with node := (t.heed leader term).node }
  rw [htimer] at harm
  exact hfollow.trans harm

theorem Heard.winds (h : Heard i t u) : t.Winds u :=
  .of_role (h.emits.mono fun he => he.elim Effect.not_isTimer_of_isOnState
    Effect.IsPlain.not_isTimer) h.same.role

/-- Whatever the input comes to, the timer of the role runs afterwards if it did before. -/
theorem Deed.fits (h : Deed i t u) (hfits : t.Fits runs) : u.Fits runs := by
  cases h with
  | calm h => exact h.winds.fits hfits
  | again _ _ h hu => exact hu ▸ (h.winds.fits hfits : Fits runs _)
  | meet _ _ h _ => exact h.winds.fits (t := t.enqueue _) hfits
  | propose _ _ _ hu =>
    rw [hu]
    exact hfits
  | @speak e _ he hu =>
    rw [hu]
    exact (Winds.of_role (.emit t he.not_isTimer) rfl).fits hfits
  | lead h _ hrole _ _ hu => exact fits_lead hrole (h.winds.fits hfits).due hu
  | @append sender r _ hrole hu =>
    have happend := winds_append t r.command (some r.client)
    obtain ⟨v, hsent, -, -, hleave, -⟩ := exists_of_appendRequest (i := i) hrole hu
    exact hleave.winds.fits ((winds_advanceCommit v).fits (hsent.winds.fits (happend.fits hfits)))
  | record _ _ _ hu =>
    rw [hu]
    exact (winds_advanceCommit _).fits ((Winds.of_same rfl rfl).fits hfits)
  | heed hrole _ _ h => exact ((winds_heed t _ _ hrole).trans h.winds).fits hfits
  | capture _ hu => exact (winds_capture hu).fits hfits
  | finish _ hu =>
    rw [hu]
    exact (Winds.of_same rfl rfl).fits hfits

/-- What is pending does not matter for the timers. -/
theorem fits_settle {budget : Nat} (h : t.settle budget = .ok u) (hfits : t.Fits runs) :
    u.Fits runs := by
  induction budget using Nat.strongRecOn generalizing t with
  | ind budget ih =>
    rcases settle_cases h with ⟨-, rfl⟩ | ⟨j, rest, b, v, -, rfl, hv, hrest⟩
    · exact hfits
    · exact ih b (Nat.lt_succ_self b) hrest ((deed_dispatch hv).fits hfits)

/-! ### The timer of the role has run out -/

theorem fits_retryElection (hrole : t.node.role = .candidate) (hdue : t.Due runs)
    (h : t.retryElection = .ok u) : u.Fits runs := by
  rcases contends_retryElection rfl hrole with ⟨v, hcalm, hv, hcontends⟩ | heq
  · have htimer : v.node.role.timer = .election := by rw [hv, hrole]; rfl
    exact hcontends.fits h (fits_arm_of_eq htimer (hcalm.winds.due hdue))
  · obtain rfl := Except.ok.inj (heq.symm.trans h)
    have hdown : t.Winds (t.withStanding fun s => (s.advanceTo t.node.term).resign) :=
      .of_same rfl rfl
    refine fits_goto (.inl rfl) ?_ (hdown.due hdue)
    show t.node.role ≠ .follower
    rw [hrole]
    exact Role.noConfusion

theorem fits_onDiscoveryTimeout (hrole : t.node.role = .init) (hdue : t.Due runs) :
    t.onDiscoveryTimeout.Fits runs := by
  have hprobe : ∀ (v : Turn) (peers : List PeerId), v.node = t.node → v.Due runs →
      ((peers.foldl (fun t p => t.send p .discover) v).arm .discovery).Fits runs := by
    intro v peers hv hdue
    refine fits_arm_of_eq ?_ ((calm_probe peers (hv ▸ hrole)).winds.due hdue)
    rw [node_probe, hv, hrole]
    rfl
  unfold onDiscoveryTimeout
  simp only
  split
  next => exact hprobe (t.enqueue _) _ rfl hdue
  next => exact hprobe t _ rfl hdue

/-- Each role sets its timer anew when it has run out, unless it is left. -/
theorem fits_onTimeout (hdue : t.Due runs) (h : t.onTimeout t.node.role.timer = .ok u) :
    u.Fits runs := by
  cases hrole : t.node.role with
  | init =>
    simp only [hrole, Role.timer, onTimeout, if_pos] at h
    exact Except.ok.inj h ▸ fits_onDiscoveryTimeout hrole hdue
  | follower =>
    simp only [hrole, Role.timer, onTimeout, onElectionTimeout] at h
    exact (contends_beginElection rfl hrole).fits h (fits_arm_of_eq (by rw [hrole]; rfl) hdue)
  | candidate =>
    simp only [hrole, Role.timer, onTimeout, onElectionTimeout] at h
    exact fits_retryElection hrole hdue h
  | leader =>
    simp only [hrole, Role.timer, onTimeout, if_pos] at h
    obtain ⟨v, hv, rfl⟩ := exists_of_map h
    exact fits_heartbeat hrole hdue hv

end Turn

/-! ### Whole transitions -/

section Step

variable {n m : Node} {i : Input} {es : List Effect} {runs : Timer → Bool}

/-- While the timer of the role runs and no other, a transition keeps it so. -/
theorem wind_step (h : step n i = .ok (m, es))
    (hruns : ∀ timer, runs timer = true ↔ timer = n.role.timer) (timer : Timer) :
    es.foldl Effect.wind runs timer = true ↔ timer = m.role.timer := by
  obtain ⟨t, ht, rfl, rfl⟩ := exists_process_of_step h
  exact Turn.fits_settle ht hruns timer

/-- The same if the input is that timer, which has been stopped. -/
theorem wind_step_of_timeout (h : step n (.timeout n.role.timer) = .ok (m, es))
    (hruns : ∀ timer, runs timer = true → timer = n.role.timer) (timer : Timer) :
    es.foldl Effect.wind runs timer = true ↔ timer = m.role.timer := by
  obtain ⟨t, ht, rfl, rfl⟩ := exists_process_of_step h
  obtain ⟨u, hu, hsettle⟩ := Node.exists_dispatch ht
  have hfits : u.Fits runs := Turn.fits_onTimeout (t := n.turn) hruns hu
  exact Turn.fits_settle hsettle hfits timer

end Step

/-! ### Replicas -/

variable {σ : Type}

/-- Whether a timer has a deadline. -/
def TimerSet.runs (s : TimerSet) (timer : Timer) : Bool := (s.deadline timer).isSome

namespace TimerSet

theorem runs_arm (s : TimerSet) (timer : Timer) (now after : Nat) :
    (s.arm timer now after).runs = (Effect.arm timer).wind s.runs := by
  funext other
  rw [runs, deadline_arm, Effect.wind]
  split <;> rfl

theorem runs_cancel (s : TimerSet) (timer : Timer) :
    (s.cancel timer).runs = (Effect.cancel timer).wind s.runs := by
  funext other
  rw [runs, deadline_cancel, Effect.wind]
  split <;> rfl

/-- The timer that runs out first does run. -/
theorem runs_of_next? {s : TimerSet} {timer : Timer} {deadline : Nat}
    (h : s.next? = some (timer, deadline)) : s.runs timer = true := by
  have hearlier : ∀ (rest : List (Timer × Nat)) (first : Timer × Nat),
      rest.foldl earlier first ∈ first :: rest := by
    intro rest
    induction rest with
    | nil => exact fun first => List.mem_cons_self ..
    | cons x rest ih =>
      intro first
      have hmem := ih (earlier first x)
      have hone : earlier first x = first ∨ earlier first x = x := by
        unfold earlier
        split
        · exact .inr rfl
        · exact .inl rfl
      rcases List.mem_cons.1 hmem with heq | hmem
      · rw [List.foldl_cons, heq]
        rcases hone with h | h <;> simp [h]
      · exact List.mem_cons_of_mem _ (List.mem_cons_of_mem _ hmem)
  have hmem : (timer, deadline) ∈ s.running := by
    unfold next? at h
    split at h
    next => cases h
    next first rest hrunning =>
      rw [hrunning, ← Option.some.inj h]
      exact hearlier rest first
  obtain ⟨other, -, hother⟩ := List.mem_filterMap.1 hmem
  obtain ⟨at', hat, heq⟩ := Option.map_eq_some_iff.1 hother
  obtain ⟨rfl, rfl⟩ := Prod.mk.inj heq
  rw [runs, hat]
  rfl

end TimerSet

variable [StateMachine σ]

theorem Stir.runs_execute (moment : Moment) (s : Stir σ) (e : Effect) :
    (s.execute moment e).replica.timers.runs = e.wind s.replica.timers.runs := by
  cases e with
  | arm timer => exact TimerSet.runs_arm ..
  | cancel timer => exact TimerSet.runs_cancel ..
  | apply entry respond =>
    simp only [execute, apply]
    split
    · split <;> rfl
    · rfl
  | restore snapshot =>
    simp only [execute, Replica.restore]
    split <;> rfl
  | prepareSnapshot about =>
    simp only [execute, capture]
    split <;> rfl
  | send | forward => rfl

/-- Carrying out effects leaves the node alone and sets the timers as they say. -/
theorem Stir.runs_foldl_execute (moment : Moment) (es : List Effect) (s : Stir σ) :
    (es.foldl (Stir.execute moment) s).replica.node = s.replica.node ∧
      (es.foldl (Stir.execute moment) s).replica.timers.runs =
        es.foldl Effect.wind s.replica.timers.runs := by
  induction es generalizing s with
  | nil => exact ⟨rfl, rfl⟩
  | cons e rest ih =>
    obtain ⟨hnode, hruns⟩ := ih (s.execute moment e)
    rw [Stir.node_execute] at hnode
    rw [Stir.runs_execute] at hruns
    exact ⟨hnode, hruns⟩

namespace Replica

/-- The timer of the role runs, and no other. -/
def IsWound (r : Replica σ) : Prop :=
  ∀ timer, r.timers.runs timer = true ↔ timer = r.node.role.timer

/-- A replica that has been started and has handled inputs and timers since then. An input whose
step is given up changes nothing. The step of a timer that has run out is not given up. -/
inductive Driven : Replica σ → Prop
  | start {o : Options} {earlier : Option Node} {state : σ} {r : Replica σ} (moment : Moment)
    (hr : create o earlier state = .ok r)
    (hstep : r.node.role = .init → ∃ x, step r.node (.timeout .discovery) = .ok x) :
    Driven (r.start moment).replica
  | handle {r : Replica σ} (h : Driven r) (moment : Moment) (input : Input) :
    Driven (r.handle moment input).replica
  | fire {r : Replica σ} {timer : Timer} {deadline : Nat} {s : Stir σ} (h : Driven r)
    (moment : Moment) (hnext : r.timers.next? = some (timer, deadline))
    (hs : r.fire? moment = some s) (hstep : ∃ x, step r.node (.timeout timer) = .ok x) :
    Driven s.replica

variable {r : Replica σ} {moment : Moment} {i : Input}

theorem handle_of_step (moment : Moment) {m : Node} {es : List Effect}
    (h : step r.node i = .ok (m, es)) :
    (r.handle moment i).replica.node = m ∧
      (r.handle moment i).replica.timers.runs = es.foldl Effect.wind r.timers.runs := by
  unfold handle
  rw [h]
  exact Stir.runs_foldl_execute moment es { replica := { r with node := m } }

theorem IsWound.handle (h : r.IsWound) (moment : Moment) (i : Input) :
    (r.handle moment i).replica.IsWound := by
  cases hstep : step r.node i with
  | error v =>
    unfold Replica.handle
    rw [hstep]
    exact h
  | ok x =>
    obtain ⟨m, es⟩ := x
    obtain ⟨hnode, hruns⟩ := handle_of_step moment hstep
    intro timer
    rw [hnode, hruns]
    exact wind_step hstep h timer

/-- A replica whose timer has been stopped handles it, and then the timer of its role runs. -/
theorem isWound_handle_timeout (moment : Moment)
    (h : ∀ timer, r.timers.runs timer = true → timer = r.node.role.timer)
    (hstep : ∃ x, step r.node (.timeout r.node.role.timer) = .ok x) :
    (r.handle moment (.timeout r.node.role.timer)).replica.IsWound := by
  obtain ⟨⟨m, es⟩, hstep⟩ := hstep
  obtain ⟨hnode, hruns⟩ := handle_of_step moment hstep
  intro timer
  rw [hnode, hruns]
  exact wind_step_of_timeout hstep h timer

omit [StateMachine σ] in
theorem isWound_arm (h : ∀ timer, r.timers.runs timer = false) {timer : Timer}
    (htimer : r.node.role.timer = timer) : (r.arm moment timer).IsWound := by
  intro other
  show (r.timers.arm timer moment.now _).runs other = true ↔ other = r.node.role.timer
  rw [TimerSet.runs_arm, Effect.wind, htimer, h other]
  split
  next heq => simp [heq]
  next hne => simp [hne]

/-- A node that begins has no timers yet. -/
theorem isWound_start (h : ∀ timer, r.timers.runs timer = false)
    (hstep : r.node.role = .init → ∃ x, step r.node (.timeout .discovery) = .ok x) :
    (r.start moment).replica.IsWound := by
  unfold start
  extract_lets r'
  have hsame : r'.node = r.node ∧ r'.timers = r.timers := by
    unfold r'
    split
    next =>
      unfold restore
      split <;> exact ⟨rfl, rfl⟩
    next => exact ⟨rfl, rfl⟩
  clear_value r'
  rw [← hsame.1] at hstep
  rw [← hsame.2] at h
  cases hrole : r'.node.role with
  | init =>
    have hdue : ∀ timer, r'.timers.runs timer = true → timer = r'.node.role.timer := by
      intro timer hruns
      rw [h timer] at hruns
      cases hruns
    have htimer : r'.node.role.timer = .discovery := by rw [hrole]; rfl
    have hwound := isWound_handle_timeout moment hdue (htimer ▸ hstep hrole)
    rwa [htimer] at hwound
  | follower | candidate | leader => exact isWound_arm h (by rw [hrole]; rfl)

omit [StateMachine σ] in
theorem timers_of_create {o : Options} {earlier : Option Node} {state : σ}
    (h : create o earlier state = .ok r) : r.timers = {} := by
  unfold create at h
  cases hcheck : o.check with
  | error e =>
    rw [hcheck] at h
    cases h
  | ok =>
    rw [hcheck] at h
    simp only [bind, Except.bind] at h
    split at h
    next =>
      obtain rfl := Except.ok.inj h
      rfl
    next => cases h

/-- Of a replica that is driven, the timer of its role runs, and no other. -/
theorem Driven.runs_iff (h : r.Driven) (timer : Timer) :
    (r.timers.deadline timer).isSome = true ↔ timer = r.node.role.timer := by
  revert timer
  show r.IsWound
  induction h with
  | start moment hr hstep =>
    refine isWound_start (fun timer => ?_) hstep
    rw [timers_of_create hr]
    cases timer <;> rfl
  | handle _ moment input ih => exact ih.handle moment input
  | @fire r timer deadline s _ moment hnext hs hstep ih =>
    have htimer : timer = r.node.role.timer := (ih timer).1 (TimerSet.runs_of_next? hnext)
    unfold fire? at hs
    rw [hnext] at hs
    simp only at hs
    split at hs
    next =>
      obtain rfl := Option.some.inj hs
      subst htimer
      refine isWound_handle_timeout (r := { r with timers := r.timers.cancel r.node.role.timer })
        moment (fun other hruns => ?_) hstep
      change (r.timers.cancel r.node.role.timer).runs other = true at hruns
      rw [TimerSet.runs_cancel, Effect.wind] at hruns
      split at hruns
      next => cases hruns
      next => exact (ih other).1 hruns
    next => cases hs

/-- A replica that is a cluster of its own. -/
def lone : Replica Defective where
  options := { membersToFind := 1 }
  node := .fresh ⟨1⟩ { membersToFind := 1 }
  state := .defective

/-- It finds itself at once and is elected when its timer runs out, all in one step. -/
theorem Driven.runs_iff_lone : ∃ s, (lone.start ⟨0, 0⟩).replica.fire? ⟨2000, 0⟩ = some s ∧
    s.replica.Driven ∧ s.replica.node.role = .leader ∧
    ∀ timer, (s.replica.timers.deadline timer).isSome = true ↔ timer = .heartbeat := by
  have hcreate : create { membersToFind := 1 } none Defective.defective = .ok lone := rfl
  have hstart : (lone.start ⟨0, 0⟩).replica.Driven := .start ⟨0, 0⟩ hcreate fun _ => ⟨_, rfl⟩
  have hnext : (lone.start ⟨0, 0⟩).replica.timers.next? = some (.election, 2000) := by
    decide +kernel
  obtain ⟨s, hs⟩ : ∃ s, (lone.start ⟨0, 0⟩).replica.fire? ⟨2000, 0⟩ = some s := ⟨_, rfl⟩
  have hdriven : s.replica.Driven := .fire hstart ⟨2000, 0⟩ hnext hs ⟨_, rfl⟩
  have hrole : s.replica.node.role = .leader := by
    obtain rfl := Option.some.inj hs
    decide +kernel
  refine ⟨s, hs, hdriven, hrole, fun timer => ?_⟩
  have := hdriven.runs_iff timer
  rwa [hrole] at this

end Replica

end Raft
