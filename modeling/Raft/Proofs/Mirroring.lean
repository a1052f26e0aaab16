import Raft.Proofs.Applying
import Raft.Proofs.Contracts
import Raft.Proofs.Serving
import Raft.Proofs.Timers

/-!
# The commands kept follow the commit index

The commands that a replica keeps are those of its last snapshot and then those that have been
committed since then, in the order of the log. `Log.onward` says how the commands that should be
kept change from one log of a node to a later one, from the two logs alone.

* `Log.payloads`, the commands between two positions, and `Log.Shows`, what is committed behind a
  position;
* `Relays`, what a transition asks of the application apart from captures, and `relays_of_step`,
  every transition does so;
* `Replica.Course`, a replica from its creation on, and `Replica.Course.applied_eq_expected`, what
  it keeps at any moment.

A replica is created with the commands of its snapshot only. So the commands that are live and
committed in the log that it is created with are missing for good:
`Replica.Course.applied_resumed`.
-/

namespace Raft

/-! ### Commands in a log -/

namespace Log

variable {log : Log} {low : Nat} {cs : List Bytes}

/-- The commands for the application among the live entries after position `low` up to position
`high`. -/
def payloads (log : Log) (low high : Nat) : List Bytes :=
  (log.slice low high).filterMap Recorder.payload?

theorem payloads_self (log : Log) (k : Nat) : log.payloads k k = [] := by
  rw [payloads, Turn.slice_self]
  rfl

theorem payloads_append_of_lt {e : Entry} {high : Nat} (h : high < e.index) (low : Nat) :
    (log.append e).payloads low high = log.payloads low high := by
  have hnone : [e].filter (fun e => low < e.index ∧ e.index ≤ high) = [] := by
    simp only [List.filter_eq_nil_iff, List.mem_singleton, decide_eq_true_eq]
    rintro f rfl
    omega
  rw [payloads, slice, append, List.filter_append, hnone, List.append_nil]
  rfl

/-- Where the entries are in order, what stands between two positions can be cut at any position
between them. -/
theorem filter_eq_append {l : List Entry} (h : l.Pairwise fun e f => e.index < f.index)
    {a b c : Nat} (hab : a ≤ b) (hbc : b ≤ c) : l.filter (fun e => a < e.index ∧ e.index ≤ c) =
      l.filter (fun e => a < e.index ∧ e.index ≤ b) ++
        l.filter (fun e => b < e.index ∧ e.index ≤ c) := by
  induction l with
  | nil => rfl
  | cons e rest ih =>
    obtain ⟨he, hrest⟩ := List.pairwise_cons.1 h
    rcases Nat.lt_or_ge b e.index with hbe | hbe
    · have hnone : (e :: rest).filter (fun e => a < e.index ∧ e.index ≤ b) = [] := by
        simp only [List.filter_eq_nil_iff, decide_eq_true_eq]
        intro f hf
        rcases List.mem_cons.1 hf with rfl | hf
        · omega
        · have := he f hf
          omega
      rw [hnone, List.nil_append]
      refine List.filter_congr fun f hf => ?_
      have hbf : b < f.index := by
        rcases List.mem_cons.1 hf with rfl | hf
        · exact hbe
        · have := he f hf
          omega
      simp only [decide_eq_decide]
      omega
    · have hec : ¬ (b < e.index ∧ e.index ≤ c) := by omega
      have hiff : (a < e.index ∧ e.index ≤ c) ↔ (a < e.index ∧ e.index ≤ b) := by omega
      simp only [List.filter_cons, hec, hiff, ih hrest]
      split <;> rfl

theorem Contiguous.payloads_eq_append (h : log.Contiguous) {a b c : Nat} (hab : a ≤ b)
    (hbc : b ≤ c) : log.payloads a c = log.payloads a b ++ log.payloads b c := by
  rw [payloads, slice, filter_eq_append h.pairwise_index hab hbc, List.filterMap_append]
  rfl

/-- The commands that are committed behind position `low` are `cs`. -/
structure Shows (log : Log) (low : Nat) (cs : List Bytes) : Prop where
  le : low ≤ log.committed
  /-- What is committed behind `low` is in the log. -/
  within : log.committed ≤ max low log.lastIndex
  payloads : log.payloads low log.committed = cs

theorem shows_self (log : Log) : log.Shows log.committed [] :=
  ⟨Nat.le_refl _, Nat.le_max_left .., payloads_self ..⟩

/-- An entry at the end is behind all that is committed. -/
theorem Shows.append (h : log.Shows low cs) {e : Entry} (he : e.index = log.nextIndex) :
    (log.append e).Shows low cs := by
  have hlast : log.lastIndex < e.index := he ▸ Nat.lt_succ_self _
  have hwithin := h.within
  refine ⟨h.le, ?_, ?_⟩
  · show log.committed ≤ _
    rw [lastIndex_append]
    omega
  · show (log.append e).payloads low log.committed = cs
    rcases Nat.lt_or_ge log.lastIndex log.committed with hlt | hge
    · obtain rfl : low = log.committed := by
        have hle := h.le
        omega
      rw [payloads_self, ← h.payloads, payloads_self]
    · rw [payloads_append_of_lt (by omega), h.payloads]

theorem Shows.commit (h : log.Shows low cs) (hlog : log.Contiguous) (j : Nat) :
    (log.commit j).Shows low
      (cs ++ (log.commit j).payloads log.committed (log.commit j).committed) := by
  have hle : log.committed ≤ (log.commit j).committed := Nat.le_max_left ..
  have hwithin := h.within
  refine ⟨Nat.le_trans h.le hle, ?_, ?_⟩
  · show max log.committed (min j log.lastIndex) ≤ max low log.lastIndex
    omega
  · rw [(hlog.commit j).payloads_eq_append h.le hle, ← h.payloads]
    rfl

end Log

/-! ### Orders -/

/-- Captures do not matter for the state of an application. -/
theorem serveAll_filter_capture {σ : Type} [StateMachine σ] (s : σ) (ds : List Demand) :
    (serveAll s (ds.filter (· ≠ .capture))).1 = (serveAll s ds).1 := by
  induction ds generalizing s with
  | nil => rfl
  | cons d rest ih =>
    by_cases hd : d = .capture
    · subst hd
      rw [List.filter_cons_of_neg (by simp), serveAll_cons, serve_capture_fst]
      exact ih s
    · rw [List.filter_cons_of_pos (by simpa using hd), serveAll_cons, serveAll_cons, ih]

namespace Effect

/-- What some effects ask of the application, apart from captures. -/
def orders (es : List Effect) : List Demand := (es.filterMap demand?).filter (· ≠ .capture)

theorem orders_append (es fs : List Effect) : orders (es ++ fs) = orders es ++ orders fs := by
  rw [orders, List.filterMap_append, List.filter_append]
  rfl

theorem isOnState_of_demand? {e : Effect} {d : Demand} (h : e.demand? = some d) :
    e.isOnState = true := by
  cases e with
  | apply | restore | prepareSnapshot => rfl
  | _ => cases h

/-- Only the effects on the application ask it for anything. -/
theorem orders_filter_isOnState (es : List Effect) : orders (es.filter isOnState) = orders es := by
  rw [orders, List.filterMap_filter, orders]
  congr 2
  funext e
  split
  next => rfl
  next he =>
    refine Option.eq_none_iff_forall_ne_some.2 (fun d hd => ?_) |>.symm
    exact he (isOnState_of_demand? hd)

theorem orders_applied (l : List Entry) (respond : Bool) :
    orders (l.filterMap (·.applied? respond)) = (l.filterMap Recorder.payload?).map .apply := by
  rw [orders, List.filterMap_filterMap, List.filter_filterMap, List.map_filterMap]
  congr 1
  funext e
  cases hc : e.command <;> simp [Entry.applied?, Recorder.payload?, demand?, hc]

end Effect

namespace Turn

variable {i j : Input} {t u v : Turn} {es : List Effect} {ss : List Stage} {low : Nat}
  {cs : List Bytes}

theorem CapturesAt.orders_eq_nil {log : Log} {captures : List Effect}
    (h : CapturesAt log captures) : Effect.orders captures = [] := by
  rcases h with rfl | ⟨about, rfl, -⟩ <;> rfl

theorem Calm.orders_eq_nil (h : Calm i t u) (hes : u.effects = t.effects ++ es) :
    Effect.orders es = [] := by
  have hnone : es.filter Effect.isOnState = [] :=
    filter_of_asked hes (h.asked_eq.trans (List.append_nil _).symm)
  rw [← Effect.orders_filter_isOnState, hnone]
  rfl

/-- Committing gives the application the commands that come to be committed. -/
theorem Serves.shows (h : v.Serves u) (hasked : v.asked = t.asked)
    (hes : u.effects = t.effects ++ es) (hlog : v.node.log.Contiguous)
    (hshows : v.node.log.Shows low cs) : ∃ ds, u.node.log.Shows low (cs ++ ds) ∧
      u.node.log.snapshot = v.node.log.snapshot ∧ Effect.orders es = ds.map .apply := by
  obtain ⟨j, respond, captures, hcommit, hcaptures, heffects⟩ := h
  refine ⟨u.node.log.payloads v.node.log.committed u.node.log.committed, ?_, ?_, ?_⟩
  · rw [hcommit]
    exact hshows.commit hlog j
  · rw [hcommit]
    rfl
  · have hslice : v.node.log.slice v.node.log.committed u.node.log.committed =
        u.node.log.slice v.node.log.committed u.node.log.committed := by
      rw [hcommit]
      rfl
    rw [← Effect.orders_filter_isOnState, filter_of_asked hes (hasked ▸ heffects),
      Effect.orders_append, hcaptures.orders_eq_nil, List.append_nil, Effect.orders_applied, hslice]
    rfl

/-- An input that the node has raised itself gives the application what comes to be committed, too.
-/
theorem Amends.shows_of_isOwn (h : Amends i t u) (hi : i.IsOwn) (hes : u.effects = t.effects ++ es)
    (hlog : t.node.log.Contiguous) (hshows : t.node.log.Shows low cs) :
    ∃ ds, u.node.log.Shows low (cs ++ ds) ∧ u.node.log.snapshot = t.node.log.snapshot ∧
      Effect.orders es = ds.map .apply := by
  obtain ⟨v, hv, hasked, hserves⟩ := h.serves_of_isOwn hi
  rcases hv with hv | ⟨e, hindex, hv⟩
  · obtain ⟨ds, hds, hsnapshot, horders⟩ := hserves.shows hasked hes (hv ▸ hlog) (hv ▸ hshows)
    exact ⟨ds, hds, hsnapshot.trans (congrArg Log.snapshot hv), horders⟩
  · obtain ⟨ds, hds, hsnapshot, horders⟩ := hserves.shows hasked hes (hv ▸ hlog.append hindex)
      (hv ▸ hshows.append hindex)
    exact ⟨ds, hds, hsnapshot.trans (hv ▸ rfl), horders⟩

/-- What the node raises itself shows more and more of the same log, and no snapshot is installed on
the way. -/
theorem Thread.shows_of_isOwn (h : Thread i t ss v) (hi : i.IsOwn) (hlog : t.node.log.Anchored)
    (hshows : t.node.log.Shows low cs) :
    ∃ ds, v.node.log.Shows low (cs ++ ds) ∧ v.node.log.snapshot = t.node.log.snapshot ∧
      Effect.orders (ss.flatMap (·.effects)) = ds.map .apply := by
  induction h generalizing cs with
  | last _ hu hes =>
    obtain ⟨ds, hds, hsnapshot, horders⟩ :=
      (amends_dispatch hu).1.shows_of_isOwn hi hes hlog.contiguous hshows
    exact ⟨ds, hds, hsnapshot, by simpa using horders⟩
  | @next i j t u v es ss _ hu hes _ hj _ ih =>
    obtain ⟨ds, hds, hsnapshot, horders⟩ :=
      (amends_dispatch hu).1.shows_of_isOwn hi hes hlog.contiguous hshows
    have hlog' := anchored_dispatch hu hlog
    obtain ⟨ds', hds', hsnapshot', horders'⟩ := ih (isOwn_of_link hj hi) hlog' hds
    refine ⟨ds ++ ds', by rwa [← List.append_assoc], hsnapshot'.trans hsnapshot, ?_⟩
    rw [List.flatMap_cons, Effect.orders_append, horders, horders', List.map_append]

end Turn

/-! ### Transitions -/

/-- What is ordered of the application while a log becomes another one: to apply the commands that
come to be committed, or to be restored from a snapshot that is ahead and then to apply what is
committed behind it. -/
inductive Relays (log log' : Log) (ds : List Demand) : Prop
  | commit {cs : List Bytes} (hprev : log'.prevIndex ≤ log.committed)
    (hshows : log'.Shows log.committed cs) (hds : ds = cs.map .apply)
  | install {s : Snapshot} {cs : List Bytes} (hlt : log.committed < s.about.index)
    (hsnapshot : log'.snapshot = some s) (hshows : log'.Shows s.about.index cs)
    (hds : ds = .restore s.data :: cs.map .apply)

theorem Log.prevIndex_of_snapshot {log log' : Log} (h : log'.snapshot = log.snapshot) :
    log'.prevIndex = log.prevIndex := by
  rw [prevIndex, prevIndex, h]

/-- Whatever is committed afterwards comes behind. -/
theorem Relays.trans {log log' log'' : Log} {ds es : List Demand} (h : Relays log log' ds)
    (h' : ∀ low cs, log'.Shows low cs → ∃ cs', log''.Shows low (cs ++ cs') ∧
      log''.snapshot = log'.snapshot ∧ es = cs'.map .apply) : Relays log log'' (ds ++ es) := by
  cases h with
  | commit hprev hshows hds =>
    obtain ⟨cs', hshows', hsnapshot, rfl⟩ := h' _ _ hshows
    refine .commit (Log.prevIndex_of_snapshot hsnapshot ▸ hprev) hshows' ?_
    rw [hds, List.map_append]
  | install hlt hsnap hshows hds =>
    obtain ⟨cs', hshows', hsnapshot, rfl⟩ := h' _ _ hshows
    refine .install hlt (hsnapshot.trans hsnap) hshows' ?_
    rw [hds, List.cons_append, List.map_append]

namespace Turn

variable {i : Input} {t u v : Turn} {es : List Effect} {ss : List Stage}

theorem Basis.prevIndex_eq {n m : Node} {log : Log} (h : Basis i n m log) :
    log.prevIndex = n.log.prevIndex := by
  cases h with
  | same => rfl
  | append => rfl
  | merge => exact Log.prevIndex_merge ..

/-- A log that is compacted has the snapshot or one that covers as much. -/
theorem prevIndex_compact_le {log : Log} {s : Snapshot} {k : Nat} (hlog : log.prevIndex ≤ k)
    (hs : s.about.index ≤ k) : (log.compact s).prevIndex ≤ k := by
  unfold Log.compact
  split
  next => exact hlog
  next => exact hs

theorem Basis.contiguous {n m : Node} {log : Log} (h : Basis i n m log) (hn : n.log.Contiguous) :
    log.Contiguous := by
  cases h with
  | same => exact hn
  | append hindex => exact hn.append hindex
  | merge => exact hn.merge _ _

theorem Amends.relays (h : Amends i t u) (hes : u.effects = t.effects ++ es)
    (hlog : t.node.log.Anchored)
    (hi : ∀ s, i = .snapshotPrepared (some s) → s.about.index ≤ t.node.log.committed) :
    Relays t.node.log u.node.log (Effect.orders es) := by
  cases h with
  | @serve v hbasis hasked hserves =>
    have hself := hbasis.committed_eq ▸ v.node.log.shows_self
    obtain ⟨ds, hds, hsnapshot, horders⟩ :=
      hserves.shows hasked hes (hbasis.contiguous hlog.contiguous) hself
    refine .commit ?_ hds horders
    rw [Log.prevIndex_of_snapshot hsnapshot, hbasis.prevIndex_eq]
    exact hlog.prevIndex_le
  | @install _ _ _ s _ _ hs hcompact hasked =>
    have hcommitted : u.node.log.committed = s.about.index := by
      rw [hcompact]
      exact Log.committed_compact_of_lt hlog.prevIndex_le hs
    have hsnapshot : u.node.log.snapshot = some s := by
      have hle := hlog.prevIndex_le
      rw [hcompact, Log.compact, if_neg (by omega)]
    refine .install hs hsnapshot (hcommitted ▸ u.node.log.shows_self) ?_
    rw [← Effect.orders_filter_isOnState, filter_of_asked hes hasked]
    rfl
  | @compact s hprepared hcompact hasked =>
    have hs := hi s hprepared
    have hcommitted : u.node.log.committed = t.node.log.committed := by
      rw [hcompact]
      exact Log.committed_compact hs
    refine .commit ?_ (hcommitted ▸ u.node.log.shows_self) ?_
    · rw [hcompact]
      exact prevIndex_compact_le hlog.prevIndex_le hs
    · have hnone : u.asked = t.asked ++ [] := by rw [hasked, List.append_nil]
      rw [← Effect.orders_filter_isOnState, filter_of_asked hes hnone]
      rfl

/-- What follows from an input passes on what it commits or installs: nothing has been done when the
input is considered again, and whatever else follows is raised by the node itself. -/
theorem Thread.relays (h : Thread i t ss v) (hlog : t.node.log.Anchored)
    (hi : ∀ s, i = .snapshotPrepared (some s) → s.about.index ≤ t.node.log.committed) :
    Relays t.node.log v.node.log (Effect.orders (ss.flatMap (·.effects))) := by
  induction h with
  | last _ hu hes => simpa using (amends_dispatch hu).1.relays hes hlog hi
  | @next i j t u v es ss _ hu hes _ hj hrest ih =>
    have hlog' := anchored_dispatch hu hlog
    rw [List.flatMap_cons, Effect.orders_append]
    rcases hj with ⟨rfl, -, hcalm⟩ | hraised
    · have hlog : u.node.log = t.node.log := hcalm.retains.log
      rw [hcalm.orders_eq_nil hes, List.nil_append, ← hlog]
      exact ih hlog' (hlog ▸ hi)
    · refine ((amends_dispatch hu).1.relays hes hlog hi).trans fun low cs hshows => ?_
      exact hrest.shows_of_isOwn hraised.isOwn hlog' hshows

end Turn

variable {n m : Node} {i : Input} {es : List Effect}

/-- Every transition passes on what it commits or installs, provided that a snapshot that the node
is handed covers no more than what is committed already. -/
theorem relays_of_step (h : step n i = .ok (m, es)) (hlog : n.log.Anchored)
    (hi : ∀ s, i = .snapshotPrepared (some s) → s.about.index ≤ n.log.committed) :
    Relays n.log m.log (Effect.orders es) := by
  obtain ⟨u, rfl, -, hthread⟩ := thread_of_step h
  rw [effects_of_step h]
  exact hthread.relays hlog hi

/-! ### What should be kept -/

namespace Log

/-- The commands in the snapshot, or `kept` if there is none that can be read. -/
def base (log : Log) (kept : List Bytes) : List Bytes :=
  match log.snapshot.bind fun s => Recorder.ofCapture? s.data with
  | some r => r.applied
  | none => kept

/-- The commands that should be kept at the log `log'`, when `kept` are those that should be at the
earlier log `log` of the same node. They are followed by those that have come to be committed. A
snapshot that covers more than what was committed replaces them. -/
def onward (log log' : Log) (kept : List Bytes) : List Bytes :=
  if log.committed < log'.prevIndex then
    log'.base kept ++ log'.payloads log'.prevIndex log'.committed
  else kept ++ log'.payloads log.committed log'.committed

theorem onward_self {log : Log} (h : log.prevIndex ≤ log.committed) (kept : List Bytes) :
    log.onward log kept = kept := by
  rw [onward, if_neg (by omega), payloads_self, List.append_nil]

end Log

theorem Relays.applied_eq {log log' : Log} {ds : List Demand} (h : Relays log log' ds)
    (r : Recorder) : (serveAll r ds).1.applied = log.onward log' r.applied := by
  cases h with
  | commit hprev hshows hds =>
    rw [hds, Recorder.serveAll_apply, Log.onward, if_neg (by omega), hshows.payloads]
  | @install s cs hlt hsnapshot hshows hds =>
    have hprev : log'.prevIndex = s.about.index := by rw [Log.prevIndex, hsnapshot]
    have hbase : (serve r (.restore s.data)).1.applied = log'.base r.applied := by
      rw [Log.base, hsnapshot, Option.bind_some]
      simp only [serve, StateMachine.restore]
      cases Recorder.ofCapture? s.data <;> rfl
    rw [hds, serveAll_cons, Recorder.serveAll_apply, hbase, Log.onward, if_pos (hprev ▸ hlt), hprev,
      hshows.payloads]

/-! ### Replicas -/

namespace Replica

variable {r : Replica Recorder}

/-- The replica after a transition keeps what it should. -/
structure Follows (r : Replica Recorder) (s : Stir Recorder) : Prop where
  anchored : s.replica.node.log.Anchored
  applied : s.replica.state.applied = r.node.log.onward s.replica.node.log r.state.applied

theorem follows_self (h : r.node.log.Anchored) : r.Follows { replica := r } :=
  ⟨h, (Log.onward_self h.prevIndex_le _).symm⟩

/-- Every input that is handled, provided that the replica is handed no snapshot of more than it has
committed. -/
theorem follows_handle (hlog : r.node.log.Anchored) {i : Input}
    (hi : ∀ s, i = .snapshotPrepared (some s) → s.about.index ≤ r.node.log.committed)
    (moment : Moment) : r.Follows (r.handle moment i) := by
  unfold handle
  cases hstep : step r.node i with
  | error => exact follows_self hlog
  | ok x =>
    obtain ⟨m, es⟩ := x
    have hnode := (Stir.runs_foldl_execute moment es { replica := { r with node := m } }).1
    have hstate := Stir.state_foldl_execute moment es { replica := { r with node := m } }
    constructor
    case anchored =>
      rw [hnode]
      exact step_keeps (·.log.Anchored) (fun _ => True) hstep hlog trivial
        fun hn _ a => ⟨a.anchored hn, fun _ _ => trivial⟩
    case applied =>
      rw [hnode, hstate, ← serveAll_filter_capture]
      exact (relays_of_step hstep hlog hi).applied_eq _

/-- What comes of an event: an input, or, for `none`, a timer that may have run out. -/
def meet (r : Replica Recorder) : Moment × Option Input → Stir Recorder
  | (moment, some i) => r.handle moment i
  | (moment, none) => (r.fire? moment).getD { replica := r }

theorem follows_meet (hlog : r.node.log.Anchored) {e : Moment × Option Input}
    (he : ∀ moment s, e = (moment, some (.snapshotPrepared (some s))) →
      s.about.index ≤ r.node.log.committed) : r.Follows (r.meet e) := by
  obtain ⟨moment, i⟩ := e
  cases i with
  | some i => exact follows_handle hlog (fun s hs => he moment s (by rw [hs])) moment
  | none =>
    simp only [meet, fire?]
    split
    next timer deadline _ =>
      split
      next =>
        have h := follows_handle (r := { r with timers := r.timers.cancel timer })
          (i := .timeout timer)
          hlog nofun moment
        exact ⟨h.anchored, h.applied⟩
      next => exact follows_self hlog
    next => exact follows_self hlog

/-- A replica from its creation on, from a node whose log is well-formed: when it starts, and what
happens to it then. -/
structure Course where
  options : Options
  node : Node
  replica : Replica Recorder
  created : create options (some node) {} = .ok replica
  wellFormed : node.log.WellFormed
  moment : Moment
  events : List (Moment × Option Input)

theorem eq_of_create {o : Options} {n : Node} {state : Recorder}
    (h : create o (some n) state = .ok r) : r = { options := o, node := n, state } := by
  unfold create at h
  cases hcheck : o.check with
  | error e =>
    rw [hcheck] at h
    cases h
  | ok =>
    rw [hcheck] at h
    simp only [bind, Except.bind, Option.getD_some] at h
    split at h
    next => exact (Except.ok.inj h).symm
    next => cases h

namespace Course

variable (c : Course)

/-- The replica after so many events. -/
def after (k : Nat) : Replica Recorder :=
  (c.events.take k).foldl (fun r e => (r.meet e).replica) (c.replica.start c.moment).replica

/-- The snapshots that the replica is handed before moment `k` cover no more than it has committed
by then. -/
def Covered (k : Nat) : Prop :=
  ∀ j < k, ∀ moment s, c.events[j]? = some (moment, some (.snapshotPrepared (some s))) →
    s.about.index ≤ (c.after j).node.log.committed

/-- The commands that should be kept at moment `k`: to begin with those in the snapshot and those
that are committed behind it, and then what the log makes of them. -/
def expected : Nat → List Bytes
  | 0 =>
    c.node.log.onward (c.after 0).node.log
      (c.node.log.base [] ++ c.node.log.payloads c.node.log.prevIndex c.node.log.committed)
  | k + 1 => (c.after k).node.log.onward (c.after (k + 1)).node.log (expected k)

theorem Covered.mono {c : Course} {j k : Nat} (h : c.Covered k) (hjk : j ≤ k) : c.Covered j :=
  fun x hx => h x (Nat.lt_of_lt_of_le hx hjk)

/-- The replica when its snapshot has been restored. -/
def restored : Replica Recorder :=
  { options := c.options, node := c.node, state := ⟨c.node.log.base []⟩ }

/-- A replica begins with the commands in its snapshot. -/
theorem follows_start : c.restored.Follows (c.replica.start c.moment) := by
  have hlog : c.restored.node.log.Anchored := c.wellFormed.isAnchored
  unfold start
  extract_lets r
  have hr : r = c.restored := by
    unfold r
    rw [eq_of_create c.created, restored, Log.base]
    simp only
    cases c.node.log.snapshot with
    | none => rfl
    | some s =>
      simp only [restore, StateMachine.restore, Option.bind_some]
      cases Recorder.ofCapture? s.data <;> rfl
  clear_value r
  subst hr
  cases hrole : c.restored.node.role with
  | init => exact follows_handle (i := .timeout .discovery) hlog nofun c.moment
  | follower | candidate | leader =>
    have hself := follows_self hlog
    exact ⟨hself.anchored, hself.applied⟩

theorem after_succ (k : Nat) : (c.events[k]? = none ∧ c.after (k + 1) = c.after k) ∨
    ∃ e, c.events[k]? = some e ∧ c.after (k + 1) = ((c.after k).meet e).replica := by
  unfold after
  rw [List.take_add_one, List.foldl_append]
  cases hevent : c.events[k]? with
  | none => exact .inl ⟨rfl, rfl⟩
  | some e => exact .inr ⟨e, rfl, rfl⟩

/-- From one moment to the next. -/
theorem follows_after {k : Nat} (h : c.Covered (k + 1)) (hlog : (c.after k).node.log.Anchored) :
    ∃ s, (c.after k).Follows s ∧ s.replica = c.after (k + 1) := by
  rcases c.after_succ k with ⟨-, hafter⟩ | ⟨e, hevent, hafter⟩
  · exact ⟨_, follows_self hlog, hafter.symm⟩
  · refine ⟨_, follows_meet hlog fun moment s hs => ?_, hafter.symm⟩
    exact h k (Nat.lt_succ_self k) moment s (by rw [hevent, hs])

theorem anchored_after {k : Nat} (h : c.Covered k) : (c.after k).node.log.Anchored := by
  induction k with
  | zero => exact c.follows_start.anchored
  | succ k ih =>
    obtain ⟨s, hs, heq⟩ := c.follows_after h (ih (h.mono (Nat.le_succ k)))
    exact heq ▸ hs.anchored

/-- What a replica keeps, at any moment: the commands of the snapshot that its node starts with, and
then whatever is committed, or in a snapshot that is installed, in the order of the log. This
supposes that no commands are live and committed already when the replica is created, and that the
replica is handed no snapshot of more than it has committed. -/
theorem applied_eq_expected {k : Nat} (h : c.Covered k)
    (hlive : c.node.log.payloads c.node.log.prevIndex c.node.log.committed = []) :
    (c.after k).state.applied = c.expected k := by
  induction k with
  | zero =>
    rw [expected, hlive, List.append_nil]
    exact c.follows_start.applied
  | succ k ih =>
    have hcovered := h.mono (Nat.le_succ k)
    obtain ⟨s, hs, heq⟩ := c.follows_after h (c.anchored_after hcovered)
    rw [expected, ← ih hcovered, ← heq]
    exact hs.applied

/-- A member of a cluster of three starts from a snapshot with two commands. Behind the snapshot it
has an empty entry that is committed and a command that is not. It is told that this command is
committed, has a capture made, is given a snapshot that is ahead, and then another command. -/
def eventful : Course where
  options := {}
  node :=
    { id := ⟨1⟩
      role := .follower
      standing := { term := 1, config := .stable 0 (.ofList [⟨1⟩, ⟨2⟩, ⟨3⟩]) }
      log :=
        { entries := [⟨1, 3, .noop, none⟩, ⟨1, 4, .application [3], some ⟨9⟩⟩]
          committed := 3
          snapshot := some ⟨⟨2, 1, .stable 0 (.ofList [⟨1⟩, ⟨2⟩, ⟨3⟩])⟩,
            Recorder.capture ⟨[[1], [2]]⟩⟩ } }
  replica := _
  created := rfl
  wellFormed := ⟨by decide, by decide, by decide⟩
  moment := { now := 0 }
  events :=
    [({ now := 1 }, some (.message ⟨2⟩ (.appendEntries ⟨2⟩ 1 1 4 [] 4))),
      ({ now := 2 }, some .compactLog),
      ({ now := 2 }, some (.snapshotPrepared (some
        ⟨⟨4, 1, .stable 0 (.ofList [⟨1⟩, ⟨2⟩, ⟨3⟩])⟩, Recorder.capture ⟨[[1], [2], [3]]⟩⟩))),
      ({ now := 3 }, some (.message ⟨2⟩ (.installSnapshot ⟨2⟩ 1
        ⟨⟨7, 1, .stable 0 (.ofList [⟨1⟩, ⟨2⟩, ⟨3⟩])⟩, Recorder.capture ⟨[[1], [2], [3], [4]]⟩⟩))),
      ({ now := 4 }, some (.message ⟨2⟩ (.appendEntries ⟨2⟩ 1 1 7
        [⟨1, 8, .application [5], some ⟨9⟩⟩] 8)))]

theorem applied_eq_expected_eventful :
    eventful.Covered 5 ∧
    (eventful.after 3).state.applied = [[1], [2], [3]] ∧
    (eventful.after 5).state.applied = [[1], [2], [3], [4], [5]] := by
  have hcovered : eventful.Covered 5 := by
    intro j hj moment s hs
    match j, hj with
    | 0, _ | 1, _ | 3, _ | 4, _ => cases hs
    | 2, _ =>
      cases hs
      decide +kernel
  have hlive : eventful.node.log.payloads eventful.node.log.prevIndex
      eventful.node.log.committed = [] := by decide +kernel
  refine ⟨hcovered, ?_, ?_⟩
  · rw [eventful.applied_eq_expected (hcovered.mono (by decide)) hlive]
    decide +kernel
  · rw [eventful.applied_eq_expected hcovered hlive]
    decide +kernel

/-- A node that was stopped after a command had been committed and is started again with the same
log. -/
def resumed : Course where
  options := {}
  node :=
    { id := ⟨1⟩
      role := .follower
      standing := { term := 1, config := .stable 0 (.ofList [⟨1⟩]) }
      log := { entries := [⟨1, 1, .application [7], some ⟨9⟩⟩], committed := 1 } }
  replica := _
  created := rfl
  wellFormed := ⟨by decide, by decide, by decide⟩
  moment := { now := 0 }
  events := []

/-- Its command is not given to the application again. -/
theorem applied_resumed :
    resumed.expected 0 = [[7]] ∧ (resumed.after 0).state.applied = [] := by decide +kernel

end Course

end Replica

end Raft
