import Raft.Proofs.Snapshots

/-!
# The application at each member

When an application can be restored from what was captured of it, its state at every member is
what comes of giving it committed entries, in order, from its initial state on, however much of them
came as a snapshot.

* `replay`, the state after some entries;
* `Snapshot.Faithful`, the data of a snapshot is the captured state after the committed entries
  that it covers;
* `Cluster.Replayed`, the invariant of runs, and `Run.exists_replay`, what it says in the end.
-/

namespace Raft

/-- An application that is restored from what was captured of it. -/
class LawfulStateMachine (σ : Type) [StateMachine σ] : Prop where
  restore_capture {s : σ} {data : Bytes} (h : StateMachine.capture s = .ok data) (s' : σ) :
    StateMachine.restore s' data = .ok s

variable {σ : Type} [StateMachine σ]

/-- The state after an entry is committed. -/
def give (s : σ) (e : Entry) : σ :=
  match e.command with
  | .application payload => (StateMachine.apply s payload).1
  | _ => s

/-- The state after some entries are committed. -/
def replay (s : σ) (l : List Entry) : σ := l.foldl give s

@[simp] theorem replay_nil (s : σ) : replay s [] = s := rfl

@[simp] theorem replay_cons (s : σ) (e : Entry) (l : List Entry) :
    replay s (e :: l) = replay (give s e) l := rfl

theorem replay_append (s : σ) (l m : List Entry) : replay s (l ++ m) = replay (replay s l) m :=
  List.foldl_append ..

theorem give_of_not_application {e : Entry} (he : ∀ payload, e.command ≠ .application payload)
    (s : σ) : give s e = s := by
  unfold give
  split
  next payload hp => exact absurd hp (he payload)
  next => rfl

/-- Entries that are not for the application. -/
def Silent (k : List Entry) : Prop := ∀ e ∈ k, ∀ payload, e.command ≠ .application payload

theorem replay_silent {k : List Entry} (hk : Silent k) (s : σ) : replay s k = s := by
  induction k with
  | nil => rfl
  | cons e rest ih =>
    rw [replay_cons, give_of_not_application (hk e (List.mem_cons_self ..))]
    exact ih fun f hf => hk f (List.mem_cons_of_mem _ hf)

/-! ### One effect of a journal -/

/-- What the first effect of a journal does, after some entries that are passed over. -/
def Effect.Gives (a : List Entry) (e : Effect) (a' : List Entry) : Prop :=
  match e with
  | .apply entry _ => a' = a ++ [entry]
  | .restore s => a'.length = s.about.index ∧ a <+: a'
  | .prepareSnapshot about => a' = a ∧ a.length = about.index
  | _ => a' = a

theorem Journal.cons_inv {a b : List Entry} {e : Effect} {es : List Effect}
    (h : Journal a (e :: es) b) :
    ∃ k a', Silent k ∧ e.Gives (a ++ k) a' ∧ Journal a' es b := by
  generalize hes : e :: es = fs at h
  induction h with
  | nil => cases hes
  | @outward a b f fs he h ih =>
    obtain ⟨rfl, rfl⟩ := List.cons.inj hes
    refine ⟨[], a, by simp [Silent], ?_, h⟩
    rw [List.append_nil]
    cases e <;> first | rfl | exact he.elim
  | @apply a b entry fs respond h ih =>
    obtain ⟨rfl, rfl⟩ := List.cons.inj hes
    exact ⟨[], a ++ [entry], by simp [Silent], by rw [List.append_nil]; rfl, h⟩
  | @skip a b entry fs he h ih =>
    obtain ⟨k, a', hk, hgives, h'⟩ := ih hes
    refine ⟨entry :: k, a', ?_, by rwa [List.append_assoc, List.singleton_append] at hgives, h'⟩
    intro f hf
    rcases List.mem_cons.1 hf with rfl | hf
    · exact he
    · exact hk f hf
  | @restore a m b s fs hlen hm h ih =>
    obtain ⟨rfl, rfl⟩ := List.cons.inj hes
    exact ⟨[], m, by simp [Silent], by rw [List.append_nil]; exact ⟨hlen, hm⟩, h⟩
  | @capture a b about fs hlen h ih =>
    obtain ⟨rfl, rfl⟩ := List.cons.inj hes
    exact ⟨[], a, by simp [Silent], by rw [List.append_nil]; exact ⟨rfl, hlen⟩, h⟩

theorem Journal.nil_inv {a b : List Entry} (h : Journal a [] b) : ∃ k, Silent k ∧ b = a ++ k := by
  generalize hes : [] = fs at h
  induction h with
  | nil => exact ⟨[], by simp [Silent], (List.append_nil _).symm⟩
  | skip he h ih =>
    obtain ⟨k, hk, rfl⟩ := ih hes
    refine ⟨_ :: k, ?_, List.append_assoc ..⟩
    intro f hf
    rcases List.mem_cons.1 hf with rfl | hf
    · exact he
    · exact hk f hf
  | outward | apply | restore | capture => cases hes

/-! ### Snapshots -/

/-- The data of a snapshot is the captured state after the committed entries that it covers. -/
def Snapshot.Faithful (s : Snapshot) (g : History) (members : PeerSet) (start : σ) : Prop :=
  ∃ t m, g.CommittedBy members t m ∧ m.length = s.about.index ∧
    StateMachine.capture (replay start m) = .ok s.data

variable {g g' : History} {members : PeerSet} {start : σ}

theorem Snapshot.Faithful.mono {s : Snapshot} (h : s.Faithful g members start) (hg : g ≤ g') :
    s.Faithful g' members start := by
  obtain ⟨t, m, hm, hrest⟩ := h
  exact ⟨t, m, hm.mono hg (Nat.le_refl _), hrest⟩

/-- Restoring a faithful snapshot is as good as having been given all entries that it covers. -/
theorem Snapshot.Faithful.restore_eq [LawfulStateMachine σ] {s : Snapshot}
    (h : s.Faithful g members start) (hg : g.Coherent members) {t : Nat} {a : List Entry}
    (ha : g.CommittedBy members t a) (hlen : a.length = s.about.index) (now : σ) :
    StateMachine.restore now s.data = .ok (replay start a) := by
  obtain ⟨u, m, hm, hmlen, hdata⟩ := h
  have heq : a = m := by
    rcases hg.prefix_or_prefix ha hm with hpre | hpre
    · exact hpre.eq_of_length (by rw [hlen, hmlen])
    · exact (hpre.eq_of_length (by rw [hlen, hmlen])).symm
  rw [heq]
  exact LawfulStateMachine.restore_capture hdata now

/-! ### Clusters -/

namespace Cluster

/-- Every member's application has been given a beginning of the member's committed entries, the
effects that wait give it the rest, and all snapshots are faithful. -/
structure Replayed (g : History) (sequence : Nat) (start : σ) (c : Cluster σ) : Prop where
  sound : c.Sound g sequence
  given : ∀ p ∈ c.members, ∃ a, c.state p = replay start a ∧
    Journal a (c.site p).backlog (c.commits g p)
  snapshots : c.Snapshots (·.Faithful g c.members start)

variable {sequence : Nat} {c : Cluster σ} {p : PeerId} {i : Input} {n : Node} {es : List Effect}

/-- A member has taken a transition. -/
theorem Replayed.put (h : c.Replayed g sequence start) (hp : p ∈ c.members) (hs : c.Settled p)
    (hi : i.Steady (.stable sequence c.members))
    (hf : i.Holds (fun _ => True) (·.Faithful g c.members start))
    (hstep : step (c.node p) i = .ok (n, es))
    (hpres : History.Preserved g g' c.members (c.node p).core es n.core) :
    (c.put p { c.site p with
      replica := { (c.site p).replica with node := n }, backlog := es }).Replayed g' sequence
        start := by
  have hsound := h.sound.put hp hi hstep hpres
  have hid : (c.node p).core.id = p := h.sound.id p hp
  have hext := hpres.extension
  rw [hid] at hext
  have hfaithful : ∀ s : Snapshot, s.Faithful g c.members start → s.Faithful g' c.members start :=
    fun s hs => hs.mono hext.le
  refine ⟨hsound, ?_, (h.snapshots.put hp (h.sound.moves hp hi hstep) hf).imp hfaithful⟩
  generalize hput : ({ c.site p with
    replica := { (c.site p).replica with node := n }, backlog := es } : Site σ) = s
  intro q hq
  by_cases hqp : q = p
  · subst hqp
    obtain ⟨a, ha, hj⟩ := h.given q hq
    rw [show (c.site q).backlog = [] from hs] at hj
    refine ⟨a, ?_, ?_⟩
    · rw [state, site_put_self, ← hput]
      exact ha
    · rw [commits, node_put_self, site_put_self, ← hput]
      exact hj.append hpres.journal
  · obtain ⟨a, ha, hj⟩ := h.given q hq
    refine ⟨a, by rwa [state, site_put_of_ne c s hqp], ?_⟩
    rw [commits, node_put_of_ne c s hqp, site_put_of_ne c s hqp]
    rwa [← h.sound.commits_of_extends hext hq hqp] at hj

/-- A member has been given an input. -/
theorem Replayed.accept (h : c.Replayed g sequence start) (hi : p ∈ c.members →
      i.Vouched g c.members p (c.commits g p) ∧ i.Steady (.stable sequence c.members))
    (hf : p ∈ c.members → i.Holds (fun _ => True) (·.Faithful g c.members start)) :
    ∃ g', g ≤ g' ∧ (c.accept p i).Replayed g' sequence start := by
  rcases c.accept_cases p i with heq | ⟨n, es, hp, hs, hstep, heq⟩
  · exact ⟨g, g.le_refl, heq.symm ▸ h⟩
  · obtain ⟨g', hpres⟩ := h.sound.preserved hp (hi hp) hstep
    exact ⟨g', hpres.extension.le, heq.symm ▸ h.put hp hs (hi hp).2 (hf hp) hstep hpres⟩

variable [LawfulStateMachine σ]

/-- Carrying out an effect does to the application what the journal says. -/
theorem state_execute {r : Replica σ} (moment : Moment) {e : Effect} {a a' : List Entry} {t : Nat}
    {members : PeerSet} (hg : g.Coherent members) (hgives : e.Gives a a')
    (ha : g.CommittedBy members t a') (hstate : r.state = replay start a)
    (hf : e.Holds (fun _ => True) (·.Faithful g members start)) :
    (Stir.execute moment { replica := r } e).replica.state = replay start a' := by
  cases e with
  | apply entry respond =>
    rw [show a' = a ++ [entry] from hgives, replay_append, ← hstate]
    show _ = give r.state entry
    cases hc : entry.command with
    | application payload =>
      simp only [Stir.execute, Stir.apply, give, hc]
      split <;> rfl
    | configuration | noop => simp only [Stir.execute, Stir.apply, give, hc]
  | restore s =>
    obtain ⟨hlen, -⟩ := hgives
    have := Snapshot.Faithful.restore_eq hf hg ha hlen r.state
    simp only [Stir.execute, Replica.restore, this]
  | prepareSnapshot about =>
    obtain ⟨rfl, -⟩ := hgives
    rw [← hstate]
    simp only [Stir.execute, Stir.capture]
    split <;> rfl
  | send | forward | arm | cancel =>
    obtain rfl : a' = a := hgives
    exact hstate

/-- A member has carried out an effect. -/
theorem Replayed.carryOut (h : c.Replayed g sequence start) (p : PeerId) (moment : Moment) :
    (c.carryOut p moment).Replayed g sequence start := by
  have hsound := h.sound.carryOut p moment
  cases hb : (c.site p).backlog with
  | nil => rwa [carryOut_of_nil moment hb]
  | cons e rest =>
    have he : e ∈ (c.site p).backlog := by
      rw [hb]
      exact List.mem_cons_self ..
    have hp : p ∈ c.members := h.sound.mem_of_backlog he
    have hfaithful := h.snapshots.carried.backlog p hp e he
    have hself := site_carryOut_self moment hb
    -- what is given next is committed, so a snapshot can only stand for just that
    obtain ⟨a, hstate, hj⟩ := h.given p hp
    rw [hb] at hj
    obtain ⟨k, a', hk, hgives, hj'⟩ := hj.cons_inv
    rw [← replay_silent hk (replay start a), ← replay_append] at hstate
    have hcommitted := (h.sound.describes p hp).committed.of_isPrefix hj'.isPrefix
    have hstate' := state_execute moment h.sound.coherent hgives hcommitted hstate hfaithful
    constructor
    · exact hsound
    · intro q hq
      rw [members_carryOut] at hq
      rw [commits_carryOut]
      by_cases hqp : q = p
      · subst hqp
        refine ⟨a', ?_, ?_⟩
        · rw [state, hself]
          exact hstate'
        · rwa [hself]
      · rw [state, site_carryOut_of_ne c moment hqp]
        exact h.given q hq
    · rw [members_carryOut]
      refine h.snapshots.carryOut h.sound p moment ?_
      intro _ about data rest' hb' hdata
      obtain ⟨rfl, -⟩ := List.cons.inj (hb.symm.trans hb')
      obtain ⟨rfl, hlen⟩ := hgives
      rw [hstate] at hdata
      exact ⟨_, _, hcommitted, hlen, hdata⟩

theorem Replayed.happen (h : c.Replayed g sequence start) {e : Event} (he : e.IsOrdinary) :
    ∃ g', g ≤ g' ∧ (c.happen e).Replayed g' sequence start := by
  rcases c.happen_cases e with ⟨p, moment, heq⟩ | ⟨p, i, hi, heq⟩ | heq
  · exact ⟨g, g.le_refl, heq ▸ h.carryOut p moment⟩
  · rw [heq]
    exact h.accept (h.sound.input he hi) (h.snapshots.input he hi)
  · exact ⟨g, g.le_refl, heq.symm ▸ h⟩

end Cluster

/-! ### Runs -/

/-- What a history says of a member's application at some moment, also when the history has gone on.
-/
def History.Accounts (g : History) (members : PeerSet) (start : σ) (s : Site σ) : Prop :=
  ∃ t a b, s.replica.state = replay start a ∧ Journal a s.backlog b ∧ g.CommittedBy members t b ∧
    b.length = s.replica.node.log.committed

theorem History.Accounts.mono {s : Site σ} (h : g.Accounts members start s) (hg : g ≤ g') :
    g'.Accounts members start s := by
  obtain ⟨t, a, b, ha, hj, hb, hlen⟩ := h
  exact ⟨t, a, b, ha, hj, hb.mono hg (Nat.le_refl _), hlen⟩

theorem Cluster.Replayed.accounts {sequence : Nat} {c : Cluster σ} {p : PeerId}
    (h : c.Replayed g sequence start) (hp : p ∈ c.members) :
    g.Accounts c.members start (c.site p) := by
  obtain ⟨a, hstate, hj⟩ := h.given p hp
  have hx := h.sound.describes p hp
  exact ⟨_, a, _, hstate, hj, hx.committed, hx.length_commits⟩

namespace Run

variable (r : Run σ)

theorem replayed_start : r.start.Replayed .empty r.sequence r.initial where
  sound := r.sound_start
  given _ _ := ⟨[], rfl, .nil _⟩
  snapshots := r.snapshots_start _

variable [LawfulStateMachine σ]

/-- One history accounts for every application at every moment so far. -/
theorem exists_account (k : Nat) : ∃ g, (r.after k).Replayed g r.sequence r.initial ∧
    ∀ p ∈ r.members, ∀ i ≤ k, g.Accounts r.members r.initial ((r.after i).site p) := by
  obtain ⟨g, hg, haccounts⟩ := r.exists_throughout
    (P := fun g c => c.Replayed g r.sequence r.initial)
    (Q := fun g c => ∀ p ∈ c.members, g.Accounts c.members r.initial (c.site p))
    r.replayed_start (fun h he => h.happen he) (fun h p hp => h.accounts hp)
    (fun h hle p hp => (h p hp).mono hle) k
  refine ⟨g, hg, fun p hp i hi => ?_⟩
  have := haccounts i hi p (by rwa [members_after])
  rwa [members_after] at this

/-- At any two moments, the states of any two members come of giving lists of entries to the
initial state one of which is the beginning of the other. They are the same if the commit indices
are and nothing is left to be carried out. -/
theorem exists_replay {p q : PeerId} (hp : p ∈ r.members) (hq : q ∈ r.members) (i j : Nat) :
    ∃ l m, (r.after i).state p = replay r.initial l ∧ (r.after j).state q = replay r.initial m ∧
      (l <+: m ∨ m <+: l) ∧
      ((r.after i).Settled p → (r.after j).Settled q →
        ((r.after i).log p).committed = ((r.after j).log q).committed →
        (r.after i).state p = (r.after j).state q) := by
  obtain ⟨g, hg, hacc⟩ := r.exists_account (max i j)
  obtain ⟨t, a, b, ha, hab, hb, hlen⟩ := hacc p hp i (Nat.le_max_left ..)
  obtain ⟨t', a', b', ha', hab', hb', hlen'⟩ := hacc q hq j (Nat.le_max_right ..)
  have hcoherent := hg.sound.coherent
  rw [members_after] at hcoherent
  have hcomparable := hcoherent.prefix_or_prefix hb hb'
  refine ⟨a, a', ha, ha', ?_, fun hs hs' hcommitted => ?_⟩
  · rcases hcomparable with h | h
    · exact List.prefix_or_prefix_of_prefix (hab.isPrefix.trans h) hab'.isPrefix
    · exact List.prefix_or_prefix_of_prefix hab.isPrefix (hab'.isPrefix.trans h)
  · rw [show ((r.after i).site p).backlog = [] from hs] at hab
    rw [show ((r.after j).site q).backlog = [] from hs'] at hab'
    -- what has not been given by now is nothing that the application is ever given
    obtain ⟨k, hk, rfl⟩ := hab.nil_inv
    obtain ⟨k', hk', rfl⟩ := hab'.nil_inv
    have hlength : (a ++ k).length = (a' ++ k').length := hlen.trans (hcommitted.trans hlen'.symm)
    have heq : a ++ k = a' ++ k' := by
      rcases hcomparable with h | h
      · exact h.eq_of_length hlength
      · exact (h.eq_of_length hlength.symm).symm
    have hstate := congrArg (replay r.initial) heq
    rw [replay_append, replay_append, replay_silent hk, replay_silent hk'] at hstate
    exact ha.trans (hstate.trans ha'.symm)

end Run

end Raft
