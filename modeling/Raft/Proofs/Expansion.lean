import Raft.Proofs.InForce

/-!
# Snapshots while the members change

An `Expansion` is everything that can happen to a cluster that some nodes have founded and others
may join. Clients submit commands for the application, ask questions and wish for other members.

* `bearsOut_of_step`, the log of a node bears out what it has asked to be captured, also when it has
  gone on to what the input raised;
* `CallsFor`, the configuration that entries call for at a position, and `Log.callsFor`, it is the
  one that a log records there;
* `Expansion.eq_of_asked`, captures with the same boundary record the same term and configuration,
  provided that no entry committed up to there is in dispute and that nodes which have joined ask
  for no capture before the first configuration in their logs.
-/

namespace Raft

variable {i : Input} {n m : Node} {es : List Effect} {js : List Input} {about : SnapshotMeta}

/-! ### Captures of one transition -/

/-- What a node raises for itself, or a client submits, leaves all captures borne out. -/
theorem Recast.bearsOut (h : Recast i n m) (hi : i.IsOwn) (hlog : n.log.Contiguous)
    (hrole : n.role ≠ .init) (hn : n.BearsOut about) : m.BearsOut about := by
  cases h with
  | same h => exact h.bearsOut hn
  | commit j hlog' hconfig hinitial =>
    have horigin : m.origin = n.origin := by rw [Node.origin, hinitial, hconfig, Node.origin]
    refine ⟨?_, ?_, ?_, ?_⟩
    · rw [hlog']
      exact hn.live
    · rw [hlog']
      exact Nat.le_trans hn.committed (Nat.le_max_left ..)
    · rw [hlog']
      exact hn.term
    · rw [Node.configurationAt_eq, hlog', horigin]
      exact (n.configurationAt_eq about.index).symm.trans hn.config
  | append _ _ hlog' horigin =>
    obtain ⟨e, he, -⟩ := Log.exists_get?_of_termAt? hn.term hn.live
    obtain ⟨hmem, hindex, -⟩ := hlog.of_get? he
    refine ⟨?_, ?_, ?_, ?_⟩
    · rw [hlog']
      exact hn.live
    · rw [hlog']
      exact hn.committed
    · rw [hlog']
      exact Log.termAt?_append hn.term
    · rw [Node.configurationAt_eq, hlog', horigin,
        Log.configurationAt?_append hlog rfl (hindex ▸ hlog.le_lastIndex hmem)]
      exact (n.configurationAt_eq about.index).symm.trans hn.config
  | enroll _ hinit => exact absurd hinit hrole
  | merge hi' | install hi' | finish hi' | told hi' =>
    subst hi'
    exact hi.elim

/-- A node that does not take part yet has no entries. -/
def Node.Idle (n : Node) : Prop := n.role = .init → n.log.entries = []

theorem Node.Idle.role_ne (h : n.Idle) (hn : n.BearsOut about) : n.role ≠ .init := by
  intro hrole
  obtain ⟨e, he, -⟩ := Log.exists_get?_of_termAt? hn.term hn.live
  unfold Log.get? at he
  rw [h hrole] at he
  split at he <;> cases he

theorem Act.idle (a : Act i n es js m) (h : n.Idle) : m.Idle := by
  intro hrole
  obtain ⟨hinit, hlog | ⟨s, hlog⟩, -⟩ := a.of_init hrole
  · rw [hlog]
    exact h hinit
  · have hnone : n.log.entries = [] := h hinit
    rw [hlog]
    unfold Log.compact
    split
    next => exact hnone
    next =>
      split
      next => rw [hnone, List.filter_nil]
      next => rfl

theorem Input.IsForFollower.not_isOwn (h : i.IsForFollower) : ¬ i.IsOwn := by
  intro hown
  cases i with
  | message sender message => cases message <;> first | exact h | exact hown
  | _ => exact h

namespace Turn

variable {t u : Turn}

theorem Ends.asks (h : t.Ends i u) : t.Asks u := by
  cases h with
  | still hasks => exact hasks
  | again hcalm =>
    obtain ⟨es, heffects, hes⟩ := hcalm.spares
    exact Spares.asks ⟨es, heffects, hes⟩
  | raised hasks => exact hasks

/-- While an input is processed that the node has raised for itself, what was borne out before stays
so. -/
theorem bearsOut_dispatch (h : t.dispatch i = .ok u) (hlog : t.node.log.Contiguous)
    (hidle : t.node.Idle) : u.node.log.Contiguous ∧ u.node.Idle ∧
      (i.IsOwn → ∀ about, t.node.BearsOut about → u.node.BearsOut about) := by
  obtain ⟨es, js, -, -, hacts⟩ := performs_dispatch h
  exact (hacts.keeps
    (fun x => x.log.Contiguous ∧ x.Idle ∧
      (i.IsOwn → ∀ about, t.node.BearsOut about → x.BearsOut about)) (fun _ => True)
    ⟨hlog, hidle, fun _ _ h => h⟩ fun ⟨hlog, hidle, hkept⟩ a =>
      ⟨⟨a.recast.contiguous hlog, a.idle hidle, fun hi about hn =>
        a.recast.bearsOut hi hlog (hidle.role_ne (hkept hi about hn)) (hkept hi about hn)⟩,
        fun _ _ => trivial⟩).1

end Turn

/-- What a transition asks to be captured is borne out in the end. -/
theorem bearsOut_of_step (h : step n i = .ok (m, es)) (hlog : n.log.Contiguous) (hidle : n.Idle) :
    ∀ about, .prepareSnapshot about ∈ es → m.BearsOut about := by
  -- as soon as a capture is asked for, all that follows is what the node raises for itself
  have hnext : ∀ {i : Input} {t u : Turn}, (t.node.log.Contiguous ∧ t.node.Idle ∧
      ∀ about, .prepareSnapshot about ∈ t.effects → t.node.BearsOut about ∧ i.IsOwn) →
      t.dispatch i = .ok u → t.Asks u → u.node.log.Contiguous ∧ u.node.Idle ∧
        ∀ about, .prepareSnapshot about ∈ u.effects → u.node.BearsOut about := by
    rintro i t u ⟨hlog, hidle, hasked⟩ hu ⟨fs, heffects, hfs⟩
    obtain ⟨hlog', hidle', hkept⟩ := Turn.bearsOut_dispatch hu hlog hidle
    refine ⟨hlog', hidle', fun about he => ?_⟩
    rw [heffects] at he
    rcases List.mem_append.1 he with he | he
    · obtain ⟨hbears, hown⟩ := hasked about he
      exact hkept hown about hbears
    · exact hfs about he
  obtain ⟨⟨t, rfl, rfl, hend⟩, -⟩ := step_thread
    (P := fun j t => t.node.log.Contiguous ∧ t.node.Idle ∧
      ∀ about, .prepareSnapshot about ∈ t.effects → t.node.BearsOut about ∧ j.IsOwn)
    (Q := fun t => ∀ about, .prepareSnapshot about ∈ t.effects → t.node.BearsOut about)
    (fun hinv hu hends => (hnext hinv hu hends.asks).2.2)
    (fun {i t u} hinv hu hcalm hfollower => by
      obtain ⟨fs, heffects, hfs⟩ := hcalm.spares
      change u.effects = _ at heffects
      have hspares : t.Spares u := ⟨fs, heffects, hfs⟩
      obtain ⟨hlog, hidle, -⟩ := hnext hinv hu hspares.asks
      refine ⟨hlog, hidle, fun about he => ?_⟩
      change _ ∈ u.effects at he
      rw [heffects] at he
      rcases List.mem_append.1 he with he | he
      · exact absurd (hinv.2.2 about he).2 hfollower.not_isOwn
      · exact absurd trivial (hfs _ he))
    (fun hinv hu hasks hraised => by
      obtain ⟨hlog, hidle, hbears⟩ := hnext hinv hu hasks
      exact ⟨hlog, hidle, fun about he => ⟨hbears about he, hraised.isOwn⟩⟩)
    h ⟨hlog, hidle, nofun⟩
  exact hend

/-! ### Snapshots of one transition -/

section Holds

variable {P : Snapshot → Prop}

theorem Input.IsOwn.holds (h : i.IsOwn) : i.Holds (fun _ => True) P := by
  cases i with
  | message sender message =>
    cases message with
    | appendEntries | installSnapshot => exact h.elim
    | _ => trivial
  | _ => exact h.elim

theorem Input.Says.holds {C : SnapshotMeta → Prop}
    (h : i.Says (fun _ m => m.Holds (fun _ => True) (C ·.about)) C) :
    i.Holds (fun _ => True) (C ·.about) := by
  cases i with
  | message => exact h
  | snapshotPrepared s =>
    cases s with
    | none => trivial
    | some s => exact h
  | _ => trivial

/-- The snapshots that an act sends are such as the log holds. -/
theorem Act.says_holds (a : Act i n es js m) (hn : n.log.Holds (fun _ => True) P) :
    ∀ e ∈ es, e.Says (fun _ _ m => m.Holds (fun _ => True) P) (fun _ => True) n.id := by
  intro e he
  rcases a.effects_cases he with hplain | ⟨_, _, _, _, rfl⟩ | ⟨_, _, _, _, rfl, -⟩ |
    ⟨_, _, _, _, _, -, rfl⟩ | ⟨_, s, -, rfl, hs⟩
  · refine hplain.imp (fun _ _ m hm => ?_) fun _ h => h
    cases m with
    | appendEntries | installSnapshot => exact hm.elim
    | _ => trivial
  · trivial
  · trivial
  · exact fun _ _ => trivial
  · exact hn.snapshot s hs

end Holds

/-! ### What entries call for -/

/-- No entry at a position from `low` to `high` carries a configuration. -/
def PlainFrom (E : Nat → Entry → Prop) (low high : Nat) : Prop :=
  ∀ a e, low ≤ a → a ≤ high → E a e → e.command.configuration? = none

/-- The configuration that the entries `E` call for at a position: the newest one up to there, or
the `first` one if there is none. -/
def CallsFor (E : Nat → Entry → Prop) (first : Configuration) (i : Nat) (c : Configuration) :
    Prop :=
  (∃ a e, a ≤ i ∧ E a e ∧ e.command.configuration? = some c ∧ PlainFrom E (a + 1) i) ∨
    (c = first ∧ PlainFrom E 0 i)

section CallsFor

variable {E : Nat → Entry → Prop} {first c d : Configuration} {k : Nat}

/-- No more than one configuration is called for at a position. -/
theorem CallsFor.unique (hE : ∀ a ≤ k, ∀ e f, E a e → E a f → e = f) (h : CallsFor E first k c)
    (h' : CallsFor E first k d) : c = d := by
  rcases h with ⟨a, e, ha, he, hc, hplain⟩ | ⟨rfl, hplain⟩
  · rcases h' with ⟨b, f, hb, hf, hd, hplain'⟩ | ⟨rfl, hplain'⟩
    · rcases Nat.lt_trichotomy a b with hab | rfl | hab
      · rw [hplain b f hab hb hf] at hd
        cases hd
      · rw [hE a ha e f he hf, hd] at hc
        exact (Option.some.inj hc).symm
      · rw [hplain' a e hab ha he] at hc
        cases hc
    · rw [hplain' a e (Nat.zero_le a) ha he] at hc
      cases hc
  · rcases h' with ⟨b, f, hb, hf, hd, -⟩ | ⟨rfl, -⟩
    · rw [hplain b f (Nat.zero_le b) hb hf] at hd
      cases hd
    · rfl

/-- What is called for at a position is so up to the next configuration. -/
theorem CallsFor.extend {j : Nat} (h : CallsFor E first j c) (hjk : j ≤ k)
    (hplain : PlainFrom E (j + 1) k) : CallsFor E first k c := by
  have hextend : ∀ {a}, PlainFrom E a j → PlainFrom E a k := by
    intro a hbefore b f hab hbk hf
    rcases Nat.lt_or_ge j b with hjb | hbj
    · exact hplain b f hjb hbk hf
    · exact hbefore b f hab hbj hf
  rcases h with ⟨a, e, ha, he, hc, hbefore⟩ | ⟨rfl, hbefore⟩
  · exact .inl ⟨a, e, Nat.le_trans ha hjk, he, hc, hextend hbefore⟩
  · exact .inr ⟨rfl, hextend hbefore⟩

/-- What a log records at a committed position is what the committed entries call for there, if its
snapshot records what they call for. -/
theorem Log.callsFor {log : Log} (hlog : log.Contiguous)
    (hE : ∀ a ≤ k, ∀ e f, E a e → E a f → e = f)
    (hlive : ∀ a e, a ≤ k → log.get? a = some e → E a e) (hlow : log.prevIndex ≤ k)
    (hhigh : k ≤ log.lastIndex)
    (hbefore : CallsFor E first log.prevIndex ((log.snapshot.map (·.about.config)).getD first)) :
    CallsFor E first k ((log.configurationAt? k).getD first) := by
  -- the entry at any position behind the snapshot is that of the log
  have hplace : ∀ a e, log.prevIndex < a → a ≤ k → E a e →
      (log.entries.take (k - log.prevIndex))[a - log.prevIndex - 1]? = some e := by
    intro a e ha hak he
    obtain ⟨f, hf⟩ := hlog.exists_get? ha (Nat.le_trans hak hhigh)
    rw [List.getElem?_take_of_lt (by omega), ← get?_of_lt ha, hf,
      hE a hak f e (hlive a f hak hf) he]
  rw [configurationAt?_eq hlog]
  cases hnewest : newestIn (log.entries.take (k - log.prevIndex)) with
  | none =>
    rw [Option.none_or]
    refine hbefore.extend hlow fun a e ha hak he => ?_
    exact newestIn_eq_none hnewest e (List.mem_of_getElem? (hplace a e ha hak he))
  | some c =>
    obtain ⟨before, e, behind, hsplit, hc, hnone⟩ := newestIn_eq_some hnewest
    have hat : (log.entries.take (k - log.prevIndex))[before.length]? = some e := by
      rw [hsplit, List.getElem?_append_right (Nat.le_refl _), Nat.sub_self]
      rfl
    have hlt : before.length < k - log.prevIndex := by
      have := (List.getElem?_eq_some_iff.1 hat).1
      rw [List.length_take] at this
      omega
    rw [List.getElem?_take_of_lt hlt] at hat
    have hindex := hlog _ e hat
    refine .inl ⟨e.index, e, by omega, ?_, hc, fun a f ha hak hf => ?_⟩
    · exact hlive e.index e (by omega) (hlog.get?_index (List.mem_of_getElem? hat))
    · have hfa := hplace a f (by omega) hak hf
      rw [hsplit, List.getElem?_append_right (by omega)] at hfa
      obtain ⟨j, hj⟩ : ∃ j, a - log.prevIndex - 1 - before.length = j + 1 :=
        ⟨a - log.prevIndex - 1 - before.length - 1, by omega⟩
      rw [hj, List.getElem?_cons_succ] at hfa
      exact hnone f (List.mem_of_getElem? hfa)

end CallsFor

/-! ### Expansions -/

variable {σ : Type}

/-- Whether an event is that a client wishes for other members. -/
def Event.isWish : Event → Bool
  | .call _ _ (.changeConfiguration _) => true
  | _ => false

/-- A run of a cluster that grows. The founders start as followers in term 0 with empty logs and the
same settled configuration, of exactly these nodes. Any other member starts without a
configuration. -/
structure Expansion (σ : Type) where
  sequence : Nat := 0
  founders : PeerSet
  members : PeerSet
  options : PeerId → Options := fun p => { id := p }
  initial : σ
  events : List Event
  calls : ∀ e ∈ events, e.IsOrdinary ∨ e.isWish = true

/-- The captures that a member has asked for and not carried out yet. -/
def Cluster.asked (c : Cluster σ) (p : PeerId) : List SnapshotMeta :=
  (c.site p).backlog.filterMap fun
    | .prepareSnapshot about => some about
    | _ => none

theorem Cluster.mem_asked {c : Cluster σ} {p : PeerId} :
    about ∈ c.asked p ↔ .prepareSnapshot about ∈ (c.site p).backlog := by
  unfold asked
  rw [List.mem_filterMap]
  constructor
  · rintro ⟨e, he, hcapture⟩
    split at hcapture
    next => exact Option.some.inj hcapture ▸ he
    next => cases hcapture
  · exact fun he => ⟨_, he, rfl⟩

namespace Expansion

/-- The configuration that the founders start with. -/
def config (x : Expansion σ) : Configuration := .stable x.sequence x.founders

/-- The cluster before anything happens. -/
def start (x : Expansion σ) : Cluster σ where
  members := x.members
  site p :=
    { replica :=
        { options := x.options p
          node :=
            if p ∈ x.founders then .founding p (x.options p).settings x.config
            else .fresh p (x.options p).settings
          state := x.initial } }

variable [StateMachine σ] (x : Expansion σ)

/-- The cluster after so many events. -/
def after (k : Nat) : Cluster σ := x.start.play (x.events.take k)

@[simp] theorem members_after (k : Nat) : (x.after k).members = x.members :=
  Cluster.members_play ..

/-- From one moment to the next there is one event at most. -/
theorem after_succ_cases (k : Nat) :
    (∃ e ∈ x.events, x.after (k + 1) = (x.after k).happen e) ∨ x.after (k + 1) = x.after k := by
  rcases x.start.play_take_succ x.events k with ⟨e, he, heq⟩ | heq
  · exact .inl ⟨e, List.mem_of_getElem? he, heq⟩
  · exact .inr heq

/-- At some moment some member has the entry live at position `a`, and knows it as committed. -/
def Commits (a : Nat) (e : Entry) : Prop :=
  ∃ k, ∃ p ∈ x.members, a ≤ ((x.after k).log p).committed ∧ ((x.after k).log p).get? a = some e

/-- What is committed up to a position is never in dispute. -/
def Agreed (bound : Nat) : Prop :=
  ∀ a ≤ bound, ∀ e f, x.Commits a e → x.Commits a f → e = f

/-- Up to a position, what a node that has joined asks to be captured does not end before the first
configuration in its log. -/
def Informed (bound : Nat) : Prop :=
  ∀ k, ∀ p ∈ x.members, ¬ p ∈ x.founders → ∀ about ∈ (x.after k).asked p, about.index ≤ bound →
    ((x.after k).log p).configurationAt? about.index ≠ none

/-- What is recorded of a capture up to a position: the term is that of a committed entry at the
boundary, and the configuration is what the committed entries up to there call for. -/
def Records (bound : Nat) (about : SnapshotMeta) : Prop :=
  about.index ≤ bound → (∃ e, x.Commits about.index e ∧ e.term = about.term) ∧
    CallsFor x.Commits x.config about.index about.config

/-- What is known of the member `p`. A founder knows the configuration that it has started with. -/
structure Fits (bound : Nat) (p : PeerId) (n : Node) : Prop where
  id : n.id = p
  contiguous : n.log.Contiguous
  idle : n.Idle
  log : n.log.Holds (fun _ => True) (x.Records bound ·.about)
  founder : p ∈ x.founders → n.Joined ∧ n.origin = x.config

variable {x} {bound k : Nat} {p : PeerId}

theorem Fits.act (h : x.Fits bound p n) (a : Act i n es js m)
    (hi : i.Holds (fun _ => True) (x.Records bound ·.about)) : x.Fits bound p m where
  id := a.id_settings.1.trans h.id
  contiguous := a.recast.contiguous h.contiguous
  idle := a.idle h.idle
  log := a.recast.holds h.log hi fun _ _ _ => trivial
  founder hp := by
    obtain ⟨hjoined, horigin⟩ := h.founder hp
    refine ⟨a.joined hjoined, (a.recast.origin hjoined.1 hjoined.2 fun _ => ?_).trans horigin⟩
    cases hinitial : n.initialConfig with
    | some c => exact .inr (Option.some_ne_none c)
    | none =>
      have hconfig : n.config = x.config := by rwa [Node.origin, hinitial] at horigin
      refine .inl ?_
      show n.config.members.isEmpty = false
      rw [hconfig]
      exact PeerSet.isEmpty_eq_false_of_mem hp

variable (x) in
/-- A member is as it should be, and sends what its log holds. -/
def recordDiscipline (bound : Nat) (p : PeerId) : Discipline Unit where
  Le _ _ := True
  Inv _ n := x.Fits bound p n
  Good _ i := i.Holds (fun _ => True) (x.Records bound ·.about)
  Fine _ e := e.Says (fun _ _ m => m.Holds (fun _ => True) (x.Records bound ·.about))
    (fun _ => True) p
  refl _ := trivial
  trans _ _ := trivial
  good _ h := h
  fine _ h := h
  act hn hi a := ⟨(), trivial, hn.act a hi, fun e he => hn.id ▸ a.says_holds hn.log e he,
    a.raises_keeps hi fun _ => Input.IsOwn.holds⟩

/-- So is a member after any transition. -/
theorem Fits.step (h : x.Fits bound p n) (hstep : Raft.step n i = .ok (m, es))
    (hi : i.Holds (fun _ => True) (x.Records bound ·.about)) : x.Fits bound p m ∧
      ∀ e ∈ es, e.Says (fun _ _ m => m.Holds (fun _ => True) (x.Records bound ·.about))
        (fun _ => True) p :=
  let ⟨_, _, hm, hes⟩ := (x.recordDiscipline bound p).step (g := ()) hstep h hi
  ⟨hm, hes⟩

/-- What a member bears out is what a snapshot should record. -/
theorem records_of_bearsOut (hagreed : x.Agreed bound) (hp : p ∈ x.members)
    (h : x.Fits bound p ((x.after k).node p)) (hbears : ((x.after k).node p).BearsOut about)
    (hinformed : ¬ p ∈ x.founders → about.index ≤ bound →
      ((x.after k).log p).configurationAt? about.index ≠ none) :
    x.Records bound about := by
  intro hbound
  have hlive : ∀ a e, a ≤ about.index → ((x.after k).log p).get? a = some e → x.Commits a e :=
    fun a e ha he => ⟨k, p, hp, Nat.le_trans ha hbears.committed, he⟩
  obtain ⟨e, he, hterm⟩ := Log.exists_get?_of_termAt? hbears.term hbears.live
  refine ⟨⟨e, hlive _ e (Nat.le_refl _) he, hterm⟩, ?_⟩
  have hbefore : CallsFor x.Commits x.config ((x.after k).log p).prevIndex
      ((((x.after k).log p).snapshot.map (·.about.config)).getD x.config) := by
    unfold Log.prevIndex
    cases hs : ((x.after k).log p).snapshot with
    | some s =>
      have hprev : ((x.after k).log p).prevIndex = s.about.index := by rw [Log.prevIndex, hs]
      refine (h.log.snapshot s hs (Nat.le_trans ?_ hbound)).2
      rw [← hprev]
      exact Nat.le_of_lt hbears.live
    | none =>
      refine .inr ⟨rfl, fun a f _ ha hf => ?_⟩
      obtain ⟨j, q, -, -, hget⟩ := hf
      unfold Log.get? at hget
      rw [if_pos (Nat.le_trans ha (Nat.zero_le _))] at hget
      cases hget
  obtain ⟨hmem, hindex, -⟩ := h.contiguous.of_get? he
  have hcalls := Log.callsFor h.contiguous (fun a ha => hagreed a (Nat.le_trans ha hbound)) hlive
    (Nat.le_of_lt hbears.live) (hindex ▸ h.contiguous.le_lastIndex hmem) hbefore
  suffices hconfig : (((x.after k).node p).log.configurationAt? about.index).getD x.config =
      about.config by rwa [hconfig] at hcalls
  have hrecorded := hbears.config
  rw [Node.configurationAt_eq] at hrecorded
  by_cases hfounder : p ∈ x.founders
  · rw [(h.founder hfounder).2] at hrecorded
    exact hrecorded
  · obtain ⟨c, hc⟩ := Option.ne_none_iff_exists'.1 (hinformed hfounder hbound)
    change ((x.after k).node p).log.configurationAt? about.index = some c at hc
    rw [hc] at hrecorded ⊢
    exact hrecorded

variable (x) in
/-- Every member is as it should be, and all that is on its way records what it should. -/
def regime (bound : Nat) : Regime Unit where
  Adds _ _ _ := True
  Inv p _ n := x.Fits bound p n
  Sent _ _ _ m := m.Holds (fun _ => True) (x.Records bound ·.about)
  Captured := x.Records bound
  refl _ _ := trivial
  trans _ _ := trivial
  id h := h.id
  inv _ _ h := h
  sent _ h := h
  call {_ _ _ m} h := by
    cases m with
    | appendEntries | installSnapshot => exact h.elim
    | _ => trivial
  respond := trivial

/-- What clients send carries no snapshots. -/
theorem sent_of_call {e : Event} (he : e ∈ x.events) {client q : PeerId} {message : Message}
    (h : e = .call client q message) : (x.regime bound).Sent () client q message := by
  subst h
  rcases x.calls _ he with hordinary | hwish
  · exact (x.regime bound).call hordinary
  · cases message with
    | changeConfiguration => trivial
    | _ => cases hwish

theorem fits_start (p : PeerId) : x.Fits bound p (x.start.node p) := by
  unfold start
  show x.Fits bound p (if p ∈ x.founders then _ else _)
  split
  next hp =>
    exact ⟨rfl, Log.contiguous_of_entries_eq_nil rfl, fun _ => rfl, ⟨nofun, nofun⟩,
      fun _ => ⟨⟨nofun, rfl⟩, rfl⟩⟩
  next hp =>
    exact ⟨rfl, Log.contiguous_of_entries_eq_nil rfl, fun _ => rfl, ⟨nofun, nofun⟩,
      fun h => absurd h hp⟩

/-- A transition lets everything record what it should. What it asks to be captured is judged by the
log that it ends with, which is the log of the next moment. -/
theorem keeps_of_step (hagreed : x.Agreed bound) (hinformed : x.Informed bound) {e : Event}
    (hafter : x.after (k + 1) = (x.after k).happen e) (he : (x.after k).input? e = some (p, i))
    (hp : p ∈ x.members) (hs : (x.after k).Settled p)
    (hstep : Raft.step ((x.after k).node p) i = .ok (m, es))
    (hn : x.Fits bound p ((x.after k).node p)) (hi : (x.regime bound).Good () p i) :
    (x.regime bound).Keeps p () m es := by
  have hsite := Cluster.site_happen_of_step he (by simpa using hp) hs hstep
  rw [← hafter] at hsite
  have hnode : (x.after (k + 1)).node p = m := by rw [Cluster.node, hsite]
  obtain ⟨hm, hsays⟩ := hn.step hstep hi.holds
  refine ⟨(), trivial, hm, fun f hf => ?_⟩
  cases f with
  | send | forward => exact hsays _ hf
  | prepareSnapshot about =>
    refine records_of_bearsOut (k := k + 1) hagreed hp (hnode ▸ hm) ?_ fun hjoined => ?_
    · rw [hnode]
      exact bearsOut_of_step hstep hn.contiguous hn.idle about hf
    · refine hinformed (k + 1) p hp hjoined about (Cluster.mem_asked.2 ?_)
      rw [hsite]
      exact hf
  | _ => trivial

/-- At all moments everything records what it should. -/
theorem governed_after (hagreed : x.Agreed bound) (hinformed : x.Informed bound) (k : Nat) :
    (x.after k).Governed (x.regime bound) () := by
  induction k with
  | zero =>
    exact ⟨fun p _ => fits_start p, ⟨by simp [after, Cluster.play, start],
      by simp [after, Cluster.play, start], by simp [after, Cluster.play, start]⟩, fun _ _ => rfl⟩
  | succ k ih =>
    rcases x.after_succ_cases k with ⟨e, he, heq⟩ | heq
    · obtain ⟨_, -, hg⟩ := ih.happen (e := e) (fun _ _ _ => sent_of_call he)
        fun p i n es hp hs hi hn hgood hstep =>
          keeps_of_step hagreed hinformed heq hi (by simpa using hp) hs hstep hn hgood
      rw [heq]
      exact hg
    · rw [heq]
      exact ih

/-- So does every capture that is asked for. -/
theorem records_of_asked (hagreed : x.Agreed bound) (hinformed : x.Informed bound)
    (h : about ∈ (x.after k).asked p) : x.Records bound about := by
  have hg := governed_after hagreed hinformed k
  rw [Cluster.mem_asked] at h
  have hp : p ∈ (x.after k).members := by
    by_contra hp
    rw [hg.outside p hp] at h
    cases h
  exact hg.carries.backlog p hp _ h

/-- Captures with the same boundary record the same, whoever has asked for them and when: the term
of the entry there, and the configuration that the committed entries up to there call for. Of these
entries none may be in dispute, and no node that has joined may have asked for a capture before the
first configuration in its log. -/
theorem eq_of_asked {j k : Nat} {p q : PeerId} {about about' : SnapshotMeta}
    (h : about ∈ (x.after j).asked p) (h' : about' ∈ (x.after k).asked q)
    (hindex : about.index = about'.index) (hagreed : x.Agreed about.index)
    (hinformed : x.Informed about.index) :
    about = about' ∧ CallsFor x.Commits x.config about.index about.config := by
  obtain ⟨⟨e, he, hterm⟩, hcalls⟩ :=
    records_of_asked hagreed hinformed h (Nat.le_refl _)
  obtain ⟨⟨f, hf, hterm'⟩, hcalls'⟩ :=
    records_of_asked hagreed hinformed h' (Nat.le_of_eq hindex.symm)
  refine ⟨?_, hcalls⟩
  obtain ⟨index, term, config⟩ := about
  obtain ⟨index', term', config'⟩ := about'
  obtain rfl : index = index' := hindex
  obtain rfl : term = term' :=
    (hterm.symm.trans (congrArg Entry.term (hagreed index (Nat.le_refl _) e f he hf))).trans hterm'
  obtain rfl : config = config' := hcalls.unique hagreed hcalls'
  rfl

/-- Node 1 makes node 2 a member. Node 2 asks for the configuration and is told. Then it gets the
entries that node 1 has so far. The first one is committed, and the second one is the change. -/
def joining : List Event :=
  let calm (p count : Nat) : List Event := List.replicate count (.carryOut ⟨p⟩ { now := 0 })
  .expire ⟨1⟩ .election :: calm 1 4 ++
  .call ⟨9⟩ ⟨1⟩ (.changeConfiguration (.stable 0 (.ofList [⟨1⟩, ⟨2⟩]))) :: calm 1 1 ++
  .deliver 0 :: calm 2 3 ++ .deliver 1 :: calm 1 1 ++ .deliver 2 :: calm 2 1 ++
  .expire ⟨1⟩ .heartbeat :: calm 1 2 ++ .deliver 3 :: calm 2 2

/-- Both nodes ask for a capture when the change is committed. -/
def patient : Expansion Recorder where
  founders := .ofList [⟨1⟩]
  members := .ofList [⟨1⟩, ⟨2⟩]
  initial := {}
  events :=
    let calm (p count : Nat) : List Event := List.replicate count (.carryOut ⟨p⟩ { now := 0 })
    joining ++ .deliver 4 :: calm 1 1 ++ .compact ⟨1⟩ :: .deliver 5 :: calm 2 2 ++ [.compact ⟨2⟩]
  calls := by decide

/-- After the last event nothing changes. -/
theorem exists_after_eq (x : Expansion σ) (k : Nat) :
    ∃ j ≤ x.events.length, x.after k = x.after j := by
  rcases Nat.le_total k x.events.length with hk | hk
  · exact ⟨k, hk, rfl⟩
  · refine ⟨x.events.length, Nat.le_refl _, ?_⟩
    rw [after, after, List.take_of_length_le hk, List.take_length]

/-- What is committed is not in dispute if it is the same as in a single log. -/
theorem agreed_of_log (log : Log) (h : ∀ k ≤ x.events.length, ∀ p ∈ x.members,
    ∀ a ≤ ((x.after k).log p).committed, ∀ e ∈ ((x.after k).log p).get? a, log.get? a = some e) :
    x.Agreed bound := by
  have hall : ∀ a e, x.Commits a e → log.get? a = some e := by
    rintro a e ⟨k, p, hp, ha, he⟩
    obtain ⟨j, hj, heq⟩ := x.exists_after_eq k
    rw [heq] at ha he
    exact h j hj p hp a ha e he
  exact fun a _ e f he hf => Option.some.inj ((hall a e he).symm.trans (hall a f hf))

theorem eq_of_asked_patient :
    ⟨2, 1, .joint 1 (.ofList [⟨1⟩]) (.ofList [⟨1⟩, ⟨2⟩])⟩ ∈ (patient.after 26).asked ⟨1⟩ ∧
    ∃ about ∈ (patient.after 28).asked ⟨2⟩, about.index = 2 ∧
      ⟨2, 1, .joint 1 (.ofList [⟨1⟩]) (.ofList [⟨1⟩, ⟨2⟩])⟩ = about ∧
      CallsFor patient.Commits patient.config 2
        (.joint 1 (.ofList [⟨1⟩]) (.ofList [⟨1⟩, ⟨2⟩])) := by
  have hagreed : patient.Agreed 2 := agreed_of_log ((patient.after 28).log ⟨1⟩) (by decide +kernel)
  have hmoments : ∀ k ≤ patient.events.length, ∀ p ∈ patient.members, ¬ p ∈ patient.founders →
      ∀ about ∈ (patient.after k).asked p, about.index ≤ 2 →
        ((patient.after k).log p).configurationAt? about.index ≠ none := by decide +kernel
  have hinformed : patient.Informed 2 := by
    intro k
    obtain ⟨j, hj, heq⟩ := patient.exists_after_eq k
    rw [heq]
    exact hmoments j hj
  have hasked : ⟨2, 1, .joint 1 (.ofList [⟨1⟩]) (.ofList [⟨1⟩, ⟨2⟩])⟩ ∈
      (patient.after 26).asked ⟨1⟩ := by decide +kernel
  obtain ⟨about, hmem, hindex⟩ : ∃ about ∈ (patient.after 28).asked ⟨2⟩, about.index = 2 := by
    decide +kernel
  obtain ⟨heq, hcalls⟩ := eq_of_asked hasked hmem hindex.symm hagreed hinformed
  exact ⟨hasked, about, hmem, hindex, heq, hcalls⟩

/-- Both nodes ask for a capture before the change is committed. -/
def hasty : Expansion Recorder where
  founders := .ofList [⟨1⟩]
  members := .ofList [⟨1⟩, ⟨2⟩]
  initial := {}
  events := joining ++ [.compact ⟨1⟩, .compact ⟨2⟩]
  calls := by decide

/-- Node 2 records the configuration that it was told, which comes into its log behind the boundary
only. -/
theorem asked_hasty :
    (hasty.after 23).asked ⟨1⟩ = [⟨1, 1, .stable 0 (.ofList [⟨1⟩])⟩] ∧
    (hasty.after 23).asked ⟨2⟩ = [⟨1, 1, .joint 1 (.ofList [⟨1⟩]) (.ofList [⟨1⟩, ⟨2⟩])⟩] ∧
    ((hasty.after 23).log ⟨2⟩).get? 2 = some
      ⟨1, 2, .configuration (.joint 1 (.ofList [⟨1⟩]) (.ofList [⟨1⟩, ⟨2⟩])), some ⟨1⟩⟩ := by
  decide +kernel

end Expansion

end Raft
