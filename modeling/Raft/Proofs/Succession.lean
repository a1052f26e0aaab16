import Raft.Proofs.InForce

/-!
# One change after the other

A leader appends configurations of its own accord only: the joint configuration that begins a change
and the stable one that ends it.

* `Node.appended?`, the entry that a leader adds to its log at a moment of a transition, and
  `mem_entries_of_step`, no other configuration gets into a log but in a batch;
* `isFollowedBy_of_appended`, what a leader appends is what follows the configuration in force,
  unless a client has submitted a configuration as a command;
* `Life.hasCommitted_of_appended`, a change is ended only when its joint configuration is committed,
  provided that the node has got no joint configuration past its log.
-/

namespace Raft

variable {i : Input} {n m : Node} {es : List Effect} {js : List Input}

/-! ### What a leader appends -/

/-- The entry that a leader adds to its log when it takes up an input. A new leader's empty entry is
not one of these. -/
def Node.appended? (n : Node) : Input → Option Entry
  | .message _ (.submit r) =>
    if n.role = .leader then
      some
        { term := n.term, index := n.log.nextIndex, command := r.command, client := some r.client }
    else none
  | _ => none

theorem Node.appended?_eq_some {e : Entry} (h : n.appended? i = some e) :
    n.role = .leader ∧ ∃ sender r, i = .message sender (.submit r) ∧ e.command = r.command := by
  unfold appended? at h
  split at h
  next sender r =>
    split at h
    next hrole =>
      obtain rfl := Option.some.inj h
      exact ⟨hrole, sender, r, rfl, rfl⟩
    next => cases h
  next => cases h

namespace Turn

variable {t u : Turn}

theorem entries_advanceCommit (t : Turn) :
    t.advanceCommit.node.log.entries = t.node.log.entries := by
  obtain ⟨k, capturing, hnode⟩ := t.node_advanceCommit
  rw [hnode]
  rfl

/-- Processing a command adds one entry to a leader's log. -/
theorem entries_appendRequest {r : Request} (h : t.appendRequest r = .ok u) :
    u.node.log.entries = t.node.log.entries ++
      [{ term := t.node.term, index := t.node.log.nextIndex, command := r.command,
         client := some r.client }] := by
  have hlog := t.log_append r.command (some r.client)
  rw [appendRequest_eq] at h
  obtain ⟨w, hw, rfl⟩ := exists_of_map h
  rw [(sameRecord_leaveIfRemoved _).log, entries_advanceCommit, node_replicate hw, hlog]
  rfl

/-- A configuration that is new in the log was in the batch, or the leader has appended it. -/
theorem mem_entries_dispatch (h : t.dispatch i = .ok u) {e : Entry} (he : e ∈ u.node.log.entries)
    (hc : e.command.configuration? ≠ none) :
    e ∈ t.node.log.entries ∨ e ∈ i.batch ∨ t.node.appended? i = some e := by
  by_cases hsubmit : ∃ sender r, i = .message sender (.submit r)
  · obtain ⟨sender, r, rfl⟩ := hsubmit
    simp only [dispatch, onMessage, onSubmit] at h
    split at h
    next hrole =>
      rw [entries_appendRequest h] at he
      rcases List.mem_append.1 he with he | he
      · exact .inl he
      · refine .inr (.inr ?_)
        rw [List.mem_singleton.1 he]
        exact if_pos hrole
    next =>
      obtain rfl := Except.ok.inj h
      exact .inl he
  · obtain ⟨fs, js, -, -, hacts⟩ := performs_dispatch h
    have hholds := (hacts.keeps
      (fun x => x.log.Holds
        (fun e => e.command.configuration? ≠ none → e ∈ t.node.log.entries ∨ e ∈ i.batch)
        fun _ => True) (fun _ => True)
      ⟨fun _ he _ => .inl he, fun _ _ => trivial⟩ fun hx a => by
        refine ⟨a.recast.holds hx ?_ ?_, fun _ _ => trivial⟩
        · cases i with
          | message sender m =>
            cases m with
            | appendEntries => exact fun _ he _ => .inr he
            | _ => trivial
          | snapshotPrepared s => cases s <;> trivial
          | _ => trivial
        · rintro command client (⟨rfl, -⟩ | ⟨sender, r, hi, -⟩) hconfig
          · exact absurd rfl hconfig
          · exact absurd ⟨sender, r, hi⟩ hsubmit).1
    exact (hholds.entries e he hc).imp_right .inl

/-- The same for a whole transition. -/
theorem mem_entries_settle {budget : Nat} (h : t.settle budget = .ok u) {e : Entry}
    (he : e ∈ u.node.log.entries) (hc : e.command.configuration? ≠ none) :
    e ∈ t.node.log.entries ∨
      ∃ x ∈ t.moments budget, e ∈ x.2.batch ∨ x.1.appended? x.2 = some e := by
  induction budget using Nat.strongRecOn generalizing t with
  | ind budget ih =>
    rcases settle_cases h with ⟨-, rfl⟩ | ⟨j, rest, b, v, hp, rfl, hv, hrest⟩
    · exact .inl he
    · rw [moments_of_cons hp hv]
      rcases ih b (Nat.lt_succ_self b) hrest with hbefore | ⟨x, hx, hnew⟩
      · rcases mem_entries_dispatch hv hbefore hc with hold | hnew
        · exact .inl hold
        · exact .inr ⟨_, List.mem_cons_self .., hnew⟩
      · exact .inr ⟨x, List.mem_cons_of_mem _ hx, hnew⟩

end Turn

/-- A configuration that is new in the log of a node was in a batch that the node has taken up, or
it was appended by the leader that the node was. -/
theorem mem_entries_of_step (h : step n i = .ok (m, es)) {e : Entry} (he : e ∈ m.log.entries)
    (hc : e.command.configuration? ≠ none) :
    e ∈ n.log.entries ∨ ∃ x ∈ n.moments i, e ∈ x.2.batch ∨ x.1.appended? x.2 = some e := by
  obtain ⟨t, ht, rfl, rfl⟩ := exists_process_of_step h
  exact Turn.mem_entries_settle ht he hc

/-! ### What follows a configuration -/

/-- Whether `d` comes next after `c`: after a settled configuration the joint one that leads away
from its members, and after a joint one the settled one that it leads to. -/
def Configuration.IsFollowedBy (c d : Configuration) : Prop :=
  match c with
  | .stable k members => ∃ k' new, d = .joint k' members new ∧ k < k'
  | .joint .. => d = c.settled

theorem Configuration.isFollowedBy_transitionTo {c : Configuration} (h : c.isJoint = false)
    (target : Configuration) : c.IsFollowedBy (c.transitionTo target) := by
  cases c with
  | stable k members => exact ⟨_, _, rfl, sequence_lt_transitionTo (.stable k members) target⟩
  | joint => cases h

theorem Configuration.isFollowedBy_settled {c : Configuration} (h : c.isJoint = true) :
    c.IsFollowedBy c.settled := by
  cases c with
  | stable => cases h
  | joint => rfl

/-- What a node submits to itself follows the configuration that it has. -/
theorem Input.Raises.isFollowedBy {sender : PeerId} {r : Request} {c : Configuration}
    (h : i.Raises n (.message sender (.submit r))) (hr : r.command = .configuration c) :
    n.config.IsFollowedBy c := by
  cases h with
  | settled hjoint =>
    cases hr
    exact Configuration.isFollowedBy_settled hjoint
  | proposed _ hstable =>
    cases hr
    exact Configuration.isFollowedBy_transitionTo hstable _

/-- Every configuration that a leader appends in the course of a transition follows the one in force
at that moment, unless the input is itself a command with a configuration. No other configuration
gets into the log, except in a batch that the node takes up as a follower. -/
theorem isFollowedBy_of_appended (h : step n i = .ok (m, es))
    (hi : ∀ sender r, i = .message sender (.submit r) → r.command.configuration? = none) :
    (∀ x ∈ n.moments i, ∀ e c, x.1.appended? x.2 = some e → e.command = .configuration c →
      x.1.config.IsFollowedBy c) ∧
    ∀ e ∈ m.log.entries, e.command.configuration? ≠ none →
      e ∈ n.log.entries ∨ ∃ x ∈ n.moments i, e ∈ x.2.batch ∨ x.1.appended? x.2 = some e := by
  refine ⟨fun x hx e c he hc => ?_, fun e he hc => mem_entries_of_step h he hc⟩
  obtain ⟨-, hmoments⟩ := step_thread
    (P := fun j t => (∃ k : Input, k.Raises t.node j) ∨
      ∀ sender r, j = .message sender (.submit r) → r.command.configuration? = none)
    (Q := fun _ => True) (fun _ _ _ => trivial)
    (fun _ _ _ hfollower => .inr fun sender r hj => by
      subst hj
      exact hfollower.elim)
    (fun _ _ _ hraised => .inl ⟨_, hraised⟩) h (.inr hi)
  obtain ⟨s, hs, hraised⟩ := hmoments x hx
  obtain ⟨-, sender, r, hsubmit, hr⟩ := Node.appended?_eq_some he
  have hconfig : r.command = .configuration c := hr.symm.trans hc
  rcases hraised with ⟨k, hraised⟩ | hnone
  · rw [hsubmit, hs] at hraised
    exact hraised.isFollowedBy hconfig
  · have := hnone sender r hsubmit
    rw [hconfig] at this
    cases this

/-- The leader of a cluster of its own. -/
def soleLeader : Node :=
  { Node.founding ⟨1⟩ {} (.stable 0 (.ofList [⟨1⟩])) with
    role := .leader
    standing := { term := 1, config := .stable 0 (.ofList [⟨1⟩]), votedFor := some ⟨1⟩ }
    log := { entries := [⟨1, 1, .noop, none⟩], committed := 1 }
    nextIndex := .uniform 0
    leader := some ⟨1⟩ }

/-- Somebody wishes node 2 to become a member. -/
def admission : Input := .message ⟨9⟩ (.changeConfiguration (.stable 0 (.ofList [⟨1⟩, ⟨2⟩])))

theorem isFollowedBy_soleLeader : ∃ m es, step soleLeader admission = .ok (m, es) ∧
    (∃ x ∈ soleLeader.moments admission, x.1.appended? x.2 =
      some ⟨1, 2, .configuration (.joint 1 (.ofList [⟨1⟩]) (.ofList [⟨1⟩, ⟨2⟩])), some ⟨1⟩⟩) ∧
    ∀ x ∈ soleLeader.moments admission, ∀ e c, x.1.appended? x.2 = some e →
      e.command = .configuration c → x.1.config.IsFollowedBy c :=
  ⟨_, _, rfl, by decide, (isFollowedBy_of_appended (i := admission) rfl nofun).1⟩

/-- A client's command can carry any configuration. -/
theorem not_isFollowedBy_soleLeader : ∃ m es e,
    step soleLeader (.message ⟨9⟩ (.submit ⟨⟨9⟩, .configuration (.stable 9 (.ofList [⟨7⟩]))⟩)) =
      .ok (m, es) ∧ e ∈ m.log.entries ∧ ¬ e ∈ soleLeader.log.entries ∧
    soleLeader.appended?
      (.message ⟨9⟩ (.submit ⟨⟨9⟩, .configuration (.stable 9 (.ofList [⟨7⟩]))⟩)) = some e ∧
    e.command = .configuration (.stable 9 (.ofList [⟨7⟩])) ∧
    soleLeader.config = .stable 0 (.ofList [⟨1⟩]) ∧
    ¬ soleLeader.config.IsFollowedBy (.stable 9 (.ofList [⟨7⟩])) :=
  ⟨_, _, ⟨1, 2, .configuration (.stable 9 (.ofList [⟨7⟩])), some ⟨9⟩⟩, rfl, by decide, by decide,
    by decide, rfl, rfl, by rintro ⟨_, _, ⟨⟩, _⟩⟩

/-! ### The end of a change -/

/-- Whether a configuration is committed in the log: in a live entry, or in the snapshot. -/
def Log.HasCommitted (log : Log) (c : Configuration) : Prop :=
  (∃ e ∈ log.entries, e.command = .configuration c ∧ e.index ≤ log.committed) ∨
    ∃ s ∈ log.snapshot, s.about.config = c

instance (log : Log) (c : Configuration) : Decidable (log.HasCommitted c) :=
  inferInstanceAs (Decidable (_ ∨ _))

/-- Where no live entry carries the configuration in force, a log that calls for it has it in the
snapshot. So a snapshot is proof enough that it is committed. -/
theorem Node.Synced.hasCommitted (h : n.Synced) (hlog : n.log.Contiguous)
    (hcommitted : n.hasCommitted n.config = true) : n.log.HasCommitted n.config := by
  unfold Node.hasCommitted at hcommitted
  split at hcommitted
  next e he =>
    have hmem := List.mem_reverse.1 (List.mem_of_find?_eq_some he)
    have hcommand : e.command = .configuration n.config := by
      simpa using List.find?_some he
    exact .inl ⟨e, hmem, hcommand, of_decide_eq_true hcommitted⟩
  next hnone =>
    obtain ⟨s, hs⟩ := Option.isSome_iff_exists.1 hcommitted
    refine .inr ⟨s, hs, ?_⟩
    have hlatest := Log.latestConfiguration?_eq hlog
    rw [Node.Synced] at h
    rw [hlatest, hs] at h
    cases hnewest : Log.newestIn n.log.entries with
    | none =>
      rw [hnewest] at h
      exact h.symm
    | some c =>
      rw [hnewest] at h
      obtain rfl : n.config = c := h
      obtain ⟨before, e, behind, hsplit, he, -⟩ := Log.newestIn_eq_some hnewest
      have hmem : e ∈ n.log.entries.reverse := by
        rw [hsplit]
        simp
      have hnot := List.find?_eq_none.1 hnone e hmem
      exact absurd (decide_eq_true (Command.configuration?_eq_some he)) hnot

/-- A joint configuration in force is one that the log calls for. -/
def Node.JointSynced (n : Node) : Prop := n.config.isJoint = true → n.Synced

theorem Node.JointSynced.of_tracks (h : n.JointSynced) (hm : n.Tracks m) : m.JointSynced := by
  intro hjoint
  by_cases hconfig : m.config = n.config
  · exact hm.keeps (h (hconfig ▸ hjoint))
  · exact hm.changes hconfig

/-- The log of a node has not carried a configuration so far. -/
def Node.Unwritten (n : Node) : Prop :=
  n.log.latestConfiguration? = none ∧ n.initialConfig = none

/-- Whether a node takes over a configuration that it is told. -/
def Node.Takes (n : Node) (sender : PeerId) : Prop :=
  n.role = .init ∨ n.role ≠ .leader ∧ (n.members.isEmpty = true ∨ n.configAskedOf = some sender)

/-- What an input from outside must not do, lest a joint configuration comes into force that the log
does not call for: submit a configuration, tell a joint one to a node whose log has carried one
already, and bring a snapshot of something else. -/
structure Input.Sincere (i : Input) (n : Node) : Prop where
  submits : ∀ sender r, i = .message sender (.submit r) → r.command.configuration? = none
  tells : ∀ sender c, i = .message sender (.changeConfiguration c) → c.isJoint = true →
    n.Takes sender → n.Unwritten
  prepared : ∀ s, i = .snapshotPrepared (some s) → n.Produced s.about

namespace Turn

variable {t u : Turn}

/-- A node that is told a configuration takes it over, or goes on with its own. -/
theorem onChangeConfiguration_cases (t : Turn) (sender : PeerId) (c : Configuration) :
    t.node.SameRecord (t.onChangeConfiguration sender c).node ∨
      (t.node.Takes sender ∧ (t.onChangeConfiguration sender c).node.log = t.node.log ∧
        (t.onChangeConfiguration sender c).node.config = c ∧
        (t.onChangeConfiguration sender c).node.initialConfig = t.node.initialConfig) := by
  have hjoin : ∀ v : Turn, (v.join c).node.log = v.node.log ∧ (v.join c).node.config = c ∧
      (v.join c).node.initialConfig = v.node.initialConfig := by
    intro v
    unfold join
    rw [node_goto]
    exact ⟨rfl, rfl, rfl⟩
  have hreceive : t.node.role ≠ .init → t.node.role ≠ .leader →
      t.node.SameRecord (t.receiveConfiguration sender c).node ∨
      (t.node.Takes sender ∧ (t.receiveConfiguration sender c).node.log = t.node.log ∧
        (t.receiveConfiguration sender c).node.config = c ∧
        (t.receiveConfiguration sender c).node.initialConfig = t.node.initialConfig) := by
    intro _ hlead
    unfold receiveConfiguration
    simp only
    split
    next hmine =>
      split
      next => exact .inr ⟨.inr ⟨hlead, hmine⟩, hjoin _⟩
      next => exact .inl ⟨rfl, rfl, rfl⟩
    next =>
      split
      next => exact .inl (.refl _)
      next =>
        split
        next => exact .inl (.refl _)
        next => exact .inl (.refl _)
  unfold onChangeConfiguration
  split
  next hrole => exact .inr ⟨.inl hrole, hjoin t⟩
  next =>
    split
    next => exact .inl (.refl _)
    next => exact .inl (.refl _)
  next hinit hlead => exact hreceive hinit hlead

/-- While one input is processed, no joint configuration comes into force that the log does not call
for. -/
theorem jointSynced_dispatch (h : t.dispatch i = .ok u) (hlog : t.node.log.Contiguous)
    (hn : t.node.JointSynced) (hadvances : i.Advances t.node)
    (htells : ∀ sender c, i = .message sender (.changeConfiguration c) → c.isJoint = true →
      t.node.Takes sender → t.node.Unwritten)
    (hproduced : ∀ s, i = .snapshotPrepared (some s) → t.node.Produced s.about) :
    u.node.JointSynced ∧ u.node.log.Contiguous := by
  by_cases hchange : ∃ sender c, i = .message sender (.changeConfiguration c)
  · obtain ⟨sender, c, rfl⟩ := hchange
    obtain rfl := Except.ok.inj h
    rcases t.onChangeConfiguration_cases sender c with hsame | ⟨htakes, hlog', hconfig, hinitial⟩
    · exact ⟨hn.of_tracks hsame.tracks, hsame.log ▸ hlog⟩
    · refine ⟨fun hjoint => ?_, hlog' ▸ hlog⟩
      -- nothing is in the log, so what is in force now is what the node starts from
      obtain ⟨hnone, hfirst⟩ := htells sender c rfl (hconfig ▸ hjoint) htakes
      show (t.onChangeConfiguration sender c).node.Synced
      rw [Node.Synced, hlog', hnone, Node.origin, hinitial, hfirst]
      rfl
  · by_cases hprepared : ∃ s, i = .snapshotPrepared (some s)
    · obtain ⟨s, rfl⟩ := hprepared
      obtain rfl := Except.ok.inj h
      have hrecast := t.recast_finishCapture (some s)
      refine ⟨hn.of_tracks ?_, hrecast.contiguous hlog⟩
      rcases hrecast.tracks_or hlog hadvances hproduced with htracks | ⟨_, _, hi, -⟩ |
        ⟨⟨_, _, _, hi⟩, -⟩
      · exact htracks
      · cases hi
      · cases hi
    · obtain ⟨es, js, -, -, hacts⟩ := performs_dispatch h
      have hkeeps := (hacts.keeps
        (fun x => i.Advances x ∧ x.JointSynced ∧ x.log.Contiguous) (fun _ => True)
        ⟨hadvances, hn, hlog⟩ fun {x y es js} hk a => by
          obtain ⟨hadvances, hx, hlog⟩ := hk
          refine ⟨⟨a.advances hadvances, ?_, a.recast.contiguous hlog⟩, fun _ _ => trivial⟩
          rcases a.recast.tracks_or hlog hadvances fun s hs => absurd ⟨s, hs⟩ hprepared with
            htracks | ⟨sender, c, hi, -⟩ | ⟨-, -, hstable⟩
          · exact hx.of_tracks htracks
          · exact absurd ⟨sender, c, hi⟩ hchange
          · intro hjoint
            rw [hstable] at hjoint
            cases hjoint).1
      exact hkeeps.2

end Turn

/-- Whether the node `n` has raised an input for itself, or it came from outside and is sincere. -/
def Input.Trusted (i : Input) (n : Node) : Prop := (∃ j : Input, j.Raises n i) ∨ i.Sincere n

theorem Input.IsForFollower.sincere (h : i.IsForFollower) (n : Node) : i.Sincere n := by
  refine ⟨?_, ?_, ?_⟩
  · rintro sender r rfl
    exact h.elim
  · rintro sender c rfl
    exact h.elim
  · rintro s rfl
    exact h.elim

namespace Input.Trusted

theorem dispatch {t u : Turn} (hi : i.Trusted t.node) (h : t.dispatch i = .ok u)
    (hlog : t.node.log.Contiguous) (hn : t.node.JointSynced) :
    u.node.JointSynced ∧ u.node.log.Contiguous := by
  rcases hi with ⟨j, hraised⟩ | hsincere
  · refine Turn.jointSynced_dispatch h hlog hn hraised.advances ?_ ?_
    · rintro sender c rfl
      exact hraised.isOwn.elim
    · rintro s rfl
      exact hraised.isOwn.elim
  · refine Turn.jointSynced_dispatch h hlog hn ?_ hsincere.tells hsincere.prepared
    intro sender r c hsubmit hr
    have hnone := hsincere.submits sender r hsubmit
    rw [hr] at hnone
    cases hnone

/-- A leader appends a settled configuration when it has raised that for itself. -/
theorem hasCommitted (hi : i.Trusted n) (hlog : n.log.Contiguous) (hn : n.JointSynced) {e : Entry}
    {c : Configuration} (he : n.appended? i = some e) (hc : e.command = .configuration c)
    (hstable : c.isJoint = false) :
    n.config.isJoint = true ∧ c = n.config.settled ∧ n.log.HasCommitted n.config := by
  obtain ⟨-, sender, r, rfl, hr⟩ := Node.appended?_eq_some he
  have hconfig : r.command = .configuration c := hr.symm.trans hc
  rcases hi with ⟨j, hraised⟩ | hsincere
  · cases hraised with
    | settled hjoint hcommitted =>
      cases hconfig
      exact ⟨hjoint, rfl, (hn hjoint).hasCommitted hlog hcommitted⟩
    | proposed =>
      cases hconfig
      cases hstable
  · have hnone := hsincere.submits sender r rfl
    rw [hconfig] at hnone
    cases hnone

end Input.Trusted

/-- In the course of a transition, a leader that appends a settled configuration has the joint one
in force that it settles, and that one is committed in its log. -/
theorem hasCommitted_of_step (h : step n i = .ok (m, es)) (hlog : n.log.Contiguous)
    (hn : n.JointSynced) (hi : i.Sincere n) :
    (m.JointSynced ∧ m.log.Contiguous) ∧
    ∀ x ∈ n.moments i, ∀ e c, x.1.appended? x.2 = some e → e.command = .configuration c →
      c.isJoint = false → x.1.config.isJoint = true ∧ c = x.1.config.settled ∧
        x.1.log.HasCommitted x.1.config := by
  obtain ⟨⟨t, rfl, -, hend⟩, hmoments⟩ := step_thread
    (P := fun j t => j.Trusted t.node ∧ t.node.JointSynced ∧ t.node.log.Contiguous)
    (Q := fun t => t.node.JointSynced ∧ t.node.log.Contiguous)
    (fun ⟨hj, hn, hlog⟩ hu _ => hj.dispatch hu hlog hn)
    (fun ⟨hj, hn, hlog⟩ hu _ hfollower => by
      have hnext := hj.dispatch hu hlog hn
      exact ⟨.inr (hfollower.sincere _), hnext⟩)
    (fun ⟨hj, hn, hlog⟩ hu _ hraised => by
      have hnext := hj.dispatch hu hlog hn
      exact ⟨.inl ⟨_, hraised⟩, hnext⟩)
    h ⟨.inr hi, hn, hlog⟩
  refine ⟨hend, fun x hx e c he hc hstable => ?_⟩
  obtain ⟨s, hs, htrusted, hn, hlog⟩ := hmoments x hx
  rw [hs] at htrusted hn hlog
  exact htrusted.hasCommitted hlog hn he hc hstable

namespace Life

variable (l : Life)

/-- Every input so far was such that no joint configuration comes into force past the log. -/
def Sincere (k : Nat) : Prop := ∀ j < k, ∀ i, l.inputs[j]? = some i → i.Sincere (l.after j)

theorem jointSynced_after {k : Nat} (h : l.Sincere k) :
    (l.after k).JointSynced ∧ (l.after k).log.Contiguous := by
  induction k with
  | zero =>
    show l.start.JointSynced ∧ l.start.log.Contiguous
    rcases l.isNew with ⟨id, settings, hstart⟩ | ⟨id, settings, s, hstart⟩ <;> rw [hstart]
    · exact ⟨(fun hjoint => nomatch hjoint), Log.contiguous_of_entries_eq_nil rfl⟩
    · exact ⟨fun _ => rfl, Log.contiguous_of_entries_eq_nil rfl⟩
  | succ k ih =>
    obtain ⟨hn, hlog⟩ := ih fun j hj => h j (Nat.lt_succ_of_lt hj)
    rcases l.after_succ_cases k with heq | ⟨i, es, hi, hstep⟩
    · rw [heq]
      exact ⟨hn, hlog⟩
    · exact (hasCommitted_of_step hstep hlog hn (h k (Nat.lt_succ_self k) i hi)).1

/-- A leader appends a settled configuration only in place of the joint one in force, and only when
that one is committed in its log: in a live entry, or in the snapshot. -/
theorem hasCommitted_of_appended {k : Nat} (h : l.Sincere (k + 1)) (hi : l.inputs[k]? = some i)
    (hstep : step (l.after k) i = .ok (m, es)) {x : Node × Input} (hx : x ∈ (l.after k).moments i)
    {e : Entry} {c : Configuration} (he : x.1.appended? x.2 = some e)
    (hc : e.command = .configuration c) (hstable : c.isJoint = false) :
    x.1.config.isJoint = true ∧ c = x.1.config.settled ∧ x.1.log.HasCommitted x.1.config := by
  obtain ⟨hn, hlog⟩ := l.jointSynced_after fun j hj => h j (Nat.lt_succ_of_lt hj)
  have hmoments := (hasCommitted_of_step hstep hlog hn (h k (Nat.lt_succ_self k) i hi)).2
  exact hmoments x hx e c he hc hstable

/-- A node that is a cluster of its own changes its configuration to one with the same member. -/
def renewal : Life where
  start := .fresh ⟨1⟩ { membersToFind := 1 }
  isNew := .inl ⟨⟨1⟩, { membersToFind := 1 }, rfl⟩
  inputs :=
    [.timeout .discovery, .timeout .election,
      .message ⟨9⟩ (.changeConfiguration (.stable 0 (.ofList [⟨1⟩])))]

theorem sincere_renewal : renewal.Sincere 3 := by
  intro j hj i hi
  match j, hj with
  | 0, _ | 1, _ =>
    cases hi
    exact ⟨nofun, nofun, nofun⟩
  | 2, _ =>
    cases hi
    refine ⟨nofun, ?_, nofun⟩
    rintro _ _ ⟨⟩ hjoint
    cases hjoint

theorem hasCommitted_of_appended_renewal :
    ∃ x ∈ (renewal.after 2).moments
        (.message ⟨9⟩ (.changeConfiguration (.stable 0 (.ofList [⟨1⟩])))),
      x.1.appended? x.2 = some ⟨1, 3, .configuration (.stable 2 (.ofList [⟨1⟩])), some ⟨1⟩⟩ ∧
      x.1.config.isJoint = true ∧ .stable 2 (.ofList [⟨1⟩]) = x.1.config.settled ∧
      x.1.log.HasCommitted x.1.config := by
  obtain ⟨x, hx, he⟩ : ∃ x ∈ (renewal.after 2).moments
        (.message ⟨9⟩ (.changeConfiguration (.stable 0 (.ofList [⟨1⟩])))),
      x.1.appended? x.2 = some ⟨1, 3, .configuration (.stable 2 (.ofList [⟨1⟩])), some ⟨1⟩⟩ := by
    decide +kernel
  obtain ⟨m, es, hstep⟩ : ∃ m es, step (renewal.after 2)
      (.message ⟨9⟩ (.changeConfiguration (.stable 0 (.ofList [⟨1⟩])))) = .ok (m, es) :=
    ⟨_, _, rfl⟩
  exact ⟨x, hx, he, renewal.hasCommitted_of_appended sincere_renewal rfl hstep hx he rfl rfl⟩

/-- Node 2 comes back with a snapshot. Before it gets any more entries it is told of a change that
replaces node 1 by node 3, and node 3 elects it. -/
def forestalled : Life where
  start := .ofSnapshot ⟨2⟩ {} ⟨⟨5, 1, .stable 1 (.ofList [⟨1⟩, ⟨2⟩])⟩, []⟩
  isNew := .inr ⟨⟨2⟩, {}, ⟨⟨5, 1, .stable 1 (.ofList [⟨1⟩, ⟨2⟩])⟩, []⟩, rfl⟩
  inputs :=
    [.message ⟨1⟩ (.appendEntries ⟨1⟩ 1 1 6 [] 5),
      .message ⟨1⟩ (.changeConfiguration (.joint 2 (.ofList [⟨1⟩, ⟨2⟩]) (.ofList [⟨2⟩, ⟨3⟩]))),
      .message ⟨1⟩ (.appendEntries ⟨1⟩ 1 1 6 [] 5), .timeout .election,
      .message ⟨3⟩ (.grantVote 2)]

/-- The new leader ends the change at once, though nobody knows whether it was committed. -/
theorem not_hasCommitted_forestalled :
    ∃ x ∈ (forestalled.after 4).moments (.message ⟨3⟩ (.grantVote 2)),
      x.1.appended? x.2 = some ⟨2, 7, .configuration (.stable 3 (.ofList [⟨2⟩, ⟨3⟩])), some ⟨2⟩⟩ ∧
      x.1.config = .joint 2 (.ofList [⟨1⟩, ⟨2⟩]) (.ofList [⟨2⟩, ⟨3⟩]) ∧
      ¬ x.1.log.HasCommitted x.1.config := by
  decide +kernel

end Life

end Raft
