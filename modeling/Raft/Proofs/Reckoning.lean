import Raft.Proofs.InForce

/-!
# What a leader reckons its peers to have

A leader keeps two tables, of the next entry to send to each peer and of the last entry known to be
there. A `Reckoning` is all that an act can do to these tables, together with what it does to the
log of a node that leads afterwards.

* `Progress.get_le_get_raise` and `Progress.raise_raise`, when raising moves a peer forward;
* `Act.reckoning`, every act is such a reckoning;
* `Act.fallback_matchIndex`, nothing is known of a peer until it acknowledges something;
* `step_withinLog`, a leader reckons nobody to be beyond the end of its log (`Node.WithinLog`).
-/

namespace Raft

namespace Progress

variable {m : Progress} {p q : PeerId} {i : Nat}

theorem raise_of_recorded {j : Nat} (hj : m.recorded? p = some j) :
    m.raise p i = if i ≤ j then m else m.set p i := by
  unfold raise
  rw [hj]

theorem raise_of_none (h : m.recorded? p = none) : m.raise p i = m.set p i := by
  unfold raise
  rw [h]

@[simp] theorem fallback_raise (m : Progress) (p : PeerId) (i : Nat) :
    (m.raise p i).fallback = m.fallback := by
  unfold raise
  split
  · split <;> rfl
  · rfl

/-- Nobody is moved back, except that a peer with nothing recorded loses a higher fallback. -/
theorem get_le_get_raise (h : q = p → m.recorded? p = none → m.fallback ≤ i) :
    m.get q ≤ (m.raise p i).get q := by
  cases hp : m.recorded? p with
  | none =>
    rw [raise_of_none hp, get_set]
    split
    next hq =>
      subst hq
      rw [get, hp]
      exact h rfl hp
    next => exact Nat.le_refl _
  | some j =>
    rw [raise_of_recorded hp]
    split
    next => exact Nat.le_refl _
    next hlt =>
      rw [get_set]
      split
      next hq =>
        subst hq
        rw [get, hp]
        exact Nat.le_of_not_le hlt
      next => exact Nat.le_refl _

/-- What is recorded already is not recorded anew. -/
theorem raise_raise (m : Progress) (p : PeerId) (i : Nat) :
    (m.raise p i).raise p i = m.raise p i := by
  have hset : (m.set p i).raise p i = m.set p i := by
    rw [raise_of_recorded (j := i) (by rw [recorded?_set, if_pos rfl]), if_pos (Nat.le_refl i)]
  cases hp : m.recorded? p with
  | none => rw [raise_of_none hp, hset]
  | some j =>
    by_cases hij : i ≤ j
    · have hsame : m.raise p i = m := by rw [raise_of_recorded hp, if_pos hij]
      rw [hsame, hsame]
    · rw [raise_of_recorded hp, if_neg hij, hset]

end Progress

/-! ### The acts -/

theorem Turn.matchIndex_syncConfig (t : Turn) :
    t.syncConfig.node.matchIndex = t.node.matchIndex := by
  unfold syncConfig
  split
  · simp only
    split <;> rfl
  · split
    · split <;> rfl
    · rfl

/-- Whether `peer` acknowledges, in the term `t`, to have everything up to `last`. -/
def Input.Acknowledges (i : Input) (peer : PeerId) (t last : Nat) : Prop :=
  i = .message peer (.appendAccepted t last) ∨ i = .message peer (.snapshotAccepted t last)

/-- What an act on the input `i` can do to the tables of a node, and to the log of one that leads
afterwards. -/
inductive Reckoning (i : Input) (n m : Node) : Prop
  | kept (hnext : m.nextIndex = n.nextIndex) (hmatch : m.matchIndex = n.matchIndex)
    (hlog : m.role = .leader → n.role = .leader ∧ (m.log.lastIndex = n.log.lastIndex ∨
      ∃ s, i = .snapshotPrepared (some s) ∧ m.log = n.log.compact s))
  | elected (hi : i.Decides n.term) (hnext : m.nextIndex = .uniform n.log.lastIndex)
    (hmatch : m.matchIndex = .uniform 0) (hlog : m.log = n.log)
  /-- A leader has its own entry at once. -/
  | appended (hrole : n.role = .leader) (hnext : m.nextIndex = n.nextIndex)
    (hmatch : m.matchIndex = n.matchIndex.set n.id n.log.nextIndex)
    (hlog : m.log.lastIndex = n.log.nextIndex)
  | backedOff {sender : PeerId} (hrole : n.role = .leader)
    (hi : i = .message sender (.appendRejected n.term) ∨
      i = .message sender (.snapshotRejected n.term))
    (hnext : m.nextIndex = n.nextIndex.backOff sender) (hmatch : m.matchIndex = n.matchIndex)
    (hlog : m.log = n.log)
  | recorded {peer : PeerId} {last : Nat} (hrole : n.role = .leader)
    (hi : i.Acknowledges peer n.term last) (hlast : last ≤ n.log.lastIndex)
    (hnext : m.nextIndex = n.nextIndex.raise peer (last + 1))
    (hmatch : m.matchIndex = n.matchIndex.raise peer last) (hlog : m.log = n.log)

variable {i : Input} {n m : Node} {es : List Effect} {js : List Input}

/-- A node that does not lead has no such log to speak of. -/
theorem Reckoning.of_role (hnext : m.nextIndex = n.nextIndex)
    (hmatch : m.matchIndex = n.matchIndex) (hrole : m.role ≠ .leader) : Reckoning i n m :=
  .kept hnext hmatch fun h => absurd h hrole

theorem Act.reckoning (a : Act i n es js m) : Reckoning i n m := by
  have hfollower : n.role = .follower → n.Same m → m.matchIndex = n.matchIndex →
      Reckoning i n m := fun hrole hsame hmatch =>
    .of_role hsame.nextIndex hmatch (by rw [hsame.role, hrole]; nofun)
  cases a with
  | elect hi => exact .elected hi rfl rfl rfl
  | @append command client hrole =>
    refine .appended hrole (n.turn.same_append ..).nextIndex ?_ ?_
    · unfold Turn.adoptNewer
      split
      · split <;> rfl
      · rfl
    · rw [Turn.log_append]
      exact Log.lastIndex_append ..
  | backOff hrole hi => exact .backedOff hrole hi rfl rfl rfl
  | record hrole hi hlast => exact .recorded hrole hi hlast rfl rfl rfl
  | @commit q hrole =>
    obtain ⟨capturing, captures, hnode, -⟩ := n.turn.commitUntil_cases q true
    rw [hnode]
    exact .kept rfl rfl fun _ => ⟨hrole, .inl rfl⟩
  | @finish s hi =>
    refine .kept rfl rfl fun hlead => ⟨hlead, ?_⟩
    cases s with
    | none => exact .inl rfl
    | some s => exact .inr ⟨s, hi.resolve_right fun h => (nomatch h.1), rfl⟩
  | @accept sender leader prevTerm prev commit entries hi hrole =>
    refine hfollower hrole (n.turn.same_takeEntries ..) ?_
    obtain ⟨u, capturing, hu, hm⟩ := n.turn.node_takeEntries sender prev entries commit
    rw [hm]
    rcases hu with ⟨-, rfl⟩ | rfl
    · rfl
    · exact (n.turn.mergeEntries entries prev).matchIndex_syncConfig
  | @install sender leader s hi hrole =>
    refine hfollower hrole (n.turn.same_takeSnapshot s) ?_
    unfold Turn.takeSnapshot
    split
    · exact Turn.matchIndex_syncConfig _
    · rfl
  | observe | yield | campaign | await | enter | adopt => exact .of_role rfl rfl nofun
  | count _ hrole => exact .of_role rfl rfl (by rw [hrole]; nofun)
  | @enroll _ member required _ hrole =>
    obtain ⟨role, hm, hcases⟩ := Turn.addMember_cases hrole member required
    rw [hm]
    refine .of_role rfl rfl ?_
    rcases hcases with ⟨rfl, -⟩ | ⟨rfl, -⟩ <;> nofun
  | _ => exact .kept rfl rfl fun h => ⟨h, .inl rfl⟩

/-- Nothing is known of a peer before it has acknowledged something. -/
theorem Act.fallback_matchIndex (a : Act i n es js m) (h : n.matchIndex.fallback = 0) :
    m.matchIndex.fallback = 0 := by
  cases a.reckoning with
  | kept _ hmatch => rwa [hmatch]
  | elected _ _ hmatch => rw [hmatch]; rfl
  | appended _ _ hmatch => rwa [hmatch]
  | backedOff _ _ _ hmatch => rwa [hmatch]
  | recorded _ _ _ _ hmatch => rwa [hmatch, Progress.fallback_raise]

/-! ### The end of the log -/

/-- A leader reckons nobody to be beyond the end of its log. -/
structure Node.WithinLog (n : Node) : Prop where
  next : n.role = .leader → ∀ p, n.nextIndex.get p ≤ n.log.lastIndex + 1
  matched : n.role = .leader → ∀ p, n.matchIndex.get p ≤ n.log.lastIndex

theorem Node.WithinLog.of_role (h : n.role ≠ .leader) : n.WithinLog :=
  ⟨fun hlead => absurd hlead h, fun hlead => absurd hlead h⟩

/-- Only the end of a capture can make the log of a leader shorter. -/
theorem Reckoning.withinLog (h : Reckoning i n m) (hn : n.WithinLog)
    (hi : ∀ s, i ≠ .snapshotPrepared (some s)) : m.WithinLog := by
  cases h with
  | kept hnext hmatch hlog =>
    by_cases hlead : m.role = .leader
    · obtain ⟨hrole, hlast⟩ := hlog hlead
      have hlast := hlast.resolve_right fun ⟨s, hs, _⟩ => hi s hs
      refine ⟨fun _ p => ?_, fun _ p => ?_⟩
      · rw [hnext, hlast]
        exact hn.next hrole p
      · rw [hmatch, hlast]
        exact hn.matched hrole p
    · exact .of_role hlead
  | elected _ hnext hmatch hlog =>
    refine ⟨fun _ p => ?_, fun _ p => ?_⟩
    · rw [hnext, hlog]
      exact Nat.le_succ _
    · rw [hmatch]
      exact Nat.zero_le _
  | appended hrole hnext hmatch hlog =>
    refine ⟨fun _ p => ?_, fun _ p => ?_⟩
    · rw [hnext, hlog]
      exact Nat.le_succ_of_le (hn.next hrole p)
    · rw [hmatch, hlog, Progress.get_set]
      split
      · exact Nat.le_refl _
      · exact Nat.le_succ_of_le (hn.matched hrole p)
  | @backedOff sender hrole _ hnext hmatch hlog =>
    refine ⟨fun _ p => ?_, fun _ p => ?_⟩
    · have hp := hn.next hrole p
      have hsender := hn.next hrole sender
      rw [hnext, hlog, Progress.backOff, Progress.get_set]
      split <;> omega
    · rw [hmatch, hlog]
      exact hn.matched hrole p
  | recorded hrole _ hlast hnext hmatch hlog =>
    refine ⟨fun _ p => ?_, fun _ p => ?_⟩
    · rw [hnext, hlog]
      exact Progress.get_raise_le_of_le (hn.next hrole) _ (Nat.succ_le_succ hlast) p
    · rw [hmatch, hlog]
      exact Progress.get_raise_le_of_le (hn.matched hrole) _ hlast p

/-- A transition keeps what a leader reckons within its log, if a snapshot that it is handed leaves
the end of the log where it is. -/
theorem step_withinLog (h : step n i = .ok (m, es)) (hn : n.WithinLog)
    (hi : n.role = .leader → ∀ s, i = .snapshotPrepared (some s) →
      (n.log.compact s).lastIndex = n.log.lastIndex) : m.WithinLog := by
  by_cases hsnapshot : ∃ s, i = .snapshotPrepared (some s)
  · obtain ⟨s, rfl⟩ := hsnapshot
    obtain ⟨rfl, -⟩ := Prod.mk.inj (Except.ok.inj (h.symm.trans
      (step_of_process (t := n.turn.finishCapture (some s)) rfl)))
    refine ⟨fun hrole p => ?_, fun hrole p => ?_⟩
    · exact Nat.le_trans (hn.next hrole p) (Nat.succ_le_succ (Nat.le_of_eq (hi hrole s rfl).symm))
    · exact Nat.le_trans (hn.matched hrole p) (Nat.le_of_eq (hi hrole s rfl).symm)
  · refine step_keeps Node.WithinLog (fun j => ∀ s, j ≠ .snapshotPrepared (some s)) h hn
      (fun s hs => hsnapshot ⟨s, hs⟩) fun hn hi a =>
        ⟨a.reckoning.withinLog hn hi, a.raises_keeps hi ?_⟩
    rintro _ hown s rfl
    exact hown

end Raft
