import Raft.Proofs.Contracts
import Raft.Proofs.Tally

/-!
# Acknowledgements move peers forward

A leader that is told that a peer has everything up to some position takes note of it in both of its
tables, and never to the disadvantage of a peer of which something is recorded: an acknowledgement
that is late or comes twice says no more than what is recorded already. Of a peer that has not
answered yet nothing is recorded. The last known entry is 0 then, so that anything is a gain, but
for the next entry the leader had assumed the end of its own log, and an acknowledgement of less
takes it back (`Node.Overrates`).

* `Node.Headway`, what a transition on an acknowledgement makes of the tables;
* `Life.withinLog`, a leader has its own log up to the end, as long as its log keeps its end when a
  snapshot is taken (`Life.KeepsEnd`);
* `Life.moves_forward`, no peer falls back, except for the one that was overrated.
-/

namespace Raft

namespace Node

/-- The leader has nothing recorded of the peer, and has assumed more of it than it holds. -/
structure Overrates (n : Node) (p : PeerId) (last : Nat) : Prop where
  unheard : n.nextIndex.recorded? p = none
  less : last + 1 < n.nextIndex.fallback

instance (n : Node) (p : PeerId) (last : Nat) : Decidable (n.Overrates p last) :=
  decidable_of_iff (n.nextIndex.recorded? p = none ∧ last + 1 < n.nextIndex.fallback)
    ⟨fun h => ⟨h.1, h.2⟩, fun h => ⟨h.1, h.2⟩⟩

/-- What becomes of the tables of `n` when `sender` acknowledges everything up to `last`. The node
itself counts only as far as its own log goes. -/
structure Headway (n : Node) (sender : PeerId) (last : Nat) (m : Node) : Prop where
  id : m.id = n.id
  next : m.nextIndex = n.nextIndex ∨ m.nextIndex = n.nextIndex.raise sender (last + 1)
  matched : ∀ p, (p = n.id → n.WithinLog) → n.matchIndex.get p ≤ m.matchIndex.get p
  fallback : m.matchIndex.fallback = 0
  withinLog : n.WithinLog → m.WithinLog

variable {n m : Node} {sender : PeerId} {last : Nat}

theorem Headway.start (h : n.matchIndex.fallback = 0) : n.Headway sender last n :=
  ⟨rfl, .inl rfl, fun _ _ => Nat.le_refl _, h, fun h => h⟩

/-- Taking note of an acknowledgement twice is no different from doing so once. -/
theorem Headway.next_raise (h : n.Headway sender last m) :
    m.nextIndex.raise sender (last + 1) = n.nextIndex.raise sender (last + 1) := by
  rcases h.next with hnext | hnext
  · rw [hnext]
  · rw [hnext, Progress.raise_raise]

/-- Nobody falls back, unless the leader has assumed too much. -/
theorem Headway.next_cases (h : n.Headway sender last m) (p : PeerId) :
    n.nextIndex.get p ≤ m.nextIndex.get p ∨
      (p = sender ∧ n.Overrates p last ∧ m.nextIndex.get p = last + 1) := by
  rcases h.next with hnext | hnext
  · exact .inl (by rw [hnext])
  · rw [hnext]
    by_cases hp : p = sender ∧ n.Overrates p last
    · obtain ⟨rfl, hover⟩ := hp
      refine .inr ⟨rfl, hover, ?_⟩
      rw [Progress.raise_of_none hover.unheard, Progress.get_set, if_pos rfl]
    · refine .inl (Progress.get_le_get_raise fun heq hnone => Nat.le_of_not_lt fun hlt => ?_)
      subst heq
      exact hp ⟨rfl, hnone, hlt⟩

end Node

variable {i j : Input} {n m k : Node} {sender : PeerId} {t last : Nat} {es : List Effect}
  {js : List Input}

theorem Input.Acknowledges.not_decides (h : i.Acknowledges sender t last) (t' : Nat) :
    ¬ i.Decides t' := by
  rintro (rfl | ⟨voter, rfl⟩)
  · rcases h with h | h <;> cases h
  · rcases h with h | h <;> cases h

theorem Input.Acknowledges.ne_snapshotPrepared (h : i.Acknowledges sender t last)
    (s : Option Snapshot) : i ≠ .snapshotPrepared s := by
  rcases h with rfl | rfl <;> nofun

theorem Input.Acknowledges.unique {sender' : PeerId} {t' last' : Nat}
    (h : i.Acknowledges sender t last) (h' : i.Acknowledges sender' t' last') :
    sender' = sender ∧ last' = last := by
  rcases h with rfl | rfl <;> rcases h' with h' | h' <;> cases h' <;> exact ⟨rfl, rfl⟩

/-- What a node does on an acknowledgement, and on what it raises itself, makes headway. -/
theorem Act.headway (a : Act j m es js k) (hj : j.Acknowledges sender t last ∨ j.IsOwn)
    (h : n.Headway sender last m) : n.Headway sender last k := by
  have hwithin : n.WithinLog → k.WithinLog := fun hn => by
    refine a.reckoning.withinLog (h.withinLog hn) fun s => ?_
    rcases hj with hj | hj
    · exact hj.ne_snapshotPrepared s
    · rintro rfl
      exact hj
  have hid := a.shift.1.trans h.id
  have hfallback := a.fallback_matchIndex h.fallback
  cases a.reckoning with
  | kept hnext hmatch =>
    exact ⟨hid, hnext ▸ h.next, fun p hp => hmatch ▸ h.matched p hp, hfallback, hwithin⟩
  | elected hi =>
    rcases hj with hj | hj
    · exact absurd hi (hj.not_decides _)
    · exact absurd hi hj.not_decides
  | appended hrole hnext hmatch =>
    refine ⟨hid, hnext ▸ h.next, fun p hp => ?_, hfallback, hwithin⟩
    refine Nat.le_trans (h.matched p hp) ?_
    rw [hmatch, Progress.get_set]
    split
    next hself =>
      have hown := (h.withinLog (hp (hself.trans h.id))).matched hrole p
      exact Nat.le_succ_of_le hown
    next => exact Nat.le_refl _
  | backedOff _ hi =>
    rcases hi with rfl | rfl <;> rcases hj with (hj | hj) | hj <;> cases hj
  | @recorded peer last' hrole hi _ hnext hmatch =>
    rcases hj with hj | hj
    · obtain ⟨rfl, rfl⟩ := hj.unique hi
      refine ⟨hid, .inr (hnext.trans h.next_raise), fun p hp => ?_, hfallback, hwithin⟩
      refine Nat.le_trans (h.matched p hp) (hmatch ▸ Progress.get_le_get_raise fun _ _ => ?_)
      exact h.fallback ▸ Nat.zero_le _
    · rcases hi with rfl | rfl <;> exact hj.elim

theorem headway_of_step (h : step n i = .ok (m, es)) (hi : i.Acknowledges sender t last)
    (hfallback : n.matchIndex.fallback = 0) : n.Headway sender last m :=
  step_keeps (n.Headway sender last) (fun j => j.Acknowledges sender t last ∨ j.IsOwn) h
    (.start hfallback) (.inl hi) fun hx hj a =>
      ⟨a.headway hj hx, a.raises_keeps hj fun _ hown => .inr hown⟩

namespace Life

variable (l : Life)

/-- Up to moment `k`, no snapshot that the node is handed while it leads moves the end of its log.
-/
def KeepsEnd (k : Nat) : Prop :=
  ∀ j < k, (l.after j).role = .leader → ∀ s, l.inputs[j]? = some (.snapshotPrepared (some s)) →
    ((l.after j).log.compact s).lastIndex = (l.after j).log.lastIndex

theorem fallback_matchIndex (k : Nat) : (l.after k).matchIndex.fallback = 0 := by
  refine l.keeps (·.matchIndex.fallback = 0) ?_ (fun h a => a.fallback_matchIndex h) k
  rcases l.isNew with ⟨id, settings, h⟩ | ⟨id, settings, s, h⟩ <;>
  · rw [h]
    rfl

theorem withinLog {k : Nat} (h : l.KeepsEnd k) : (l.after k).WithinLog := by
  induction k with
  | zero => exact .of_role fun hlead => nomatch l.role_start.symm.trans hlead
  | succ k ih =>
    have hk := ih fun j hj => h j (Nat.lt_succ_of_lt hj)
    rcases l.after_succ_cases k with heq | ⟨i, es, hi, hstep⟩
    · rwa [heq]
    · refine step_withinLog hstep hk fun hlead s hs => ?_
      exact h k (Nat.lt_succ_self k) hlead s (hs ▸ hi)

/-- When a node is told that a peer has everything up to some position, in whatever term, how late
and how often, then no peer falls back in either of its tables. The exception is the peer itself, if
the node has nothing recorded of it and has assumed more: it is put right behind what it has
acknowledged. Of its own log the node itself has everything, as long as that log has kept its end.
-/
theorem moves_forward {k : Nat} {i : Input} {sender : PeerId} {t last : Nat}
    (hi : l.inputs[k]? = some i) (hack : i.Acknowledges sender t last) (p : PeerId) :
    ((l.after k).nextIndex.get p ≤ (l.after (k + 1)).nextIndex.get p ∨
      (p = sender ∧ (l.after k).Overrates p last ∧
        (l.after (k + 1)).nextIndex.get p = last + 1)) ∧
    ((p = (l.after k).id → l.KeepsEnd k) →
      (l.after k).matchIndex.get p ≤ (l.after (k + 1)).matchIndex.get p) := by
  have hheadway : (l.after k).Headway sender last (l.after (k + 1)) := by
    rcases l.after_succ_cases k with heq | ⟨i', es, hi', hstep⟩
    · rw [heq]
      exact .start (l.fallback_matchIndex k)
    · obtain rfl := Option.some.inj (hi.symm.trans hi')
      exact headway_of_step hstep hack (l.fallback_matchIndex k)
  exact ⟨hheadway.next_cases p, fun hp => hheadway.matched p fun hself => l.withinLog (hp hself)⟩

/-- Node 1 follows node 2 for a term, and is elected with three entries in its log. Node 2
acknowledges the first of them, then everything, and then the first one comes once more. -/
def overtaken : Life where
  start := .fresh ⟨1⟩ { seeds := .ofList [⟨2⟩] }
  isNew := .inl ⟨_, _, rfl⟩
  inputs :=
    [.message ⟨2⟩ (.changeConfiguration (.stable 1 (.ofList [⟨1⟩, ⟨2⟩]))),
      .message ⟨2⟩ (.appendEntries ⟨2⟩ 1 0 0
        [⟨1, 1, .noop, none⟩, ⟨1, 2, .noop, none⟩, ⟨1, 3, .noop, none⟩] 0),
      .timeout .election, .message ⟨2⟩ (.grantVote 2), .message ⟨2⟩ (.appendAccepted 2 1),
      .message ⟨2⟩ (.appendAccepted 2 4), .message ⟨2⟩ (.appendAccepted 2 1)]

/-- What comes late takes nothing back. -/
theorem moves_forward_overtaken : (overtaken.after 6).role = .leader ∧ ∀ p,
    (overtaken.after 6).nextIndex.get p ≤ (overtaken.after 7).nextIndex.get p ∧
    (overtaken.after 6).matchIndex.get p ≤ (overtaken.after 7).matchIndex.get p := by
  refine ⟨by decide +kernel, fun p => ?_⟩
  have hlate : Input.Acknowledges (.message ⟨2⟩ (.appendAccepted 2 1)) ⟨2⟩ 2 1 := .inl rfl
  obtain ⟨hnext, hmatch⟩ := overtaken.moves_forward (k := 6) rfl hlate p
  refine ⟨hnext.resolve_right ?_, hmatch fun _ j hj hlead s hs => ?_⟩
  · rintro ⟨rfl, hover, -⟩
    exact absurd hover (by decide +kernel)
  · exact absurd (List.mem_of_getElem? hs) (by simp [overtaken])

/-- The first acknowledgement of all takes node 2 back: its next entry was assumed to be the last
one, and is the second one afterwards. -/
theorem not_moves_forward_overtaken :
    (overtaken.after 4).role = .leader ∧ (overtaken.after 5).role = .leader ∧
      (overtaken.after 4).term = (overtaken.after 5).term ∧
      overtaken.inputs[4]? = some (.message ⟨2⟩ (.appendAccepted 2 1)) ∧
      ¬ ∀ p, (overtaken.after 4).nextIndex.get p ≤ (overtaken.after 5).nextIndex.get p := by
  refine ⟨by decide +kernel, by decide +kernel, by decide +kernel, rfl, fun h => ?_⟩
  exact absurd (h ⟨2⟩) (by decide +kernel)

end Life

end Raft
