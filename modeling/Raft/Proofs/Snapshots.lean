import Raft.Proofs.Invariant

/-!
# Snapshots everywhere

`Cluster.Snapshots P c` says that every snapshot that a member of the cluster `c` keeps, that is on
its way or that waits somewhere has the property `P`. Snapshots come into being where the
application is captured and nowhere else, so a property of what is captured is one of all of them
(`Snapshots.happen`).

As a first use, no position is ever committed without an entry that was there for all to see
(`Run.exists_commits`).
-/

namespace Raft

variable {σ : Type}

namespace Cluster

/-- All snapshots have a property. -/
structure Snapshots (P : Snapshot → Prop) (c : Cluster σ) : Prop where
  log : ∀ p ∈ c.members, (c.log p).Holds (fun _ => True) P
  carried : c.Carries (·.message.Holds (fun _ => True) P) (fun _ e => e.Holds (fun _ => True) P)
    (fun _ i => i.Holds (fun _ => True) P)

variable {P P' : Snapshot → Prop} {g : History} {sequence : Nat} {c : Cluster σ} {p : PeerId}
  {i : Input} {n : Node} {es : List Effect}

theorem Snapshots.imp (h : c.Snapshots P) (hP : ∀ s, P s → P' s) : c.Snapshots P' where
  log p hp := (h.log p hp).imp (fun _ h => h) hP
  carried :=
    { packets := fun k hk => (h.carried.packets k hk).imp (fun _ h => h) hP
      backlog := fun p hp e he => (h.carried.backlog p hp e he).imp (fun _ h => h) hP
      outcomes := fun p hp i hi => (h.carried.outcomes p hp i hi).imp (fun _ h => h) hP }

/-- So do the snapshots that an event brings. -/
theorem Snapshots.input (h : c.Snapshots P) {e : Event} (he : e.IsOrdinary)
    (hi : c.input? e = some (p, i)) (hp : p ∈ c.members) : i.Holds (fun _ => True) P := by
  rcases c.input_cases hi with ⟨k, hk, rfl, rfl⟩ | hout | ⟨client, m, rfl, rfl⟩ | ⟨timer, rfl⟩ | rfl
  · exact h.carried.packets k hk
  · exact h.carried.outcomes p hp i hout
  · cases m <;> trivial
  · trivial
  · trivial

/-- A transition makes no snapshots. -/
theorem Snapshots.put (h : c.Snapshots P) (hp : p ∈ c.members)
    (hmoves : Moves i (c.node p).core es n.core) (hi : i.Holds (fun _ => True) P) :
    (c.put p { c.site p with
      replica := { (c.site p).replica with node := n }, backlog := es }).Snapshots P := by
  obtain ⟨hlog, heffects⟩ := hmoves.holds (fun _ _ => trivial) hi (h.log p hp)
  constructor
  case log =>
    intro q hq
    by_cases hqp : q = p
    · subst hqp
      rw [Cluster.log, node_put_self]
      exact hlog
    · rw [Cluster.log, node_put_of_ne c _ hqp]
      exact h.log q hq
  case carried =>
    exact h.carried.put rfl (fun _ hk => hk) (fun _ _ _ _ he => he) (fun _ _ _ hj => hj) heffects

theorem Snapshots.accept (h : c.Snapshots P) (hg : c.Sound g sequence)
    (hsteady : p ∈ c.members → i.Steady (.stable sequence c.members))
    (hi : p ∈ c.members → i.Holds (fun _ => True) P) : (c.accept p i).Snapshots P := by
  rcases c.accept_cases p i with heq | ⟨n, es, hp, -, hstep, heq⟩
  · exact heq.symm ▸ h
  · exact heq.symm ▸ h.put hp (hg.moves hp (hsteady hp) hstep) (hi hp)

variable [StateMachine σ]

/-- Carrying out an effect makes a snapshot only by a capture. -/
theorem Snapshots.carryOut (h : c.Snapshots P) (hg : c.Sound g sequence) (p : PeerId)
    (moment : Moment)
    (hcapture : p ∈ c.members → ∀ about data rest,
      (c.site p).backlog = .prepareSnapshot about :: rest →
      StateMachine.capture (c.state p) = .ok data → P ⟨about, data⟩) :
    (c.carryOut p moment).Snapshots P := by
  cases hb : (c.site p).backlog with
  | nil => rwa [carryOut_of_nil moment hb]
  | cons e rest =>
    have he : e ∈ (c.site p).backlog := by simp [hb]
    have hp : p ∈ c.members := hg.mem_of_backlog he
    have hholds := h.carried.backlog p hp e he
    constructor
    case log =>
      intro q hq
      rw [members_carryOut] at hq
      rw [Cluster.log, node_carryOut]
      exact h.log q hq
    case carried =>
      refine h.carried.carryOut moment hp hb ?_ ?_ (fun _ _ _ _ => trivial) ?_ trivial
        fun _ => trivial
      · rintro receiver m rfl
        exact hholds
      · rintro sender receiver m rfl
        exact hholds
      · rintro about data rfl hdata
        exact hcapture hp about data rest hb hdata

/-- What is true of every snapshot that can be captured now is true of all of them, if it has been
so far. -/
theorem Snapshots.happen (h : c.Snapshots P) (hg : c.Sound g sequence) {e : Event}
    (he : e.IsOrdinary)
    (hcapture : ∀ p ∈ c.members, ∀ about data rest,
      (c.site p).backlog = .prepareSnapshot about :: rest →
      StateMachine.capture (c.state p) = .ok data → P ⟨about, data⟩) :
    (c.happen e).Snapshots P := by
  rcases c.happen_cases e with ⟨p, moment, heq⟩ | ⟨p, i, hi, heq⟩ | heq
  · rw [heq]
    exact h.carryOut hg p moment (hcapture p)
  · rw [heq]
    exact h.accept hg (fun hp => (hg.input he hi hp).2) (h.input he hi)
  · rwa [heq]

end Cluster

/-! ### What is committed was seen -/

namespace Run

variable (r : Run σ)

/-- There are no snapshots when a run starts. -/
theorem snapshots_start (P : Snapshot → Prop) : r.start.Snapshots P where
  log p _ := ⟨fun _ _ => trivial, fun s hs => by cases hs⟩
  carried :=
    { packets := by simp [start]
      backlog := by simp [start]
      outcomes := by simp [start] }

variable [StateMachine σ]

/-- At some moment some member has the entry live at position `a`, and knows it as committed. -/
def Commits (r : Run σ) (a : Nat) (e : Entry) : Prop :=
  ∃ p ∈ r.members, ∃ i, a ≤ ((r.after i).log p).committed ∧ ((r.after i).log p).get? a = some e

/-- Every position that a snapshot covers was seen committed. -/
def Covered (r : Run σ) (s : Snapshot) : Prop :=
  ∀ a, 0 < a → a ≤ s.about.index → ∃ e, r.Commits a e

/-- What a member has committed is live, or its snapshot covers it. -/
theorem exists_commits_of_covered {p : PeerId} (hp : p ∈ r.members) {i a : Nat} (ha : 0 < a)
    (hle : a ≤ ((r.after i).log p).committed)
    (hcovered : ∀ s, ((r.after i).log p).snapshot = some s → r.Covered s) :
    ∃ e, r.Commits a e := by
  obtain ⟨g, -, -, hexplains⟩ := r.exists_history i
  obtain ⟨l, hl⟩ := hexplains p hp i (Nat.le_refl i)
  have hlen := hl.abridges.committed_le
  have hget := hl.abridges.get?_eq a
  by_cases hprev : a ≤ ((r.after i).log p).prevIndex
  · unfold Log.prevIndex at hprev
    split at hprev
    next s hs => exact hcovered s hs a ha hprev
    next => omega
  · have hlt : a - 1 < l.length := by
      unfold Cluster.log at hle
      omega
    exact ⟨l[a - 1], p, hp, i, hle,
      hget.trans ((if_neg hprev).trans (List.getElem?_eq_getElem hlt))⟩

/-- Every snapshot of a run covers only what was seen committed. -/
theorem snapshots_after (k : Nat) : (r.after k).Snapshots r.Covered := by
  induction k with
  | zero => exact r.snapshots_start _
  | succ k ih =>
    obtain ⟨g, hg, -⟩ := r.exists_history k
    rcases r.after_succ_cases k with ⟨e, he, heq⟩ | heq
    · rw [heq]
      refine ih.happen hg (r.ordinary e he) ?_
      intro p hp about data rest hb hdata a ha hle
      -- a capture covers no more than the member has committed at this moment
      have hcovers : about.Covers ((r.after k).commits g p) :=
        (hg.backlog p hp (.prepareSnapshot about) (by simp [hb])).1
      have hlength := le_length_of_termIn? hcovers.term
      rw [Cluster.commits, (hg.describes p hp).length_commits] at hlength
      rw [members_after] at hp
      exact r.exists_commits_of_covered hp ha (Nat.le_trans hle hlength)
        (ih.log p (by rwa [members_after])).snapshot
    · rwa [heq]

/-- No position is committed without an entry that was live somewhere when it was committed. -/
theorem exists_commits {p : PeerId} (hp : p ∈ r.members) {i a : Nat} (ha : 0 < a)
    (hle : a ≤ ((r.after i).log p).committed) : ∃ e, r.Commits a e := by
  have hlog := (r.snapshots_after i).log p (by rwa [members_after])
  exact r.exists_commits_of_covered hp ha hle hlog.snapshot

end Run

end Raft
