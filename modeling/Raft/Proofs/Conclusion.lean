import Raft.Proofs.Stages
import Raft.Proofs.Succession

/-!
# No leader is left with a joint configuration that is committed

A change of members ends with an entry that the leader submits to itself, and it has to do so as
soon as the joint configuration in force is committed, whoever committed it. `Node.Stranded` is a
leader that has missed this.

* `Turn.Heeds`, what a leader does that may have committed something, and `Turn.Deed.heeds`: either
  that is what an input comes to, or nobody comes to lead and nobody is stranded who was not before;
* `Turn.concludes_dispatch`, what the leader submits to itself takes the place of the joint
  configuration;
* `Life.concludes`, a leader is stranded at no moment, and where a joint configuration is found
  committed its successor is in force one stage later.
-/

namespace Raft

/-- The last live entry of a kind has the highest position. -/
theorem Log.Contiguous.index_le_of_find? {log : Log} (h : log.Contiguous) {p : Entry → Bool}
    {e f : Entry} (he : log.entries.reverse.find? p = some e) (hf : f ∈ log.entries)
    (hp : p f = true) : f.index ≤ e.index := by
  obtain ⟨-, behind, before, hsplit, hnone⟩ := List.find?_eq_some_iff_append.1 he
  have hentries : log.entries = before.reverse ++ e :: behind.reverse := by
    have := congrArg List.reverse hsplit
    simpa using this
  have hindex : e.index = log.prevIndex + 1 + before.length :=
    h before.length e (by simp [hentries])
  rw [hentries] at hf
  rcases List.mem_append.1 hf with hf | hf
  · obtain ⟨k, hk⟩ := List.mem_iff_getElem?.1 hf
    have hlt := (List.getElem?_eq_some_iff.1 hk).1
    have hfindex := h k f (by rw [hentries, List.getElem?_append_left hlt, hk])
    rw [List.length_reverse] at hlt
    omega
  · rcases List.mem_cons.1 hf with rfl | hf
    · exact Nat.le_refl _
    · have hnot := hnone f (List.mem_reverse.1 hf)
      rw [hp] at hnot
      cases hnot

namespace Node

variable {n m : Node}

/-- A leader with a joint configuration in force whose newest live entry is committed. -/
def Stranded (n : Node) : Prop :=
  n.role = .leader ∧ n.config.isJoint = true ∧
    ∃ e, n.log.entries.reverse.find? (·.command = .configuration n.config) = some e ∧
      e.index ≤ n.log.committed

/-- What a leader submits to itself to end a change. -/
def conclusion (n : Node) : Input :=
  .message n.id (.submit ⟨n.id, .configuration n.config.settled⟩)

theorem Stranded.hasCommitted (h : n.Stranded) : n.hasCommitted n.config = true := by
  obtain ⟨-, -, e, he, hle⟩ := h
  unfold Node.hasCommitted
  rw [he]
  exact decide_eq_true hle

theorem Stranded.congr (h : m.Stranded) (hrole : m.role = .leader → n.role = .leader)
    (hlog : m.log = n.log) (hconfig : m.config = n.config) : n.Stranded := by
  unfold Stranded at h
  rw [hlog, hconfig] at h
  exact ⟨hrole h.1, h.2⟩

/-- A live entry that a compaction leaves behind is committed only if it was before. -/
theorem Stranded.of_compact {s : Snapshot} (hlog : n.log.Contiguous)
    (h : ({ n with log := n.log.compact s } : Node).Stranded) : n.Stranded := by
  obtain ⟨hrole, hjoint, e, he, hle⟩ := h
  refine ⟨hrole, hjoint, ?_⟩
  change (n.log.compact s).entries.reverse.find? (·.command = .configuration n.config) = some e
    at he
  change e.index ≤ (n.log.compact s).committed at hle
  have hcontiguous := hlog.compact s
  have hlast := fun f => hcontiguous.index_le_of_find? (f := f) he
  have hmem := List.mem_reverse.1 (List.mem_of_find?_eq_some he)
  have hc := List.find?_some he
  unfold Log.compact at he hle hmem hlast
  split at he
  next hold =>
    rw [if_pos hold] at hle
    exact ⟨e, he, hle⟩
  next hnew =>
    rw [if_neg hnew] at hle hmem hlast
    simp only at hle hmem hlast
    split at hmem
    next hterm =>
      rw [if_pos hterm] at hlast
      obtain ⟨hmem, hbehind⟩ := List.mem_filter.1 hmem
      simp only [decide_eq_true_eq] at hbehind
      -- the newest entry stays where it is, since it stands behind this one
      obtain ⟨f, hf⟩ : ∃ f, n.log.entries.reverse.find?
          (·.command = .configuration n.config) = some f := by
        rw [← Option.isSome_iff_exists, List.find?_isSome]
        exact ⟨e, List.mem_reverse.2 hmem, hc⟩
      have hef := hlog.index_le_of_find? hf hmem hc
      have hfmem := List.mem_reverse.1 (List.mem_of_find?_eq_some hf)
      have hfc := List.find?_some hf
      have hfe := hlast f (List.mem_filter.2 ⟨hfmem, by simpa using by omega⟩) hfc
      refine ⟨f, hf, ?_⟩
      omega
    next => cases hmem

end Node

namespace Turn

variable {i j : Input} {t u v : Turn} {ss : List Stage}

/-! ### What may have committed something -/

/-- A leader that finds the joint configuration in force committed submits its successor. -/
def Heeds (t u : Turn) : Prop :=
  u.node.role = .leader → u.node.config.isJoint = true → u.node.hasCommitted u.node.config = true →
    u.pending = t.pending ++ [u.node.conclusion]

theorem heeds_finishChange (hpending : u.pending = t.pending) : t.Heeds u.finishChange := by
  intro _ hjoint hcommitted
  rw [node_finishChange] at hjoint hcommitted ⊢
  unfold finishChange
  simp only
  rw [if_pos ⟨hjoint, hcommitted⟩, ← hpending]
  rfl

theorem heeds_advanceCommit (hpending : u.pending = t.pending) : t.Heeds u.advanceCommit := by
  unfold advanceCommit
  simp only
  split
  next => exact heeds_finishChange ((clean_commitUntil ..).pending.trans hpending)
  next => exact heeds_finishChange hpending

theorem heeds_leaveIfRemoved (h : t.Heeds u) : t.Heeds u.leaveIfRemoved := by
  unfold leaveIfRemoved
  split
  next => exact h
  next =>
    intro hrole
    rw [role_stepDown] at hrole
    cases hrole

theorem heeds_appendRequest {r : Request} (h : t.appendRequest r = .ok u) : t.Heeds u := by
  rw [appendRequest_eq] at h
  obtain ⟨w, hw, rfl⟩ := exists_of_map h
  refine heeds_leaveIfRemoved (heeds_advanceCommit ?_)
  rw [(clean_replicate hw).pending, pending_append]

theorem heeds_lead (h : t.lead = .ok u) : t.Heeds u := by
  rw [lead_eq] at h
  obtain ⟨w, hw, rfl⟩ := exists_of_map h
  exact heeds_advanceCommit ((clean_replicate hw).pending.trans (clean_elected t).pending)

/-- A leader that may have committed something goes on to the successor. Otherwise nobody comes to
lead, and nobody is stranded who was not before. -/
theorem Deed.heeds (h : Deed i t u) (hlog : t.node.log.Contiguous) : t.Heeds u ∨
    ((u.node.role = .leader → t.node.role = .leader) ∧ (u.node.Stranded → t.node.Stranded)) := by
  have hretains : t.node.Retains u.node →
      (u.node.role = .leader → t.node.role = .leader) ∧ (u.node.Stranded → t.node.Stranded) :=
    fun h => ⟨fun hlead => (h.leads hlead).1, fun hu =>
      hu.congr (fun hlead => (h.leads hlead).1) h.log (h.leads hu.1).2⟩
  cases h with
  | calm h => exact .inr (hretains h.retains)
  | again _ _ h hu => exact .inr (hretains (hu ▸ h.retains))
  | meet _ _ _ hnode => exact .inr (hretains (hnode ▸ .refl _))
  | propose _ _ _ hu | speak _ _ hu => exact .inr (hretains (hu ▸ .refl _))
  | lead h _ _ _ _ hu =>
    refine .inl fun hrole hjoint hcommitted => ?_
    rw [heeds_lead hu hrole hjoint hcommitted, h.clean.pending]
  | append _ _ hu => exact .inl (heeds_appendRequest hu)
  | record _ _ _ hu =>
    rw [hu]
    exact .inl (heeds_advanceCommit rfl)
  | heed hrole _ _ h =>
    have hfollows : u.node.role = .follower := h.same.role.trans hrole
    have hnot : u.node.role ≠ .leader := by simp [hfollows]
    exact .inr ⟨fun hlead => absurd hlead hnot, fun hu => absurd hu.1 hnot⟩
  | capture _ hu =>
    rcases capture_cases hu with ⟨-, rfl⟩ | ⟨about, -, rfl⟩
    · exact .inr ⟨id, id⟩
    · exact .inr ⟨id, fun hw => hw.congr id rfl rfl⟩
  | @finish s _ hu =>
    subst hu
    refine .inr ⟨id, fun hw => ?_⟩
    cases s with
    | none => exact hw.congr id rfl rfl
    | some s => exact Node.Stranded.of_compact hlog (hw.congr id rfl rfl)

/-! ### The successor -/

theorem config_advanceCommit (t : Turn) : t.advanceCommit.node.config = t.node.config := by
  obtain ⟨k, capturing, hnode⟩ := t.node_advanceCommit
  rw [hnode]
  rfl

theorem config_appendRequest {r : Request} (h : t.appendRequest r = .ok u) : u.node.config =
    match r.command.configuration? with
    | some c => if c.isNewerThan t.node.config then c else t.node.config
    | none => t.node.config := by
  refine Eq.trans ?_ (t.config_append r.command (some r.client))
  rw [appendRequest_eq] at h
  obtain ⟨w, hw, rfl⟩ := exists_of_map h
  rw [(sameRecord_leaveIfRemoved _).config, config_advanceCommit, node_replicate hw]

/-- What a leader submits to itself puts the successor in force and in the log. -/
theorem concludes_dispatch (hrole : t.node.role = .leader) (hjoint : t.node.config.isJoint = true)
    (h : t.dispatch t.node.conclusion = .ok u) : u.node.config = t.node.config.settled ∧
      ∃ e ∈ u.node.log.entries,
        e.index = t.node.log.nextIndex ∧ e.command = .configuration t.node.config.settled := by
  simp only [Node.conclusion, dispatch, onMessage, onSubmit, if_pos hrole] at h
  have hnewer : t.node.config.settled.isNewerThan t.node.config = true :=
    decide_eq_true (Configuration.sequence_lt_settled hjoint)
  refine ⟨?_, ?_⟩
  · rw [config_appendRequest h]
    exact if_pos hnewer
  · rw [entries_appendRequest h]
    exact ⟨_, List.mem_append_right _ (List.mem_singleton_self _), rfl, rfl⟩

end Turn

/-! ### One stage after the other -/

/-- Whether a leader finds a joint configuration committed: it has a live entry that is, or the node
has just been elected with one that its log records as committed. -/
def Stage.CallsForConclusion (s : Stage) : Prop :=
  s.after.Stranded ∨ (s.before.role ≠ .leader ∧ s.after.role = .leader ∧
    s.after.config.isJoint = true ∧ s.after.hasCommitted s.after.config = true)

/-- Whether the stage `s'` ends the change that is in progress after `s`. -/
structure Stage.IsConcludedBy (s s' : Stage) : Prop where
  before : s'.before = s.after
  input : s'.input = s.after.conclusion
  config : s'.after.config = s.after.config.settled
  entry : ∃ e ∈ s'.after.log.entries,
    e.index = s.after.log.nextIndex ∧ e.command = .configuration s.after.config.settled

namespace Turn

variable {i : Input} {t u v : Turn} {ss : List Stage} {es : List Effect}

/-- If a leader that is stranded takes up nothing but the end of the change, then after any input
that end is all that is pending wherever it is called for. -/
theorem pending_of_callsForConclusion (ht : t.pending = []) (hlog : t.node.log.Contiguous)
    (hi : t.node.Stranded → i = t.node.conclusion) (hu : t.dispatch i = .ok u)
    (hcalls : (⟨t.node, i, es, u.node⟩ : Stage).CallsForConclusion) :
    u.pending = [u.node.conclusion] := by
  have hjoint : u.node.role = .leader ∧ u.node.config.isJoint = true ∧
      u.node.hasCommitted u.node.config = true := by
    rcases hcalls with h | ⟨-, h⟩
    · exact ⟨h.1, h.2.1, h.hasCommitted⟩
    · exact h
  by_cases hstranded : t.node.Stranded
  · -- the change has just been ended
    obtain rfl := hi hstranded
    have hconfig := (concludes_dispatch hstranded.1 hstranded.2.1 hu).1
    rw [hconfig] at hjoint
    cases hc : t.node.config with
    | stable =>
      have := hstranded.2.1
      rw [hc] at this
      cases this
    | joint =>
      rw [hc] at hjoint
      cases hjoint.2.1
  · rcases (deed_dispatch hu).heeds hlog with hheeds | ⟨hleads, hstrands⟩
    · rw [hheeds hjoint.1 hjoint.2.1 hjoint.2.2, ht, List.nil_append]
    · rcases hcalls with h | ⟨hnot, hlead, -⟩
      · exact absurd (hstrands h) hstranded
      · exact absurd (hleads hlead) hnot

/-- No change is left stranded when an input has been settled, and whatever stage calls for a
conclusion, another one of the same transition draws it. -/
theorem Thread.exists_isConcludedBy (h : Thread i t ss v) (hlog : t.node.log.Anchored)
    (hi : t.node.Stranded → i = t.node.conclusion) :
    ¬ v.node.Stranded ∧ ∀ s ∈ ss, s.CallsForConclusion → ∃ s' ∈ ss, s.IsConcludedBy s' := by
  induction h with
  | @last i t u es ht hu _ hpending =>
    have hnever : ¬ (⟨t.node, i, es, u.node⟩ : Stage).CallsForConclusion := by
      intro hcalls
      cases hpending.symm.trans (pending_of_callsForConclusion ht hlog.contiguous hi hu hcalls)
    refine ⟨fun hstranded => hnever (.inl hstranded), fun s hs hcalls => ?_⟩
    obtain rfl := List.mem_singleton.1 hs
    exact absurd hcalls hnever
  | @next i j t u v es ss ht hu _ hpending _ hrest ih =>
    have hconclusion : (⟨t.node, i, es, u.node⟩ : Stage).CallsForConclusion →
        j = u.node.conclusion := by
      intro hcalls
      have heq := pending_of_callsForConclusion ht hlog.contiguous hi hu hcalls
      rw [hpending] at heq
      exact List.head_eq_of_cons_eq heq
    have hlog' := anchored_dispatch hu hlog
    obtain ⟨hend, hstages⟩ := ih hlog' fun hstranded => hconclusion (.inl hstranded)
    refine ⟨hend, fun s hs hcalls => ?_⟩
    rcases List.mem_cons.1 hs with rfl | hmem
    · obtain rfl := hconclusion hcalls
      have hjoint : u.node.role = .leader ∧ u.node.config.isJoint = true := by
        rcases hcalls with h | ⟨-, hlead, hjoint, -⟩
        · exact ⟨h.1, h.2.1⟩
        · exact ⟨hlead, hjoint⟩
      obtain ⟨w, fs, hw, -, -, hhead⟩ := hrest.exists_head
      obtain ⟨hconfig, hentry⟩ :=
        concludes_dispatch (t := { u with pending := [] }) hjoint.1 hjoint.2 hw
      exact ⟨_, List.mem_cons_of_mem _ hhead, rfl, rfl, hconfig, hentry⟩
    · obtain ⟨s', hs', hconcluded⟩ := hstages s hmem hcalls
      exact ⟨s', List.mem_cons_of_mem _ hs', hconcluded⟩

end Turn

namespace Life

variable (l : Life)

theorem not_stranded (k : Nat) : ¬ (l.after k).Stranded := by
  induction k with
  | zero =>
    rintro ⟨hrole, -⟩
    cases l.role_start.symm.trans hrole
  | succ k ih =>
    rcases l.after_succ_cases k with heq | ⟨i, es, -, hstep⟩
    · rwa [heq]
    · obtain ⟨u, hu, -, hthread⟩ := thread_of_step hstep
      rw [← hu]
      exact (hthread.exists_isConcludedBy (l.anchored_after k) fun h => absurd h ih).1

/-- Whenever a leader has a joint configuration in force, the newest live entry that carries it is
not committed yet. In every transition where it gets committed, or where a node is elected with one
that is committed already, the leader appends its successor and puts it in force. -/
theorem concludes (k : Nat) :
    ((l.after k).role = .leader → (l.after k).config.isJoint = true →
      ∀ e, (l.after k).log.entries.reverse.find?
          (·.command = .configuration (l.after k).config) = some e →
        (l.after k).log.committed < e.index) ∧
    ∀ i m es, step (l.after k) i = .ok (m, es) →
      ∀ s ∈ (l.after k).stages i, s.CallsForConclusion →
        ∃ s' ∈ (l.after k).stages i, s.IsConcludedBy s' := by
  refine ⟨fun hrole hjoint e he => ?_, fun i m es hstep => ?_⟩
  · exact Nat.lt_of_not_le fun hle => l.not_stranded k ⟨hrole, hjoint, e, he, hle⟩
  · obtain ⟨u, -, -, hthread⟩ := thread_of_step hstep
    exact (hthread.exists_isConcludedBy (l.anchored_after k) fun h => absurd h (l.not_stranded k)).2

/-- In a cluster of one node the wish for other members is processed in three stages: the joint
configuration is submitted, it is committed, and so it has to make way. -/
theorem concludes_renewal :
    ∃ s ∈ (renewal.after 2).stages
        (.message ⟨9⟩ (.changeConfiguration (.stable 0 (.ofList [⟨1⟩])))),
      s.after.config = .joint 1 (.ofList [⟨1⟩]) (.ofList [⟨1⟩]) ∧ s.after.log.committed = 2 ∧
      ∃ s' ∈ (renewal.after 2).stages
          (.message ⟨9⟩ (.changeConfiguration (.stable 0 (.ofList [⟨1⟩])))),
        s.IsConcludedBy s' ∧ s'.after.config = .stable 2 (.ofList [⟨1⟩]) := by
  obtain ⟨s, hs, hrole, hconfig, hcommitted, hfind⟩ :
      ∃ s ∈ (renewal.after 2).stages
          (.message ⟨9⟩ (.changeConfiguration (.stable 0 (.ofList [⟨1⟩])))),
        s.after.role = .leader ∧
        s.after.config = .joint 1 (.ofList [⟨1⟩]) (.ofList [⟨1⟩]) ∧ s.after.log.committed = 2 ∧
        s.after.log.entries.reverse.find? (·.command = .configuration s.after.config) =
          some ⟨1, 2, .configuration (.joint 1 (.ofList [⟨1⟩]) (.ofList [⟨1⟩])), some ⟨1⟩⟩ := by
    decide +kernel
  have hcalls : s.CallsForConclusion :=
    .inl ⟨hrole, by rw [hconfig]; rfl, _, hfind, Nat.le_of_eq hcommitted.symm⟩
  obtain ⟨m, es, hstep⟩ : ∃ m es, step (renewal.after 2)
      (.message ⟨9⟩ (.changeConfiguration (.stable 0 (.ofList [⟨1⟩])))) = .ok (m, es) :=
    ⟨_, _, rfl⟩
  obtain ⟨s', hs', hconcluded⟩ := (renewal.concludes 2).2 _ m es hstep s hs hcalls
  refine ⟨s, hs, hconfig, hcommitted, s', hs', hconcluded, ?_⟩
  rw [hconcluded.config, hconfig]
  rfl

end Life

end Raft
