import Raft.Proofs.Moves
import Raft.Proofs.Transitions

/-!
# Transitions while the members stay the same

Of the acts of a transition only the moves are left while the members stay the same: a steady node
that processes a steady input does nothing to find the cluster, asks nobody for a configuration and
proposes none, and it raises no input but the present one (`Act.moves`). So every transition is a
chain of moves (`step_moves`).
-/

namespace Raft

theorem Effect.IsTalk.isIdle {e : Effect} {me : PeerId} (h : e.IsTalk me) : e.IsIdle := by
  have hmessage : ∀ m : Message, m.IsTalk me → m.IsIdle := by
    intro m hm
    cases m <;> trivial
  cases e with
  | send r m => exact hmessage m h
  | forward s r m => exact hmessage m h
  | arm | cancel => trivial
  | apply | restore | prepareSnapshot => exact h.elim

variable {i : Input} {c : Configuration} {n : Node}

/-! ### Committing and following -/

/-- The configuration that a snapshot records is the one that everything agrees with. -/
theorem configurationAt_eq (hn : n.core.Steady c) (i : Nat) : n.configurationAt i = c := by
  have hnone : (n.log.entries.filter (·.index ≤ i)).reverse.findSome?
      (·.command.configuration?) = none := by
    rw [List.findSome?_eq_none_iff]
    intro e he
    exact hn.log.entries e (List.mem_filter.1 (List.mem_reverse.1 he)).1
  unfold Node.configurationAt Log.configurationAt?
  rw [hnone, Option.none_or]
  cases hs : n.log.snapshot with
  | some s => simpa using hn.log.snapshot s hs
  | none =>
    cases hd : n.initialConfig with
    | some d => simpa using hn.initialConfig d hd
    | none => exact hn.config

theorem isCapture_of_snapshotDue? (hn : n.core.Steady c) {about : SnapshotMeta}
    (h : n.snapshotDue? = .ok (some about)) : n.log.IsCapture c about := by
  obtain ⟨-, hpos, -, term, hterm, rfl⟩ := Node.eq_of_snapshotDue? h
  exact ⟨rfl, Nat.pos_of_ne_zero hpos, hterm, configurationAt_eq hn _⟩

namespace Turn

variable {t t' : Turn}

/-- What committing does, with the effects. -/
theorem core_commitUntil (ht : t.node.core.Steady c) (j : Nat) (respond : Bool) :
    ∃ es, (t.commitUntil j respond).effects = t.effects ++ es ∧
      (t.commitUntil j respond).node.core = { t.node.core with log := t.node.log.commit j } ∧
      t.node.log.CommitsWith c j es := by
  have hsteady : ({ t.node with log := t.node.log.commit j } : Node).core.Steady c :=
    ⟨ht.config, ht.isJoint, ht.mem, ht.role, ht.configAskedOf, ht.initialConfig, ht.log.commit j⟩
  obtain ⟨capturing, captures, hnode, heffects, hcaptures⟩ := t.commitUntil_cases j respond
  refine ⟨_, heffects, by rw [hnode]; rfl, respond, captures, rfl, ?_⟩
  rcases hcaptures with hnil | ⟨about, habout, hdue⟩
  · exact .inl hnil
  · exact .inr ⟨about, habout, isCapture_of_snapshotDue? hsteady hdue⟩

/-- The configuration in force is the one that the log calls for already. -/
theorem core_syncConfig (ht : t.node.core.Steady c) : t.syncConfig.node.core = t.node.core := by
  have hlatest : ∀ d, t.node.log.latestConfiguration? = some d → d = c := by
    intro d hd
    have hat := configurationAt_eq ht t.node.log.lastIndex
    unfold Node.configurationAt at hat
    rw [← Log.latestConfiguration?, hd] at hat
    exact hat
  have hasked : t.node.configAskedOf = none := ht.configAskedOf
  have hconfig : t.node.config = c := ht.config
  unfold syncConfig
  split
  next d hd =>
    have hc : d = t.node.config := (hlatest d hd).trans hconfig.symm
    simp only
    rw [if_pos (show d = ({ t.node with configAskedOf := none } : Node).config from hc)]
    simp [Node.core, hasked]
  next =>
    cases hd : t.node.initialConfig with
    | none => rfl
    | some d =>
      simp only
      rw [if_pos ((ht.initialConfig d hd).trans hconfig.symm)]

/-- An empty batch is merged without a trace, and any other one as well as far as the
configuration is concerned. -/
theorem core_takeEntries (ht : t.node.core.Steady c) {prev : Nat} {entries : List Entry}
    (hentries : ∀ e ∈ entries, e.command.configuration? = none) (sender : PeerId)
    (commit : Nat) :
    ∃ es, (t.takeEntries sender prev entries commit).effects =
        t.effects ++ (es ++ [.send sender (.appendAccepted t.node.term (lastOf entries prev))]) ∧
      (t.takeEntries sender prev entries commit).node.core =
        { t.node.core with
          log := (t.node.log.merge entries prev).commit (min commit (lastOf entries prev)) } ∧
      (t.node.log.merge entries prev).CommitsWith c (min commit (lastOf entries prev)) es := by
  have hmerged : (t.mergeEntries entries prev).node.core.Steady c :=
    ⟨ht.config, ht.isJoint, ht.mem, ht.role, ht.configAskedOf, ht.initialConfig,
      ht.log.merge hentries prev⟩
  obtain ⟨u, hu, heffects, htake⟩ := t.takeEntries_cases sender prev entries commit
  have hcore : u.node.core = (t.mergeEntries entries prev).node.core := by
    rcases hu with ⟨rfl, rfl⟩ | rfl
    · rfl
    · exact core_syncConfig hmerged
  obtain ⟨es, hes, hc, hcommits⟩ := core_commitUntil (t := u) (c := c) (hcore ▸ hmerged)
    (min commit (lastOf entries prev)) false
  have hlog : u.node.log = t.node.log.merge entries prev := congrArg Core.log hcore
  have hterm : u.node.term = t.node.term := congrArg Core.term hcore
  rw [hlog] at hc hcommits
  rw [hcore] at hc
  rw [htake]
  refine ⟨es, ?_, hc, hcommits⟩
  show (u.commitUntil (min commit (lastOf entries prev)) false).effects ++
    [.send sender (.appendAccepted u.node.term (lastOf entries prev))] = _
  rw [hes, hterm, heffects, List.append_assoc]

end Turn

/-! ### Leading -/

theorem appendMessage_move {peer : PeerId} {start : Nat} {m : Message}
    (hrole : n.role = .leader) (h : n.appendMessage peer start = .ok m) :
    Move i n.core [.send peer m] n.core := by
  unfold Node.appendMessage at h
  split at h
  · cases h
  · simp only at h
    split at h
    · cases h
    next prevTerm hprev =>
      rw [← Except.ok.inj h]
      exact .sendEntries peer hrole rfl hprev

theorem nextMessage_move {peer : PeerId} {m : Message} (hrole : n.role = .leader)
    (h : n.nextMessage peer = .ok m) : Move i n.core [.send peer m] n.core := by
  unfold Node.nextMessage at h
  simp only at h
  split at h
  · exact appendMessage_move hrole h
  next s hs =>
    split at h
    · rw [← Except.ok.inj h]
      exact .sendSnapshot peer hrole hs
    · exact appendMessage_move hrole h

/-! ### All acts -/

variable {m : Node} {es : List Effect} {js : List Input}

/-- What a leader appends on a quiet input carries no configuration. -/
theorem Input.Appends.configuration? {command : Command} {client : Option PeerId}
    (h : i.Appends command client) (hi : i.IsQuiet) : command.configuration? = none := by
  rcases h with ⟨rfl, -⟩ | ⟨sender, r, rfl, rfl, -⟩
  · rfl
  · exact hi

theorem Act.moves (a : Act i n es js m) (hi : i.Steady c) (hn : n.core.Steady c) :
    Moves i n.core es m.core ∧ ∀ j ∈ js, j = i := by
  have hconfig : n.config = c := hn.config
  have hinit : n.role ≠ .init := hn.role
  have hasked : n.configAskedOf = none := hn.configAskedOf
  have hquiet := hi.quiet
  cases a with
  | talk he => exact ⟨(Move.idle he.isIdle).single, by simp⟩
  | @redirect sender r =>
    have hidle : (Effect.send sender (.leaderIs n.leaderHint (some r))).IsIdle := trivial
    exact ⟨(Move.idle hidle).single, by simp⟩
  | again => exact ⟨.refl _, by simp⟩
  | observe _ _ ht => exact ⟨(Move.observe _ _ ht).single, by simp⟩
  | yield => exact ⟨(Move.yield _).single, by simp⟩
  | campaign =>
    refine ⟨(Move.campaign _ fun e he => ?_).single, by simp⟩
    obtain ⟨p, -, rfl⟩ := List.mem_map.1 he
    exact ⟨p, rfl⟩
  | grant hmsg hrole _ hvote hcurrent =>
    exact ⟨(Move.grant (x := n.core) hmsg hrole hvote (of_decide_eq_true hcurrent)).single,
      by simp⟩
  | count hmsg hrole hmem hnew => exact ⟨(Move.count hmsg hrole hmem hnew).single, by simp⟩
  | elect _ hrole hmaj => exact ⟨(Move.elect _ hrole hmaj).single, by simp⟩
  | @append command client hrole hmsg =>
    have hcommand := hmsg.configuration? hquiet
    have hadopt : (n.turn.appendOwn command client).adoptNewer command =
        n.turn.appendOwn command client := by simp [Turn.adoptNewer, hcommand]
    rw [hadopt]
    exact ⟨(Move.append (x := n.core) hrole rfl rfl hcommand).single, by simp⟩
  | sendNext hrole hm => exact ⟨(nextMessage_move hrole hm).single, by simp⟩
  | backOff => exact ⟨.refl _, by simp⟩
  | record hrole hmsg => exact ⟨(Move.record hmsg hrole).single, by simp⟩
  | commit hrole hq hlt hterm =>
    obtain ⟨es, hes, hcore, hcommits⟩ := Turn.core_commitUntil (t := n.turn) hn _ true
    refine ⟨?_, by simp⟩
    rw [hcore, hes]
    rw [← hconfig] at hcommits
    exact (Move.commit (x := n.core) hrole hq hlt hterm hcommits).single
  | conclude _ hjoint =>
    rw [hconfig, hn.isJoint] at hjoint
    cases hjoint
  | follow => exact ⟨.refl _, by simp⟩
  | @accept _ _ _ _ _ entries hmsg hrole hprev =>
    have hentries : ∀ e ∈ entries, e.command.configuration? = none := by
      have := hi.holds
      rwa [hmsg] at this
    obtain ⟨es, hes, hcore, hcommits⟩ := Turn.core_takeEntries (t := n.turn) hn hentries _ _
    refine ⟨?_, by simp⟩
    rw [hcore, hes]
    rw [← hconfig] at hcommits
    exact (Move.accept (x := n.core) hmsg hrole hprev rfl hcommits).single
  | @install _ _ s hmsg hrole hs =>
    have hsnapshot : s.about.config = c := by
      have := hi.holds
      rwa [hmsg] at this
    have hcompacted : ((n.turn.emit (.restore s)).withLog (·.compact s)).node.core.Steady c :=
      ⟨hn.config, hn.isJoint, hn.mem, hn.role, hn.configAskedOf, hn.initialConfig,
        hn.log.compact hsnapshot⟩
    refine ⟨?_, by simp⟩
    unfold Turn.takeSnapshot
    rw [if_pos (show n.turn.node.log.committed < s.about.index from hs),
      Turn.core_syncConfig hcompacted]
    exact (Move.install (x := n.core) hmsg hrole hs).single
  | covered hmsg hrole hs => exact ⟨(Move.covered hmsg hrole hs).single, by simp⟩
  | capture _ hdue =>
    have hcapture := isCapture_of_snapshotDue? hn hdue
    rw [← hconfig] at hcapture
    exact ⟨(Move.capture (x := n.core) hcapture).single, by simp⟩
  | @finish s hmsg =>
    cases s with
    | none => exact ⟨.refl _, by simp⟩
    | some s =>
      rcases hmsg with hmsg | ⟨hnone, -⟩
      · exact ⟨(Move.compact hmsg).single, by simp⟩
      · cases hnone
  | askAgain _ hask =>
    rw [hasked] at hask
    cases hask
  | probe _ hrole | meet hrole | enroll _ hrole | await _ hrole => exact absurd hrole hinit
  | passRequest hmsg | tell hmsg | enter hmsg | adopt hmsg | dismiss hmsg | passChange hmsg
  | propose hmsg =>
    rw [hmsg] at hquiet
    exact hquiet.elim

theorem Acts.moves (h : Acts i n es js m) (hi : i.Steady c) (hn : n.core.Steady c) :
    Moves i n.core es m.core ∧ ∀ j ∈ js, j = i := by
  induction h with
  | refl => exact ⟨.refl _, by simp⟩
  | tail _ a ih =>
    obtain ⟨hmoves, hsame⟩ := ih
    obtain ⟨hmoves', hsame'⟩ := a.moves hi (hmoves.steady hi hn)
    exact ⟨hmoves.trans hmoves', fun j hj => (List.mem_append.1 hj).elim (hsame j) (hsame' j)⟩

theorem Course.moves {is : List Input} (h : Course is n es m) (his : ∀ j ∈ is, j = i)
    (hi : i.Steady c) (hn : n.core.Steady c) : Moves i n.core es m.core := by
  induction h with
  | nil => exact .refl _
  | @cons j rest js next _ _ _ _ _ h hnext _ ih =>
    obtain rfl := his j (List.mem_cons_self ..)
    obtain ⟨hmoves, hsame⟩ := h.moves hi hn
    refine hmoves.trans (ih (fun k hk => ?_) (hmoves.steady hi hn))
    rcases List.mem_append.1 (hnext.mem_iff.1 hk) with hk | hk
    · exact hsame k hk
    · exact his k (List.mem_cons_of_mem _ hk)

/-- While the members stay the same, a transition is a chain of moves. -/
theorem step_moves (hi : i.Steady c) (hn : n.core.Steady c) (h : step n i = .ok (m, es)) :
    Moves i n.core es m.core := (step_course h).moves (by simp) hi hn

end Raft
