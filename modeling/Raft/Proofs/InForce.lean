import Raft.Proofs.FollowUps
import Raft.Proofs.Membership
import Raft.Proofs.Steadiness

/-!
# The configuration in force

A leader adopts a configuration because it is newer, a follower because it is the newest one in the
log. Either way a node stays `Node.Synced`.

* `Recast`, all that an act can do to the log of a node and to its configurations, and what follows
  for each of `Log.Contiguous`, `Node.origin` and `Node.Synced`;
* `Node.Tracks`, what comes into force while one input is processed is what the log calls for;
* `inForce_of_step`, a node whose log calls for the configuration in force still has such a log
  after any input, except that a batch may have cut the last configuration off.
-/

namespace Raft

variable {i : Input} {n m : Node} {es : List Effect} {js : List Input}

/-! ### Putting in force what the log calls for -/

namespace Turn

variable (t : Turn)

theorem origin_useConfig (c : Configuration) : (t.useConfig c).node.origin = t.node.origin := by
  unfold Node.origin useConfig
  cases t.node.initialConfig with
  | none => rfl
  | some d => rfl

/-- After `syncConfig` the configuration in force is the one that the log calls for, and the log and
what was in force before it had any are the same. -/
theorem synced_syncConfig : t.syncConfig.node.log = t.node.log ∧
    t.syncConfig.node.origin = t.node.origin ∧ t.syncConfig.node.Synced := by
  unfold syncConfig
  split
  next c hc =>
    simp only
    split
    next heq =>
      refine ⟨rfl, rfl, ?_⟩
      show t.node.config = t.node.log.latestConfiguration?.getD _
      rw [hc]
      exact heq.symm
    next =>
      refine ⟨rfl, origin_useConfig _ c, ?_⟩
      show c = t.node.log.latestConfiguration?.getD _
      rw [hc]
      rfl
  next hnone =>
    split
    next c hc =>
      have horigin : t.node.origin = c := by rw [Node.origin, hc]; rfl
      split
      next heq =>
        refine ⟨rfl, rfl, ?_⟩
        show t.node.config = t.node.log.latestConfiguration?.getD t.node.origin
        rw [hnone, horigin]
        exact heq.symm
      next =>
        refine ⟨rfl, origin_useConfig t c, ?_⟩
        show c = t.node.log.latestConfiguration?.getD (t.useConfig c).node.origin
        rw [hnone, origin_useConfig, horigin]
        rfl
    next hinitial =>
      refine ⟨rfl, rfl, ?_⟩
      show t.node.config = t.node.log.latestConfiguration?.getD t.node.origin
      rw [hnone, Node.origin, hinitial]
      rfl

/-- What a batch makes of a follower: it is merged unless it is empty, and the log is in force. Then
what the leader has committed of it is committed. -/
theorem node_takeEntries (sender : PeerId) (prev : Nat) (entries : List Entry) (commit : Nat) :
    ∃ (u : Turn) (capturing : Bool),
      ((entries = [] ∧ u = t) ∨ u = (t.mergeEntries entries prev).syncConfig) ∧
      (t.takeEntries sender prev entries commit).node =
        { u.node with
          log := u.node.log.commit (min commit (lastOf entries prev))
          capturing := capturing } := by
  obtain ⟨u, hu, -, htake⟩ := t.takeEntries_cases sender prev entries commit
  obtain ⟨capturing, captures, hnode, -⟩ := u.commitUntil_cases (min commit (lastOf entries prev))
    false
  refine ⟨u, capturing, hu, ?_⟩
  rw [htake, ← hnode]
  rfl

/-- Who does not wait for a configuration does not begin to. -/
theorem configAskedOf_syncConfig (h : t.node.configAskedOf = none) :
    t.syncConfig.node.configAskedOf = none := by
  unfold syncConfig
  split
  next =>
    simp only
    split <;> rfl
  next =>
    split
    next => split <;> exact h
    next => exact h

end Turn

/-! ### What a leader appends -/

namespace Turn

variable (t : Turn) (command : Command) (client : Option PeerId)

theorem log_append : ((t.appendOwn command client).adoptNewer command).node.log =
    t.node.log.append { term := t.node.term, index := t.node.log.nextIndex, command, client } := by
  unfold adoptNewer
  split
  next => split <;> rfl
  next => rfl

theorem origin_append :
    ((t.appendOwn command client).adoptNewer command).node.origin = t.node.origin := by
  unfold adoptNewer
  split
  next c _ =>
    split
    next => exact origin_useConfig _ c
    next => rfl
  next => rfl

theorem config_append : ((t.appendOwn command client).adoptNewer command).node.config =
    match command.configuration? with
    | some c => if c.isNewerThan t.node.config then c else t.node.config
    | none => t.node.config := by
  unfold adoptNewer
  cases command.configuration? with
  | none => rfl
  | some c =>
    simp only [show (t.appendOwn command client).node.config = t.node.config from rfl]
    split <;> rfl

end Turn

/-! ### The acts -/

/-- What an act on the input `i` can do to the log of the node `n` and to its configurations. -/
inductive Recast (i : Input) (n m : Node) : Prop
  | same (h : n.SameRecord m)
  | commit (j : Nat) (hlog : m.log = n.log.commit j) (hconfig : m.config = n.config)
    (hinitial : m.initialConfig = n.initialConfig)
  | append {command : Command} {client : Option PeerId} (hrole : n.role = .leader)
    (hi : i.Appends command client)
    (hlog : m.log = n.log.append
      { term := n.term, index := n.log.nextIndex, command := command, client := client })
    (horigin : m.origin = n.origin)
    (hconfig : m.config = match command.configuration? with
      | some c => if c.isNewerThan n.config then c else n.config
      | none => n.config)
  /-- A batch was merged, and what the leader has committed of it was committed. -/
  | merge {sender leader : PeerId} {term prevTerm prev commit j : Nat} {entries : List Entry}
    (hi : i = .message sender (.appendEntries leader term prevTerm prev entries commit))
    (hlog : m.log = (n.log.merge entries prev).commit j) (horigin : m.origin = n.origin)
    (hsynced : m.Synced)
  | install {sender leader : PeerId} {term : Nat} {s : Snapshot}
    (hi : i = .message sender (.installSnapshot leader term s))
    (hlog : m.log = n.log.compact s) (horigin : m.origin = n.origin) (hsynced : m.Synced)
  | finish {s : Snapshot} (hi : i = .snapshotPrepared (some s)) (hlog : m.log = n.log.compact s)
    (hconfig : m.config = n.config) (hinitial : m.initialConfig = n.initialConfig)
  | told {sender : PeerId} {c : Configuration} (hi : i = .message sender (.changeConfiguration c))
    (hc : n.role = .init ∨ n.members.isEmpty = true ∨ n.configAskedOf = some sender)
    (hlog : m.log = n.log) (hconfig : m.config = c) (hinitial : m.initialConfig = n.initialConfig)
  | enroll {sender member : PeerId} {required : Nat}
    (hi : i = .message sender (.memberAdded member required)) (hrole : n.role = .init)
    (hlog : m.log = n.log) (hconfig : m.config.isJoint = false)
    (hinitial : m.initialConfig = n.initialConfig)

theorem Act.recast (a : Act i n es js m) : Recast i n m := by
  cases a with
  | observe => exact .same ⟨rfl, Standing.config_advanceTo .., rfl⟩
  | append hrole hi =>
    exact .append hrole hi (n.turn.log_append ..) (n.turn.origin_append ..)
      (n.turn.config_append ..)
  | @commit q =>
    obtain ⟨capturing, captures, hnode, -⟩ := n.turn.commitUntil_cases q true
    refine .commit q ?_ ?_ ?_ <;> rw [hnode] <;> rfl
  | @accept sender leader prevTerm prev commit entries hi =>
    obtain ⟨u, capturing, hu, hm⟩ := n.turn.node_takeEntries sender prev entries commit
    rw [hm]
    rcases hu with ⟨-, rfl⟩ | rfl
    · exact .commit _ rfl rfl rfl
    · obtain ⟨hlog, horigin, hsynced⟩ := (n.turn.mergeEntries entries prev).synced_syncConfig
      refine .merge (j := min commit (lastOf entries prev)) hi ?_ horigin hsynced
      exact congrArg (Log.commit · _) hlog
  | @install sender leader s hi hrole hs =>
    have htake : n.turn.takeSnapshot s =
        ((n.turn.emit (.restore s)).withLog (·.compact s)).syncConfig := if_pos hs
    rw [htake]
    obtain ⟨hlog, horigin, hsynced⟩ :=
      ((n.turn.emit (.restore s)).withLog (·.compact s)).synced_syncConfig
    exact .install hi hlog horigin hsynced
  | @finish s hi =>
    cases s with
    | none => exact .same ⟨rfl, rfl, rfl⟩
    | some s =>
      rcases hi with hi | ⟨hs, -⟩
      · exact .finish hi rfl rfl rfl
      · cases hs
  | @enroll sender member required hi hrole =>
    obtain ⟨role, hm, -⟩ := Turn.addMember_cases hrole member required
    rw [hm]
    exact .enroll hi hrole rfl rfl rfl
  | enter hi hrole => exact .told hi (.inl hrole) rfl rfl rfl
  | adopt hi _ hc => exact .told hi (.inr (hc.imp_right And.left)) rfl rfl rfl
  | _ => exact .same ⟨rfl, rfl, rfl⟩

/-! ### The log after an act -/

/-- The entries that an input brings. -/
def Input.batch : Input → List Entry
  | .message _ (.appendEntries _ _ _ _ entries _) => entries
  | _ => []

namespace Recast

theorem contiguous (h : Recast i n m) (hn : n.log.Contiguous) : m.log.Contiguous := by
  cases h with
  | same h => exact h.log ▸ hn
  | commit j hlog => exact hlog ▸ hn.commit j
  | append _ _ hlog => exact hlog ▸ hn.append rfl
  | merge _ hlog => exact hlog ▸ (hn.merge _ _).commit _
  | install _ hlog => exact hlog ▸ hn.compact _
  | finish _ hlog => exact hlog ▸ hn.compact _
  | told _ _ hlog => exact hlog ▸ hn
  | enroll _ _ hlog => exact hlog ▸ hn

/-- What holds of all that a node has and is given holds of all that it keeps. -/
theorem holds {Q : Entry → Prop} {P : Snapshot → Prop} (h : Recast i n m) (hn : n.log.Holds Q P)
    (hi : i.Holds Q P)
    (happended : ∀ command client, i.Appends command client →
      Q { term := n.term, index := n.log.nextIndex, command := command, client := client }) :
    m.log.Holds Q P := by
  cases h with
  | same h => exact h.log ▸ hn
  | commit j hlog => exact hlog ▸ hn.commit j
  | append _ happends hlog => exact hlog ▸ hn.append (happended _ _ happends)
  | merge hbatch hlog =>
    subst hbatch
    exact hlog ▸ (hn.merge hi _).commit _
  | install hs hlog =>
    subst hs
    exact hlog ▸ hn.compact hi
  | finish hs hlog =>
    subst hs
    exact hlog ▸ hn.compact hi
  | told _ _ hlog => exact hlog ▸ hn
  | enroll _ _ hlog => exact hlog ▸ hn

/-- Only a batch can leave a log without a configuration. -/
theorem latestConfiguration?_ne_none (h : Recast i n m) (hn : n.log.Contiguous)
    (hlatest : n.log.latestConfiguration? ≠ none) (hi : i.batch = []) :
    m.log.latestConfiguration? ≠ none := by
  have hcompact : ∀ s, (n.log.compact s).latestConfiguration? ≠ none := by
    intro s
    unfold Log.compact
    split
    next => exact hlatest
    next => exact Log.latestConfiguration?_ne_none (Option.some_ne_none s)
  cases h with
  | same h => exact h.log ▸ hlatest
  | commit j hlog =>
    rw [hlog, Log.latestConfiguration?_commit]
    exact hlatest
  | append _ _ hlog =>
    rw [hlog, Log.latestConfiguration?_append hn rfl]
    intro hnone
    exact hlatest (Option.or_eq_none_iff.1 hnone).2
  | merge hi' hlog =>
    subst hi'
    change _ = [] at hi
    subst hi
    rw [hlog, Log.latestConfiguration?_commit]
    exact hlatest
  | install _ hlog => exact hlog ▸ hcompact _
  | finish _ hlog => exact hlog ▸ hcompact _
  | told _ _ hlog => exact hlog ▸ hlatest
  | enroll _ _ hlog => exact hlog ▸ hlatest

/-- What was in force before the log carried a configuration stays the same, unless a node without
one is told. -/
theorem origin (h : Recast i n m) (hrole : n.role ≠ .init) (hasked : n.configAskedOf = none)
    (htold : i.isChange = true → n.members.isEmpty = false ∨ n.initialConfig ≠ none) :
    m.origin = n.origin := by
  have hsame : m.config = n.config → m.initialConfig = n.initialConfig → m.origin = n.origin := by
    intro hconfig hinitial
    rw [Node.origin, hconfig, hinitial, Node.origin]
  cases h with
  | same h => exact h.origin
  | commit j _ hconfig hinitial => exact hsame hconfig hinitial
  | append _ _ _ horigin => exact horigin
  | merge _ _ horigin => exact horigin
  | install _ _ horigin => exact horigin
  | finish _ _ hconfig hinitial => exact hsame hconfig hinitial
  | told hi hc _ _ hinitial =>
    subst hi
    rcases hc with hc | hc | hc
    · exact absurd hc hrole
    · have hsome := (htold rfl).resolve_left (by rw [hc]; exact Bool.noConfusion)
      obtain ⟨c, hc⟩ := Option.ne_none_iff_exists'.1 hsome
      rw [Node.origin, hinitial, Node.origin, hc]
      rfl
    · rw [hasked] at hc
      cases hc
  | enroll _ hinit => exact absurd hinit hrole

end Recast

/-! ### The configuration that the log calls for -/

/-- Whatever comes into force between two states of a node is what its log calls for in the end. -/
structure Node.Tracks (n m : Node) : Prop where
  keeps : n.Synced → m.Synced
  changes : m.config ≠ n.config → m.Synced

theorem Node.Tracks.refl (n : Node) : n.Tracks n := ⟨fun h => h, fun h => absurd rfl h⟩

theorem Node.Tracks.trans {k : Node} (h : n.Tracks m) (h' : m.Tracks k) : n.Tracks k where
  keeps hn := h'.keeps (h.keeps hn)
  changes hk := by
    by_cases hm : k.config = m.config
    · exact h'.keeps (h.changes (hm ▸ hk))
    · exact h'.changes hm

theorem Node.Tracks.of_synced (h : m.Synced) : n.Tracks m := ⟨fun _ => h, fun _ => h⟩

/-- The log calls for the same configuration as before, and the same one is in force. -/
theorem Node.Tracks.of_eq (hconfig : m.config = n.config)
    (hcalled : m.log.latestConfiguration?.getD m.origin =
      n.log.latestConfiguration?.getD n.origin) : n.Tracks m where
  keeps hn := by
    rw [Node.Synced, hconfig, hcalled]
    exact hn
  changes hm := absurd hconfig hm

theorem Node.SameRecord.tracks (h : n.SameRecord m) : n.Tracks m :=
  .of_eq h.config (by rw [h.log, h.origin])

/-- A configuration that is submitted to a leader is newer than the one in force, or the same. -/
def Input.Advances (i : Input) (n : Node) : Prop :=
  ∀ sender r c, i = .message sender (.submit r) → r.command = .configuration c →
    n.role = .leader → c.isNewerThan n.config = true ∨ c = n.config

/-- What the node may have asked to be captured: its log bears out what is recorded of it, or has
been compacted that far in the meantime. -/
def Node.Produced (n : Node) (about : SnapshotMeta) : Prop :=
  n.BearsOut about ∨ (n.log.snapshot.isSome = true ∧ about.index ≤ n.log.prevIndex)

theorem Command.configuration?_eq_some {command : Command} {c : Configuration}
    (h : command.configuration? = some c) : command = .configuration c := by
  cases command with
  | configuration d => exact congrArg Command.configuration (Option.some.inj h)
  | noop | application => cases h

/-- A leader puts a configuration in force that is newer. If it is the one in force, the log calls
for it all the same. -/
theorem Recast.tracks_append {command : Command} {client : Option PeerId} (hn : n.log.Contiguous)
    (hrole : n.role = .leader) (hi : i.Appends command client) (hadvances : i.Advances n)
    (hlog : m.log = n.log.append
      { term := n.term, index := n.log.nextIndex, command := command, client := client })
    (horigin : m.origin = n.origin)
    (hconfig : m.config = match command.configuration? with
      | some c => if c.isNewerThan n.config then c else n.config
      | none => n.config) : n.Tracks m := by
  have hlatest : m.log.latestConfiguration? =
      command.configuration?.or n.log.latestConfiguration? := by
    rw [hlog, Log.latestConfiguration?_append hn rfl]
  cases hcommand : command.configuration? with
  | none =>
    rw [hcommand] at hconfig hlatest
    exact .of_eq hconfig (by rw [hlatest, horigin, Option.none_or])
  | some c =>
    rw [hcommand] at hconfig hlatest
    refine .of_synced ?_
    rw [Node.Synced, hlatest]
    show m.config = c
    rw [hconfig]
    simp only
    split
    next => rfl
    next hold =>
      rcases hi with ⟨rfl, -⟩ | ⟨sender, r, hi, rfl, -⟩
      · cases hcommand
      · have hr := Command.configuration?_eq_some hcommand
        exact ((hadvances sender r c hi hr hrole).resolve_left hold).symm

/-- A snapshot that the node has asked for records what its log calls for without it. -/
theorem Node.Produced.tracks {s : Snapshot} (h : n.Produced s.about) (hn : n.log.Contiguous)
    (hlog : m.log = n.log.compact s) (hconfig : m.config = n.config)
    (hinitial : m.initialConfig = n.initialConfig) : n.Tracks m := by
  by_cases hignored : n.log.snapshot.isSome ∧ s.about.index ≤ n.log.prevIndex
  · have hsame : n.log.compact s = n.log := if_pos hignored
    exact Node.SameRecord.tracks ⟨hlog.trans hsame, hconfig, hinitial⟩
  · have hbears : n.BearsOut s.about := h.resolve_right hignored
    have horigin : m.origin = n.origin := by rw [Node.origin, hinitial, hconfig, Node.origin]
    refine .of_eq hconfig ?_
    rw [hlog, horigin, Log.latestConfiguration?_compact hn hbears.term hignored,
      Log.latestConfiguration?_eq_or hn s.about.index, ← hbears.config, Node.configurationAt_eq]
    cases Log.newestIn (n.log.entries.drop (s.about.index - n.log.prevIndex)) with
    | some c => rfl
    | none => rfl

/-- Whether a node takes part in the cluster and waits for no configuration. -/
def Node.Joined (n : Node) : Prop := n.role ≠ .init ∧ n.configAskedOf = none

/-- An input brings no configuration to the node past its log, and none to its log that would stay
behind the one in force. -/
structure Input.Proper (i : Input) (n : Node) : Prop where
  advances : i.Advances n
  told : i.isChange = true → n.Joined ∧ n.members.isEmpty = false
  enrolled : (∃ sender member required, i = .message sender (.memberAdded member required)) →
    n.Joined

/-- An act tracks the log, unless it brings a configuration past the log. -/
theorem Recast.tracks_or (h : Recast i n m) (hn : n.log.Contiguous) (hadvances : i.Advances n)
    (hproduced : ∀ s, i = .snapshotPrepared (some s) → n.Produced s.about) :
    n.Tracks m ∨
      (∃ sender c, i = .message sender (.changeConfiguration c) ∧
        (n.role = .init ∨ n.members.isEmpty = true ∨ n.configAskedOf = some sender)) ∨
      (∃ sender member required, i = .message sender (.memberAdded member required)) ∧
        n.role = .init ∧ m.config.isJoint = false := by
  cases h with
  | same h => exact .inl h.tracks
  | commit j hlog hconfig hinitial =>
    refine .inl (.of_eq hconfig ?_)
    rw [hlog, Log.latestConfiguration?_commit, Node.origin, hinitial, hconfig, Node.origin]
  | append hrole happends hlog horigin hconfig =>
    exact .inl (tracks_append hn hrole happends hadvances hlog horigin hconfig)
  | merge _ _ _ hsynced => exact .inl (.of_synced hsynced)
  | install _ _ _ hsynced => exact .inl (.of_synced hsynced)
  | finish hi hlog hconfig hinitial =>
    exact .inl ((hproduced _ hi).tracks hn hlog hconfig hinitial)
  | told hi hc => exact .inr (.inl ⟨_, _, hi, hc⟩)
  | enroll hi hrole _ hconfig => exact .inr (.inr ⟨⟨_, _, _, hi⟩, hrole, hconfig⟩)

theorem Recast.tracks (h : Recast i n m) (hn : n.log.Contiguous) (hi : i.Proper n)
    (hproduced : ∀ s, i = .snapshotPrepared (some s) → n.Produced s.about) : n.Tracks m := by
  rcases h.tracks_or hn hi.advances hproduced with htracks | ⟨sender, c, rfl, hc⟩ |
    ⟨henroll, hrole, -⟩
  · exact htracks
  · obtain ⟨⟨hrole, hasked⟩, hmembers⟩ := hi.told rfl
    rcases hc with hc | hc | hc
    · exact absurd hc hrole
    · rw [hmembers] at hc
      cases hc
    · rw [hasked] at hc
      cases hc
  · exact absurd hrole (hi.enrolled henroll).1

/-! ### One input -/

/-- The acts on one input leave a submitted configuration as new as it was. -/
theorem Act.advances (a : Act i n es js m) (h : i.Advances n) : i.Advances m := by
  rintro sender r c rfl hr hrole
  have hlead : n.role = .leader :=
    (a.abides (fun _ => Input.IsOwn.not_decides trivial) fun h => ⟨h, .refl n⟩).1 hrole |>.1
  have hold := h sender r c rfl hr hlead
  cases a.recast with
  | same h => exact h.config ▸ hold
  | commit _ _ hconfig => exact hconfig ▸ hold
  | append _ hi _ _ hconfig =>
    rcases hi with ⟨rfl, -⟩ | ⟨_, _, hi, rfl, -⟩
    · exact hconfig ▸ hold
    · cases hi
      rw [hr] at hconfig
      simp only [Command.configuration?] at hconfig
      split at hconfig
      next => exact .inr hconfig.symm
      next hnot => exact .inr ((hold.resolve_left hnot).trans hconfig.symm)
  | merge hi | install hi | finish hi | told hi | enroll hi => cases hi

theorem Act.joined (a : Act i n es js m) (h : n.Joined) : m.Joined := by
  obtain ⟨hrole, hasked⟩ := h
  cases a with
  | observe | yield | campaign | elect => exact ⟨nofun, hasked⟩
  | adopt => exact ⟨nofun, rfl⟩
  | dismiss => exact ⟨hrole, rfl⟩
  | @append command client =>
    refine ⟨(n.turn.same_append command client).role ▸ hrole, ?_⟩
    unfold Turn.adoptNewer
    split
    next => split <;> exact hasked
    next => exact hasked
  | @commit q =>
    obtain ⟨capturing, captures, hnode, -⟩ := n.turn.commitUntil_cases q true
    rw [hnode]
    exact ⟨hrole, hasked⟩
  | @accept sender leader prevTerm prev commit entries =>
    refine ⟨(n.turn.same_takeEntries ..).role ▸ hrole, ?_⟩
    obtain ⟨u, capturing, hu, hm⟩ := n.turn.node_takeEntries sender prev entries commit
    rw [hm]
    rcases hu with ⟨-, rfl⟩ | rfl
    · exact hasked
    · exact Turn.configAskedOf_syncConfig _ hasked
  | @install sender leader s =>
    refine ⟨(n.turn.same_takeSnapshot s).role ▸ hrole, ?_⟩
    unfold Turn.takeSnapshot
    split
    next => exact Turn.configAskedOf_syncConfig _ hasked
    next => exact hasked
  | enroll _ hinit | await _ hinit | enter _ hinit => exact absurd hinit hrole
  | _ => exact ⟨hrole, hasked⟩

/-- A message with a configuration changes that of no node that has one and waits for none. -/
theorem Recast.config_of_isChange (h : Recast i n m) (hi : i.isChange = true) (hn : n.Joined)
    (hmembers : n.members.isEmpty = false) : m.config = n.config := by
  cases h with
  | same h => exact h.config
  | commit _ _ hconfig => exact hconfig
  | append _ happends _ _ hconfig =>
    rcases happends with ⟨rfl, -⟩ | ⟨_, _, rfl, -⟩
    · exact hconfig
    · cases hi
  | told hchange hc =>
    rcases hc with hc | hc | hc
    · exact absurd hc hn.1
    · rw [hmembers] at hc
      cases hc
    · rw [hn.2] at hc
      cases hc
  | merge hi' | install hi' | finish hi' | enroll hi' =>
    subst hi'
    cases hi

theorem Act.proper (a : Act i n es js m) (h : i.Proper n) : i.Proper m where
  advances := a.advances h.advances
  told hi := by
    obtain ⟨hn, hmembers⟩ := h.told hi
    refine ⟨a.joined hn, ?_⟩
    have hconfig := a.recast.config_of_isChange hi hn hmembers
    exact (congrArg (fun c : Configuration => c.members.isEmpty) hconfig).trans hmembers
  enrolled hi := a.joined (h.enrolled hi)

namespace Turn

variable {t u : Turn}

theorem recast_finishCapture (t : Turn) (s : Option Snapshot) :
    Recast (.snapshotPrepared s) t.node (t.finishCapture s).node :=
  (Act.finish (i := .snapshotPrepared s) (.inl rfl)).recast

/-- While one input is processed, nothing comes into force that the log does not call for. -/
theorem tracks_dispatch (h : t.dispatch i = .ok u) (hlog : t.node.log.Contiguous)
    (hi : i.Proper t.node)
    (hproduced : ∀ s, i = .snapshotPrepared (some s) → t.node.Produced s.about) :
    t.node.Tracks u.node ∧ u.node.log.Contiguous := by
  by_cases hprepared : ∃ s, i = .snapshotPrepared (some s)
  · -- nothing else happens on such an input, so the node is still what the snapshot was made of
    obtain ⟨s, rfl⟩ := hprepared
    obtain rfl := Except.ok.inj h
    have hrecast := t.recast_finishCapture (some s)
    exact ⟨hrecast.tracks hlog hi hproduced, hrecast.contiguous hlog⟩
  · obtain ⟨es, js, -, -, hacts⟩ := performs_dispatch h
    have hkeeps := (hacts.keeps
      (fun x => i.Proper x ∧ x.log.Contiguous ∧ t.node.Tracks x) (fun _ => True)
      ⟨hi, hlog, .refl t.node⟩ fun ⟨hproper, hlog, htracks⟩ a =>
        ⟨⟨a.proper hproper, a.recast.contiguous hlog, htracks.trans (a.recast.tracks hlog hproper
          fun s hs => absurd ⟨s, hs⟩ hprepared)⟩, fun _ _ => trivial⟩).1
    exact ⟨hkeeps.2.2, hkeeps.2.1⟩

/-- A node that takes part goes on to do so, from the same origin. Its log is left without a
configuration by a batch only. -/
theorem joined_dispatch (h : t.dispatch i = .ok u) (hlog : t.node.log.Contiguous)
    (hn : t.node.Joined) (hi : i.Proper t.node) :
    u.node.Joined ∧ i.Proper u.node ∧ u.node.origin = t.node.origin ∧
      (i.batch = [] → t.node.log.latestConfiguration? ≠ none →
        u.node.log.latestConfiguration? ≠ none) := by
  obtain ⟨es, js, -, -, hacts⟩ := performs_dispatch h
  have hkeeps := (hacts.keeps
    (fun x => x.log.Contiguous ∧ x.Joined ∧ i.Proper x ∧ x.origin = t.node.origin ∧
      (i.batch = [] → t.node.log.latestConfiguration? ≠ none →
        x.log.latestConfiguration? ≠ none)) (fun _ => True)
    ⟨hlog, hn, hi, rfl, fun _ h => h⟩ fun {x y es js} ⟨hlog, hn, hi, horigin, hlatest⟩ a => by
      refine ⟨⟨a.recast.contiguous hlog, a.joined hn, a.proper hi, ?_, fun hbatch hsome => ?_⟩,
        fun _ _ => trivial⟩
      · exact (a.recast.origin hn.1 hn.2 fun hchange => .inl (hi.told hchange).2).trans horigin
      · exact a.recast.latestConfiguration?_ne_none hlog (hlatest hbatch hsome) hbatch).1
  exact hkeeps.2

end Turn

theorem Configuration.isNewerThan_transitionTo (c d : Configuration) :
    (c.transitionTo d).isNewerThan c = true := decide_eq_true (c.sequence_lt_transitionTo d)

theorem Configuration.isNewerThan_settled {c : Configuration} (h : c.isJoint = true) :
    c.settled.isNewerThan c = true := decide_eq_true (sequence_lt_settled h)

/-- What a leader submits to itself is newer than what it has. -/
theorem Input.Raises.advances {j : Input} (h : i.Raises n j) : j.Advances n := by
  rintro sender r c rfl hr -
  cases h with
  | settled hjoint =>
    cases hr
    exact .inl (Configuration.isNewerThan_settled hjoint)
  | @proposed _ d =>
    cases hr
    exact .inl (n.config.isNewerThan_transitionTo d)

theorem Input.Raises.proper {j : Input} (h : i.Raises n j) (hn : n.Joined) : j.Proper n where
  advances := h.advances
  told hchange := by rw [h.isOwn.isChange] at hchange; cases hchange
  enrolled _ := hn

/-- What is true of a node in the middle of a transition that it began as `n`, on the input `i`. -/
structure Node.Underway (n : Node) (i : Input) (m : Node) : Prop where
  contiguous : m.log.Contiguous
  joined : m.Joined
  synced : m.Synced
  origin : m.origin = n.origin
  latest : m.log.latestConfiguration? = none → i.batch ≠ []

theorem Node.Underway.dispatch {j : Input} {t u : Turn} (h : n.Underway i t.node)
    (hj : j.Proper t.node) (hbatch : j.batch ≠ [] → i.batch ≠ [])
    (hproduced : ∀ s, j = .snapshotPrepared (some s) → t.node.Produced s.about)
    (hu : t.dispatch j = .ok u) : n.Underway i u.node ∧ j.Proper u.node := by
  obtain ⟨htracks, hcontiguous⟩ := Turn.tracks_dispatch hu h.contiguous hj hproduced
  obtain ⟨hjoined, hproper, horigin, hlatest⟩ :=
    Turn.joined_dispatch hu h.contiguous h.joined hj
  refine ⟨⟨hcontiguous, hjoined, htracks.keeps h.synced, horigin.trans h.origin, fun hnone => ?_⟩,
    hproper⟩
  by_cases hempty : j.batch = []
  · refine h.latest (Classical.byContradiction fun hsome => ?_)
    exact hlatest hempty hsome hnone
  · exact hbatch hempty

/-- What is true when a transition begins is true when it ends. -/
theorem Node.Underway.step (hn : n.Underway i n) (h : Raft.step n i = .ok (m, es))
    (hi : i.Proper n) (hproduced : ∀ s, i = .snapshotPrepared (some s) → n.Produced s.about) :
    n.Underway i m := by
  obtain ⟨⟨t, rfl, -, hend⟩, -⟩ := step_thread
    (P := fun j t => n.Underway i t.node ∧ j.Proper t.node ∧ (j.batch ≠ [] → i.batch ≠ []) ∧
      ∀ s, j = .snapshotPrepared (some s) → t.node.Produced s.about)
    (Q := fun t => n.Underway i t.node)
    (fun ⟨hn, hj, hbatch, hproduced⟩ hu _ => (hn.dispatch hj hbatch hproduced hu).1)
    (fun ⟨hn, hj, hbatch, hproduced⟩ hu _ hfollower => by
      obtain ⟨hnext, hproper⟩ := hn.dispatch hj hbatch hproduced hu
      refine ⟨hnext, hproper, hbatch, ?_⟩
      rintro s rfl
      exact hfollower.elim)
    (fun ⟨hn, hj, hbatch, hproduced⟩ hu _ hraised => by
      obtain ⟨hnext, -⟩ := hn.dispatch hj hbatch hproduced hu
      refine ⟨hnext, hraised.proper hnext.joined, fun hne => ?_, ?_⟩
      · cases hraised <;> exact absurd rfl hne
      · rintro s rfl
        exact hraised.isOwn.elim)
    h ⟨hn, hi, fun hne => hne, hproduced⟩
  exact hend

/-- A node whose log calls for the configuration in force, that has members and that waits for no
configuration, still has such a log after any input: the newest configuration in it is in force. If
the input was a batch that has cut off the last configuration, the one from before the log had any
is in force instead. A client may have submitted a configuration only if it was newer than the one
in force or the same, and a snapshot must be one that the node has asked for. So any other such node
with the same entries is on the same configuration. -/
theorem inForce_of_step (h : step n i = .ok (m, es)) (hlog : n.log.Contiguous)
    (hrole : n.role ≠ .init) (hconfig : n.log.latestConfiguration? = some n.config)
    (hmembers : n.members.isEmpty = false) (hasked : n.configAskedOf = none)
    (hadvances : i.Advances n)
    (hproduced : ∀ s, i = .snapshotPrepared (some s) → n.Produced s.about) :
    (m.log.latestConfiguration? = some m.config ∨
      (m.log.latestConfiguration? = none ∧ i.batch ≠ [] ∧ m.config = n.origin)) ∧
    ∀ k : Node, k.log.latestConfiguration? = some k.config → k.log.entries = m.log.entries →
      k.log.snapshot = m.log.snapshot → m.config = k.config := by
  have hbegin : n.Underway i n :=
    ⟨hlog, ⟨hrole, hasked⟩, by rw [Node.Synced, hconfig]; rfl, rfl, fun hnone => by
      rw [hconfig] at hnone
      cases hnone⟩
  have hproper : i.Proper n :=
    ⟨hadvances, fun _ => ⟨⟨hrole, hasked⟩, hmembers⟩, fun _ => ⟨hrole, hasked⟩⟩
  have hend := hbegin.step h hproper hproduced
  have hforce : m.log.latestConfiguration? = some m.config ∨
      (m.log.latestConfiguration? = none ∧ i.batch ≠ [] ∧ m.config = n.origin) := by
    have hsynced := hend.synced
    unfold Node.Synced at hsynced
    cases hlatest : m.log.latestConfiguration? with
    | some c =>
      rw [hlatest] at hsynced
      exact .inl (congrArg some hsynced.symm)
    | none =>
      rw [hlatest, hend.origin] at hsynced
      exact .inr ⟨rfl, hend.latest hlatest, hsynced⟩
  refine ⟨hforce, fun k hk hentries hsnapshot => ?_⟩
  have hsame := Log.latestConfiguration?_congr hentries hsnapshot
  rcases hforce with hsome | ⟨hnone, -⟩
  · rw [hsame, hsome] at hk
    exact Option.some.inj hk
  · rw [hsame, hnone] at hk
    cases hk

/-- Node 2 follows node 1, which has begun to make node 3 a member. -/
def halfChanged : Node :=
  { Node.founding ⟨2⟩ {} (.stable 0 (.ofList [⟨1⟩, ⟨2⟩])) with
    standing :=
      { term := 1
        config := .joint 1 (.ofList [⟨1⟩, ⟨2⟩]) (.ofList [⟨1⟩, ⟨2⟩, ⟨3⟩]) }
    log :=
      ({} : Log).append
        ⟨1, 1, .configuration (.joint 1 (.ofList [⟨1⟩, ⟨2⟩]) (.ofList [⟨1⟩, ⟨2⟩, ⟨3⟩])), none⟩
    initialConfig := some (.stable 0 (.ofList [⟨1⟩, ⟨2⟩])) }

theorem wellFormed_halfChanged : halfChanged.log.WellFormed where
  contiguous := by decide
  prevIndex_le_committed := by decide
  committed_le_lastIndex := by decide

/-- The entry with which node 1 completes the change. -/
def completion : Input :=
  .message ⟨1⟩ (.appendEntries ⟨1⟩ 1 1 1
    [⟨1, 2, .configuration (.stable 2 (.ofList [⟨1⟩, ⟨2⟩, ⟨3⟩])), none⟩] 1)

theorem inForce_of_step_halfChanged : ∃ m es,
    step halfChanged completion = .ok (m, es) ∧ m.log.latestConfiguration? = some m.config := by
  refine ⟨_, _, rfl, ?_⟩
  have hforce := inForce_of_step (n := halfChanged) (i := completion) rfl
    wellFormed_halfChanged.isContiguous (by decide) (by decide) (by decide) rfl nofun nofun
  exact hforce.1.resolve_right fun hcut => absurd hcut.1 (by decide)

/-- The next leader has never heard of the change and cuts it off. No configuration is left in the
log. -/
theorem latestConfiguration?_halfChanged :
    halfChanged.role = .follower ∧ halfChanged.log.WellFormed ∧
    halfChanged.log.latestConfiguration? = some halfChanged.config ∧
    halfChanged.members.isEmpty = false ∧ halfChanged.configAskedOf = none ∧
    ∃ m es, step halfChanged (.message ⟨1⟩ (.appendEntries ⟨1⟩ 2 0 0 [⟨2, 1, .noop, none⟩] 0)) =
        .ok (m, es) ∧
      m.log.latestConfiguration? = none ∧ m.config = .stable 0 (.ofList [⟨1⟩, ⟨2⟩]) :=
  ⟨rfl, wellFormed_halfChanged, by decide, by decide, rfl, _, _, rfl, by decide, by decide⟩

end Raft
