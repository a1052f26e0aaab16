import Raft.Proofs.Settling

/-!
# Nodes outside the configuration do not campaign

A follower stands for election only if it is a member of the configuration in force, and a candidate
has been one when it last stood. But a node also becomes a candidate when a leader finds it before
it has found the cluster, whatever its configuration is. It does no harm while it waits for the
configuration that it has asked for, because then it asks again instead of campaigning.

* `Node.Astray`, what is left to go wrong: such a candidate does not wait any longer, and it has
  others than itself to ask for their votes;
* `Input.Dismisses`, the one way to get there: the answer is not newer than what the node starts
  with (`step_astray`, `Life.exists_dismisses`), and for a node that starts without members, or as
  one of them, there is no way (`Node.Placed`);
* `Life.abstains`, apart from that an election timeout leaves a node that is no member where it is.
-/

namespace Raft

/-- Whether an effect asks for a vote. -/
def Effect.IsBid : Effect → Prop
  | .send _ (.requestVote ..) => True
  | .forward _ _ (.requestVote ..) => True
  | _ => False

/-- A candidate that waits for no configuration, is no member of the one that it has, and yet has
somebody to ask for a vote. -/
structure Node.Astray (n : Node) : Prop where
  role : n.role = .candidate
  asked : n.configAskedOf = none
  outside : ¬ n.id ∈ n.members
  others : 1 < n.members.size

/-- A candidate outside its configuration gets the one that it waits for, and this is not newer. -/
structure Input.Dismisses (i : Input) (n : Node) : Prop where
  role : n.role = .candidate
  outside : ¬ n.id ∈ n.members
  others : 1 < n.members.size
  told : ∃ sender c, i = .message sender (.changeConfiguration c) ∧
    n.configAskedOf = some sender ∧ c.isNewerThan n.config = false

/-- As long as a node looks for the cluster, and as long as it waits as a candidate for what it has
asked for, it has no members or is one of them. -/
def Node.Placed (n : Node) : Prop :=
  n.role = .init ∨ (n.role = .candidate ∧ n.configAskedOf ≠ none) →
    n.members.isEmpty = true ∨ n.id ∈ n.members

variable {i : Input} {n m : Node} {es : List Effect} {js : List Input}

theorem Input.IsOwn.not_isWish (h : i.IsOwn) : ¬ i.IsWish := by
  cases i with
  | message sender m =>
    cases m with
    | changeConfiguration => exact h.elim
    | _ => exact id
  | _ => exact id

/-! ### How a candidate gets astray -/

/-- Only what is told can lead a node astray. -/
theorem Act.astray (a : Act i n es js m) (hi : ¬ i.IsWish) (h : m.Astray) : n.Astray := by
  obtain ⟨hcand, hasked, houtside, hothers⟩ := h
  cases a with
  | campaign _ hasked' hrole =>
    rcases hrole with ⟨-, hmem⟩ | ⟨hrole, -⟩
    · exact absurd hmem houtside
    · exact ⟨hrole, hasked', houtside, hothers⟩
  | observe | yield | elect | enter | adopt => cases hcand
  | await => cases hasked
  | append hrole =>
    have := ((n.turn.same_append _ _).role.symm.trans hcand).symm.trans hrole
    cases this
  | commit hrole =>
    have := ((n.turn.same_commitUntil _ _).role.symm.trans hcand).symm.trans hrole
    cases this
  | accept _ hrole =>
    have := ((n.turn.same_takeEntries _ _ _ _).role.symm.trans hcand).symm.trans hrole
    cases this
  | install _ hrole =>
    have := ((n.turn.same_takeSnapshot _).role.symm.trans hcand).symm.trans hrole
    cases this
  | enroll _ hrole =>
    obtain ⟨role, hm, hcases⟩ := Turn.addMember_cases hrole _ _
    rw [hm] at hcand
    rcases hcases with ⟨rfl, -⟩ | ⟨rfl, -⟩ <;> cases hcand
  | count _ hrole => exact ⟨hrole, hasked, houtside, hothers⟩
  | dismiss hmsg => exact absurd (hmsg ▸ trivial) hi
  | _ => exact ⟨hcand, hasked, houtside, hothers⟩

/-- The inputs that a transition raises tell nothing. -/
theorem Course.astray {is : List Input} (h : Course is n es m) (his : ∀ i ∈ is, ¬ i.IsWish)
    (hm : m.Astray) : n.Astray := by
  refine h.keeps (fun x => x.Astray → n.Astray) (fun i => ¬ i.IsWish) id his ?_ hm
  intro i x y js es hx hi a
  exact ⟨fun hy => hx (a.astray hi hy), a.raises_keeps hi fun _ hj => hj.not_isWish⟩

/-- What a node is told takes it to the role of follower, unless it is what the node has. -/
theorem Turn.astray_onChangeConfiguration {t : Turn} {sender : PeerId} {c : Configuration}
    (h : (t.onChangeConfiguration sender c).node.Astray) :
    t.node.Astray ∨ (Input.message sender (.changeConfiguration c)).Dismisses t.node := by
  have hjoin : ∀ v : Turn, ¬ (v.join c).node.Astray := by
    intro v hv
    have hrole := hv.role
    unfold join at hrole
    rw [node_goto] at hrole
    cases hrole
  unfold onChangeConfiguration at h
  split at h
  next => exact absurd h (hjoin t)
  next => split at h <;> exact .inl h
  next =>
    unfold receiveConfiguration at h
    simp only at h
    split at h
    next hmine =>
      split at h
      next => exact absurd h (hjoin _)
      next hold =>
        obtain ⟨hmembers, hc⟩ := not_or.1 hold
        refine .inr ⟨h.role, h.outside, h.others, sender, c, rfl, ?_, Bool.eq_false_iff.2 hc⟩
        exact hmine.resolve_left hmembers
    next =>
      split at h
      next => exact .inl h
      next => split at h <;> exact .inl h

/-- A transition leads astray only if its own input does. -/
theorem step_astray (h : step n i = .ok (m, es)) (hm : m.Astray) : n.Astray ∨ i.Dismisses n := by
  obtain ⟨t, ht, rfl, -⟩ := exists_process_of_step h
  obtain ⟨u, hu, hsettle⟩ := Node.exists_dispatch ht
  obtain ⟨_, -, hcourse⟩ := Turn.settle_course hsettle
  have hraised : ∀ j ∈ u.pending, ¬ j.IsWish := by
    rcases Turn.next_cases rfl hu with hnone | ⟨j, hone, hwish, -⟩
    · rw [hnone]
      exact fun _ hj => absurd hj List.not_mem_nil
    · rw [hone]
      exact fun _ hj => List.mem_singleton.1 hj ▸ hwish
  have hastray := hcourse.astray hraised hm
  by_cases hi : ∃ sender c, i = .message sender (.changeConfiguration c)
  · obtain ⟨sender, c, rfl⟩ := hi
    obtain rfl := Except.ok.inj hu
    exact Turn.astray_onChangeConfiguration hastray
  · have hwish : ¬ i.IsWish := by
      cases i with
      | message sender m =>
        cases m with
        | changeConfiguration c => exact absurd ⟨sender, c, rfl⟩ hi
        | _ => exact id
      | _ => exact id
    exact .inl ((step_course h).astray (fun _ hj => List.mem_singleton.1 hj ▸ hwish) hm)

/-! ### Where nobody gets astray -/

theorem Act.placed (a : Act i n es js m) (h : n.Placed) : m.Placed := by
  have hfollows : n.Same m → n.role = .follower ∨ n.role = .leader → m.Placed := by
    intro hsame hrole hm
    rw [hsame.role] at hm
    rcases hrole with hrole | hrole <;> rcases hm with hinit | ⟨hcand, -⟩ <;> simp_all
  intro hm
  cases a with
  | observe | yield | enter | adopt | elect =>
    rcases hm with hinit | ⟨hcand, -⟩ <;> contradiction
  | campaign _ hasked =>
    rcases hm with hinit | ⟨-, hwaits⟩
    · cases hinit
    · exact absurd hasked hwaits
  | append hrole => exact hfollows (n.turn.same_append _ _) (.inr hrole) hm
  | commit hrole => exact hfollows (n.turn.same_commitUntil _ _) (.inr hrole) hm
  | accept _ hrole => exact hfollows (n.turn.same_takeEntries _ _ _ _) (.inl hrole) hm
  | install _ hrole => exact hfollows (n.turn.same_takeSnapshot _) (.inl hrole) hm
  | @enroll _ member _ _ hrole =>
    obtain ⟨role, hnode, -⟩ := Turn.addMember_cases hrole _ _
    rw [hnode]
    exact .inr (PeerSet.mem_insert.2 (.inr (PeerSet.mem_insert.2 (.inl rfl))))
  | await _ hrole => exact h (.inl hrole)
  | dismiss =>
    rcases hm with hinit | ⟨-, hwaits⟩
    · exact h (.inl hinit)
    · exact absurd rfl hwaits
  | _ => exact h hm

theorem Input.Dismisses.not_placed (h : i.Dismisses n) : ¬ n.Placed := by
  intro hplaced
  obtain ⟨sender, c, -, hasked, -⟩ := h.told
  rcases hplaced (.inr ⟨h.role, by simp [hasked]⟩) with hempty | hmem
  · have hothers := h.others
    rw [PeerSet.size_eq_zero_iff.2 hempty] at hothers
    cases hothers
  · exact h.outside hmem

/-! ### Election timeouts -/

/-- The node `n` has become `m` without standing for election or coming to lead. -/
structure Node.Abstains (n m : Node) (es : List Effect) : Prop where
  term : m.term = n.term
  bids : ∀ e ∈ es, ¬ e.IsBid
  stands : m.role = .candidate → n.role = .candidate
  leads : m.role = .leader → n.role = .leader

/-- The election timer of a node outside its configuration runs out. -/
theorem Node.exists_abstains (houtside : ¬ n.id ∈ n.members) (h : ¬ n.Astray) :
    ∃ m es, step n (.timeout .election) = .ok (m, es) ∧ n.Abstains m es := by
  -- in every branch that is left nobody is asked for a vote, and nothing is raised
  have hdone : ∀ u : Turn, n.turn.dispatch (.timeout .election) = .ok u → u.pending = [] →
      u.node.term = n.term → (∀ e ∈ u.effects, ¬ e.IsBid) →
      u.node.role = n.role ∨ u.node.role = .follower →
      ∃ m es, step n (.timeout .election) = .ok (m, es) ∧ n.Abstains m es := by
    intro u hu hpending hterm hbids hrole
    refine ⟨_, _, step_of_process (Node.process_of_done hu hpending), hterm, hbids, ?_, ?_⟩ <;>
    · intro hm
      rcases hrole with hrole | hrole
      · exact hrole.symm.trans hm
      · cases hrole.symm.trans hm
  have hdispatch : n.turn.dispatch (.timeout .election) = n.turn.onElectionTimeout := rfl
  unfold Turn.onElectionTimeout at hdispatch
  split at hdispatch
  next =>
    rcases n.turn.beginElection_cases with ⟨p, -, heq⟩ | ⟨-, hmem, -⟩ | heq
    · refine hdone _ (hdispatch.trans heq) rfl rfl ?_ (.inl rfl)
      simp [Turn.send, Turn.arm, Turn.emit, Node.turn, Effect.IsBid]
    · exact absurd hmem houtside
    · refine hdone _ (hdispatch.trans heq) rfl rfl ?_ (.inl rfl)
      simp [Turn.arm, Turn.emit, Node.turn, Effect.IsBid]
  next hrole =>
    rcases n.turn.retryElection_cases with ⟨p, -, heq⟩ | ⟨hasked, hothers, -⟩ | heq
    · refine hdone _ (hdispatch.trans heq) rfl rfl ?_ (.inl rfl)
      simp [Turn.send, Turn.arm, Turn.emit, Node.turn, Effect.IsBid]
    · exact absurd ⟨hrole, hasked, houtside, hothers⟩ h
    · have hdown : n.turn.stepDown n.term =
          { n.turn with
            node := ({ n with standing := n.standing.resign } : Node).inRole .follower
            effects := [.arm .election] } := by
        have hkept : n.standing.advanceTo n.term = n.standing :=
          Standing.advanceTo_of_le (Nat.le_refl _)
        have hcand : n.role = .candidate := hrole
        simp [Turn.stepDown, Turn.withStanding, Node.turn, hkept, Turn.goto, hcand,
          Turn.leaveRole, Turn.enterRole, Turn.arm, Turn.emit, Node.inRole]
      refine hdone _ (hdispatch.trans (heq.trans (congrArg _ hdown))) rfl rfl ?_ (.inr rfl)
      simp [Effect.IsBid]
  next => exact hdone _ hdispatch rfl rfl (fun _ he => absurd he List.not_mem_nil) (.inl rfl)
  next => exact hdone _ hdispatch rfl rfl (fun _ he => absurd he List.not_mem_nil) (.inl rfl)

namespace Life

variable (l : Life)

/-- A node that is astray was led so in its present candidacy. -/
theorem exists_dismisses {k : Nat} (h : (l.after k).Astray) :
    ∃ j < k, (∃ i, l.inputs[j]? = some i ∧ i.Dismisses (l.after j)) ∧
      ∀ h, j < h → h ≤ k → (l.after h).role = .candidate := by
  induction k with
  | zero => cases l.role_start.symm.trans h.role
  | succ k ih =>
    have hbefore : (l.after k).Astray ∨
        ∃ i, l.inputs[k]? = some i ∧ i.Dismisses (l.after k) := by
      rcases l.after_succ_cases k with heq | ⟨i, es, hi, hstep⟩
      · exact .inl (heq ▸ h)
      · exact (step_astray hstep h).imp_right fun hdismisses => ⟨i, hi, hdismisses⟩
    rcases hbefore with hastray | hdismisses
    · obtain ⟨j, hj, hdismisses, hsince⟩ := ih hastray
      refine ⟨j, Nat.lt_succ_of_lt hj, hdismisses, fun x hjx hx => ?_⟩
      rcases Nat.le_succ_iff.1 hx with hx | rfl
      · exact hsince x hjx hx
      · exact h.role
    · refine ⟨k, Nat.lt_succ_self k, hdismisses, fun x hkx hx => ?_⟩
      obtain rfl : x = k + 1 := Nat.le_antisymm hx hkx
      exact h.role

theorem placed_after (h : l.start.members.isEmpty = true ∨ l.start.id ∈ l.start.members)
    (k : Nat) : (l.after k).Placed :=
  l.keeps Node.Placed (fun _ => h) (fun hn a => a.placed hn) k

/-- An election timeout leaves a node that is not a member of the configuration in force in its
term, it asks nobody for a vote, and it comes neither to stand for election nor to lead. This is so
of every node that starts without members or as one of them. For a node that starts from a snapshot
whose members are others it is so unless, in its present candidacy, it has been told something no
newer than what it has. -/
theorem abstains (k : Nat)
    (hstart : l.start.members.isEmpty = true ∨ l.start.id ∈ l.start.members ∨
      ∀ j < k, ∀ i, l.inputs[j]? = some i → i.Dismisses (l.after j) →
        ∃ h, j < h ∧ h ≤ k ∧ (l.after h).role ≠ .candidate)
    (houtside : ¬ (l.after k).id ∈ (l.after k).members) :
    ∃ m es, step (l.after k) (.timeout .election) = .ok (m, es) ∧
      (l.after k).Abstains m es := by
  refine Node.exists_abstains houtside fun hastray => ?_
  obtain ⟨j, hj, ⟨i, hi, hdismisses⟩, hsince⟩ := l.exists_dismisses hastray
  rw [← or_assoc] at hstart
  rcases hstart with hplaced | hnever
  · exact hdismisses.not_placed (l.placed_after hplaced j)
  · obtain ⟨x, hjx, hxk, hrole⟩ := hnever j hj i hi hdismisses
    exact hrole (hsince x hjx hxk)

/-- A node starts again from a snapshot that it has no place in. A leader finds it and tells it what
it knows, and then the leader sends entries once more. -/
def expelled : Life where
  start := .ofSnapshot ⟨1⟩ {} ⟨⟨5, 3, .stable 5 (.ofList [⟨2⟩, ⟨3⟩])⟩, []⟩
  isNew := .inr ⟨⟨1⟩, {}, ⟨⟨5, 3, .stable 5 (.ofList [⟨2⟩, ⟨3⟩])⟩, []⟩, rfl⟩
  inputs :=
    [.message ⟨2⟩ (.appendEntries ⟨2⟩ 3 3 5 [] 5),
      .message ⟨2⟩ (.changeConfiguration (.stable 5 (.ofList [⟨2⟩, ⟨3⟩]))),
      .message ⟨2⟩ (.appendEntries ⟨2⟩ 3 3 5 [] 5)]

/-- The leader's entries have ended the candidacy in which the node was told nothing new. -/
theorem abstains_expelled :
    (expelled.after 3).members = .ofList [⟨2⟩, ⟨3⟩] ∧
    ∃ m es, step (expelled.after 3) (.timeout .election) = .ok (m, es) ∧
      (expelled.after 3).Abstains m es ∧ m.term = 3 := by
  have hrole : (expelled.after 3).role = .follower := by decide +kernel
  obtain ⟨m, es, hstep, habstains⟩ := expelled.abstains 3
    (.inr (.inr fun j hj _ _ _ => ⟨3, hj, Nat.le_refl 3, by rw [hrole]; decide⟩))
    (by decide +kernel)
  have hterm : (expelled.after 3).term = 3 := by decide +kernel
  exact ⟨by decide +kernel, m, es, hstep, habstains, habstains.term.trans hterm⟩

/-- Before that it would have asked both members for their votes. -/
theorem not_abstains_expelled :
    ¬ (expelled.after 2).id ∈ (expelled.after 2).members ∧ (expelled.after 2).term = 0 ∧
    ∃ m es, step (expelled.after 2) (.timeout .election) = .ok (m, es) ∧ m.term = 1 ∧
      es = [.arm .election, .send ⟨2⟩ (.requestVote 1 ⟨1⟩ 3 5),
        .send ⟨3⟩ (.requestVote 1 ⟨1⟩ 3 5)] := by
  exact ⟨by decide +kernel, by decide +kernel, _, _, rfl, by decide +kernel, by decide +kernel⟩

end Life

end Raft
