import Raft.Proofs.Charter
import Raft.StateMachine

/-!
# Who changes the members

The message with which a leader tells its configuration is also that with which a client asks for a
change. In a launch no client asks for one. `Launch.configuration?_eq_none`: as long as no leader
processes such a message, no log carries a configuration. `Launch.exists_configuration_secondAnswer`
shows that the condition is needed: an answer that arrives twice can come back to a leader, which
takes it as a client's wish.
-/

namespace Raft

/-- Whether an input is a message that carries a configuration of its own. -/
def Input.isChange : Input → Bool
  | .message _ (.changeConfiguration _) => true
  | _ => false

theorem Input.IsOwn.isChange {i : Input} (h : i.IsOwn) : i.isChange = false := by
  unfold Input.isChange
  split
  next => exact h.elim
  next => rfl

/-- Nobody proposes a change: all configurations are settled, and none is logged. -/
def Charter.settled : Charter where
  provisional c := c.isJoint = false
  inForce c := c.isJoint = false
  leading c := c.isJoint = false
  logged _ := False
  member _ := True
  enough _ := True
  inForce_of_leading h := h
  leading_of_logged h := h.elim
  leading_of_inForce h _ := h
  logged_settled h hjoint := nomatch h.symm.trans hjoint
  provisional_insert _ _ _ := rfl
  inForce_of_enough h _ _ := h

/-- The regime under which all nodes keep to a charter. It needs no record of the past. -/
def Charter.regime (k : Charter) : Regime Unit where
  Adds _ _ _ := True
  Inv p _ n := n.id = p ∧ n.Chartered k
  Sent _ _ _ m := k.Sent m
  Captured about := k.inForce about.config
  refl _ _ := trivial
  trans _ _ := trivial
  id h := h.1
  inv _ _ h := h
  sent _ h := h
  call h := k.sent_of_call h
  respond := trivial

/-- A node that starts keeps to a charter that provides for it. -/
theorem Node.chartered_fresh {k : Charter} {p : PeerId} {settings : Settings} (hp : k.member p)
    (henough : k.enough settings.membersToFind) (h : k.provisional .unconfigured) :
    (Node.fresh p settings).Chartered k where
  member := hp
  enough := henough
  tally := ⟨fun _ => ⟨rfl, rfl⟩, nofun, nofun⟩
  provisional _ := h
  inForce hrole := absurd rfl hrole
  leading := nofun
  voted := nofun
  initial := nofun
  log := ⟨nofun, nofun⟩

variable {n m : Node} {i : Input} {es : List Effect} {js : List Input}

/-- An act that proposes nothing leaves all configurations settled and none logged. -/
theorem Act.keeps_settled {p : PeerId} (a : Act i n es js m) (hid : n.id = p)
    (hn : n.Chartered .settled) (hi : Charter.settled.regime.Good () p i)
    (hi' : n.role = .leader → i.isChange = false) :
    Charter.settled.regime.KeepsSoFar p () m es js := by
  obtain ⟨hm, hes, hjs⟩ := a.chartered hn hi
    (by
      rintro hrole sender c rfl
      exact nomatch hi' hrole)
    fun hrole _ _ _ _ _ _ _ _ => hn.provisional hrole
  exact ⟨(), trivial, ⟨a.id_settings.1.trans hid, hm⟩, fun e he => hid ▸ hes e he, hjs⟩

/-- A transition leaves all configurations settled and none logged, unless it is that of a leader on
a message with a configuration. -/
theorem keeps_settled_of_step {p : PeerId} (h : step n i = .ok (m, es)) (hid : n.id = p)
    (hn : n.Chartered .settled) (hi : Charter.settled.regime.Good () p i)
    (hspares : i.isChange = true → n.role ≠ .leader) :
    Charter.settled.regime.Keeps p () m es := by
  by_cases hchange : i.isChange = true
  · -- the message elects nobody, so the node does not lead at any time
    refine Charter.settled.regime.step (N := (·.role ≠ .leader)) (I := fun j => ∀ t, ¬ j.Decides t)
      h ⟨hid, hn⟩ hi (hspares hchange) ?_ ?_ ?_
    · rintro t (rfl | ⟨voter, rfl⟩) <;> cases hchange
    · intro i n m es js hn hi a
      obtain ⟨hm, hjs⟩ := a.abides hi fun hlead => ⟨hlead, .refl n⟩
      exact ⟨fun hlead => hn (hm hlead).1, hjs⟩
    · exact fun hn hi hrole _ a => a.keeps_settled hn.1 hn.2 hi fun hlead => absurd hlead hrole
  · refine Charter.settled.regime.step (N := fun _ => True) (I := fun j => j.isChange = false) h
      ⟨hid, hn⟩ hi trivial (by simpa using hchange) ?_ ?_
    · exact fun _ hi a => ⟨trivial, a.raises_keeps hi fun _ => Input.IsOwn.isChange⟩
    · exact fun hn hi _ hi' a => a.keeps_settled hn.1 hn.2 hi fun _ => hi'

namespace Launch

variable {σ : Type} [StateMachine σ] (l : Launch σ)

/-- At the moment `k` no leader processes a message with a configuration. -/
def SparesLeader (k : Nat) : Prop :=
  ∀ x ∈ l.processed? k, x.2.isChange = true → ((l.after k).node x.1).role ≠ .leader

instance (k : Nat) : Decidable (l.SparesLeader k) :=
  inferInstanceAs (Decidable (∀ _ ∈ _, _ → _))

/-- As long as no leader processes a message with a configuration, no log carries one. -/
theorem configuration?_eq_none {k : Nat} (h : ∀ j < k, l.SparesLeader j) (p : PeerId) :
    ∀ e ∈ ((l.after k).log p).entries, e.command.configuration? = none := by
  by_cases hp : p ∈ l.members
  · obtain ⟨_, hgoverned, -⟩ := l.exists_governed Charter.settled.regime () (Q := fun _ _ => True)
      (k := k) (fun q _ => ⟨rfl, Node.chartered_fresh trivial trivial rfl⟩)
      (fun j hj _ q i n es hprocessed hn hi hstep =>
        keeps_settled_of_step hstep hn.1 hn.2 hi (h j hj (q, i) hprocessed))
      (fun _ _ => trivial) (fun _ _ => trivial)
    intro e he
    rw [Option.eq_none_iff_forall_ne_some]
    exact (hgoverned.nodes p (by rwa [members_after])).2.log.entries e he
  · intro e he
    rw [Cluster.log, l.node_after_of_not_mem hp] at he
    cases he

/-- Node 3 has found node 1 only when it meets node 1 as the leader. It asks for the configuration,
and the answer arrives twice. Node 3 expects the first one. The second one goes to the leader. -/
def secondAnswer : Launch Recorder where
  members := .ofList [⟨1⟩, ⟨2⟩, ⟨3⟩]
  options p := { id := p, peers := [⟨1⟩, ⟨2⟩, ⟨3⟩] }
  initial := {}
  events :=
    let calm (p count : Nat) : List Event := List.replicate count (.carryOut ⟨p⟩ { now := 0 })
    -- nodes 1 and 2 find everybody
    [1, 2, 3].flatMap (fun p => .expire ⟨p⟩ .discovery :: calm p 3) ++
    [(0, 2), (1, 3), (2, 1), (3, 3), (4, 1)].flatMap (fun (k, p) => .deliver k :: calm p 1) ++
    .deliver 6 :: .deliver 7 :: calm 1 2 ++ .deliver 8 :: .deliver 9 :: calm 2 2 ++ [.deliver 10] ++
    -- node 1 wins with the vote of node 2
    .expire ⟨1⟩ .election :: calm 1 4 ++ .deliver 11 :: calm 2 2 ++ .deliver 13 :: calm 1 4 ++
    -- node 3 asks and is told
    .deliver 15 :: calm 3 3 ++ .deliver 16 :: calm 1 1 ++ [.deliver 17] ++
    .deliver 15 :: calm 3 4 ++
    -- the answer arrives again
    .deliver 17 :: calm 3 1 ++ [.deliver 19]
  ordinary := by decide

theorem configuration?_eq_none_secondAnswer :
    ((secondAnswer.after 58).log ⟨1⟩).entries.length = 1 ∧
      ∀ e ∈ ((secondAnswer.after 58).log ⟨1⟩).entries, e.command.configuration? = none :=
  ⟨by decide +kernel, secondAnswer.configuration?_eq_none (by decide +kernel) ⟨1⟩⟩

/-- Though nobody has asked for a change, the leader has begun one. -/
theorem exists_configuration_secondAnswer :
    ((secondAnswer.after 59).log ⟨1⟩).get? 2 = some
      ⟨1, 2, .configuration (.joint 1 secondAnswer.members secondAnswer.members), some ⟨1⟩⟩ := by
  decide +kernel

end Launch

end Raft
