import Raft.Proofs.Cluster

/-!
# Carrying out effects

What becomes of a replica when it carries out one effect, where the packets come from that it
sends, and what comes back to it. `Cluster.Carries` says of a cluster that all that is on its way
satisfies something, and it survives a step when the new effects keep to it. At the end, a node of
a cluster that accepts an input and then carries out all effects at one moment does what
`Replica.handle` does (`drain_accept`).
-/

namespace Raft

theorem SnapshotStore.snapshot_prepare (store : SnapshotStore) (about : SnapshotMeta)
    (data : Bytes) : (store.prepare about data).2 = some ⟨about, data⟩ ∨
      (store.prepare about data).2 = none := by
  unfold prepare
  cases store.latest with
  | none => exact Or.inl rfl
  | some s => by_cases h : s.about.index < about.index <;> simp [h]

variable {σ : Type} [StateMachine σ]

namespace Stir

variable (moment : Moment) (s : Stir σ) (e : Effect)

@[simp] theorem node_execute : (s.execute moment e).replica.node = s.replica.node := by
  cases e with
  | apply entry respond =>
    simp only [execute, apply]
    split
    · split <;> rfl
    · rfl
  | restore snapshot =>
    simp only [execute, Replica.restore]
    split <;> rfl
  | prepareSnapshot about =>
    simp only [execute, capture]
    split <;> rfl
  | _ => rfl

/-- Effects only ever add packets and inputs, and do not look at those there are. -/
theorem execute_eq : s.execute moment e =
    let alone := Stir.execute moment { replica := s.replica } e
    { replica := alone.replica
      packets := s.packets ++ alone.packets
      inputs := s.inputs ++ alone.inputs } := by
  cases e with
  | apply entry respond =>
    simp only [execute, apply]
    split
    · split <;> simp [send]
    · simp
  | prepareSnapshot about =>
    simp only [execute, capture]
    split <;> simp
  | _ => simp [execute, send]

/-- The same for a list of effects, carried out one after the other. -/
theorem foldl_execute_eq (es : List Effect) (s : Stir σ) : es.foldl (Stir.execute moment) s =
    let alone := es.foldl (Stir.execute moment) { replica := s.replica }
    { replica := alone.replica
      packets := s.packets ++ alone.packets
      inputs := s.inputs ++ alone.inputs } := by
  induction es generalizing s with
  | nil => simp
  | cons e rest ih =>
    rw [List.foldl_cons, List.foldl_cons, ih, ih (Stir.execute moment { replica := s.replica } e),
      execute_eq moment s e]
    simp

/-- A packet is what an effect asks to send, or answers the client whose entry is applied. -/
theorem mem_packets_execute {r : Replica σ} {k : Packet}
    (hk : k ∈ (Stir.execute moment { replica := r } e).packets) :
    (k.sender = r.node.id ∧ e = .send k.receiver k.message) ∨
      e = .forward k.sender k.receiver k.message ∨
      ∃ entry payload, e = .apply entry true ∧ entry.client = some k.receiver ∧
        entry.command = .application payload ∧
        k.message = .respond entry.index (StateMachine.apply r.state payload).2 := by
  cases e with
  | send receiver m =>
    obtain rfl : k = ⟨r.node.id, receiver, m⟩ := by simpa [execute, send] using hk
    exact Or.inl ⟨rfl, rfl⟩
  | forward sender receiver m =>
    obtain rfl : k = ⟨sender, receiver, m⟩ := by simpa [execute, send] using hk
    exact Or.inr (Or.inl rfl)
  | apply entry respond =>
    simp only [execute, apply] at hk
    split at hk
    next payload hpayload =>
      split at hk
      next client hclient =>
        obtain rfl := by simpa [send] using hk
        exact Or.inr (Or.inr ⟨entry, payload, rfl, hclient, hpayload, rfl⟩)
      next => cases hk
    next => cases hk
  | prepareSnapshot about =>
    simp only [execute, capture] at hk
    split at hk <;> cases hk
  | arm | cancel | restore => simp [execute] at hk

/-- What comes back is the outcome of a capture of the present state. -/
theorem mem_inputs_execute {r : Replica σ} {i : Input}
    (hi : i ∈ (Stir.execute moment { replica := r } e).inputs) :
    (∃ about data, e = .prepareSnapshot about ∧ StateMachine.capture r.state = .ok data ∧
      i = .snapshotPrepared (some ⟨about, data⟩)) ∨
      i = .snapshotPrepared none ∨ ∃ reason, i = .snapshotFailed reason := by
  cases e with
  | prepareSnapshot about =>
    simp only [execute, capture] at hi
    split at hi
    next data hdata =>
      obtain rfl := List.mem_singleton.1 hi
      rcases r.store.snapshot_prepare about data with h | h
      · exact Or.inl ⟨about, data, rfl, hdata, by rw [h]⟩
      · exact Or.inr (Or.inl (by rw [h]))
    · exact Or.inr (Or.inr ⟨_, List.mem_singleton.1 hi⟩)
  | apply entry respond =>
    simp only [execute, apply] at hi
    split at hi
    · split at hi <;> cases hi
    · cases hi
  | send | forward | arm | cancel | restore => simp [execute, send] at hi

end Stir

namespace Cluster

/-! ### What is on its way -/

section Carries

/-- Packets, effects that wait and outcomes have properties. Those of the last two may depend on the
member. -/
structure Carries (K : Packet → Prop) (E : PeerId → Effect → Prop) (I : PeerId → Input → Prop)
    (c : Cluster σ) : Prop where
  packets : ∀ k ∈ c.packets, K k
  backlog : ∀ p ∈ c.members, ∀ e ∈ (c.site p).backlog, E p e
  outcomes : ∀ p ∈ c.members, ∀ i ∈ (c.site p).outcomes, I p i

variable {K K' : Packet → Prop} {E E' : PeerId → Effect → Prop} {I I' : PeerId → Input → Prop}
  {c : Cluster σ} {p : PeerId}

omit [StateMachine σ] in
/-- A site takes the place of another with the same outcomes. -/
theorem Carries.put (h : c.Carries K E I) {s : Site σ}
    (hs : s.outcomes = (c.site p).outcomes) (hK : ∀ k, K k → K' k)
    (hE : ∀ q ∈ c.members, q ≠ p → ∀ e, E q e → E' q e)
    (hI : ∀ q ∈ c.members, ∀ i, I q i → I' q i) (hbacklog : ∀ e ∈ s.backlog, E' p e) :
    (c.put p s).Carries K' E' I' := by
  constructor
  case packets => exact fun k hk => hK k (h.packets k hk)
  case backlog =>
    intro q hq e he
    by_cases hqp : q = p
    · subst hqp
      rw [site_put_self] at he
      exact hbacklog e he
    · rw [site_put_of_ne c s hqp] at he
      exact hE q hq hqp e (h.backlog q hq e he)
  case outcomes =>
    intro q hq i hi
    refine hI q hq i (h.outcomes q hq i ?_)
    by_cases hqp : q = p
    · subst hqp
      rwa [site_put_self, hs] at hi
    · rwa [site_put_of_ne c s hqp] at hi

/-- What is sent by an effect is carried as a packet, and what is captured as an outcome. -/
theorem Carries.carryOut (h : c.Carries K E I) (moment : Moment) {e : Effect} {rest : List Effect}
    (hp : p ∈ c.members) (hb : (c.site p).backlog = e :: rest)
    (hsend : ∀ receiver m, e = .send receiver m → K ⟨(c.node p).id, receiver, m⟩)
    (hforward : ∀ sender receiver m, e = .forward sender receiver m → K ⟨sender, receiver, m⟩)
    (hrespond : ∀ sender receiver index result, K ⟨sender, receiver, .respond index result⟩)
    (hcapture : ∀ about data, e = .prepareSnapshot about →
      StateMachine.capture (c.state p) = .ok data → I p (.snapshotPrepared (some ⟨about, data⟩)))
    (hnone : I p (.snapshotPrepared none)) (hfailed : ∀ reason, I p (.snapshotFailed reason)) :
    (c.carryOut p moment).Carries K E I := by
  have hself := site_carryOut_self moment hb
  constructor
  case packets =>
    intro k hk
    rw [packets_carryOut moment hb] at hk
    rcases List.mem_append.1 hk with hk | hk
    · exact h.packets k hk
    · obtain ⟨sender, receiver, m⟩ := k
      rcases Stir.mem_packets_execute moment e hk with
        ⟨rfl, heq⟩ | heq | ⟨entry, payload, -, -, -, rfl⟩
      · exact hsend receiver m heq
      · exact hforward sender receiver m heq
      · exact hrespond sender receiver _ _
  case backlog =>
    intro q hq f hf
    rw [members_carryOut] at hq
    by_cases hqp : q = p
    · subst hqp
      rw [hself] at hf
      exact h.backlog q hq f (by rw [hb]; exact List.mem_cons_of_mem _ hf)
    · rw [site_carryOut_of_ne c moment hqp] at hf
      exact h.backlog q hq f hf
  case outcomes =>
    intro q hq i hi
    rw [members_carryOut] at hq
    by_cases hqp : q = p
    · subst hqp
      rw [hself] at hi
      rcases List.mem_append.1 hi with hi | hi
      · exact h.outcomes q hq i hi
      · rcases Stir.mem_inputs_execute moment e hi with ⟨about, data, heq, hdata, rfl⟩ | rfl |
          ⟨reason, rfl⟩
        · exact hcapture about data heq hdata
        · exact hnone
        · exact hfailed reason
    · rw [site_carryOut_of_ne c moment hqp] at hi
      exact h.outcomes q hq i hi

end Carries

/-! ### All effects at once -/

variable (c : Cluster σ) (p : PeerId) (moment : Moment)

/-- A member carries out so many of the effects that wait. -/
def drain (c : Cluster σ) (p : PeerId) (moment : Moment) : Nat → Cluster σ
  | 0 => c
  | count + 1 => (c.carryOut p moment).drain p moment count

/-- What is left when a member has carried out all effects that wait. Each of them is carried out by
a replica that starts with nothing sent. -/
theorem drain_eq {es : List Effect} (h : (c.site p).backlog = es) :
    let stir := es.foldl (Stir.execute moment) { replica := (c.site p).replica }
    (c.drain p moment es.length).site p =
      { replica := stir.replica, outcomes := (c.site p).outcomes ++ stir.inputs } ∧
    (c.drain p moment es.length).packets = c.packets ++ stir.packets := by
  induction es generalizing c with
  | nil =>
    refine ⟨?_, (List.append_nil _).symm⟩
    show c.site p = { replica := (c.site p).replica, outcomes := (c.site p).outcomes ++ [] }
    rw [List.append_nil, ← h]
  | cons e rest ih =>
    have hsite := site_carryOut_self moment h
    obtain ⟨hs, hk⟩ := ih (c.carryOut p moment) (by rw [hsite])
    rw [hsite] at hs hk
    simp only [List.foldl_cons, List.length_cons, drain]
    rw [Stir.foldl_execute_eq moment rest
      (Stir.execute moment { replica := (c.site p).replica } e)]
    refine ⟨hs.trans ?_, hk.trans ?_⟩
    · simp only [List.append_assoc]
    · rw [packets_carryOut moment h, List.append_assoc]

/-- A member that accepts an input and carries out all its effects at one moment has done what the
input handler of a replica does. -/
theorem drain_accept {input : Input} {node : Node} {es : List Effect} (hp : p ∈ c.members)
    (hs : c.Settled p) (hstep : step (c.node p) input = .ok (node, es)) :
    let stir := (c.site p).replica.handle moment input
    ((c.accept p input).drain p moment es.length).site p =
      { replica := stir.replica, outcomes := (c.site p).outcomes ++ stir.inputs } ∧
    ((c.accept p input).drain p moment es.length).packets = c.packets ++ stir.packets := by
  have haccept : c.accept p input = c.put p { c.site p with
      replica := { (c.site p).replica with node }, backlog := es } := by
    simp only [accept, if_pos (And.intro hp hs), hstep]
  have hhandle : (c.site p).replica.handle moment input =
      es.foldl (Stir.execute moment) { replica := { (c.site p).replica with node } } := by
    simp only [Replica.handle, show step (c.site p).replica.node input = _ from hstep]
  have hbacklog : ((c.accept p input).site p).backlog = es := by rw [haccept, site_put_self]
  have hdrain := drain_eq (c.accept p input) p moment hbacklog
  rw [haccept, site_put_self] at hdrain
  rw [haccept, hhandle]
  exact hdrain

end Cluster

end Raft
