import Raft.Proofs.Deeds

/-!
# Every transition is a course of acts

`Turn.Performs i t u` says of a part of a transition that processes the input `i`: `u` has what `t`
has with a chain of acts behind it, and the inputs that they raise are pending on top. Calm parts
are such chains already (`Calm.performs`), so what is left is to go through the other things that a
node does (`Deed.performs`). At the end there is `step_course`: the whole transition is a course.
`Act.of_init` is what an act can do to a node that still looks for the cluster.
-/

namespace Raft

theorem Acts.talk {i : Input} {n : Node} {es : List Effect} (h : ∀ e ∈ es, e.IsTalk n.id) :
    Acts i n es [] n := by
  induction es with
  | nil => exact .refl n
  | cons e rest ih =>
    have hfirst : Acts i n [e] [] n := (Act.talk (h e (List.mem_cons_self ..))).single
    exact hfirst.trans (ih fun f hf => h f (List.mem_cons_of_mem _ hf))

namespace Turn

/-- From `t` on, the input `i` has been processed for a while, and `u` is where that led. -/
def Performs (i : Input) (t u : Turn) : Prop :=
  ∃ es js, u.effects = t.effects ++ es ∧ u.pending.Perm (js ++ t.pending) ∧
    Acts i t.node es js u.node

variable {i : Input} {t u v : Turn}

namespace Performs

theorem of_act {es : List Effect} {js : List Input} (a : Act i t.node es js u.node)
    (heffects : u.effects = t.effects ++ es) (hpending : u.pending.Perm (js ++ t.pending)) :
    Performs i t u := ⟨es, js, heffects, hpending, a.single⟩

theorem of_change (a : Act i t.node [] [] u.node) (heffects : u.effects = t.effects)
    (hpending : u.pending = t.pending) : Performs i t u :=
  .of_act a (by rw [heffects, List.append_nil]) (by rw [hpending]; exact .refl _)

theorem refl (t : Turn) : Performs i t t :=
  ⟨[], [], (List.append_nil _).symm, .refl _, .refl _⟩

theorem trans (h₁ : Performs i t u) (h₂ : Performs i u v) : Performs i t v := by
  obtain ⟨es, js, hes, hjs, h⟩ := h₁
  obtain ⟨fs, ks, hfs, hks, h'⟩ := h₂
  refine ⟨es ++ fs, js ++ ks, by rw [hfs, hes, List.append_assoc], ?_, h.trans h'⟩
  calc v.pending.Perm (ks ++ u.pending) := hks
    _ |>.Perm (ks ++ (js ++ t.pending)) := hjs.append_left ks
    _ = ks ++ js ++ t.pending := (List.append_assoc ..).symm
    _ |>.Perm (js ++ ks ++ t.pending) := (List.perm_append_comm).append_right _

instance : Trans (Performs i) (Performs i) (Performs i) := ⟨Performs.trans⟩

end Performs

/-! ### Calm parts -/

theorem performs_arm (t : Turn) (timer : Timer) : Performs i t (t.arm timer) :=
  ⟨[.arm timer], [], rfl, .refl _, Act.single (.talk trivial)⟩

/-- An act that ends in a change of role. -/
theorem performs_goto {m : Node} {role : Role} {es : List Effect}
    (a : Act i t.node es [] (m.inRole role)) : Performs i t ((t.put m es).goto role) := by
  obtain ⟨fs, heq, htimers⟩ := (t.put m es).goto_eq role
  rw [heq, put_put]
  exact ⟨es ++ fs, [], rfl, .refl _,
    a.single.trans (Acts.talk fun e he => (htimers e he).isTalk _)⟩

theorem Calm.performs (h : Calm i t u) : Performs i t u := by
  induction h with
  | refl => exact .refl t
  | act _ a _ _ _ ih => exact ih.trans (.of_act a rfl (.refl _))
  | arm _ ih => exact ih.trans (performs_arm ..)
  | shift _ a _ _ _ _ ih => exact ih.trans (performs_goto a)

/-! ### Leading -/

theorem performs_finishChange (hrole : t.node.role = .leader) : Performs i t t.finishChange := by
  unfold finishChange
  simp only
  split
  next h =>
    refine .of_act (.conclude hrole h.1 h.2) (List.append_nil _).symm ?_
    exact List.perm_append_comm
  next => exact .refl t

theorem performs_advanceCommit (hrole : t.node.role = .leader) : Performs i t t.advanceCommit := by
  unfold advanceCommit
  simp only
  split
  next h =>
    have hcommit : Performs i t
        (t.commitUntil (t.node.matchIndex.quorumIndex t.node.config) true) := by
      rw [commitUntil_eq_resume]
      exact .of_act (.commit hrole rfl h.1 h.2) rfl (.refl _)
    exact hcommit.trans (performs_finishChange ((t.same_commitUntil ..).role.trans hrole))
  next => exact performs_finishChange hrole

theorem performs_record {peer : PeerId} {last : Nat}
    (hi : i = .message peer (.appendAccepted t.node.term last) ∨
      i = .message peer (.snapshotAccepted t.node.term last))
    (hrole : t.node.role = .leader) (hlast : last ≤ t.node.log.lastIndex) :
    Performs i t ({ t with node := t.node.noting peer last } : Turn).advanceCommit := by
  have hnote : Performs i t { t with node := t.node.noting peer last } :=
    .of_change (.record hrole hi hlast) rfl rfl
  exact hnote.trans (performs_advanceCommit hrole)

theorem performs_append {command : Command} {client : Option PeerId}
    (hrole : t.node.role = .leader) (hi : i.Appends command client) :
    Performs i t ((t.appendOwn command client).adoptNewer command) := by
  rw [append_eq]
  exact .of_change (.append hrole hi) rfl rfl

theorem performs_appendRequest {sender : PeerId} {r : Request}
    (hi : i = .message sender (.submit r)) (hrole : t.node.role = .leader)
    (h : t.appendRequest r = .ok u) : Performs i t u := by
  have happends : i.Appends r.command (some r.client) := .inr ⟨sender, r, hi, rfl, rfl⟩
  obtain ⟨v, hsent, -, hrole', hleave, -⟩ := exists_of_appendRequest (i := i) hrole h
  calc Performs i t ((t.appendOwn r.command (some r.client)).adoptNewer r.command) :=
        performs_append hrole happends
    Performs i _ v := hsent.performs
    Performs i _ v.advanceCommit := performs_advanceCommit hrole'
    Performs i _ u := hleave.performs

theorem performs_elected (hi : i.Decides t.node.term) (hrole : t.node.role = .candidate)
    (hmaj : t.node.standing.hasMajority = true) : Performs i t t.elected := by
  have hwon : Performs i t { t with node := t.elected.node } := by
    refine .of_change ?_ rfl rfl
    rw [node_elected]
    simpa [Node.inRole, hrole] using Act.elect hi hrole hmaj
  have hcancel : t.elected =
      ({ t with node := t.elected.node } : Turn).put t.elected.node [.cancel .election] := by
    simp [elected, goto, withStanding, hrole, leaveRole, enterRole, cancel, emit, put]
  rw [hcancel]
  exact hwon.trans ⟨[.cancel .election], [], rfl, .refl _, Act.single (.talk trivial)⟩

theorem performs_lead (hi : i.Decides t.node.term) (hrole : t.node.role = .candidate)
    (hmaj : t.node.standing.hasMajority = true) (h : t.lead = .ok u) : Performs i t u := by
  obtain ⟨v, hsent, hnode, rfl⟩ := exists_of_lead (i := i) h
  have hrole' : v.node.role = .leader := hnode ▸ t.role_elected
  -- the entry of its own carries no configuration
  have happend : Performs i t.elected (t.elected.appendOwn .noop none) :=
    performs_append t.role_elected (.inl ⟨rfl, rfl⟩)
  calc Performs i t t.elected := performs_elected hi hrole hmaj
    Performs i _ (t.elected.appendOwn .noop none) := happend
    Performs i _ v := hsent.performs
    Performs i _ v.advanceCommit := performs_advanceCommit hrole'

/-! ### Following -/

theorem performs_heed {leader : PeerId} {term : Nat} (hrole : t.node.role = .follower)
    (hi : i.Brings leader term) (hle : t.node.term ≤ term) :
    Performs i t (t.heed leader term) := by
  have hcurrent : (t.withStanding (·.advanceTo term)).node.term = term :=
    Standing.term_advanceTo hle
  have hterm : i.term? = some term := by
    rcases hi.cases with ⟨_, _, _, _, _, rfl⟩ | ⟨_, _, rfl⟩ <;> rfl
  have hfollow : Performs i (t.withStanding (·.advanceTo term))
      { t.withStanding (·.advanceTo term) with
        node := { (t.withStanding (·.advanceTo term)).node with leader := some leader } } := by
    rcases hi.cases with ⟨sender, prevTerm, prev, entries, commit, rfl⟩ | ⟨sender, s, rfl⟩
    · exact .of_change (.follow hrole (.inl ⟨prevTerm, prev, entries, commit, by rw [hcurrent]⟩))
        rfl rfl
    · exact .of_change (.follow hrole (.inr ⟨s, by rw [hcurrent]⟩)) rfl rfl
  calc Performs i t (t.withStanding (·.advanceTo term)) :=
        (Calm.refl.advanceTo hterm hrole).performs
    Performs i _ _ := hfollow
    Performs i _ (t.heed leader term) := performs_arm _ .election

theorem performs_takeSnapshot {sender leader : PeerId} {s : Snapshot}
    (hi : i = .message sender (.installSnapshot leader t.node.term s))
    (hrole : t.node.role = .follower) :
    Performs i t ((t.takeSnapshot s).send sender
      (.snapshotAccepted t.node.term s.about.index)) := by
  by_cases hs : t.node.log.committed < s.about.index
  · refine ⟨[.restore s, .send sender (.snapshotAccepted t.node.term s.about.index)], [],
      ?_, ?_, Act.single ?_⟩
    · show (t.takeSnapshot s).effects ++ [.send sender (.snapshotAccepted t.node.term _)] = _
      rw [effects_takeSnapshot hs]
      exact List.append_assoc ..
    · show (t.takeSnapshot s).pending.Perm t.pending
      rw [(clean_takeSnapshot t s).pending]
    · show Act i t.node _ [] (t.takeSnapshot s).node
      rw [takeSnapshot_eq_resume]
      exact .install hi hrole hs
  · have hcovered : t.takeSnapshot s = t := if_neg hs
    rw [hcovered]
    exact .of_act (.covered hi hrole (Nat.le_of_not_lt hs)) rfl (.refl _)

theorem Heard.performs (h : Heard i t u) (hrole : t.node.role = .follower) :
    Performs i t u := by
  cases h with
  | accept hi hprev hu =>
    rw [hu, takeEntries_eq_resume]
    exact .of_act (.accept hi hrole hprev) rfl (.refl _)
  | @refuse sender hu =>
    rw [hu]
    exact ⟨[.send sender (.appendRejected t.node.term)], [], rfl, .refl _,
      Act.single (.talk trivial)⟩
  | install hi hu =>
    rw [hu]
    exact performs_takeSnapshot hi hrole

/-! ### The whole transition -/

theorem Deed.performs (h : Deed i t u) : Performs i t u := by
  cases h with
  | calm h => exact h.performs
  | @again term hi hrole h hu =>
    rw [hu]
    exact h.performs.trans (.of_act (.again hi (role_stepDown ..)) (List.append_nil _).symm
      (.refl _))
  | @meet member hrole hi h _ =>
    have hmeet : Performs i t (t.enqueue (.memberAdded member t.node.settings.membersToFind)) :=
      .of_act (.meet hrole hi) (List.append_nil _).symm List.perm_append_comm
    exact hmeet.trans h.performs
  | propose hi hrole hstable hu =>
    rw [hu]
    exact .of_act (.propose hi hrole hstable) (List.append_nil _).symm List.perm_append_comm
  | speak a _ hu =>
    rw [hu]
    exact .of_act a rfl (.refl _)
  | lead h _ hrole hmaj hi hu => exact h.performs.trans (performs_lead hi hrole hmaj hu)
  | append hi hrole hu => exact performs_appendRequest hi hrole hu
  | record hi hrole hlast hu =>
    rw [hu]
    exact performs_record hi hrole hlast
  | heed hrole hi hterm h => exact (performs_heed hrole hi hterm).trans (h.performs hrole)
  | capture hi hu =>
    rcases capture_cases hu with ⟨-, rfl⟩ | ⟨about, hdue, rfl⟩
    · exact .refl u
    · exact .of_act (.capture hi hdue) rfl (.refl _)
  | finish hi hu =>
    rw [hu]
    exact .of_change (.finish hi) rfl rfl

theorem performs_dispatch (h : t.dispatch i = .ok u) : Performs i t u := (deed_dispatch h).performs

/-- From the first input to the last, a transition runs a course. -/
theorem settle_course {budget : Nat} (h : t.settle budget = .ok u) :
    ∃ es, u.effects = t.effects ++ es ∧ Course t.pending t.node es u.node := by
  induction budget using Nat.strongRecOn generalizing t with
  | ind budget ih =>
    rcases settle_cases h with ⟨hp, rfl⟩ | ⟨j, rest, b, v, hp, rfl, hu, hrest⟩
    · rw [hp]
      exact ⟨[], (List.append_nil _).symm, .nil _⟩
    · obtain ⟨es, js, hes, hjs, hacts⟩ := performs_dispatch hu
      obtain ⟨fs, hfs, hcourse⟩ := ih b (Nat.lt_succ_self b) hrest
      rw [hp]
      exact ⟨es ++ fs, by rw [hfs, hes, List.append_assoc], .cons hacts hjs hcourse⟩

end Turn

/-- Every transition is a course of acts. -/
theorem step_course {n m : Node} {i : Input} {es : List Effect} (h : step n i = .ok (m, es)) :
    Course [i] n es m := by
  obtain ⟨t, ht, rfl, rfl⟩ := exists_process_of_step h
  obtain ⟨fs, hfs, hcourse⟩ := Turn.settle_course ht
  rw [hfs]
  exact hcourse

/-- Every transition keeps to a discipline. -/
theorem Discipline.step {γ : Type} (d : Discipline γ) {g : γ} {n m : Node} {i : Input}
    {es : List Effect} (h : Raft.step n i = .ok (m, es)) (hn : d.Inv g n) (hi : d.Good g i) :
    ∃ g', d.Le g g' ∧ d.Inv g' m ∧ ∀ e ∈ es, d.Fine g' e :=
  d.course (step_course h) hn fun _ hj => List.mem_singleton.1 hj ▸ hi

/-- The same for a property that every act keeps, whatever it asks of the inputs. -/
theorem step_keeps (Inv : Node → Prop) (Good : Input → Prop) {n m : Node} {i : Input}
    {es : List Effect} (h : step n i = .ok (m, es)) (hn : Inv n) (hi : Good i)
    (hact : ∀ {i n m es js}, Inv n → Good i → Act i n es js m → Inv m ∧ ∀ j ∈ js, Good j) :
    Inv m := (step_course h).keeps Inv Good hn (fun _ hj => List.mem_singleton.1 hj ▸ hi) hact

/-- A node that looks for the cluster has always done so. All that can become of it is that it finds
somebody, or that a snapshot covers a part of its log. -/
theorem Act.of_init {i : Input} {n m : Node} {es : List Effect} {js : List Input}
    (a : Act i n es js m) (hm : m.role = .init) :
    n.role = .init ∧ (m.log = n.log ∨ ∃ s, m.log = n.log.compact s) ∧
      (m.config = n.config ∨
        ∃ sender member required, i = .message sender (.memberAdded member required) ∧
          m.config = .stable 0 ((n.members.insert n.id).insert member)) := by
  have hleft : n.Same m → n.role ≠ .init → False := fun hsame hrole =>
    hrole (hsame.role.symm.trans hm)
  cases a with
  | observe | yield | campaign | elect | await | enter | adopt => cases hm
  | append hrole => exact (hleft (n.turn.same_append ..) (by simp [hrole])).elim
  | commit hrole => exact (hleft (n.turn.same_commitUntil ..) (by simp [hrole])).elim
  | accept _ hrole => exact (hleft (n.turn.same_takeEntries ..) (by simp [hrole])).elim
  | install _ hrole => exact (hleft (n.turn.same_takeSnapshot ..) (by simp [hrole])).elim
  | @finish s =>
    cases s with
    | none => exact ⟨hm, .inl rfl, .inl rfl⟩
    | some s => exact ⟨hm, .inr ⟨s, rfl⟩, .inl rfl⟩
  | @enroll sender member required hi hrole =>
    obtain ⟨role, hnode, -⟩ := Turn.addMember_cases hrole member required
    rw [hnode]
    exact ⟨hrole, .inl rfl, .inr ⟨sender, member, required, hi, rfl⟩⟩
  | _ => exact ⟨hm, .inl rfl, .inl rfl⟩

end Raft
