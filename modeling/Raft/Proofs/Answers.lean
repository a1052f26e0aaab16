import Raft.Proofs.Applying
import Raft.Proofs.Charter
import Raft.Proofs.Succession

/-!
# What a node tells its clients

A node answers a client when it applies the client's entry, and never of its own accord. Apart from
that it only ever speaks of a request to send it back to where it comes from. So whoever follows a
request through the cluster has to look at the entries and at what is sent back.

* `Input.Vouches`, what a node may send while it processes an input, and `vouches_of_step`, every
  transition keeps to that: the entries that get into the log or are sent are such as were there,
  were brought, or are added by the leader;
* `applied_of_step`, an entry that is applied is in the log and comes to be committed.
-/

namespace Raft

variable {Q : Entry → Prop} {i j : Input} {n m : Node} {es fs : List Effect} {js : List Input}

/-! ### What a node may send -/

/-- Whether a message is about a request: it hands one in, answers it or sends it back. -/
def Message.IsAboutRequest : Message → Prop
  | .submit _ => True
  | .respond .. => True
  | .leaderIs _ (some _) => True
  | _ => False

theorem Input.holds_iff : i.Holds Q (fun _ => True) ↔ ∀ e ∈ i.batch, Q e := by
  cases i with
  | message sender message =>
    cases message with
    | appendEntries => exact Iff.rfl
    | _ => exact iff_of_true trivial nofun
  | snapshotPrepared s => cases s <;> exact iff_of_true trivial nofun
  | _ => exact iff_of_true trivial nofun

/-- What the node `me` may send to a receiver while it processes the input `i`. The entries are such
as `Q` says, and if the message is about a request, then it sends that back. -/
structure Input.Vouches (i : Input) (me : PeerId) (Q : Entry → Prop) (receiver : PeerId)
    (message : Message) : Prop where
  entries : message.Holds Q fun _ => True
  sendsBack : message.IsAboutRequest → ∃ hint r, message = .leaderIs hint (some r) ∧
    (i = .message receiver (.submit r) ∨ receiver = me)

/-- Whether an effect sends only what the node may send. -/
def Effect.IsVouched (i : Input) (me : PeerId) (Q : Entry → Prop) (f : Effect) : Prop :=
  f.Says (fun _ => i.Vouches me Q) (fun _ => True) me

theorem Effect.IsVouched.of_link {me : PeerId} {f : Effect} (h : f.IsVouched j me Q)
    (hj : ∀ p r, j = .message p (.submit r) → i = .message p (.submit r) ∨ p = me) :
    f.IsVouched i me Q := by
  refine h.imp (fun _ receiver message hv => ⟨hv.entries, fun habout => ?_⟩) fun _ _ => trivial
  obtain ⟨hint, r, heq, hback⟩ := hv.sendsBack habout
  exact ⟨hint, r, heq, hback.elim (hj receiver r) .inr⟩

/-- What is not about requests is vouched for if its entries are. -/
theorem Input.Vouches.of_entries {me receiver : PeerId} {message : Message}
    (hentries : message.Holds Q fun _ => True) (h : ¬ message.IsAboutRequest) :
    i.Vouches me Q receiver message := ⟨hentries, fun habout => absurd habout h⟩

theorem Effect.IsTalk.isVouched {me : PeerId} {f : Effect} (h : f.IsTalk me) :
    f.IsVouched i me Q := by
  have hmessage : ∀ message : Message, message.IsTalk me →
      ∀ receiver, i.Vouches me Q receiver message := by
    intro message hm receiver
    cases message with
    | leaderIs _ pending =>
      cases pending with
      | none => exact .of_entries trivial id
      | some r => exact hm.elim
    | appendEntries | installSnapshot | submit | respond => exact hm.elim
    | _ => exact .of_entries trivial id
  cases f with
  | send receiver message => exact hmessage message h receiver
  | forward sender receiver message => exact hmessage message h receiver
  | arm | cancel => trivial
  | _ => exact h.elim

/-! ### Acts -/

theorem Act.isVouched (a : Act i n es js m) (hn : n.log.Holds Q fun _ => True) :
    ∀ f ∈ es, f.IsVouched i n.id Q := by
  intro f hf
  cases a with
  | talk htalk =>
    rw [List.mem_singleton.1 hf]
    exact htalk.isVouched
  | redirect hi =>
    rw [List.mem_singleton.1 hf]
    exact ⟨trivial, fun _ => ⟨_, _, rfl, .inl hi⟩⟩
  | campaign =>
    obtain ⟨p, -, rfl⟩ := List.mem_map.1 hf
    exact .of_entries trivial id
  | sendNext _ hm =>
    rw [List.mem_singleton.1 hf]
    rcases n.nextMessage_cases hm with ⟨start, _, _, rfl⟩ | ⟨_, _, rfl⟩
    · refine .of_entries (fun e he => hn.entries e ?_) id
      exact List.mem_of_mem_drop (List.mem_of_mem_take he)
    · exact .of_entries trivial id
  | commit =>
    obtain ⟨gs, hgs, honState⟩ := n.turn.emits_commitUntil _ true
    rw [hgs] at hf
    exact Effect.says_of_isOnState (honState f hf)
  | accept =>
    obtain ⟨gs, honState, hgs⟩ := n.turn.effects_takeEntries _ _ _ _
    rw [hgs] at hf
    rcases List.mem_append.1 hf with hf | hf
    · exact Effect.says_of_isOnState (honState f hf)
    · rw [List.mem_singleton.1 hf]
      exact .of_entries trivial id
  | install =>
    rcases List.mem_cons.1 hf with rfl | hf
    · trivial
    · rw [List.mem_singleton.1 hf]
      exact .of_entries trivial id
  | grant | covered | probe | await | askAgain | passRequest | tell | passChange =>
    rw [List.mem_singleton.1 hf]
    exact .of_entries trivial id
  | capture =>
    rw [List.mem_singleton.1 hf]
    trivial
  | _ => cases hf

/-- All that a chain of acts brings into the log and sends is such as `Q` says, if what is there,
what is brought and what is appended is. -/
theorem Acts.isVouched (h : Acts i n es js m) (hn : n.log.Holds Q fun _ => True)
    (hi : i.Holds Q fun _ => True)
    (happended : ∀ e : Entry, i.Appends e.command e.client → Q e) :
    m.id = n.id ∧ m.log.Holds Q (fun _ => True) ∧ ∀ f ∈ es, f.IsVouched i n.id Q := by
  induction h with
  | refl => exact ⟨rfl, hn, nofun⟩
  | tail _ a ih =>
    obtain ⟨hid, hlog, hes⟩ := ih
    refine ⟨a.id_settings.1.trans hid, a.recast.holds hlog hi fun command client => ?_, ?_⟩
    · exact happended ⟨_, _, command, client⟩
    · intro f hf
      exact (List.mem_append.1 hf).elim (hes f) fun hf => hid ▸ a.isVouched hlog f hf

/-- Nothing that is committed is taken back. -/
theorem Recast.committed_le (h : Recast i n m) : n.log.committed ≤ m.log.committed := by
  cases h with
  | same h => exact Nat.le_of_eq (h.log ▸ rfl)
  | commit _ hlog => exact hlog ▸ Nat.le_max_left ..
  | append _ _ hlog => exact Nat.le_of_eq (hlog ▸ rfl)
  | merge _ hlog =>
    rw [hlog, ← Log.committed_merge n.log]
    exact Nat.le_max_left ..
  | install _ hlog => exact hlog ▸ n.log.committed_le_compact _
  | finish _ hlog => exact hlog ▸ n.log.committed_le_compact _
  | told _ _ hlog => exact Nat.le_of_eq (hlog ▸ rfl)
  | enroll _ _ hlog => exact Nat.le_of_eq (hlog ▸ rfl)

theorem Node.client_of_appended? {sender : PeerId} {r : Request} {e : Entry}
    (h : n.appended? (.message sender (.submit r)) = some e) : e.client = some r.client := by
  unfold appended? at h
  simp only at h
  split at h
  next => exact Option.some.inj h ▸ rfl
  next => cases h

namespace Turn

variable {t u v : Turn} {ss : List Stage}

/-! ### One input -/

/-- A leader takes a command into its log before it does anything else. -/
theorem isVouched_appendRequest {sender : PeerId} {r : Request} (hrole : t.node.role = .leader)
    (h : t.appendRequest r = .ok u) (hes : u.effects = t.effects ++ es)
    (ht : t.node.log.Holds Q fun _ => True) (hown : ∀ e : Entry, e.client = none → Q e)
    (happended : ∀ e, t.node.appended? (.message sender (.submit r)) = some e → Q e) :
    u.node.log.Holds Q (fun _ => True) ∧ ∀ f ∈ es, f.IsVouched .compactLog t.node.id Q := by
  have hnew := happended _ (if_pos hrole)
  have hsame := t.same_append r.command (some r.client)
  have hlog := t.log_append r.command (some r.client)
  obtain ⟨v, hsent, -, hlead, hleave, -⟩ := exists_of_appendRequest (i := .compactLog) hrole h
  have hafter : Performs .compactLog
      ((t.appendOwn r.command (some r.client)).adoptNewer r.command) u :=
    calc Performs .compactLog _ v := hsent.performs
      Performs .compactLog _ v.advanceCommit := performs_advanceCommit hlead
      Performs .compactLog _ u := hleave.performs
  obtain ⟨fs, js, hfs, -, hacts⟩ := hafter
  obtain rfl : fs = es := by
    rw [effects_append, hes] at hfs
    exact (List.append_cancel_left hfs).symm
  obtain ⟨-, hu, hvouched⟩ := hacts.isVouched (hlog ▸ ht.append hnew) trivial fun e he => by
    rcases he with ⟨-, hclient⟩ | ⟨_, _, hsubmit, -⟩
    · exact hown e hclient
    · cases hsubmit
  exact ⟨hu, hsame.id ▸ hvouched⟩

theorem isVouched_dispatch (h : t.dispatch i = .ok u) (hes : u.effects = t.effects ++ es)
    (ht : t.node.log.Holds Q fun _ => True) (hi : i.Holds Q fun _ => True)
    (hown : ∀ e : Entry, e.client = none → Q e)
    (happended : ∀ e, t.node.appended? i = some e → Q e) :
    u.node.log.Holds Q (fun _ => True) ∧ ∀ f ∈ es, f.IsVouched i t.node.id Q := by
  by_cases hsubmit : ∃ sender r, i = .message sender (.submit r)
  · obtain ⟨sender, r, rfl⟩ := hsubmit
    simp only [dispatch, onMessage, onSubmit] at h
    split at h
    next hrole =>
      obtain ⟨hu, hvouched⟩ := isVouched_appendRequest hrole h hes ht hown happended
      exact ⟨hu, fun f hf => (hvouched f hf).of_link fun _ _ heq => by cases heq⟩
    next =>
      obtain rfl := Except.ok.inj h
      refine ⟨ht, fun f hf => ?_⟩
      rw [← List.append_cancel_left hes] at hf
      rw [List.mem_singleton.1 hf]
      exact ⟨trivial, fun _ => ⟨_, _, rfl, .inl rfl⟩⟩
  · obtain ⟨fs, js, hfs, -, hacts⟩ := performs_dispatch h
    obtain rfl : fs = es := List.append_cancel_left (hfs.symm.trans hes)
    refine (hacts.isVouched ht hi fun e he => ?_).2
    rcases he with ⟨-, hclient⟩ | ⟨sender, r, heq, -⟩
    · exact hown e hclient
    · exact absurd ⟨sender, r, heq⟩ hsubmit

/-! ### All that follows from an input -/

/-- If the log vouches for its entries before an input, it does so after all that follows, and so
does every answer on the way. What the node raises itself is either no request or one in its own
name. -/
theorem Thread.isVouched (h : Thread i t ss v) (ht : t.node.log.Holds Q fun _ => True)
    (hi : i.Holds Q fun _ => True)
    (hown : ∀ e : Entry, e.client = none ∨ e.client = some t.node.id → Q e)
    (happended : ∀ e, t.node.appended? i = some e → Q e) :
    v.node.log.Holds Q (fun _ => True) ∧
      ∀ f ∈ ss.flatMap (·.effects), f.IsVouched i t.node.id Q := by
  induction h with
  | last _ hu hes =>
    simpa using isVouched_dispatch hu hes ht hi (fun e he => hown e (.inl he)) happended
  | @next i j t u v es ss _ hu hes _ hj _ ih =>
    obtain ⟨hlog, hvouched⟩ :=
      isVouched_dispatch hu hes ht hi (fun e he => hown e (.inl he)) happended
    have hid : u.node.id = t.node.id := by
      obtain ⟨_, _, -, -, hacts⟩ := performs_dispatch hu
      exact (hacts.keeps (·.id = t.node.id) (fun _ => True) rfl
        fun hx a => ⟨a.id_settings.1.trans hx, fun _ _ => trivial⟩).1
    rw [List.flatMap_cons]
    rcases hj with ⟨rfl, hfollower, -⟩ | hraised
    · obtain ⟨hv, hrest⟩ := ih hlog hi (hid ▸ hown) fun e he => by
        obtain ⟨-, _, _, rfl, -⟩ := Node.appended?_eq_some he
        exact hfollower.elim
      exact ⟨hv, fun f hf => (List.mem_append.1 hf).elim (hvouched f) fun hf => hid ▸ hrest f hf⟩
    · have hlink : ∀ p r, j = .message p (.submit r) → p = t.node.id ∧ r.client = t.node.id := by
        intro p r heq
        subst heq
        cases hraised <;> exact ⟨hid, hid⟩
      have hholds : j.Holds Q fun _ => True := by cases hraised <;> trivial
      obtain ⟨hv, hrest⟩ := ih hlog hholds (hid ▸ hown) fun e he => by
        obtain ⟨-, p, r, rfl, -⟩ := Node.appended?_eq_some he
        exact hown e (.inr ((Node.client_of_appended? he).trans (congrArg some (hlink p r rfl).2)))
      refine ⟨hv, fun f hf => (List.mem_append.1 hf).elim (hvouched f) fun hf => ?_⟩
      exact (hid ▸ hrest f hf).of_link fun p r heq => .inr (hlink p r heq).1

/-! ### What is applied -/

/-- An input that the node has raised itself leaves in the log what is there. -/
theorem Amends.commits_of_isOwn (h : Amends i t u) (hi : i.IsOwn) {e : Entry}
    (he : e ∈ t.node.log.entries) :
    e ∈ u.node.log.entries ∧ t.node.log.committed ≤ u.node.log.committed := by
  obtain ⟨v, hv, -, k, -, -, hcommit, -⟩ := h.serves_of_isOwn hi
  rw [hcommit]
  rcases hv with hv | ⟨_, -, hv⟩ <;> rw [hv]
  · exact ⟨he, Nat.le_max_left ..⟩
  · exact ⟨List.mem_append_left _ he, Nat.le_max_left ..⟩

theorem Thread.commits_of_isOwn (h : Thread i t ss v) (hi : i.IsOwn) {e : Entry}
    (he : e ∈ t.node.log.entries) :
    e ∈ v.node.log.entries ∧ t.node.log.committed ≤ v.node.log.committed := by
  induction h with
  | last _ hu => exact (amends_dispatch hu).1.commits_of_isOwn hi he
  | @next i j t u v es ss _ hu _ _ hj _ ih =>
    obtain ⟨hu, hle⟩ := (amends_dispatch hu).1.commits_of_isOwn hi he
    obtain ⟨hv, hle'⟩ := ih (isOwn_of_link hj hi) hu
    exact ⟨hv, Nat.le_trans hle hle'⟩

/-- An entry that is applied stands in the log behind what was committed before, and comes to be
committed. -/
theorem Amends.commits_of_applied (h : Amends i t u) (hes : u.effects = t.effects ++ es) {e : Entry}
    {respond : Bool} (he : .apply e respond ∈ es) : e ∈ u.node.log.entries ∧
      t.node.log.committed < e.index ∧ e.index ≤ u.node.log.committed := by
  have hmem : .apply e respond ∈ es.filter Effect.isOnState := List.mem_filter.2 ⟨he, rfl⟩
  cases h with
  | @serve v hbasis hasked hserves =>
    obtain ⟨k, _, captures, hcommit, hcaptures, heffects⟩ := hserves
    rw [filter_of_asked hes (hasked ▸ heffects)] at hmem
    rcases List.mem_append.1 hmem with hmem | hmem
    · obtain ⟨f, hf, happlied⟩ := List.mem_filterMap.1 hmem
      obtain rfl : f = e := by
        unfold Entry.applied? at happlied
        split at happlied <;> cases happlied
        rfl
      obtain ⟨hf, hbetween⟩ := List.mem_filter.1 hf
      simp only [decide_eq_true_eq, hbasis.committed_eq] at hbetween
      exact ⟨hcommit ▸ hf, hbetween⟩
    · rcases hcaptures with rfl | ⟨about, rfl, -⟩
      · cases hmem
      · cases List.mem_singleton.1 hmem
  | install _ _ _ _ hasked =>
    rw [filter_of_asked hes hasked] at hmem
    cases List.mem_singleton.1 hmem
  | compact _ _ hasked =>
    rw [filter_of_asked hes (hasked.trans (List.append_nil _).symm)] at hmem
    cases hmem

theorem committed_le_dispatch (h : t.dispatch i = .ok u) :
    t.node.log.committed ≤ u.node.log.committed := by
  obtain ⟨_, _, -, -, hacts⟩ := performs_dispatch h
  exact (hacts.keeps (t.node.log.committed ≤ ·.log.committed) (fun _ => True) (Nat.le_refl _)
    fun hx a => ⟨Nat.le_trans hx a.recast.committed_le, fun _ _ => trivial⟩).1

/-- An entry that is applied on the way is in the log in the end, and committed there, and was not
committed before. Nothing is applied before an input is considered again, and what the node raises
itself leaves the entry where it is. -/
theorem Thread.commits_of_applied (h : Thread i t ss v) {e : Entry} {respond : Bool}
    (he : .apply e respond ∈ ss.flatMap (·.effects)) : e ∈ v.node.log.entries ∧
      t.node.log.committed < e.index ∧ e.index ≤ v.node.log.committed := by
  induction h with
  | last _ hu hes => exact (amends_dispatch hu).1.commits_of_applied hes (by simpa using he)
  | @next i j t u v es ss _ hu hes _ hj hrest ih =>
    rw [List.flatMap_cons] at he
    rcases List.mem_append.1 he with he | he
    · obtain ⟨hmem, hlt, hle⟩ := (amends_dispatch hu).1.commits_of_applied hes he
      rcases hj with ⟨-, -, hcalm⟩ | hraised
      · obtain ⟨gs, hgs, hquiet⟩ := hcalm.emits
        obtain rfl : gs = es := List.append_cancel_left (hgs.symm.trans hes)
        cases hquiet _ he
      · obtain ⟨hmem', hle'⟩ := hrest.commits_of_isOwn hraised.isOwn hmem
        exact ⟨hmem', hlt, Nat.le_trans hle hle'⟩
    · obtain ⟨hmem, hlt, hle⟩ := ih he
      exact ⟨hmem, Nat.lt_of_le_of_lt (committed_le_dispatch hu) hlt, hle⟩

end Turn

/-! ### Transitions -/

/-- What a transition brings into the log and sends is such as `Q` says, if what is there, what is
brought, what the node appends for a client and what it appends in its own name is. The only
messages about requests send them back. -/
theorem vouches_of_step (h : step n i = .ok (m, es)) (hn : ∀ e ∈ n.log.entries, Q e)
    (hi : ∀ e ∈ i.batch, Q e) (hown : ∀ e : Entry, e.client = none ∨ e.client = some n.id → Q e)
    (happended : ∀ e, n.appended? i = some e → Q e) :
    (∀ e ∈ m.log.entries, Q e) ∧ ∀ f ∈ es, f.IsVouched i n.id Q := by
  obtain ⟨u, rfl, -, hthread⟩ := thread_of_step h
  obtain ⟨hlog, hvouched⟩ :=
    hthread.isVouched ⟨hn, fun _ _ => trivial⟩ (Input.holds_iff.2 hi) hown happended
  rw [effects_of_step h]
  exact ⟨hlog.entries, hvouched⟩

/-- An entry that is applied in a transition is in the log afterwards. It was not committed before,
and it is now. -/
theorem applied_of_step (h : step n i = .ok (m, es)) {e : Entry} {respond : Bool}
    (he : .apply e respond ∈ es) :
    e ∈ m.log.entries ∧ n.log.committed < e.index ∧ e.index ≤ m.log.committed := by
  obtain ⟨u, rfl, -, hthread⟩ := thread_of_step h
  rw [effects_of_step h] at he
  exact hthread.commits_of_applied he

theorem id_of_step (h : step n i = .ok (m, es)) : m.id = n.id :=
  step_keeps (·.id = n.id) (fun _ => True) h rfl trivial
    fun hx _ a => ⟨a.id_settings.1.trans hx, fun _ _ => trivial⟩

theorem committed_le_of_step (h : step n i = .ok (m, es)) : n.log.committed ≤ m.log.committed :=
  step_keeps (n.log.committed ≤ ·.log.committed) (fun _ => True) h (Nat.le_refl _) trivial
    fun hx _ a => ⟨Nat.le_trans hx a.recast.committed_le, fun _ _ => trivial⟩

end Raft
