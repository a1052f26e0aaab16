import Raft.Network
import Raft.Progress

/-!
# What an inbox receives

The inboxes of a network are read by nodes and clients, and peers are reached through them. What has
been done so far, the last action first, decides which of the delivered messages an inbox gets, and
it gets those once and in order. No other input is ever received there.

* `Network.Since`, something has been done and not been undone since then: `Network.IsEndpoint`,
  whom an inbox belongs to, and `Network.IsCut`, where nothing passes;
* `Network.due`, the inputs that an inbox has to get, and `Network.received`, what was received;
* `Network.endpoints_after`, `Network.severed_after` and `Network.received_append_waiting`, the
  network keeps account of what has been done;
* `Network.receives_in_order`, all of it.
-/

namespace Raft

theorem Inbox.capacity_offer (b : Inbox) (i : Input) : (b.offer i).capacity = b.capacity := by
  unfold offer
  split <;> rfl

theorem Inbox.closed_offer (b : Inbox) (i : Input) : (b.offer i).closed = b.closed := by
  unfold offer
  split <;> rfl

namespace Network

/-- What can be done with a network and with the inboxes that are read. -/
inductive Action
  | register (p : PeerId) (k : Nat)
  | unregister (p : PeerId)
  | close (k : Nat)
  | disconnect (p q : PeerId)
  | reconnect (p q : PeerId)
  | deliver (sender receiver : PeerId) (m : Message)
  | receive (k : Nat)
  deriving DecidableEq

/-- The peer whose inbox an action settles. -/
def Action.endpoint? : Action → Option PeerId
  | .register p _ => some p
  | .unregister p => some p
  | _ => none

/-- The network after an action. -/
def perform (n : Network) : Action → Network
  | .register p k => n.register p k
  | .unregister p => n.unregister p
  | .close k => n.close k
  | .disconnect p q => n.disconnect p q
  | .reconnect p q => n.reconnect p q
  | .deliver sender receiver m => n.deliver sender receiver m
  | .receive k => (n.receive k).1

/-- A network with one inbox of each capacity. Nobody is reached through them yet. -/
def withInboxes (capacities : List Nat) : Network :=
  { inboxes := capacities.map fun c => { capacity := c } }

/-- The network after some actions, the last one first. -/
def after (capacities : List Nat) : List Action → Network
  | [] => withInboxes capacities
  | a :: past => (after capacities past).perform a

/-- What an action brings to the reader of inbox `k`. -/
def brought (n : Network) (k : Nat) (a : Action) : List Input :=
  if a = .receive k then
    match (n.receive k).2 with
    | .input i => [i]
    | _ => []
  else []

/-- All that was received from inbox `k`, in order. -/
def received (capacities : List Nat) (k : Nat) : List Action → List Input
  | [] => []
  | a :: past => received capacities k past ++ (after capacities past).brought k a

/-! ### What has been done -/

/-- Something of the one kind has been done, and nothing of the other kind since then. -/
def Since (begins ends : Action → Prop) : List Action → Prop
  | [] => False
  | a :: past => begins a ∨ (¬ ends a ∧ Since begins ends past)

instance Since.decidable (begins ends : Action → Prop) [DecidablePred begins]
    [DecidablePred ends] : DecidablePred (Since begins ends)
  | [] => inferInstanceAs (Decidable False)
  | a :: past =>
    have := Since.decidable begins ends past
    inferInstanceAs (Decidable (begins a ∨ (¬ ends a ∧ Since begins ends past)))

/-- The inbox that was last registered for `p` is inbox `k`, and `p` has not been unregistered. -/
def IsEndpoint (p : PeerId) (k : Nat) : List Action → Prop :=
  Since (· = .register p k) (·.endpoint? = some p)

/-- The link between `p` and `q` was cut, whichever of them came first, and not restored. -/
def IsCut (p q : PeerId) : List Action → Prop :=
  Since (fun a => a = .disconnect p q ∨ a = .disconnect q p)
    (fun a => a = .reconnect p q ∨ a = .reconnect q p)

instance (p : PeerId) (k : Nat) : DecidablePred (IsEndpoint p k) :=
  inferInstanceAs (DecidablePred (Since _ _))

instance (p q : PeerId) : DecidablePred (IsCut p q) :=
  inferInstanceAs (DecidablePred (Since _ _))

/-- The inputs that inbox `k` has to get, in order: what is delivered to the peer whose inbox it is
at the time, unless it has been closed, the link from the sender is cut, or as many inputs wait as
it has room for. -/
def due (capacities : List Nat) (k : Nat) : List Action → List Input
  | [] => []
  | .deliver sender receiver m :: past =>
    if IsEndpoint receiver k past ∧ .close k ∉ past ∧ ¬ IsCut sender receiver past ∧
        (due capacities k past).length - (received capacities k past).length <
          capacities.getD k 0 then
      due capacities k past ++ [.message sender m]
    else due capacities k past
  | _ :: past => due capacities k past

variable {n : Network} {a : Action} {b : Inbox} {k : Nat}

theorem isCut_comm (p q : PeerId) (past : List Action) : IsCut p q past ↔ IsCut q p past := by
  unfold IsCut
  simp only [or_comm]

/-! ### What an action does to an inbox -/

/-- Inbox `k` is closed, takes a message, or gives away what came first. -/
def change (n : Network) (k : Nat) (a : Action) (b : Inbox) : Inbox :=
  match a with
  | .close j => if j = k then { b with closed := true } else b
  | .deliver sender receiver m =>
    if n.isConnected sender receiver = true ∧ n.endpoints.lookup receiver = some k then
      b.offer (.message sender m)
    else b
  | .receive j => if j = k then { b with waiting := b.waiting.tail } else b
  | _ => b

theorem getElem?_modifyInbox (n : Network) (j k : Nat) (f : Inbox → Inbox) :
    (n.modifyInbox j f).inboxes[k]? =
      n.inboxes[k]?.map fun b => if j = k then f b else b := by
  rw [modifyInbox, List.getElem?_modify]
  rfl

theorem getElem?_perform (n : Network) (a : Action) (k : Nat) :
    (n.perform a).inboxes[k]? = n.inboxes[k]?.map (n.change k a) := by
  have hkept : (∀ b, n.inboxes[k]? = some b → n.change k a b = b) →
      n.inboxes[k]? = n.inboxes[k]?.map (n.change k a) := by
    intro hsame
    cases hk : n.inboxes[k]? with
    | none => rfl
    | some b => rw [Option.map_some, hsame b hk]
  cases a with
  | close j => exact getElem?_modifyInbox ..
  | deliver sender receiver m =>
    have hlost : ¬ (n.isConnected sender receiver = true ∧
        n.endpoints.lookup receiver = some k) →
        ∀ b, n.change k (.deliver sender receiver m) b = b := fun h b => if_neg h
    show (n.deliver sender receiver m).inboxes[k]? = _
    unfold deliver
    split
    next hconnected =>
      split
      next j hj =>
        rw [offer, getElem?_modifyInbox]
        congr 1
        funext b
        simp [change, hconnected, hj]
      next hnone =>
        exact hkept fun b _ => hlost (fun h => nomatch hnone.symm.trans h.2) b
    next hcut => exact hkept fun b _ => hlost (fun h => hcut h.1) b
  | receive j =>
    show (n.receive j).1.inboxes[k]? = _
    unfold receive
    split
    next hnone =>
      refine hkept fun b hb => if_neg ?_
      rintro rfl
      cases hnone.symm.trans hb
    next b hb =>
      split
      next i rest hwaiting =>
        rw [getElem?_modifyInbox]
        cases hk : n.inboxes[k]? with
        | none => rfl
        | some b' =>
          by_cases hjk : j = k
          · subst hjk
            obtain rfl := Option.some.inj (hb.symm.trans hk)
            simp [change, hwaiting]
          · simp [change, hjk]
      next hwaiting =>
        refine hkept fun b' hb' => ?_
        by_cases hjk : j = k
        · subst hjk
          obtain rfl := Option.some.inj (hb.symm.trans hb')
          cases b
          simp_all [change]
        · exact if_neg hjk
  | _ => exact hkept fun _ _ => rfl

theorem capacity_change (n : Network) (k : Nat) (a : Action) (b : Inbox) :
    (n.change k a b).capacity = b.capacity := by
  unfold change
  split
  · split <;> rfl
  · split
    · exact b.capacity_offer _
    · rfl
  · split <;> rfl
  · rfl

theorem closed_change (n : Network) (k : Nat) (a : Action) (b : Inbox) :
    (n.change k a b).closed = true ↔ a = .close k ∨ b.closed = true := by
  have hother : a ≠ .close k → (n.change k a b).closed = b.closed →
      ((n.change k a b).closed = true ↔ a = .close k ∨ b.closed = true) := fun hne heq => by
    rw [heq, or_iff_right hne]
  cases a with
  | close j =>
    by_cases hj : j = k
    · simp [change, hj]
    · exact hother (fun h => hj (Action.close.inj h)) (congrArg Inbox.closed (if_neg hj))
  | deliver =>
    refine hother nofun ?_
    simp only [change]
    split
    · exact b.closed_offer _
    · rfl
  | receive =>
    refine hother nofun ?_
    simp only [change]
    split <;> rfl
  | _ => exact hother nofun rfl

/-- No inbox is lost, and how many inputs it has room for stays. -/
theorem capacity_after (capacities : List Nat) (past : List Action) (k : Nat) :
    (after capacities past).inboxes[k]?.map (·.capacity) = capacities[k]? := by
  induction past with
  | nil =>
    simp only [after, withInboxes, List.getElem?_map, Option.map_map, Function.comp_def]
    exact Option.map_id' ..
  | cons a past ih =>
    rw [after, getElem?_perform, Option.map_map, ← ih]
    simp only [Function.comp_def, capacity_change]

theorem closed_after {past : List Action} (hb : (after capacities past).inboxes[k]? = some b) :
    b.closed = true ↔ .close k ∈ past := by
  induction past generalizing b with
  | nil =>
    rw [after, withInboxes, List.getElem?_map] at hb
    obtain ⟨c, -, rfl⟩ := Option.map_eq_some_iff.1 hb
    simp
  | cons a past ih =>
    rw [after, getElem?_perform] at hb
    obtain ⟨b', hb', rfl⟩ := Option.map_eq_some_iff.1 hb
    rw [closed_change, ih hb', List.mem_cons]
    simp only [eq_comm]

/-! ### Endpoints and links -/

theorem endpoints_perform (n : Network) (h : a.endpoint? = none) :
    (n.perform a).endpoints = n.endpoints := by
  cases a with
  | register | unregister => cases h
  | deliver sender receiver m =>
    show (n.deliver sender receiver m).endpoints = _
    unfold deliver
    split
    · split <;> rfl
    · rfl
  | receive j =>
    show (n.receive j).1.endpoints = _
    unfold receive
    split
    · rfl
    · split <;> rfl
  | _ => rfl

/-- A peer is reached through the inbox that is its own. -/
theorem endpoints_after (capacities : List Nat) (p : PeerId) (k : Nat) (past : List Action) :
    (after capacities past).endpoints.lookup p = some k ↔ IsEndpoint p k past := by
  induction past with
  | nil => simp [after, withInboxes, IsEndpoint, Since]
  | cons a past ih =>
    rw [after]
    cases a with
    | register q j =>
      show ((q, j) :: (after capacities past).endpoints.filter (·.1 != q)).lookup p = some k ↔ _
      by_cases hq : p = q
      · subst hq
        simp [IsEndpoint, Since, Action.endpoint?, eq_comm]
      · rw [List.lookup_cons, beq_false_of_ne hq]
        show ((after capacities past).endpoints.filter (·.1 != q)).lookup p = some k ↔ _
        rw [Progress.lookup_filter_ne hq, ih]
        simp [IsEndpoint, Since, Action.endpoint?, Ne.symm hq]
    | unregister q =>
      show ((after capacities past).endpoints.filter (·.1 != q)).lookup p = some k ↔ _
      by_cases hq : p = q
      · subst hq
        have hnone : ((after capacities past).endpoints.filter (·.1 != p)).lookup p = none := by
          refine List.lookup_eq_none_iff.2 fun e he => ?_
          have hne := (List.mem_filter.1 he).2
          rw [bne_iff_ne] at hne
          exact bne_iff_ne.2 hne.symm
        rw [hnone]
        simp [IsEndpoint, Since, Action.endpoint?]
      · rw [Progress.lookup_filter_ne hq, ih]
        simp [IsEndpoint, Since, Action.endpoint?, Ne.symm hq]
    | _ =>
      rw [endpoints_perform _ rfl, ih]
      simp [IsEndpoint, Since, Action.endpoint?]

theorem severed_perform (n : Network) (hcut : ∀ p q, a ≠ .disconnect p q)
    (hmend : ∀ p q, a ≠ .reconnect p q) : (n.perform a).severed = n.severed := by
  cases a with
  | disconnect p q => exact absurd rfl (hcut p q)
  | reconnect p q => exact absurd rfl (hmend p q)
  | deliver sender receiver m =>
    show (n.deliver sender receiver m).severed = _
    unfold deliver
    split
    · split <;> rfl
    · rfl
  | receive j =>
    show (n.receive j).1.severed = _
    unfold receive
    split
    · rfl
    · split <;> rfl
  | _ => rfl

/-- A link is severed while it is cut. -/
theorem severed_after (capacities : List Nat) (p q : PeerId) (past : List Action) :
    (p, q) ∈ (after capacities past).severed ↔ IsCut p q past := by
  induction past with
  | nil => simp [after, withInboxes, IsCut, Since]
  | cons a past ih =>
    rw [after]
    cases a with
    | disconnect r s =>
      show (p, q) ∈ (r, s) :: (s, r) :: (after capacities past).severed ↔ _
      rw [List.mem_cons, List.mem_cons, ih]
      simp only [IsCut, Since, Prod.mk.injEq, Action.disconnect.injEq, reduceCtorEq, or_self,
        not_false_eq_true, true_and]
      grind
    | reconnect r s =>
      show (p, q) ∈ (after capacities past).severed.filter _ ↔ _
      rw [List.mem_filter, ih]
      simp only [IsCut, Since, Action.reconnect.injEq, reduceCtorEq, or_self, false_or,
        Bool.and_eq_true, bne_iff_ne, ne_eq, Prod.mk.injEq]
      grind
    | _ =>
      rw [severed_perform _ (by simp) (by simp), ih]
      simp [IsCut, Since]

theorem isConnected_after (capacities : List Nat) (p q : PeerId) (past : List Action) :
    (after capacities past).isConnected p q = true ↔ ¬ IsCut p q past := by
  rw [← severed_after capacities]
  simp [isConnected]

/-! ### What waits, and what was received -/

/-- What waits in inbox `k`. -/
def waitingAt (n : Network) (k : Nat) : List Input := (n.inboxes[k]?.map (·.waiting)).getD []

/-- Reading brings what has waited longest. -/
theorem receive_eq_input_iff {i : Input} :
    (n.receive k).2 = .input i ↔ (n.waitingAt k).head? = some i := by
  unfold receive waitingAt
  cases hk : n.inboxes[k]? with
  | none => simp
  | some b =>
    cases hb : b.waiting with
    | nil =>
      simp only [hb]
      split <;> simp [hb]
    | cons j rest => simp [hb]

theorem brought_receive (n : Network) (k : Nat) :
    n.brought k (.receive k) = (n.waitingAt k).take 1 := by
  rw [brought, if_pos rfl]
  cases hw : n.waitingAt k with
  | nil =>
    split
    next i hi =>
      rw [receive_eq_input_iff, hw] at hi
      cases hi
    next => rfl
  | cons i rest =>
    have hi : (n.receive k).2 = .input i := receive_eq_input_iff.2 (by rw [hw]; rfl)
    rw [hi]
    rfl

/-- What waits is added to by a delivery only, and what is taken away is brought to the reader. -/
theorem brought_append_waiting (n : Network) (k : Nat)
    (h : ∀ sender receiver m, a ≠ .deliver sender receiver m) :
    n.brought k a ++ (n.perform a).waitingAt k = n.waitingAt k := by
  have hchange : (n.perform a).waitingAt k =
      (n.inboxes[k]?.map fun b => (n.change k a b).waiting).getD [] := by
    rw [waitingAt, getElem?_perform, Option.map_map]
    rfl
  by_cases hreceive : a = .receive k
  · subst hreceive
    have htail : (n.perform (.receive k)).waitingAt k = (n.waitingAt k).tail := by
      rw [hchange, waitingAt]
      cases n.inboxes[k]? with
      | none => rfl
      | some b => simp [change]
    rw [brought_receive, htail]
    cases n.waitingAt k <;> rfl
  · have hsame : ∀ b, (n.change k a b).waiting = b.waiting := by
      intro b
      cases a with
      | close j =>
        show (if j = k then { b with closed := true } else b : Inbox).waiting = _
        split <;> rfl
      | deliver sender receiver m => exact absurd rfl (h sender receiver m)
      | receive j =>
        have hjk : j ≠ k := by
          rintro rfl
          exact hreceive rfl
        exact congrArg Inbox.waiting (if_neg hjk)
      | _ => rfl
    rw [brought, if_neg hreceive, hchange, waitingAt]
    simp only [hsame, List.nil_append]

/-- A delivery adds to inbox `k` if it gets there and finds room. -/
theorem waitingAt_deliver (n : Network) (k : Nat) (sender receiver : PeerId) (m : Message) :
    (n.perform (.deliver sender receiver m)).waitingAt k =
      if ∃ b, n.inboxes[k]? = some b ∧ n.endpoints.lookup receiver = some k ∧ b.closed = false ∧
          n.isConnected sender receiver = true ∧ b.waiting.length < b.capacity then
        n.waitingAt k ++ [.message sender m]
      else n.waitingAt k := by
  rw [waitingAt, getElem?_perform, waitingAt]
  cases hk : n.inboxes[k]? with
  | none => simp
  | some b =>
    simp only [Option.map_some, Option.getD_some, change, Inbox.offer, Option.some.injEq,
      exists_eq_left']
    grind

/-- What was received and what waits make up what has to get there. -/
theorem received_append_waiting (capacities : List Nat) (k : Nat) (past : List Action) :
    received capacities k past ++ (after capacities past).waitingAt k =
      due capacities k past := by
  induction past with
  | nil =>
    simp only [received, due, waitingAt, after, withInboxes, List.getElem?_map, List.nil_append]
    cases capacities[k]? <;> rfl
  | cons a past ih =>
    rw [received, after, List.append_assoc]
    cases a with
    | deliver sender receiver m =>
      have hnone : (after capacities past).brought k (.deliver sender receiver m) = [] :=
        if_neg nofun
      have hroom : (∃ b, (after capacities past).inboxes[k]? = some b ∧
          (after capacities past).endpoints.lookup receiver = some k ∧ b.closed = false ∧
          (after capacities past).isConnected sender receiver = true ∧
          b.waiting.length < b.capacity) ↔
          IsEndpoint receiver k past ∧ .close k ∉ past ∧ ¬ IsCut sender receiver past ∧
            (due capacities k past).length - (received capacities k past).length <
              capacities.getD k 0 := by
        rw [← endpoints_after capacities, ← isConnected_after capacities, ← ih,
          List.length_append, Nat.add_sub_cancel_left]
        have hcapacity := capacity_after capacities past k
        cases hb : (after capacities past).inboxes[k]? with
        | none =>
          rw [hb] at hcapacity
          simp [List.getD_eq_getElem?_getD, ← hcapacity]
        | some b =>
          rw [hb] at hcapacity
          have hclosed : b.closed = false ↔ .close k ∉ past := by
            rw [← closed_after hb, Bool.not_eq_true]
          simp only [waitingAt, hb, Option.some.injEq, exists_eq_left', Option.map_some,
            Option.getD_some, hclosed, List.getD_eq_getElem?_getD, ← hcapacity]
      rw [hnone, List.nil_append, waitingAt_deliver, due]
      simp only [hroom]
      split
      · rw [← List.append_assoc, ih]
      · exact ih
    | _ =>
      rw [brought_append_waiting _ _ (by simp)]
      exact ih

/-- What is received from an inbox is, in order and each input once, what has to get there, as far
as it was read: the messages delivered to the peer whose inbox it was at the time, while it was
open, the link from the sender was not cut and there was room. What is read next is the next of
them, if there is one. And links are cut in both directions. -/
theorem receives_in_order (capacities : List Nat) (past : List Action) :
    (∀ k, received capacities k past <+: due capacities k past ∧
      ∀ i, ((after capacities past).receive k).2 = .input i ↔
        (due capacities k past)[(received capacities k past).length]? = some i) ∧
    ∀ p q, (after capacities past).isConnected p q = (after capacities past).isConnected q p := by
  refine ⟨fun k => ⟨⟨_, received_append_waiting capacities k past⟩, fun i => ?_⟩, fun p q => ?_⟩
  · rw [receive_eq_input_iff, ← received_append_waiting, List.getElem?_append_right (Nat.le_refl _),
      Nat.sub_self, List.head?_eq_getElem?]
  · rw [Bool.eq_iff_iff, isConnected_after, isConnected_after, isCut_comm]

/-- There is room for one message. The second finds none, and for the third the link is cut. -/
example : received [1] 0
    [.receive 0, .deliver ⟨1⟩ ⟨2⟩ .askRole, .disconnect ⟨2⟩ ⟨1⟩, .receive 0,
      .deliver ⟨1⟩ ⟨2⟩ .whoLeads, .deliver ⟨1⟩ ⟨2⟩ .discover, .register ⟨2⟩ 0] =
    [.message ⟨1⟩ .discover] := by decide

end Network

end Raft
