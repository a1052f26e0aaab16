import Raft.Proofs.Voting

/-!
# Entries and snapshots on their way

The moves by which entries are appended, sent, taken over, committed and compacted keep the history
right. With those of `Raft.Proofs.Voting` that makes all of them (`Move.preserved`), and any chain
of them (`Moves.preserved`).
-/

namespace Raft

namespace History

variable {g : History} {members : PeerSet} {m : List Entry} {x y : Core}

/-! ### Leading -/

/-- A leader is described right that has written an entry to its ledger and taken it over. -/
theorem Describes.append (hg : g.Coherent members) (hx : g.Describes members x) {g' : History}
    {e : Entry} (hrole : x.role = .leader) (hterm : e.term = x.term)
    (hindex : e.index = x.log.nextIndex) (hle : g ≤ g') (hvote : g'.vote = g.vote)
    (hballot : g'.ballot = g.ballot) (hlog : g'.log x.id = g.log x.id ++ [e])
    (hledger : g'.ledger x.term = g.log x.id ++ [e])
    (hown : (g.log x.id).length + 1 ≤ g'.acked x.id x.term)
    (helse : ∀ s, s ≠ x.term → g'.acked x.id s = g.acked x.id s) :
    g'.Describes members
      { x with log := x.log.append e, matchIndex := x.matchIndex.set x.id e.index } := by
  obtain ⟨hleader, -, hmatched⟩ := hx.leadership hrole
  constructor
  case abridges =>
    show (x.log.append e).Abridges (g'.log x.id)
    rw [hlog]
    exact hx.abridges.append hindex
  case certified =>
    show g'.Certified (g'.log x.id)
    rw [hlog]
    refine (hx.certified.mono hle).append ?_
    simp [hterm, hledger]
  case terms =>
    intro f hf
    rw [show _ = g.log x.id ++ [e] from hlog] at hf
    rcases List.mem_append.1 hf with hf | hf
    · exact hx.terms f hf
    · rw [List.mem_singleton.1 hf]
      exact Nat.le_of_eq hterm
  case vote =>
    rw [hvote]
    exact hx.vote
  case future =>
    intro s hs
    show g'.vote x.id s = none ∧ g'.ballot x.id s = none ∧ g'.acked x.id s = 0
    rw [helse s (Nat.ne_of_gt hs), hvote, hballot]
    exact hx.future s hs
  case candidacy =>
    intro h
    rw [show x.role = .candidate from h] at hrole
    cases hrole
  case leadership =>
    intro _
    refine ⟨hle.leader hleader, hledger.trans hlog.symm, fun v => ?_⟩
    show (x.matchIndex.set x.id e.index).get v ≤ g'.acked v x.term
    rw [Progress.get_set]
    split
    next hv =>
      rw [hv, hindex, hx.abridges.nextIndex_eq]
      exact hown
    next => exact Nat.le_trans (hmatched v) (hle.acked v _)
  case retained =>
    intro s l hl hlen
    show l <+: g'.log x.id ∨ g'.Superseded l s (x.term + 1)
    -- the leader's own log is the ledger of its term
    by_cases hs : s = x.term
    · left
      rw [hlog, ← hledger, ← hs]
      exact hl
    · rw [show g'.acked _ s = _ from helse s hs] at hlen
      refine (hx.retained s l (hg.prefix_of_acked hle hl hlen) hlen).imp (fun h => ?_)
        (·.mono hle (Nat.le_refl _))
      rw [hlog]
      exact h.trans (List.prefix_append ..)
  case committed =>
    show g'.CommittedBy members x.term ((g'.log x.id).take x.log.committed)
    rw [hlog, List.take_append_of_le_length hx.abridges.committed_le]
    exact hx.committed.mono hle (Nat.le_refl _)

theorem preserved_append (hg : g.Coherent members) (hx : g.Describes members x) {e : Entry}
    (hrole : x.role = .leader) (hterm : e.term = x.term) (hindex : e.index = x.log.nextIndex) :
    Preserved g
      ((g.write x.term e).takeOver x.id x.term (g.log x.id ++ [e]) ((g.log x.id).length + 1))
      members x []
      { x with log := x.log.append e, matchIndex := x.matchIndex.set x.id e.index } := by
  obtain ⟨hleader, hledger, -⟩ := hx.leadership hrole
  have hwritten : (g.write x.term e).ledger x.term = g.log x.id ++ [e] := by
    simp [write, hledger]
  have hcoherent : (g.write x.term e).Coherent members :=
    hg.write hleader hterm (by rw [hledger, hindex, hx.abridges.nextIndex_eq])
  have hext := (extends_write hleader e).trans
    (extends_takeOver (g.write x.term e) x.id x.term (g.log x.id ++ [e]) ((g.log x.id).length + 1))
  have hown : (g.log x.id).length + 1 ≤ ((g.write x.term e).takeOver x.id x.term
      (g.log x.id ++ [e]) ((g.log x.id).length + 1)).acked x.id x.term := by
    simp only [takeOver, and_self, if_true]
    exact Nat.le_max_right ..
  have hdescribes := hx.append hg hrole hterm hindex hext.le rfl rfl (if_pos rfl) hwritten hown
    fun s hs => if_neg fun h => hs h.2
  refine ⟨rfl, ?_, hdescribes, hext, by simp, ?_⟩
  · exact hcoherent.takeOver (by rw [hwritten]; simp) fun u hu => (hx.future u hu).1
  · have hcommits : ((g.write x.term e).takeOver x.id x.term (g.log x.id ++ [e])
        ((g.log x.id).length + 1)).commits { x with
          log := x.log.append e, matchIndex := x.matchIndex.set x.id e.index } = g.commits x := by
      show (if x.id = x.id then g.log x.id ++ [e] else g.log x.id).take x.log.committed = _
      rw [if_pos rfl]
      exact List.take_append_of_le_length hx.abridges.committed_le
    exact hcommits.symm ▸ .nil _

/-- Entries of a list from a place on, as what is left of a beginning of the list. -/
theorem take_drop_eq (l : List Entry) (k n : Nat) :
    (l.drop k).take n = (l.take (k + ((l.drop k).take n).length)).drop k := by
  rw [List.drop_take, Nat.add_sub_cancel_left, List.length_take, ← List.take_eq_take_min]

theorem vouched_sendEntries (hx : g.Describes members x) (receiver : PeerId)
    {start count prevTerm : Nat} {batch : List Entry} (hrole : x.role = .leader)
    (hbatch : batch = x.log.batchFrom start count)
    (hprev : x.log.termAt? (beforeBatch batch start) = some prevTerm) :
    (Message.appendEntries x.id x.term prevTerm (beforeBatch batch start) batch
      x.log.committed).Vouched g members x.id receiver := by
  obtain ⟨hleader, hledger, -⟩ := hx.leadership hrole
  have hpos := hx.abridges.termIn?_of_termAt? hprev
  have hle := le_length_of_termIn? hpos
  refine ⟨⟨x.id, hleader⟩, ?_, g.commits x, ?_, hx.length_commits, hx.committed⟩
  · rw [hledger]
    rw [hx.abridges.batchFrom_eq] at hbatch
    generalize max start (x.log.prevIndex + 1) - 1 = k at hbatch
    -- the batch follows the position that is sent along with it
    have hfollows : batch = ((g.log x.id).take (beforeBatch batch start + batch.length)).drop
        (beforeBatch batch start) ∧
        beforeBatch batch start + batch.length ≤ (g.log x.id).length := by
      cases hb : batch with
      | nil =>
        rw [hb] at hle
        refine ⟨?_, hle⟩
        rw [List.length_nil, Nat.add_zero, List.drop_take, Nat.sub_self, List.take_zero]
      | cons e rest =>
        have hget : (g.log x.id)[k]? = some e := by
          have := congrArg (·[0]?) (hb.symm.trans hbatch)
          simp only [List.getElem?_cons_zero, List.getElem?_take, List.getElem?_drop,
            Nat.add_zero] at this
          split at this
          · exact this.symm
          · cases this
        have hk : beforeBatch (e :: rest) start = k := by
          have := hx.abridges.numbered k e hget
          simp only [beforeBatch]
          omega
        have hlen := congrArg List.length (hb.symm.trans hbatch)
        have hlt := (List.getElem?_eq_some_iff.1 hget).1
        rw [List.length_take, List.length_drop] at hlen
        rw [hk]
        refine ⟨?_, by omega⟩
        have := take_drop_eq (g.log x.id) k count
        rwa [← hbatch, hb] at this
    obtain ⟨hdrop, hlen⟩ := hfollows
    refine ⟨_, List.take_prefix .., hdrop, ?_, ?_⟩
    · rw [List.length_take, Nat.min_eq_left hlen]
    · rw [← termIn?_of_isPrefix (List.take_prefix _ (g.log x.id)), hpos]
      rw [List.length_take]
      omega
  · rw [hledger]
    exact List.take_prefix ..

theorem vouched_sendSnapshot (hx : g.Describes members x) (receiver : PeerId) {s : Snapshot}
    (hrole : x.role = .leader) (hs : x.log.snapshot = some s) :
    (Message.installSnapshot x.id x.term s).Vouched g members x.id receiver := by
  obtain ⟨hleader, hledger, -⟩ := hx.leadership hrole
  obtain ⟨hpos, hterm⟩ := hx.abridges.boundary s hs
  have hle := le_length_of_termIn? hterm
  have hlen : ((g.log x.id).take s.about.index).length = s.about.index := by
    rw [List.length_take, Nat.min_eq_left hle]
  have hcommitted : s.about.index ≤ x.log.committed := by
    have := hx.abridges.prevIndex_le
    rwa [Log.prevIndex, hs] at this
  refine ⟨⟨x.id, hleader⟩, (g.log x.id).take s.about.index, ?_, hlen, ⟨hpos, ?_⟩, ?_⟩
  · rw [hledger]
    exact List.take_prefix ..
  · rw [← termIn?_of_isPrefix (List.take_prefix ..) (Nat.le_of_eq hlen.symm), hterm]
  · refine hx.committed.of_isPrefix ?_
    rw [commits]
    exact List.take_prefix_take_left hcommitted

theorem preserved_record (hg : g.Coherent members) (hx : g.Describes members x) {peer : PeerId}
    {last : Nat} (hi : last ≤ g.acked peer x.term) (hrole : x.role = .leader) :
    Preserved g g members x [] { x with matchIndex := x.matchIndex.raise peer last } := by
  obtain ⟨hleader, hledger, hmatched⟩ := hx.leadership hrole
  refine .of_describes hg ?_ rfl rfl (by simp) (by simp)
  refine hx.renew hg g.le_refl rfl (Nat.le_refl _) rfl rfl hx.abridges hx.vote
    (fun s hs => ⟨(hx.future s hs).1, (hx.future s hs).2.1⟩)
    (fun h => (hx.candidacy h).of_eq rfl rfl rfl) (fun _ => ⟨hleader, hledger, fun v => ?_⟩)
    hx.committed
  refine Nat.le_trans (Progress.get_raise_le x.matchIndex peer v last) ?_
  split
  next hv => exact Nat.max_le.2 ⟨hmatched v, hv ▸ hi⟩
  next => exact hmatched v

theorem preserved_compact (hg : g.Coherent members) (hx : g.Describes members x) {s : Snapshot}
    (hs : s.about.Covers (g.commits x)) :
    Preserved g g members x [] { x with log := x.log.compact s } := by
  have hle : s.about.index ≤ x.log.committed := by
    rw [← hx.length_commits]
    exact le_length_of_termIn? hs.term
  have hcommitted := Log.committed_compact hle
  have hterm : termIn? (g.log x.id) s.about.index = some s.about.term := by
    rw [termIn?_of_isPrefix (List.take_prefix x.log.committed _) (le_length_of_termIn? hs.term)]
    exact hs.term
  refine .of_describes hg ?_ rfl hcommitted (by simp) (by simp)
  refine hx.renew hg g.le_refl rfl (Nat.le_refl _) rfl rfl (hx.abridges.compact hs.pos hterm)
    hx.vote (fun s hs => ⟨(hx.future s hs).1, (hx.future s hs).2.1⟩)
    (fun h => (hx.candidacy h).of_eq rfl rfl rfl) (fun h => (hx.leadership h).of_eq rfl rfl rfl) ?_
  show g.CommittedBy members x.term ((g.log x.id).take (x.log.compact s).committed)
  rw [hcommitted]
  exact hx.committed

/-- What a leader finds on a quorum is chosen if its last entry is of the leader's own term. -/
theorem chosen_of_quorum (hx : g.Describes members x) (hrole : x.role = .leader) {q : Nat}
    (hq : q = x.matchIndex.majorityIndex members) (hpos : 0 < q)
    (hterm : x.log.termAt? q = some x.term) :
    g.Chosen members x.term ((g.log x.id).take q) := by
  obtain ⟨-, hledger, hmatched⟩ := hx.leadership hrole
  obtain ⟨k, rfl⟩ : ∃ k, q = k + 1 := ⟨q - 1, by omega⟩
  have ht := hx.abridges.termIn?_of_termAt? hterm
  obtain ⟨e, he, het⟩ := Option.map_eq_some_iff.1 ht
  refine ⟨?_, het ▸ endsIn_take he, ?_⟩
  · rw [hledger]
    exact List.take_prefix ..
  · refine (Progress.most_majorityIndex x.matchIndex (hq ▸ hpos)).mono fun v _ hv => ?_
    rw [← hq] at hv
    refine Nat.le_trans ?_ (hmatched v)
    rw [List.length_take]
    omega

theorem preserved_commit (hg : g.Coherent members) (hx : g.Describes members x)
    {sequence q : Nat} {es : List Effect} (hrole : x.role = .leader)
    (hconfig : x.standing.config = .stable sequence members)
    (hq : q = x.matchIndex.quorumIndex x.standing.config) (hlt : x.log.committed < q)
    (hterm : x.log.termAt? q = some x.term) (hes : x.log.CommitsWith x.standing.config q es) :
    Preserved g g members x es { x with log := x.log.commit q } := by
  rw [hconfig] at hq
  have hchosen := chosen_of_quorum hx hrole hq (Nat.lt_of_le_of_lt (Nat.zero_le _) hlt) hterm
  refine ⟨rfl, hg, ?_, .refl g x.id, hes.vouched hx.abridges, hes.journal hx.abridges⟩
  refine hx.renew hg g.le_refl rfl (Nat.le_refl _) rfl rfl (hx.abridges.commit q) hx.vote
    (fun s hs => ⟨(hx.future s hs).1, (hx.future s hs).2.1⟩)
    (fun h => (hx.candidacy h).of_eq rfl rfl rfl) (fun h => (hx.leadership h).of_eq rfl rfl rfl) ?_
  refine Or.inr ⟨x.term, Nat.le_refl _, _, hchosen, List.take_prefix_take_left ?_⟩
  show max x.log.committed (min q x.log.lastIndex) ≤ q
  omega

/-! ### Following -/

/-- A follower in the term of a leader takes over the beginning `m` of the leader's ledger. -/
theorem Describes.takeOver (hg : g.Coherent members) (hx : g.Describes members x)
    (hid : y.id = x.id) (hrole : y.role = .follower) (hstanding : y.standing = x.standing)
    {c : PeerId} (hc : g.leader x.term = some c) (hm : m <+: g.ledger x.term)
    (habridges : y.log.Abridges (overlay (g.log x.id) m))
    (hcommitted : g.CommittedBy members x.term
      ((overlay (g.log x.id) m).take y.log.committed)) :
    (g.takeOver x.id x.term (overlay (g.log x.id) m) m.length).Describes members y := by
  have hle := le_takeOver g x.id x.term (overlay (g.log x.id) m) m.length
  generalize hg' : g.takeOver x.id x.term (overlay (g.log x.id) m) m.length = g' at hle
  have hterm : y.term = x.term := by rw [Core.term, hstanding]; rfl
  have hlog : g'.log x.id = overlay (g.log x.id) m := by rw [← hg']; exact if_pos rfl
  constructor
  case abridges => rwa [hid, hlog]
  case certified =>
    rw [hid, hlog]
    exact (hx.certified.overlay ((hg.certified _).of_isPrefix hm)).mono hle
  case terms =>
    intro e he
    rw [hid, hlog] at he
    rw [hterm]
    unfold overlay at he
    split at he
    · exact hx.terms e he
    · exact hg.term_le_of_mem_ledger (hm.subset he)
  case vote =>
    rw [hid, hterm, hstanding, ← hg']
    exact hx.vote
  case future =>
    intro s hs
    rw [hterm] at hs
    rw [hid, ← hg']
    obtain ⟨hv, hb, ha⟩ := hx.future s hs
    refine ⟨hv, hb, (if_neg ?_).trans ha⟩
    rintro ⟨-, rfl⟩
    exact Nat.lt_irrefl _ hs
  case candidacy =>
    intro h
    rw [hrole] at h
    cases h
  case leadership =>
    intro h
    rw [hrole] at h
    cases h
  case retained =>
    intro s l hl hlen
    have hl' : l <+: g.ledger s := by rwa [← hg'] at hl
    rw [hid] at hlen
    rw [hid, hlog, hterm]
    -- a beginning of `m` is taken over now, and anything else was taken over before
    by_cases hnew : s = x.term ∧ l.length ≤ m.length
    · obtain ⟨rfl, hlm⟩ := hnew
      exact Or.inl ((List.prefix_of_prefix_length_le hl' hm hlm).trans (prefix_overlay ..))
    · have hold : l.length ≤ g.acked x.id s := by
        rw [← hg'] at hlen
        simp only [History.takeOver, true_and] at hlen
        split at hlen
        next hs =>
          have := fun h => hnew ⟨hs, h⟩
          omega
        next => exact hlen
      rcases hx.retained s l hl' hold with hpre | hsup
      · -- what is lost now was not on the log of the leader of this term either
        by_cases hs : s = x.term
        · exact Or.inl (prefix_overlay_of_common hpre (hs ▸ hl') hm)
        · rcases Nat.lt_or_gt_of_ne hs with hlt | hgt
          · obtain ⟨b, hb, hbl, -⟩ := hg.begun hc
            by_cases hlb : l <+: b
            · exact Or.inl (prefix_overlay_of_common hpre (hlb.trans hbl) hm)
            · exact Or.inr ⟨x.term, c, b, hlt, Nat.lt_succ_self _, hle.leader hc, hle.ballot hb,
                hlb⟩
          · rw [(hx.future s hgt).2.2] at hold
            rw [List.length_eq_zero_iff.1 (Nat.le_zero.1 hold)]
            exact Or.inl List.nil_prefix
      · exact Or.inr (hsup.mono hle (Nat.le_refl _))
  case committed =>
    rw [hterm, commits, hid, hlog]
    exact hcommitted.mono hle (Nat.le_refl _)

theorem preserved_takeOver (hg : g.Coherent members) (hx : g.Describes members x)
    (hid : y.id = x.id) (hrole : y.role = .follower) (hstanding : y.standing = x.standing)
    {c : PeerId} (hc : g.leader x.term = some c) (hm : m <+: g.ledger x.term)
    (habridges : y.log.Abridges (overlay (g.log x.id) m))
    (hcommitted : g.CommittedBy members x.term
      ((overlay (g.log x.id) m).take y.log.committed)) {f : List Effect}
    (hes : Journal (g.commits x) f ((overlay (g.log x.id) m).take y.log.committed))
    {sender : PeerId} {answer : Message}
    (hvouched : ∀ g' e, e ∈ f →
      e.Vouched g' members x.id ((overlay (g.log x.id) m).take y.log.committed))
    (hanswer : answer = .appendAccepted x.term m.length ∨
      answer = .snapshotAccepted x.term m.length) :
    Preserved g (g.takeOver x.id x.term (overlay (g.log x.id) m) m.length) members x
      (f ++ [.send sender answer]) y := by
  have hcommits : (g.takeOver x.id x.term (overlay (g.log x.id) m) m.length).commits y =
      (overlay (g.log x.id) m).take y.log.committed := by
    rw [commits, hid]
    exact congrArg _ (if_pos rfl)
  have hacked : m.length ≤
      (g.takeOver x.id x.term (overlay (g.log x.id) m) m.length).acked x.id x.term := by
    simp only [History.takeOver, and_self, if_true]
    exact Nat.le_max_right ..
  refine ⟨hid, hg.takeOver hm.length_le fun u hu => (hx.future u hu).1,
    hx.takeOver hg hid hrole hstanding hc hm habridges hcommitted, extends_takeOver .., ?_, ?_⟩
  · intro e he
    rw [hcommits]
    rcases List.mem_append.1 he with he | he
    · exact hvouched _ e he
    · rw [List.mem_singleton.1 he]
      rcases hanswer with rfl | rfl <;> exact hacked
  · rw [hcommits]
    exact hes.append (.outward trivial (.nil _))

/-- What a member has committed is on the ledger of the present leader. -/
theorem Describes.prefix_overlay (hg : g.Coherent members) (hx : g.Describes members x)
    {c : PeerId} (hc : g.leader x.term = some c) (hm : m <+: g.ledger x.term) :
    g.commits x <+: overlay (g.log x.id) m :=
  prefix_overlay_of_common (List.take_prefix ..) (hg.prefix_ledger hx.committed hc) hm

theorem lastOf_drop {prev : Nat} (hm : Numbered m) (h : prev ≤ m.length) :
    lastOf (m.drop prev) prev = m.length := by
  unfold lastOf
  rw [List.getLast?_eq_getElem?, List.getElem?_drop, List.length_drop]
  split
  next e he =>
    have hlt := (List.getElem?_eq_some_iff.1 he).1
    have := hm _ e he
    omega
  next he =>
    have := List.getElem?_eq_none_iff.1 he
    omega

/-- Where a batch fits, the two logs agree up to the batch and up to the snapshot. Inside the
snapshot nothing is compared, but there everything is committed. -/
theorem Describes.agree (hg : g.Coherent members) (hx : g.Describes members x) {c : PeerId}
    (hc : g.leader x.term = some c) (hm : m <+: g.ledger x.term) {prevTerm prev : Nat}
    (hprev : termIn? m prev = some prevTerm) (hmatch : x.log.matchesAt prevTerm prev = true) :
    m.take (max prev x.log.prevIndex) <+: g.log x.id := by
  by_cases hle : prev ≤ x.log.prevIndex
  · -- nothing was compared here, but the ledger of the leader has all that is committed
    rw [Nat.max_eq_right hle]
    have hcommits := hg.prefix_ledger hx.committed hc
    refine (List.prefix_of_prefix_length_le ((List.take_prefix ..).trans hm) hcommits ?_).trans
      (List.take_prefix ..)
    have := hx.abridges.prevIndex_le
    rw [hx.length_commits, List.length_take]
    omega
  · rw [Nat.max_eq_left (by omega)]
    have hterm : x.log.termAt? prev = some prevTerm := by
      unfold Log.matchesAt at hmatch
      rw [if_neg (by omega), if_neg (by omega)] at hmatch
      exact eq_of_beq hmatch
    have := ((hg.certified _).of_isPrefix hm).take_eq hx.certified hprev
      (hx.abridges.termIn?_of_termAt? hterm)
    rw [this]
    exact List.take_prefix ..

theorem preserved_accept (hg : g.Coherent members) (hx : g.Describes members x)
    {sender leader : PeerId} {prevTerm prev commit last : Nat} {batch : List Entry}
    {es : List Effect}
    (hi : (Input.message sender (.appendEntries leader x.term prevTerm prev batch commit)).Vouched g
      members x.id (g.commits x))
    (hrole : x.role = .follower) (hmatch : x.log.matchesAt prevTerm prev = true)
    (hlast : last = lastOf batch prev)
    (hes : (x.log.merge batch prev).CommitsWith x.standing.config (min commit last) es) :
    ∃ g', Preserved g g' members x (es ++ [.send sender (.appendAccepted x.term last)])
      { x with log := (x.log.merge batch prev).commit (min commit last) } := by
  obtain ⟨⟨c, hc⟩, ⟨m, hm, rfl, hlen, hprev⟩, r, hr, rfl, hcommitted⟩ := hi
  have hnumbered := (hg.numbered _).of_isPrefix hm
  rw [lastOf_drop hnumbered (by omega)] at hlast
  subst hlast
  have hcommits := hx.prefix_overlay hg hc hm
  have hmerged : (x.log.merge (m.drop prev) prev).Abridges (overlay (g.log x.id) m) :=
    hx.abridges.merge hnumbered (hx.certified.sameByTerm ((hg.certified _).of_isPrefix hm))
      (hx.agree hg hc hm hprev hmatch) hcommits
  have hold : (overlay (g.log x.id) m).take x.log.committed = g.commits x := by
    have := List.prefix_iff_eq_take.1 hcommits
    rw [hx.length_commits] at this
    exact this.symm
  refine ⟨_, preserved_takeOver
    (y := { x with log := (x.log.merge (m.drop prev) prev).commit (min r.length m.length) })
    hg hx rfl hrole rfl hc hm (hmerged.commit _) ?_ ?_
    (fun _ => hes.vouched hmerged) (Or.inl rfl)⟩
  · -- what is committed now was so before, or else the message says so
    show g.CommittedBy members x.term ((overlay (g.log x.id) m).take (max
      (x.log.merge (m.drop prev) prev).committed (min (min r.length m.length) _)))
    rw [Log.committed_merge]
    rcases Nat.le_total (min (min r.length m.length) (x.log.merge (m.drop prev) prev).lastIndex)
      x.log.committed with h | h
    · rw [Nat.max_eq_left h, hold]
      exact hx.committed
    · rw [Nat.max_eq_right h]
      refine hcommitted.of_isPrefix ?_
      have hbatch : (overlay (g.log x.id) m).take
          (min (min r.length m.length) (x.log.merge (m.drop prev) prev).lastIndex) <+: m :=
        List.prefix_of_prefix_length_le (List.take_prefix ..) (Raft.prefix_overlay ..)
          (by rw [List.length_take]; omega)
      exact List.prefix_of_prefix_length_le (hbatch.trans hm) hr
        (by rw [List.length_take]; omega)
  · have := hes.journal hmerged
    rwa [Log.committed_merge, hold] at this

theorem preserved_install (hg : g.Coherent members) (hx : g.Describes members x)
    {sender leader : PeerId} {s : Snapshot}
    (hi : (Input.message sender (.installSnapshot leader x.term s)).Vouched g members x.id
      (g.commits x))
    (hrole : x.role = .follower) (hs : x.log.committed < s.about.index) :
    ∃ g', Preserved g g' members x
      [.restore s, .send sender (.snapshotAccepted x.term s.about.index)]
      { x with log := x.log.compact s } := by
  obtain ⟨⟨c, hc⟩, m, hm, hlen, hcovers, hcommitted⟩ := hi
  have hcert := (hg.certified _).of_isPrefix hm
  have hcommits := hx.prefix_overlay hg hc hm
  have habridges : (x.log.compact s).Abridges (overlay (g.log x.id) m) := by
    refine hx.abridges.install ((hg.numbered _).of_isPrefix hm) hlen hcovers.term (fun ht => ?_) hs
    have := hcert.take_eq hx.certified hcovers.term ht
    rw [← hlen, List.take_length] at this
    rw [this]
    exact List.take_prefix ..
  have hnew : (overlay (g.log x.id) m).take (x.log.compact s).committed = m := by
    rw [Log.committed_compact_of_lt hx.abridges.prevIndex_le hs, ← hlen]
    exact (List.prefix_iff_eq_take.1 (Raft.prefix_overlay ..)).symm
  have hgrows : g.commits x <+: m := by
    refine List.prefix_of_prefix_length_le hcommits (Raft.prefix_overlay ..) ?_
    rw [hx.length_commits]
    omega
  have hjournal : Journal (g.commits x) [.restore s]
      ((overlay (g.log x.id) m).take (x.log.compact s).committed) := by
    rw [hnew]
    exact .restore hlen hgrows (.nil _)
  have hnow : g.CommittedBy members x.term
      ((overlay (g.log x.id) m).take (x.log.compact s).committed) := by rwa [hnew]
  refine ⟨_, preserved_takeOver (y := { x with log := x.log.compact s }) hg hx rfl hrole rfl hc hm
    habridges hnow hjournal (fun _ e he => ?_) (Or.inr (by rw [hlen]))⟩
  rw [List.mem_singleton.1 he]
  trivial

theorem preserved_covered (hg : g.Coherent members) (hx : g.Describes members x)
    {sender leader : PeerId} {s : Snapshot}
    (hi : (Input.message sender (.installSnapshot leader x.term s)).Vouched g members x.id
      (g.commits x))
    (hrole : x.role = .follower) (hs : s.about.index ≤ x.log.committed) :
    ∃ g', Preserved g g' members x
      [.send sender (.snapshotAccepted x.term s.about.index)] x := by
  obtain ⟨⟨c, hc⟩, m, hm, hlen, -⟩ := hi
  have hlog : overlay (g.log x.id) m = g.log x.id := by
    refine overlay_eq_left ?_
    refine (List.prefix_of_prefix_length_le hm (hg.prefix_ledger hx.committed hc) ?_).trans
      (List.take_prefix ..)
    rwa [hx.length_commits, hlen]
  refine ⟨_, preserved_takeOver (f := []) hg hx rfl hrole rfl hc hm (hlog.symm ▸ hx.abridges)
    (hlog.symm ▸ hx.committed) (hlog.symm ▸ .nil _) (by simp) (Or.inr (by rw [hlen]))⟩

theorem preserved_capture (hg : g.Coherent members) (hx : g.Describes members x)
    {c : Configuration} {about : SnapshotMeta} (habout : x.log.IsCapture c about) :
    Preserved g g members x [.prepareSnapshot about] x := by
  refine ⟨rfl, hg, hx, .refl g x.id, fun e he => ?_, .capture ?_ (.nil _)⟩
  · rw [List.mem_singleton.1 he]
    exact habout.covers hx.abridges
  · rw [hx.length_commits, habout.index]

end History

open History

variable {g : History} {members : PeerSet} {x y : Core} {es : List Effect} {i : Input}
  {sequence : Nat}

/-- A move on a vouched input keeps the history right. -/
theorem Move.preserved (m : Move i x es y) (hg : g.Coherent members)
    (hx : g.Describes members x) (hsteady : x.Steady (.stable sequence members))
    (hi : i.Vouched g members x.id (g.commits x)) :
    ∃ g', Preserved g g' members x es y := by
  have hconfig := hsteady.config
  have hmembers : x.standing.members = members := by
    rw [Standing.members, hconfig]
    rfl
  cases m with
  | idle he =>
    refine ⟨g, .of_describes hg hx rfl rfl (fun e h => ?_) (fun e h => ?_)⟩
    · rw [List.mem_singleton.1 h]
      exact he.vouched
    · rw [List.mem_singleton.1 h]
      exact he.isOutward
  | observe t granted ht => exact ⟨g, preserved_observe hg hx granted ht⟩
  | yield granted => exact ⟨g, preserved_yield hg hx granted⟩
  | campaign _ hes => exact ⟨_, preserved_campaign hg hx hsteady.mem hes⟩
  | grant hmsg hrole hvote hlog =>
    subst hmsg
    exact ⟨_, preserved_grant hg hx hi hrole hvote hlog⟩
  | count hmsg hrole hmem hnew =>
    subst hmsg
    exact ⟨g, preserved_count hg hx hi hrole (hmembers ▸ hmem) hnew⟩
  | elect granted hrole hmaj => exact ⟨_, preserved_elect hg hx granted hrole hmembers hmaj⟩
  | append hrole hterm hindex _ => exact ⟨_, preserved_append hg hx hrole hterm hindex⟩
  | sendEntries peer hrole hbatch hprev =>
    refine ⟨g, .of_describes hg hx rfl rfl (fun e h => ?_) (fun e h => ?_)⟩
    · rw [List.mem_singleton.1 h]
      exact vouched_sendEntries hx peer hrole hbatch hprev
    · rw [List.mem_singleton.1 h]
      trivial
  | sendSnapshot peer hrole hs =>
    refine ⟨g, .of_describes hg hx rfl rfl (fun e h => ?_) (fun e h => ?_)⟩
    · rw [List.mem_singleton.1 h]
      exact vouched_sendSnapshot hx peer hrole hs
    · rw [List.mem_singleton.1 h]
      trivial
  | record hmsg hrole =>
    rcases hmsg with rfl | rfl <;> exact ⟨g, preserved_record hg hx hi hrole⟩
  | commit hrole hq hlt hterm hes =>
    exact ⟨g, preserved_commit hg hx hrole hconfig hq hlt hterm hes⟩
  | accept hmsg hrole hprev hlast hes =>
    subst hmsg
    exact preserved_accept hg hx hi hrole hprev hlast hes
  | install hmsg hrole hs =>
    subst hmsg
    exact preserved_install hg hx hi hrole hs
  | covered hmsg hrole hs =>
    subst hmsg
    exact preserved_covered hg hx hi hrole hs
  | compact hmsg =>
    subst hmsg
    exact ⟨g, preserved_compact hg hx hi⟩
  | capture habout => exact ⟨g, preserved_capture hg hx habout⟩

/-- A chain of moves on a vouched input keeps the history right. The input stays vouched for, as
the history only grows and nothing that is committed is lost. What the history then says of the
effects of every move, it says of all effects. -/
theorem Moves.preserved_with {F : History → Effect → Prop}
    (hmono : ∀ {g g' e}, g ≤ g' → F g e → F g' e)
    (hmove : ∀ {g x y es}, g.Describes members x → Move i x es y → ∀ e ∈ es, F g e)
    (h : Moves i x es y) (hg : g.Coherent members) (hx : g.Describes members x)
    (hsteady : x.Steady (.stable sequence members))
    (hquiet : i.Steady (.stable sequence members))
    (hi : i.Vouched g members x.id (g.commits x)) :
    ∃ g', Preserved g g' members x es y ∧ ∀ e ∈ es, F g' e := by
  induction h with
  | refl => exact ⟨g, .refl hg hx, nofun⟩
  | @tail y z es fs hm m ih =>
    obtain ⟨g', hp, hes⟩ := ih
    have hi' : i.Vouched g' members y.id (g'.commits y) := by
      rw [hp.id]
      exact hi.mono hp.extension.le hp.journal.isPrefix
    obtain ⟨g'', hq⟩ := m.preserved hp.coherent hp.describes (hm.steady hquiet hsteady) hi'
    have hle : g' ≤ g'' := hq.extension.le
    refine ⟨g'', hp.trans hq, fun e he => ?_⟩
    rcases List.mem_append.1 he with he | he
    · exact hmono hle (hes e he)
    · exact hmono hle (hmove hp.describes m e he)

theorem Moves.preserved (h : Moves i x es y) (hg : g.Coherent members)
    (hx : g.Describes members x) (hsteady : x.Steady (.stable sequence members))
    (hquiet : i.Steady (.stable sequence members))
    (hi : i.Vouched g members x.id (g.commits x)) :
    ∃ g', Preserved g g' members x es y := by
  obtain ⟨g', hpres, -⟩ := h.preserved_with (F := fun _ _ => True) (fun _ h => h)
    (fun _ _ _ _ => trivial) hg hx hsteady hquiet hi
  exact ⟨g', hpres⟩

end Raft
