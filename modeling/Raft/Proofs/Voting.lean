import Raft.Proofs.Preservation

/-!
# Terms, candidacies and votes

The moves by which terms pass and leaders are elected keep the history right: seeing a newer term,
giving way, standing for election, granting a vote, counting one and taking up the lead.
-/

namespace Raft

namespace History

variable {g : History} {members : PeerSet} {t : Nat} {x : Core} {es : List Effect}

theorem preserved_observe (hg : g.Coherent members) (hx : g.Describes members x)
    (granted : PeerSet) (ht : x.term < t) :
    Preserved g g members x []
      { x with
        role := .follower
        standing := (x.standing.advanceTo t).resign
        granted := granted } := by
  have hs : (x.standing.advanceTo t).resign = { term := t, config := x.standing.config } := by
    rw [Standing.advanceTo, if_pos (show x.standing.term < t from ht)]
    rfl
  rw [hs]
  refine .of_describes hg ?_ rfl rfl (by simp) (by simp)
  exact hx.renew hg g.le_refl rfl (Nat.le_of_lt ht) rfl rfl hx.abridges (hx.future t ht).1
    (fun s hts => ⟨(hx.future s (Nat.lt_trans ht hts)).1, (hx.future s (Nat.lt_trans ht hts)).2.1⟩)
    (by simp) (by simp) (hx.committed.mono g.le_refl (Nat.le_of_lt ht))

theorem preserved_yield (hg : g.Coherent members) (hx : g.Describes members x)
    (granted : PeerSet) :
    Preserved g g members x []
      { x with role := .follower, standing := x.standing.resign, granted := granted } := by
  refine .of_describes hg ?_ rfl rfl (by simp) (by simp)
  exact hx.renew hg g.le_refl rfl (Nat.le_refl _) rfl rfl hx.abridges hx.vote
    (fun s hs => ⟨(hx.future s hs).1, (hx.future s hs).2.1⟩) (by simp) (by simp) hx.committed

theorem preserved_campaign (hg : g.Coherent members) (hx : g.Describes members x)
    (hmem : x.id ∈ members)
    (hes : ∀ e ∈ es, ∃ p, e = .send p
      (.requestVote (Term.next x.term) x.id x.log.lastTerm x.log.lastIndex)) :
    Preserved g (g.stand x.id (x.term + 1)) members x es
      { x with
        role := .candidate
        standing := x.standing.startElection.voteForSelf x.id
        granted := .singleton x.id } := by
  obtain ⟨hvote, hballot, -⟩ := hx.future _ (Nat.lt_succ_self x.term)
  have hcoherent : (g.stand x.id (x.term + 1)).Coherent members :=
    hg.stand hvote hballot (Nat.succ_pos _) hx.certified
      (fun e he => Nat.lt_succ_of_le (hx.terms e he)) hx.retained
  have hext := extends_stand hvote hballot
  have hown : (g.stand x.id (x.term + 1)).ballot x.id (x.term + 1) = some (g.log x.id) :=
    if_pos ⟨rfl, rfl⟩
  have hself : (g.stand x.id (x.term + 1)).vote x.id (x.term + 1) = some x.id :=
    if_pos ⟨rfl, rfl⟩
  refine ⟨rfl, hcoherent, ?_, hext, fun e he => ?_, ?_⟩
  · refine hx.renew hg hext.le rfl (Nat.le_succ _) rfl rfl hx.abridges hself (fun s hs => ?_)
      (fun _ => ?_) (by simp) (hx.committed.mono hext.le (Nat.le_succ _))
    · have hne : ¬ (x.id = x.id ∧ s = x.term + 1) := by
        rintro ⟨-, rfl⟩
        exact Nat.lt_irrefl _ hs
      obtain ⟨hv, hb, -⟩ := hx.future s (Nat.lt_trans (Nat.lt_succ_self _) hs)
      exact ⟨(if_neg hne).trans hv, (if_neg hne).trans hb⟩
    · refine ⟨hown, rfl, fun hl => ?_, rfl, fun v hv => ?_⟩
      · obtain ⟨b, hb, -⟩ := hg.begun (show g.leader (x.term + 1) = some x.id from hl)
        rw [hballot] at hb
        cases hb
      · obtain rfl := PeerSet.mem_singleton.1 hv
        exact ⟨hmem, hself⟩
  · obtain ⟨q, rfl⟩ := hes e he
    exact ⟨rfl, g.log x.id, hown, hx.abridges.lastIndex_eq.symm, hx.abridges.termIn?_lastTerm⟩
  · refine .of_outward fun e he => ?_
    obtain ⟨q, rfl⟩ := hes e he
    trivial

theorem preserved_grant (hg : g.Coherent members) (hx : g.Describes members x)
    {candidate sender : PeerId} {lastTerm lastIndex : Nat}
    (hi : (Message.requestVote x.term candidate lastTerm lastIndex).Vouched g members sender x.id)
    (hrole : x.role = .follower)
    (hvote : x.standing.votedFor = none ∨ x.standing.votedFor = some candidate)
    (hcurrent : x.log.lastTerm < lastTerm ∨
      (lastTerm = x.log.lastTerm ∧ x.log.lastIndex ≤ lastIndex)) :
    Preserved g (g.cast x.id x.term candidate) members x [.send sender (.grantVote x.term)]
      { x with standing := x.standing.voteFor candidate } := by
  obtain ⟨rfl, b, hb, rfl, hlast⟩ := hi
  rw [← hx.vote] at hvote
  have hext := extends_cast hvote
  have hcoherent : (g.cast x.id x.term sender).Coherent members := by
    refine hg.cast hvote hb fun hnone b' s l hb' _ hl hend hlen => ?_
    obtain rfl : b' = b := Option.some.inj (hb'.symm.trans hb)
    -- what the voter has taken over is on its log still, or was superseded already
    rcases hx.retained s l hl hlen with hpre | ⟨u, c, d, hsu, hux, hc, hd, hnot⟩
    · rw [hx.abridges.lastIndex_eq] at hcurrent
      exact hg.prefix_of_current hx.certified hb hlast hx.abridges.termIn?_lastTerm hcurrent hpre
        hend
    · refine Or.inr ⟨u, c, d, hsu, ?_, hc, hd, hnot⟩
      rcases Nat.lt_or_eq_of_le (Nat.le_of_lt_succ hux) with hlt | rfl
      · exact hlt
      · rw [hnone] at hc
        cases hc
  have hcast : (g.cast x.id x.term sender).vote x.id x.term = some sender := if_pos ⟨rfl, rfl⟩
  refine ⟨rfl, hcoherent, ?_, hext, fun e he => ?_, .outward trivial (.nil _)⟩
  · refine hx.renew hg hext.le rfl (Nat.le_refl _) rfl rfl hx.abridges hcast (fun s hs => ?_)
      (fun h => ?_) (fun h => ?_) (hx.committed.mono hext.le (Nat.le_refl _))
    · have hne : ¬ (x.id = x.id ∧ s = x.term) := by
        rintro ⟨-, rfl⟩
        exact Nat.lt_irrefl _ hs
      obtain ⟨hv, hb, -⟩ := hx.future s hs
      exact ⟨(if_neg hne).trans hv, hb⟩
    · rw [show x.role = .candidate from h] at hrole
      cases hrole
    · rw [show x.role = .leader from h] at hrole
      cases hrole
  · rw [List.mem_singleton.1 he]
    exact hcast

theorem preserved_count (hg : g.Coherent members) (hx : g.Describes members x) {voter : PeerId}
    (hi : (Message.grantVote x.term).Vouched g members voter x.id) (hrole : x.role = .candidate)
    (hmem : voter ∈ members) (hnew : ¬ voter ∈ x.granted) :
    Preserved g g members x []
      { x with standing := x.standing.countVote, granted := x.granted.insert voter } := by
  obtain ⟨hballot, hvoted, hunled, hvotes, hgranted⟩ := hx.candidacy hrole
  refine .of_describes hg ?_ rfl rfl (by simp) (by simp)
  refine hx.renew hg g.le_refl rfl (Nat.le_refl _) rfl rfl hx.abridges hx.vote
    (fun s hs => ⟨(hx.future s hs).1, (hx.future s hs).2.1⟩) (fun _ => ?_) (fun h => ?_)
    hx.committed
  · refine ⟨hballot, hvoted, hunled, ?_, fun v hv => ?_⟩
    · show x.standing.votes + 1 = (x.granted.insert voter).size
      rw [PeerSet.size_insert_of_not_mem hnew, hvotes]
    · rcases PeerSet.mem_insert.1 hv with rfl | hv
      · exact ⟨hmem, hi⟩
      · exact hgranted v hv
  · rw [show x.role = .leader from h] at hrole
    cases hrole

/-- Nobody else was elected in the term of a candidate with a majority: the two majorities have a
voter in common. -/
theorem Candidacy.leader_eq_none (hg : g.Coherent members) (hx : g.Candidacy members x)
    (hmost : members.Most fun v => g.vote v x.term = some x.id) : g.leader x.term = none := by
  cases hc : g.leader x.term with
  | none => rfl
  | some c =>
    obtain ⟨v, -, ⟨hv, -⟩, hv'⟩ := (hg.elected hc).meet hmost
    rw [hv] at hv'
    rw [hv'] at hc
    exact absurd hc hx.unled

theorem preserved_elect (hg : g.Coherent members) (hx : g.Describes members x)
    (granted : PeerSet) (hrole : x.role = .candidate) (hmembers : x.standing.members = members)
    (hmaj : x.standing.hasMajority = true) :
    Preserved g (g.elect x.id x.term) members x []
      { x with
        role := .leader
        standing := x.standing.resign
        granted := granted
        matchIndex := .uniform 0 } := by
  have hcand := hx.candidacy hrole
  have hmost : members.Most fun v => g.vote v x.term = some x.id := by
    have := Standing.most_of_hasMajority hmaj hcand.votes
      (P := fun v => g.vote v x.term = some x.id)
    rw [hmembers] at this
    exact this hcand.granted
  have hleader := hcand.leader_eq_none hg hmost
  have hext := extends_elect (p := x.id) hleader (hg.ledger_eq_nil hleader)
  refine ⟨rfl, hg.elect hleader hmost hcand.ballot hx.abridges.numbered, ?_, hext, by simp,
    .nil _⟩
  refine hx.renew hg hext.le rfl (Nat.le_refl _) rfl rfl hx.abridges hx.vote
    (fun s hs => ⟨(hx.future s hs).1, (hx.future s hs).2.1⟩) (by simp) (fun _ => ?_)
    (hx.committed.mono hext.le (Nat.le_refl _))
  exact ⟨if_pos rfl, if_pos rfl, fun v => Nat.zero_le _⟩

end History

end Raft
