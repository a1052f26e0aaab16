import Raft.Proofs.Records

/-!
# What one move has to keep

`History.Preserved` relates a member before and after a move, and the history before and after:
the history is coherent again and describes the member, only this member has added to it, what is
sent is vouched for, and the effects give the application what is newly committed. It is closed
under chains (`Preserved.trans`).

Who is responsible for an addition is the subject of the `extends` lemmas, and `Describes.renew`
and `Preserved.of_describes` are what the moves have in common that leave the entries alone.
-/

namespace Raft

namespace History

variable {g g' : History} {members : PeerSet} {p c : PeerId} {t : Nat} {x y : Core}
  {es : List Effect}

/-- A member has gone from `x` to `y`, and the history from `g` to `g'`. -/
structure Preserved (g g' : History) (members : PeerSet) (x : Core) (es : List Effect)
    (y : Core) : Prop where
  id : y.id = x.id
  coherent : g'.Coherent members
  describes : g'.Describes members y
  extension : g.Extends g' x.id
  vouched : ∀ e ∈ es, e.Vouched g' members x.id (g'.commits y)
  journal : Journal (g.commits x) es (g'.commits y)

theorem Preserved.refl (hg : g.Coherent members) (hx : g.Describes members x) :
    Preserved g g members x [] x :=
  ⟨rfl, hg, hx, .refl g x.id, by simp, .nil _⟩

theorem Preserved.trans {g'' : History} {z : Core} {fs : List Effect}
    (h : Preserved g g' members x es y) (h' : Preserved g' g'' members y fs z) :
    Preserved g g'' members x (es ++ fs) z where
  id := h'.id.trans h.id
  coherent := h'.coherent
  describes := h'.describes
  extension := h.extension.trans (h.id ▸ h'.extension)
  vouched e he := by
    rcases List.mem_append.1 he with he | he
    · exact (h.vouched e he).mono h'.extension.le h'.journal.isPrefix
    · exact h.id ▸ h'.vouched e he
  journal := h.journal.append h'.journal

/-! ### Who is responsible for what is added -/

theorem extends_stand (hvote : g.vote p t = none) (hballot : g.ballot p t = none) :
    g.Extends (g.stand p t) p where
  le := le_stand hvote hballot
  vote hq := by
    funext s
    simp [stand, hq]
  ballot hq := by
    funext s
    simp [stand, hq]
  acked _ := rfl
  log _ := rfl
  leader _ h := h
  ledger _ _ := rfl

theorem extends_cast (hvote : g.vote p t = none ∨ g.vote p t = some c) :
    g.Extends (g.cast p t c) p where
  le := le_cast hvote
  vote hq := by
    funext s
    simp [cast, hq]
  ballot _ := rfl
  acked _ := rfl
  log _ := rfl
  leader _ h := h
  ledger _ _ := rfl

theorem extends_elect (hleader : g.leader t = none) (hledger : g.ledger t = []) :
    g.Extends (g.elect p t) p where
  le := le_elect hleader hledger
  vote _ := rfl
  ballot _ := rfl
  acked _ := rfl
  log _ := rfl
  leader {q s} hq h := by
    simp only [elect] at h
    split at h
    · exact absurd (Option.some.inj h).symm hq
    · exact h
  ledger {q s} _ h := by
    refine if_neg ?_
    rintro rfl
    rw [hleader] at h
    cases h

theorem extends_write (hleader : g.leader t = some p) (e : Entry) :
    g.Extends (g.write t e) p where
  le := le_write g t e
  vote _ := rfl
  ballot _ := rfl
  acked _ := rfl
  log _ := rfl
  leader _ h := h
  ledger {q s} hq h := by
    refine if_neg ?_
    rintro rfl
    rw [hleader] at h
    exact hq (Option.some.inj h).symm

theorem extends_takeOver (g : History) (p : PeerId) (t : Nat) (l : List Entry) (n : Nat) :
    g.Extends (g.takeOver p t l n) p where
  le := le_takeOver g p t l n
  vote _ := rfl
  ballot _ := rfl
  acked hq := by
    funext s
    simp [takeOver, hq]
  log hq := if_neg hq
  leader _ h := h
  ledger _ _ := rfl

/-! ### Moves that leave the entries alone -/

/-- A node that has the same entries and has taken over nothing is described right if its vote and
its role are. -/
theorem Describes.renew (hx : g.Describes members x) (hg : g.Coherent members) (hle : g ≤ g')
    (hid : y.id = x.id) (hterm : x.term ≤ y.term) (hlog : g'.log x.id = g.log x.id)
    (hacked : g'.acked x.id = g.acked x.id) (habridges : y.log.Abridges (g.log x.id))
    (hvote : g'.vote x.id y.term = y.standing.votedFor)
    (hfuture : ∀ t, y.term < t → g'.vote x.id t = none ∧ g'.ballot x.id t = none)
    (hcandidacy : y.role = .candidate → g'.Candidacy members y)
    (hleadership : y.role = .leader → g'.Leadership y)
    (hcommitted : g'.CommittedBy members y.term ((g.log x.id).take y.log.committed)) :
    g'.Describes members y where
  abridges := by rwa [hid, hlog]
  certified := by
    rw [hid, hlog]
    exact hx.certified.mono hle
  terms e he := by
    rw [hid, hlog] at he
    exact Nat.le_trans (hx.terms e he) hterm
  vote := by rwa [hid]
  future t ht := by
    rw [hid, hacked]
    obtain ⟨hv, hb⟩ := hfuture t ht
    exact ⟨hv, hb, (hx.future t (Nat.lt_of_le_of_lt hterm ht)).2.2⟩
  candidacy := hcandidacy
  leadership := hleadership
  retained t l hl hlen := by
    rw [hid, hacked] at hlen
    rw [hid, hlog]
    exact (hx.retained t l (hg.prefix_of_acked hle hl hlen) hlen).imp_right
      (·.mono hle (Nat.succ_le_succ hterm))
  committed := by rwa [commits, hid, hlog]

/-- The history is as before, and so are the entries of the node. -/
theorem Preserved.of_describes (hg : g.Coherent members) (hy : g.Describes members y)
    (hid : y.id = x.id) (hlog : y.log.committed = x.log.committed)
    (hvouched : ∀ e ∈ es, e.Vouched g members x.id (g.commits x))
    (houtward : ∀ e ∈ es, e.IsOutward) : Preserved g g members x es y := by
  have hcommits : g.commits y = g.commits x := by rw [commits, commits, hid, hlog]
  refine ⟨hid, hg, hy, .refl g x.id, ?_, ?_⟩
  · rwa [hcommits]
  · rw [hcommits]
    exact .of_outward houtward

end History

end Raft
