import Raft.Proofs.History

/-!
# What is added to the history

A node adds to the history when it stands for election (`stand`), votes (`cast`), is elected
(`elect`), appends to its ledger (`write`) or takes over entries of a ledger (`takeOver`). Each
addition keeps what has happened, and keeps the history coherent under the conditions that the
node has checked.

The one that needs an argument is a vote: a candidate whose log is at least as recent as that of
the voter has everything that the voter has taken over, unless a leader without it was elected in
between (`Coherent.prefix_of_current`).
-/

namespace Raft

namespace History

/-- A candidate stands with its present log, and votes for itself. -/
def stand (g : History) (p : PeerId) (t : Nat) : History :=
  { g with
    vote := fun v s => if v = p ∧ s = t then some p else g.vote v s
    ballot := fun c s => if c = p ∧ s = t then some (g.log p) else g.ballot c s }

/-- A member votes. -/
def cast (g : History) (p : PeerId) (t : Nat) (c : PeerId) : History :=
  { g with vote := fun v s => if v = p ∧ s = t then some c else g.vote v s }

/-- A candidate is elected. Its log becomes the ledger of the term. -/
def elect (g : History) (p : PeerId) (t : Nat) : History :=
  { g with
    leader := fun s => if s = t then some p else g.leader s
    ledger := fun s => if s = t then g.log p else g.ledger s }

/-- A leader appends to its ledger. -/
def write (g : History) (t : Nat) (e : Entry) : History :=
  { g with ledger := fun s => if s = t then g.ledger t ++ [e] else g.ledger s }

/-- A member has now got the log `l`, after it has taken over `n` entries of a ledger. -/
def takeOver (g : History) (p : PeerId) (t : Nat) (l : List Entry) (n : Nat) : History :=
  { g with
    log := fun q => if q = p then l else g.log q
    acked := fun v s => if v = p ∧ s = t then max (g.acked v s) n else g.acked v s }

variable {g : History} {members : PeerSet} {p c : PeerId} {t n : Nat} {l m : List Entry}

/-! ### What has happened remains -/

theorem le_stand (hvote : g.vote p t = none) (hballot : g.ballot p t = none) :
    g ≤ g.stand p t where
  vote {v s c} h := by
    have : ¬ (v = p ∧ s = t) := by
      rintro ⟨rfl, rfl⟩
      rw [hvote] at h
      cases h
    simpa only [stand, if_neg this] using h
  ballot {c s b} h := by
    have : ¬ (c = p ∧ s = t) := by
      rintro ⟨rfl, rfl⟩
      rw [hballot] at h
      cases h
    simpa only [stand, if_neg this] using h
  leader := id
  ledger _ := List.prefix_rfl
  acked _ _ := Nat.le_refl _

theorem le_cast (hvote : g.vote p t = none ∨ g.vote p t = some c) : g ≤ g.cast p t c where
  vote {v s d} h := by
    simp only [cast]
    split
    next hvs =>
      obtain ⟨rfl, rfl⟩ := hvs
      rcases hvote with hn | hs
      · rw [hn] at h
        cases h
      · rw [← hs, h]
    next => exact h
  ballot := id
  leader := id
  ledger _ := List.prefix_rfl
  acked _ _ := Nat.le_refl _

theorem le_elect (hleader : g.leader t = none) (hledger : g.ledger t = []) : g ≤ g.elect p t where
  vote := id
  ballot := id
  leader {s c} h := by
    have : s ≠ t := by
      rintro rfl
      rw [hleader] at h
      cases h
    simpa only [elect, if_neg this] using h
  ledger s := by
    simp only [elect]
    split
    next hs =>
      rw [hs, hledger]
      exact List.nil_prefix
    next => exact List.prefix_rfl
  acked _ _ := Nat.le_refl _

theorem le_write (g : History) (t : Nat) (e : Entry) : g ≤ g.write t e where
  vote := id
  ballot := id
  leader := id
  ledger s := by
    simp only [write]
    split
    next hs =>
      rw [hs]
      exact List.prefix_append ..
    next => exact List.prefix_rfl
  acked _ _ := Nat.le_refl _

theorem le_takeOver (g : History) (p : PeerId) (t : Nat) (l : List Entry) (n : Nat) :
    g ≤ g.takeOver p t l n where
  vote := id
  ballot := id
  leader := id
  ledger _ := List.prefix_rfl
  acked v s := by
    simp only [takeOver]
    split
    · exact Nat.le_max_left ..
    · exact Nat.le_refl _

namespace Coherent

/-- What is taken over of a ledger is not touched when the ledger grows. -/
theorem prefix_of_acked {g' : History} (hg : g.Coherent members) (h : g ≤ g') {v : PeerId}
    (hl : l <+: g'.ledger t) (hlen : l.length ≤ g.acked v t) : l <+: g.ledger t :=
  List.prefix_of_prefix_length_le hl (h.ledger t) (Nat.le_trans hlen (hg.acked_le v t))

/-- A vote goes on to heed what was taken over, unless the voter takes over more. -/
theorem heeds_mono {g' : History} (hg : g.Coherent members) (h : g ≤ g') {v : PeerId} {u : Nat}
    (hvote : g.vote v u = some c) (hacked : ∀ s < u, g'.acked v s = g.acked v s)
    (hheeds : g.Heeds v u c) : g'.Heeds v u c := by
  intro b s l hb hsu hl hend hlen
  obtain ⟨b', hb'⟩ := hg.voted hvote
  obtain rfl : b' = b := Option.some.inj ((h.ballot hb').symm.trans hb)
  rw [hacked s hsu] at hlen
  exact (hheeds b' s l hb' hsu (hg.prefix_of_acked h hl hlen) hend hlen).imp_right
    (·.mono h (Nat.le_refl _))

/-- A leader goes on to have been elected, unless one of the voters takes over more. -/
theorem elected_mono {g' : History} (hg : g.Coherent members) (h : g ≤ g')
    (hacked : ∀ v u d, g.vote v u = some d → ∀ s < u, g'.acked v s = g.acked v s)
    (hc : g.leader t = some c) : members.Most fun v => g'.vote v t = some c ∧ g'.Heeds v t c :=
  (hg.elected hc).mono fun v _ ⟨hv, hheeds⟩ =>
    ⟨h.vote hv, hg.heeds_mono h hv (hacked v t c hv) hheeds⟩

/-! ### Voting -/

/-- A candidate with an at least as recent log has everything on the log of the voter, unless a
leader without it was elected in between. -/
theorem prefix_of_current (hg : g.Coherent members) (hl : g.Certified l) {b r : List Entry}
    {s own last : Nat} (hb : g.ballot c t = some b) (hlast : termIn? b b.length = some last)
    (hown : termIn? l l.length = some own)
    (hcurrent : own < last ∨ (last = own ∧ l.length ≤ b.length)) (hr : r <+: l)
    (hend : EndsIn r s) : r <+: b ∨ g.Superseded r s t := by
  obtain ⟨-, hbcert, hbterm⟩ := hg.stood hb
  have hlne : l ≠ [] := fun h => hend.ne_nil (List.prefix_nil.1 (h ▸ hr))
  have hlend : EndsIn l own := endsIn_of_termIn? hlne hown
  have hbne : b ≠ [] := by
    rintro rfl
    rcases hcurrent with hlt | ⟨-, hle⟩
    · cases hlast
      exact Nat.not_lt_zero _ hlt
    · exact hlne (List.length_eq_zero_iff.1 (Nat.le_zero.1 hle))
  have hbend : EndsIn b last := endsIn_of_termIn? hbne hlast
  have hbled : b <+: g.ledger last := hbcert b last List.prefix_rfl hbend
  rcases hcurrent with hlt | ⟨rfl, hle⟩
  · -- the last term on `b` is later, and its leader stood with `r` or superseded it
    obtain ⟨e, heb, rfl⟩ := hbend.mem
    obtain ⟨c', hc'⟩ := hg.led (List.ne_nil_of_mem (hbled.subset heb))
    obtain ⟨b', hb', hpre, -⟩ := hg.begun hc'
    by_cases hrb : r <+: b'
    · left
      rcases List.prefix_or_prefix_of_prefix (hrb.trans hpre) hbled with h | h
      · exact h
      · -- the last entry of `b` is of a term that `b'` does not reach
        exact absurd ((hg.stood hb').2.2 e ((h.trans hrb).subset heb)) (Nat.lt_irrefl _)
    · right
      obtain ⟨f, hfr, rfl⟩ := hend.mem
      have hf : f.term ≤ own := hg.term_le_of_endsIn hl hlend (hr.subset hfr)
      exact ⟨e.term, c', b', Nat.lt_of_le_of_lt hf hlt, hbterm e heb, hc', hb', hrb⟩
  · -- both logs end in the same term, so both are beginnings of its ledger
    have hlled : l <+: g.ledger last := hl l last List.prefix_rfl hlend
    exact Or.inl (hr.trans (List.prefix_of_prefix_length_le hlled hbled hle))

theorem stand (hg : g.Coherent members) (hvote : g.vote p t = none)
    (hballot : g.ballot p t = none) (ht : 0 < t) (hcert : g.Certified (g.log p))
    (hterms : ∀ e ∈ g.log p, e.term < t)
    (hkept : ∀ s l, l <+: g.ledger s → l.length ≤ g.acked p s →
      l <+: g.log p ∨ g.Superseded l s t) : (g.stand p t).Coherent members := by
  have hle := le_stand hvote hballot
  constructor
  case elected => exact hg.elected_mono hle fun _ _ _ _ _ _ => rfl
  case led => exact hg.led
  case begun =>
    intro s c h
    obtain ⟨b, hb, hrest⟩ := hg.begun h
    exact ⟨b, hle.ballot hb, hrest⟩
  case stood =>
    intro c s b h
    simp only [History.stand] at h
    split at h
    next hcs =>
      cases h
      exact ⟨hcs.2 ▸ ht, hcert.mono hle, hcs.2 ▸ hterms⟩
    next =>
      obtain ⟨hs, hb, hbt⟩ := hg.stood h
      exact ⟨hs, hb.mono hle, hbt⟩
  case certified => exact fun s => (hg.certified s).mono hle
  case numbered => exact hg.numbered
  case voted =>
    intro v s c h
    simp only [History.stand] at h ⊢
    split at h
    next hvs =>
      cases h
      exact ⟨_, if_pos ⟨rfl, hvs.2⟩⟩
    next =>
      obtain ⟨b, hb⟩ := hg.voted h
      exact ⟨b, hle.ballot hb⟩
  case acked_le => exact hg.acked_le
  case heeds =>
    intro v u c hleader hv
    by_cases hvu : v = p ∧ u = t
    · obtain ⟨rfl, rfl⟩ := hvu
      simp only [History.stand, and_self, if_true, Option.some.injEq] at hv
      subst hv
      intro b s l hb _ hl _ hlen
      simp only [History.stand, and_self, if_true, Option.some.injEq] at hb
      subst hb
      exact (hkept s l hl hlen).imp_right (·.mono hle (Nat.le_refl _))
    · simp only [History.stand, if_neg hvu] at hv
      exact hg.heeds_mono hle hv (fun _ _ => rfl) (hg.heeds hleader hv)

theorem cast (hg : g.Coherent members) (hvote : g.vote p t = none ∨ g.vote p t = some c)
    {b : List Entry} (hballot : g.ballot c t = some b)
    (hheeds : g.leader t = none → g.Heeds p t c) : (g.cast p t c).Coherent members := by
  have hle := le_cast hvote
  constructor
  case elected => exact hg.elected_mono hle fun _ _ _ _ _ _ => rfl
  case led => exact hg.led
  case begun => exact hg.begun
  case stood => exact hg.stood
  case certified => exact hg.certified
  case numbered => exact hg.numbered
  case voted =>
    intro v s d h
    simp only [History.cast] at h
    split at h
    next hvs =>
      cases h
      exact ⟨b, hvs.2 ▸ hballot⟩
    next => exact hg.voted h
  case acked_le => exact hg.acked_le
  case heeds =>
    intro v u d hleader hv
    by_cases hvu : v = p ∧ u = t
    · obtain ⟨rfl, rfl⟩ := hvu
      simp only [History.cast, and_self, if_true, Option.some.injEq] at hv
      subst hv
      exact hheeds hleader
    · simp only [History.cast, if_neg hvu] at hv
      exact hg.heeds hleader hv

/-! ### Leading -/

/-- Without a leader a term has no ledger. -/
theorem ledger_eq_nil (hg : g.Coherent members) (h : g.leader t = none) : g.ledger t = [] := by
  by_cases hl : g.ledger t = []
  · exact hl
  · obtain ⟨c, hc⟩ := hg.led hl
    rw [h] at hc
    cases hc

theorem elect (hg : g.Coherent members) (hleader : g.leader t = none)
    (hmost : members.Most fun v => g.vote v t = some p) (hballot : g.ballot p t = some (g.log p))
    (hnumbered : Numbered (g.log p)) : (g.elect p t).Coherent members := by
  have hledger := hg.ledger_eq_nil hleader
  have hle : g ≤ g.elect p t := le_elect hleader hledger
  constructor
  case elected =>
    intro s d h
    simp only [History.elect] at h
    split at h
    next hs =>
      cases h
      rw [hs]
      exact hmost.mono fun v _ hv =>
        ⟨hv, hg.heeds_mono hle hv (fun _ _ => rfl) (hg.heeds hleader hv)⟩
    next => exact hg.elected_mono hle (fun _ _ _ _ _ _ => rfl) h
  case led =>
    intro s h
    simp only [History.elect] at h ⊢
    split at h
    next hs => exact ⟨p, if_pos hs⟩
    next hs => simpa only [if_neg hs] using hg.led h
  case begun =>
    intro s d h
    simp only [History.elect] at h ⊢
    split at h
    next hs =>
      cases h
      refine ⟨g.log p, hs ▸ hballot, ?_, ?_⟩
      · simp [if_pos hs]
      · rw [if_pos hs, List.drop_length]
        simp
    next hs => simpa only [if_neg hs] using hg.begun h
  case stood =>
    intro d s b h
    obtain ⟨hs, hb, hbt⟩ := hg.stood h
    exact ⟨hs, hb.mono hle, hbt⟩
  case certified =>
    intro s
    have hcert : g.Certified ((g.elect p t).ledger s) := by
      simp only [History.elect]
      split
      · exact (hg.stood hballot).2.1
      · exact hg.certified s
    exact hcert.mono hle
  case numbered =>
    intro s
    simp only [History.elect]
    split
    · exact hnumbered
    · exact hg.numbered s
  case voted => exact hg.voted
  case acked_le =>
    intro v s
    exact Nat.le_trans (hg.acked_le v s) (hle.ledger s).length_le
  case heeds =>
    intro v u d hnone hv
    have hold : g.leader u = none := by
      simp only [History.elect] at hnone
      split at hnone
      · cases hnone
      · exact hnone
    exact hg.heeds_mono hle hv (fun _ _ => rfl) (hg.heeds hold hv)

theorem write (hg : g.Coherent members) {e : Entry} (hleader : g.leader t = some p)
    (hterm : e.term = t) (hindex : e.index = (g.ledger t).length + 1) :
    (g.write t e).Coherent members := by
  have hle := le_write g t e
  constructor
  case elected => exact hg.elected_mono hle fun _ _ _ _ _ _ => rfl
  case led =>
    intro s h
    simp only [History.write] at h
    split at h
    next hs => exact ⟨p, hs ▸ hleader⟩
    next => exact hg.led h
  case begun =>
    intro s d h
    obtain ⟨b, hb, hpre, hown⟩ := hg.begun h
    refine ⟨b, hb, hpre.trans (hle.ledger s), ?_⟩
    simp only [History.write]
    split
    next hs =>
      subst hs
      rw [List.drop_append_of_le_length hpre.length_le]
      intro f hf
      rcases List.mem_append.1 hf with hf | hf
      · exact hown f hf
      · rw [List.mem_singleton.1 hf, hterm]
    next => exact hown
  case stood =>
    intro d s b h
    obtain ⟨hs, hb, hbt⟩ := hg.stood h
    exact ⟨hs, hb.mono hle, hbt⟩
  case certified =>
    intro s
    simp only [History.write]
    split
    next hs =>
      refine ((hg.certified t).mono hle).append ?_
      simp only [History.write, hterm, if_true]
      exact List.prefix_rfl
    next => exact (hg.certified s).mono hle
  case numbered =>
    intro s
    simp only [History.write]
    split
    · exact (hg.numbered t).append hindex
    · exact hg.numbered s
  case voted => exact hg.voted
  case acked_le =>
    intro v s
    exact Nat.le_trans (hg.acked_le v s) (hle.ledger s).length_le
  case heeds =>
    intro v u d hnone hv
    exact hg.heeds_mono hle hv (fun _ _ => rfl) (hg.heeds hnone hv)

/-! ### Taking over -/

/-- Taking over in a term asks for nothing if the member has not voted in a later one yet. -/
theorem takeOver (hg : g.Coherent members) (hn : n ≤ (g.ledger t).length)
    (hfuture : ∀ u, t < u → g.vote p u = none) : (g.takeOver p t l n).Coherent members := by
  have hle := le_takeOver g p t l n
  have hacked : ∀ v u d, g.vote v u = some d → ∀ s < u,
      (g.takeOver p t l n).acked v s = g.acked v s := by
    intro v u d hv s hsu
    refine if_neg ?_
    rintro ⟨rfl, rfl⟩
    rw [hfuture u hsu] at hv
    cases hv
  constructor
  case elected => exact hg.elected_mono hle hacked
  case led => exact hg.led
  case begun => exact hg.begun
  case stood => exact hg.stood
  case certified => exact hg.certified
  case numbered => exact hg.numbered
  case voted => exact hg.voted
  case acked_le =>
    intro v s
    simp only [History.takeOver]
    split
    next hvs => exact Nat.max_le.2 ⟨hg.acked_le v s, hvs.2 ▸ hn⟩
    next => exact hg.acked_le v s
  case heeds =>
    intro v u d hnone hv
    exact hg.heeds_mono hle hv (hacked v u d hv) (hg.heeds hnone hv)

end Coherent

end History

end Raft
