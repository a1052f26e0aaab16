import Raft.Proofs.Majority
import Raft.Proofs.Overlay

/-!
# What has happened in a cluster

A `History` records what the nodes themselves forget: every vote ever cast, the log that every
candidate stood with, every leader, and for each term the `ledger`, the log of its leader as far
as it has got. `History.Coherent` says how these belong together.

* `Coherent.prefix_ballot`, what a majority holds of a ledger was on the log of every later leader
  when it stood for election;
* `Coherent.prefix_or_prefix`, any two lists of committed entries are one the beginning of the
  other.
-/

namespace Raft

/-- The last entry of the list is of term `t`. -/
def EndsIn (l : List Entry) (t : Nat) : Prop := ∃ r e, l = r ++ [e] ∧ e.term = t

theorem endsIn_take {l : List Entry} {k : Nat} {e : Entry} (h : l[k]? = some e) :
    EndsIn (l.take (k + 1)) e.term :=
  ⟨l.take k, e, by rw [List.take_add_one, h, Option.toList_some], rfl⟩

theorem endsIn_of_termIn? {l : List Entry} {t : Nat} (hl : l ≠ [])
    (h : termIn? l l.length = some t) : EndsIn l t := by
  obtain ⟨r, e, he⟩ := (List.eq_nil_or_concat l).resolve_left hl
  rw [List.concat_eq_append] at he
  subst he
  refine ⟨r, e, rfl, ?_⟩
  rw [List.length_append, List.length_singleton, termIn?_succ,
    List.getElem?_append_right (Nat.le_refl _), Nat.sub_self] at h
  exact Option.some.inj h

theorem EndsIn.mem {l : List Entry} {t : Nat} (h : EndsIn l t) : ∃ e ∈ l, e.term = t := by
  obtain ⟨r, e, rfl, he⟩ := h
  exact ⟨e, by simp, he⟩

theorem EndsIn.ne_nil {l : List Entry} {t : Nat} (h : EndsIn l t) : l ≠ [] := by
  obtain ⟨r, e, rfl, -⟩ := h
  simp

/-- What has happened in a cluster so far. -/
structure History where
  /-- Whom a member has voted for in a term. -/
  vote : PeerId → Nat → Option PeerId
  /-- The log that a candidate has stood with in a term. -/
  ballot : PeerId → Nat → Option (List Entry)
  /-- Who was elected for a term. -/
  leader : Nat → Option PeerId
  /-- The log of the leader of a term, as far as it has got. -/
  ledger : Nat → List Entry
  /-- Up to where a member has taken over the ledger of a term. -/
  acked : PeerId → Nat → Nat
  /-- All entries of a member, compacted away or not. -/
  log : PeerId → List Entry

namespace History

/-- Nothing has happened yet. -/
def empty : History where
  vote _ _ := none
  ballot _ _ := none
  leader _ := none
  ledger _ := []
  acked _ _ := 0
  log _ := []

/-- What has happened remains so. -/
structure Le (g g' : History) : Prop where
  vote : ∀ {v t c}, g.vote v t = some c → g'.vote v t = some c
  ballot : ∀ {c t b}, g.ballot c t = some b → g'.ballot c t = some b
  leader : ∀ {t c}, g.leader t = some c → g'.leader t = some c
  ledger : ∀ t, g.ledger t <+: g'.ledger t
  acked : ∀ v t, g.acked v t ≤ g'.acked v t

instance : LE History := ⟨Le⟩

theorem le_refl (g : History) : g ≤ g :=
  ⟨id, id, id, fun _ => List.prefix_rfl, fun _ _ => Nat.le_refl _⟩

theorem le_trans {g g' g'' : History} (h : g ≤ g') (h' : g' ≤ g'') : g ≤ g'' :=
  ⟨fun hv => h'.vote (h.vote hv), fun hb => h'.ballot (h.ballot hb),
    fun hl => h'.leader (h.leader hl), fun t => (h.ledger t).trans (h'.ledger t),
    fun v t => Nat.le_trans (h.acked v t) (h'.acked v t)⟩

/-- Every entry has come from the ledger of its term, with all that precedes it. -/
def Certified (g : History) (l : List Entry) : Prop :=
  ∀ r t, r <+: l → EndsIn r t → r <+: g.ledger t

/-- A leader was elected after term `t` and before term `u` whose log did not begin with `l`. -/
def Superseded (g : History) (l : List Entry) (t u : Nat) : Prop :=
  ∃ s c b, t < s ∧ s < u ∧ g.leader s = some c ∧ g.ballot c s = some b ∧ ¬ l <+: b

/-- What the voter `v` has taken over from earlier ledgers is on the log with which the candidate
`c` stood in term `u`, unless a leader without it was elected in between. -/
def Heeds (g : History) (v : PeerId) (u : Nat) (c : PeerId) : Prop :=
  ∀ b t l, g.ballot c u = some b → t < u → l <+: g.ledger t → EndsIn l t →
    l.length ≤ g.acked v t → l <+: b ∨ g.Superseded l t u

/-- A majority has taken over the entries of a ledger up to one of its own term. -/
structure Chosen (g : History) (members : PeerSet) (t : Nat) (l : List Entry) : Prop where
  ledger : l <+: g.ledger t
  endsIn : EndsIn l t
  most : members.Most fun v => l.length ≤ g.acked v t

/-- The entries were committed in a term up to `u`. -/
def CommittedBy (g : History) (members : PeerSet) (u : Nat) (l : List Entry) : Prop :=
  l = [] ∨ ∃ t ≤ u, ∃ m, g.Chosen members t m ∧ l <+: m

/-- How the parts of a history belong together. -/
structure Coherent (g : History) (members : PeerSet) : Prop where
  elected : ∀ {t c}, g.leader t = some c →
    members.Most fun v => g.vote v t = some c ∧ g.Heeds v t c
  led : ∀ {t}, g.ledger t ≠ [] → ∃ c, g.leader t = some c
  begun : ∀ {t c}, g.leader t = some c → ∃ b, g.ballot c t = some b ∧ b <+: g.ledger t ∧
    ∀ e ∈ (g.ledger t).drop b.length, e.term = t
  stood : ∀ {c t b}, g.ballot c t = some b → 0 < t ∧ g.Certified b ∧ ∀ e ∈ b, e.term < t
  certified : ∀ t, g.Certified (g.ledger t)
  numbered : ∀ t, Numbered (g.ledger t)
  voted : ∀ {v t c}, g.vote v t = some c → ∃ b, g.ballot c t = some b
  acked_le : ∀ v t, g.acked v t ≤ (g.ledger t).length
  /-- Votes heed what the voter has taken over. One that is cast after the election is over does
  not need to. -/
  heeds : ∀ {v t c}, g.leader t = none → g.vote v t = some c → g.Heeds v t c

variable {g g' : History} {members : PeerSet} {l m : List Entry} {t u : Nat}

/-! ### What remains so -/

theorem Certified.mono (h : g.Certified l) (hg : g ≤ g') : g'.Certified l :=
  fun r t hr hend => (h r t hr hend).trans (hg.ledger t)

theorem Superseded.mono (h : g.Superseded l t u) (hg : g ≤ g') {u' : Nat} (hu : u ≤ u') :
    g'.Superseded l t u' := by
  obtain ⟨s, c, b, hts, hsu, hl, hb, hnot⟩ := h
  exact ⟨s, c, b, hts, Nat.lt_of_lt_of_le hsu hu, hg.leader hl, hg.ballot hb, hnot⟩

theorem Chosen.mono (h : g.Chosen members t l) (hg : g ≤ g') : g'.Chosen members t l where
  ledger := h.ledger.trans (hg.ledger t)
  endsIn := h.endsIn
  most := h.most.mono fun v _ hv => Nat.le_trans hv (hg.acked v t)

theorem CommittedBy.mono (h : g.CommittedBy members t l) (hg : g ≤ g') (htu : t ≤ u) :
    g'.CommittedBy members u l := by
  rcases h with rfl | ⟨s, hs, m, hm, hl⟩
  · exact Or.inl rfl
  · exact Or.inr ⟨s, Nat.le_trans hs htu, m, hm.mono hg, hl⟩

theorem CommittedBy.of_isPrefix (h : g.CommittedBy members t m) (hl : l <+: m) :
    g.CommittedBy members t l := by
  rcases h with rfl | ⟨s, hs, r, hr, hm⟩
  · exact Or.inl (List.prefix_nil.1 hl)
  · exact Or.inr ⟨s, hs, r, hr, hl.trans hm⟩

/-! ### Certified lists -/

theorem certified_nil : g.Certified [] :=
  fun _ _ hr hend => absurd (List.prefix_nil.1 hr) hend.ne_nil

theorem Certified.of_isPrefix (h : g.Certified m) (hl : l <+: m) : g.Certified l :=
  fun r t hr hend => h r t (hr.trans hl) hend

theorem Certified.append (h : g.Certified l) {e : Entry} (he : l ++ [e] <+: g.ledger e.term) :
    g.Certified (l ++ [e]) := by
  intro r t hr hend
  rcases List.prefix_concat_iff.1 hr with rfl | hr
  · obtain ⟨r', e', heq, rfl⟩ := hend
    obtain ⟨-, rfl⟩ := List.append_singleton_inj.1 heq
    exact he
  · exact h r t hr hend

theorem Certified.overlay (hl : g.Certified l) (hm : g.Certified m) :
    g.Certified (overlay l m) := by
  unfold Raft.overlay
  split
  · exact hl
  · exact hm

/-- Where two certified lists have the same term they are the same up to there. -/
theorem Certified.take_eq (hl : g.Certified l) (hm : g.Certified m) {i : Nat}
    (htl : termIn? l i = some t) (htm : termIn? m i = some t) : l.take i = m.take i := by
  cases i with
  | zero => rfl
  | succ k =>
    obtain ⟨x, hx, rfl⟩ := Option.map_eq_some_iff.1 htl
    obtain ⟨y, hy, hxy⟩ := Option.map_eq_some_iff.1 htm
    have h₁ := hl _ _ (List.take_prefix ..) (endsIn_take hx)
    have h₂ := hm _ _ (List.take_prefix ..) (endsIn_take hy)
    rw [hxy] at h₂
    have hkl := (List.getElem?_eq_some_iff.1 hx).1
    have hkm := (List.getElem?_eq_some_iff.1 hy).1
    refine (List.prefix_of_prefix_length_le h₁ h₂ ?_).eq_of_length ?_ <;>
    · rw [List.length_take, List.length_take]
      omega

theorem Certified.sameByTerm (hl : g.Certified l) (hm : g.Certified m) : SameByTerm l m := by
  intro k x y hx hy hxy
  have htake := hl.take_eq hm (i := k + 1) (t := x.term) (by rw [termIn?_succ, hx]; rfl)
    (by rw [termIn?_succ, hy, hxy]; rfl)
  have := congrArg (·[k]?) htake
  simp only [List.getElem?_take_of_lt (Nat.lt_succ_self k), hx, hy] at this
  exact Option.some.inj this

namespace Coherent

/-! ### Terms -/

theorem term_le_of_mem_ledger (h : g.Coherent members) {e : Entry} (he : e ∈ g.ledger t) :
    e.term ≤ t := by
  obtain ⟨c, hc⟩ := h.led (List.ne_nil_of_mem he)
  obtain ⟨b, hb, hpre, hown⟩ := h.begun hc
  obtain ⟨r, hr⟩ := hpre
  rw [← hr] at he
  rcases List.mem_append.1 he with he | he
  · exact Nat.le_of_lt ((h.stood hb).2.2 e he)
  · refine Nat.le_of_eq (hown e ?_)
    rwa [← hr, List.drop_left]

/-- Up to an entry no entry is of a later term. -/
theorem term_le_of_endsIn (h : g.Coherent members) (hl : g.Certified l) (hend : EndsIn l t)
    {e : Entry} (he : e ∈ l) : e.term ≤ t :=
  h.term_le_of_mem_ledger ((hl l t List.prefix_rfl hend).subset he)

theorem terms_pairwise (h : g.Coherent members) (hl : g.Certified l) :
    (l.map (·.term)).Pairwise (· ≤ ·) := by
  rw [List.pairwise_map, List.pairwise_iff_getElem]
  intro i j hi hj hij
  have hend := endsIn_take (List.getElem?_eq_getElem hj)
  refine h.term_le_of_endsIn (hl.of_isPrefix (List.take_prefix ..)) hend ?_
  exact List.mem_take_iff_getElem.2 ⟨i, by omega, rfl⟩

/-! ### Leaders and what is committed -/

/-- What a majority holds of a ledger was on the log of every later leader when it stood for
election. The induction is on the later term: one of the majority voted for that leader, and the
leaders in between have the entries. -/
theorem prefix_ballot (h : g.Coherent members) (hl : g.Chosen members t l) {c : PeerId}
    {b : List Entry} (hc : g.leader u = some c) (hb : g.ballot c u = some b) (htu : t < u) :
    l <+: b := by
  induction u using Nat.strongRecOn generalizing c b with
  | _ u ih =>
    -- `v` holds the entries and voted for `c`
    obtain ⟨v, -, ⟨-, hheeds⟩, hacked⟩ := (h.elected hc).meet hl.most
    rcases hheeds b t l hb htu hl.ledger hl.endsIn hacked with hpre | hsup
    · exact hpre
    · -- a leader in between that stood without the entries contradicts the induction
      obtain ⟨s, c', b', hts, hsu, hc', hb', hnot⟩ := hsup
      exact absurd (ih s hsu hc' hb' hts) hnot

theorem prefix_ledger (h : g.Coherent members) (hl : g.CommittedBy members u l) {c : PeerId}
    (hc : g.leader u = some c) : l <+: g.ledger u := by
  rcases hl with rfl | ⟨t, ht, m, hm, hlm⟩
  · exact List.nil_prefix
  · rcases Nat.lt_or_eq_of_le ht with hlt | rfl
    · obtain ⟨b, hb, hpre, -⟩ := h.begun hc
      exact hlm.trans ((h.prefix_ballot hm hc hb hlt).trans hpre)
    · exact hlm.trans hm.ledger

theorem chosen_prefix_ledger (h : g.Coherent members) (hl : g.Chosen members t l)
    (hm : g.Chosen members u m) (htu : t ≤ u) : l <+: g.ledger u := by
  obtain ⟨e, he, -⟩ := hm.endsIn.mem
  obtain ⟨c, hc⟩ := h.led (List.ne_nil_of_mem (hm.ledger.subset he))
  exact h.prefix_ledger (Or.inr ⟨t, htu, l, hl, List.prefix_rfl⟩) hc

/-- Any two lists of committed entries are one the beginning of the other. -/
theorem prefix_or_prefix (h : g.Coherent members) (hl : g.CommittedBy members t l)
    (hm : g.CommittedBy members u m) : l <+: m ∨ m <+: l := by
  rcases hl with rfl | ⟨t', -, l', hl', hll⟩
  · exact Or.inl List.nil_prefix
  rcases hm with rfl | ⟨u', -, m', hm', hmm⟩
  · exact Or.inr List.nil_prefix
  rcases Nat.le_total t' u' with htu | hut
  · exact List.prefix_or_prefix_of_prefix (hll.trans (h.chosen_prefix_ledger hl' hm' htu))
      (hmm.trans hm'.ledger)
  · exact List.prefix_or_prefix_of_prefix (hll.trans hl'.ledger)
      (hmm.trans (h.chosen_prefix_ledger hm' hl' hut))

end Coherent

theorem coherent_empty (members : PeerSet) : empty.Coherent members where
  elected h := by cases h
  led h := absurd rfl h
  begun h := by cases h
  stood h := by cases h
  certified _ := certified_nil
  numbered _ := .nil
  voted h := by cases h
  acked_le _ _ := Nat.le_refl 0
  heeds _ h := by cases h

end History

end Raft
