import Raft.Proofs.Snapshots

/-!
# Elections, logs and leaders

Three properties of every run of a cluster whose members stay the same:

* `Run.election_safety`, no two nodes ever lead in the same term;
* `Run.log_matching`, logs with the same term at some position are the same up to there, and terms
  never decrease along a log;
* `Run.leader_completeness`, what was committed in some term is on the log of every later leader.

They hold for any moments, not only for nodes that are looked at together.
-/

namespace Raft

variable {σ : Type} [StateMachine σ]

namespace Run

/-- Two elections among three members. Member 1 wins the first one, and commits an entry together
with member 2, which wins the second one with the vote of member 3. -/
def twoElections : Run Recorder where
  members := .ofList [⟨1⟩, ⟨2⟩, ⟨3⟩]
  initial := {}
  events :=
    let calm (p : Nat) : List Event := List.replicate 6 (.carryOut ⟨p⟩ { now := 0 })
    [.expire ⟨1⟩ .election] ++ calm 1 ++ [.deliver 0] ++ calm 2 ++ [.deliver 2] ++ calm 1 ++
    [.deliver 3] ++ calm 2 ++ [.deliver 5] ++ calm 1 ++
    [.expire ⟨2⟩ .election] ++ calm 2 ++ [.deliver 7] ++ calm 3 ++ [.deliver 8] ++ calm 2
  ordinary := by decide

variable (r : Run σ)

/-! ### Leaders -/

/-- Only members ever lead. -/
theorem mem_of_leads {p : PeerId} {t i : Nat} (h : (r.after i).Leads p t) : p ∈ r.members := by
  obtain ⟨g, hg, -⟩ := r.exists_history i
  have := hg.mem_of_leads h
  rwa [members_after] at this

/-- Over a whole run, a term has one leader at most. -/
theorem election_safety {p q : PeerId} {t i j : Nat} (hp : (r.after i).Leads p t)
    (hq : (r.after j).Leads q t) : p = q := by
  obtain ⟨g, -, -, hexplains⟩ := r.exists_history (max i j)
  obtain ⟨l, hl⟩ := hexplains p (r.mem_of_leads hp) i (Nat.le_max_left ..)
  obtain ⟨m, hm⟩ := hexplains q (r.mem_of_leads hq) j (Nat.le_max_right ..)
  obtain ⟨hrole, hterm⟩ := hp
  obtain ⟨hrole', hterm'⟩ := hq
  have hleader := (hl.leads hrole).1
  have hleader' := (hm.leads hrole').1
  rw [hterm] at hleader
  rw [hterm', hleader] at hleader'
  exact Option.some.inj hleader'

theorem election_safety_twoElections :
    (twoElections.after 35).Leads ⟨1⟩ 1 ∧ (twoElections.after 21).Leads ⟨1⟩ 1 ∧
      (⟨1⟩ : PeerId) = ⟨1⟩ := by
  have h₁ : (twoElections.after 35).Leads ⟨1⟩ 1 := by decide +kernel
  have h₂ : (twoElections.after 21).Leads ⟨1⟩ 1 := by decide +kernel
  exact ⟨h₁, h₂, twoElections.election_safety h₁ h₂⟩

end Run

/-! ### Logs -/

namespace Log.Abridges

variable {log : Log} {l : List Entry}

/-- A live entry is an entry of the list. -/
theorem getElem?_of_get? (h : log.Abridges l) {i : Nat} {e : Entry} (he : log.get? i = some e) :
    log.prevIndex < i ∧ l[i - 1]? = some e := by
  rw [h.get?_eq] at he
  split at he
  · cases he
  · exact ⟨by omega, he⟩

/-- The terms of a log, the boundary first, are those of the list from the boundary on. Term 0
stands before the list. -/
theorem terms_eq (h : log.Abridges l) : log.prevTerm :: log.entries.map (·.term) =
    (0 :: l.map (·.term)).drop log.prevIndex := by
  have hprev := h.termIn?_prevIndex
  rw [h.live]
  cases hk : log.prevIndex with
  | zero =>
    rw [hk] at hprev
    rw [← Option.some.inj hprev]
    rfl
  | succ k =>
    rw [hk, termIn?_succ] at hprev
    obtain ⟨e, he, het⟩ := Option.map_eq_some_iff.1 hprev
    obtain ⟨hlt, rfl⟩ := List.getElem?_eq_some_iff.1 he
    have hlive : (l.map (·.term)).drop k = l[k].term :: (l.map (·.term)).drop (k + 1) := by
      rw [List.drop_eq_getElem_cons (by rwa [List.length_map]), List.getElem_map]
    rw [List.drop_succ_cons, hlive, het, List.map_drop]

end Log.Abridges

/-- Where two explained logs have the same term, they have the same entries up to there. -/
theorem History.Explains.eq_of_termAt? {g : History} {members : PeerSet} {p q : PeerId}
    {n n' : Node} {l m : List Entry} (hl : g.Explains members p n l)
    (hm : g.Explains members q n' m) {k t a : Nat} (ht : n.log.termAt? k = some t)
    (ht' : n'.log.termAt? k = some t) (ha : a ≤ k) {e f : Entry} (he : n.log.get? a = some e)
    (hf : n'.log.get? a = some f) : e = f := by
  obtain ⟨hpos, he⟩ := hl.abridges.getElem?_of_get? he
  obtain ⟨-, hf⟩ := hm.abridges.getElem?_of_get? hf
  have htake := hl.certified.take_eq hm.certified (hl.abridges.termIn?_of_termAt? ht)
    (hm.abridges.termIn?_of_termAt? ht')
  have := congrArg (·[a - 1]?) htake
  simp only [List.getElem?_take_of_lt (show a - 1 < k by omega), he, hf] at this
  exact Option.some.inj this

namespace Run

variable (r : Run σ)

/-- Logs with the same term at some position have the same live entries up to there. Along a log
the terms never decrease, from the boundary of the snapshot on, and never exceed the term of the
node. -/
theorem log_matching {p q : PeerId} (hp : p ∈ r.members) (hq : q ∈ r.members) (i j : Nat) :
    (∀ k t, ((r.after i).log p).termAt? k = some t → ((r.after j).log q).termAt? k = some t →
      ∀ a ≤ k, ∀ e f, ((r.after i).log p).get? a = some e →
        ((r.after j).log q).get? a = some f → e = f) ∧
    (((r.after i).log p).prevTerm :: ((r.after i).log p).entries.map (·.term)).Pairwise (· ≤ ·) ∧
    ∀ t ∈ ((r.after i).log p).prevTerm :: ((r.after i).log p).entries.map (·.term),
      t ≤ ((r.after i).node p).term := by
  obtain ⟨g, -, hcoherent, hexplains⟩ := r.exists_history (max i j)
  obtain ⟨l, hl⟩ := hexplains p hp i (Nat.le_max_left ..)
  obtain ⟨m, hm⟩ := hexplains q hq j (Nat.le_max_right ..)
  have hterms : ((r.after i).log p).prevTerm :: ((r.after i).log p).entries.map (·.term) =
      (0 :: l.map (·.term)).drop ((r.after i).log p).prevIndex := hl.abridges.terms_eq
  refine ⟨fun k t hk hk' a ha e f he hf => hl.eq_of_termAt? hm hk hk' ha he hf, ?_, ?_⟩
  · have hpairwise := List.pairwise_cons.2
      ⟨fun t _ => Nat.zero_le t, hcoherent.terms_pairwise hl.certified⟩
    rw [hterms]
    exact hpairwise.sublist (List.drop_sublist ..)
  · intro t ht
    rw [hterms] at ht
    rcases List.mem_cons.1 (List.mem_of_mem_drop ht) with rfl | ht
    · exact Nat.zero_le _
    · obtain ⟨e, he, rfl⟩ := List.mem_map.1 ht
      exact hl.terms e he

theorem log_matching_twoElections :
    ∃ e, ((twoElections.after 35).log ⟨1⟩).get? 1 = some e ∧
      ((twoElections.after 35).log ⟨2⟩).get? 1 = some e := by
  have hmatch := (twoElections.log_matching (p := ⟨1⟩) (q := ⟨2⟩) (by decide) (by decide) 35 35).1
    1 1 (by decide +kernel) (by decide +kernel) 1 (Nat.le_refl 1)
  have h₁ : (((twoElections.after 35).log ⟨1⟩).get? 1).isSome := by decide +kernel
  have h₂ : (((twoElections.after 35).log ⟨2⟩).get? 1).isSome := by decide +kernel
  obtain ⟨e, he⟩ := Option.isSome_iff_exists.1 h₁
  obtain ⟨f, hf⟩ := Option.isSome_iff_exists.1 h₂
  exact ⟨e, he, hmatch e f he hf ▸ hf⟩

end Run

/-! ### What is committed -/

namespace History

variable {g : History} {members : PeerSet} {p q : PeerId} {n n' : Node} {l m : List Entry}
  {a : Nat}

/-- What two members have committed at one position is the same entry. -/
theorem Coherent.getElem?_committed (hg : g.Coherent members) (hl : g.Explains members p n l)
    (hm : g.Explains members q n' m) (ha : 0 < a) (hal : a ≤ n.log.committed)
    (ham : a ≤ n'.log.committed) : l[a - 1]? = m[a - 1]? := by
  have hal' : a - 1 < n.log.committed := by omega
  have ham' : a - 1 < n'.log.committed := by omega
  have hlen := hl.abridges.committed_le
  have hlen' := hm.abridges.committed_le
  rcases hg.prefix_or_prefix hl.committed hm.committed with h | h
  · have := List.prefix_iff_getElem?.1 h (a - 1) (by rw [List.length_take]; omega)
    rw [List.getElem?_take_of_lt ham', List.getElem_take] at this
    rw [this, List.getElem?_eq_getElem]
  · have := List.prefix_iff_getElem?.1 h (a - 1) (by rw [List.length_take]; omega)
    rw [List.getElem?_take_of_lt hal', List.getElem_take] at this
    rw [this, List.getElem?_eq_getElem]

/-- A leader of a later term has what was committed, at the same position. -/
theorem Coherent.getElem?_leader (hg : g.Coherent members) (hl : g.Explains members p n l)
    (hm : g.Explains members q n' m) (hrole : n'.role = .leader) (hterm : n.term < n'.term)
    (ha : 0 < a) (hal : a ≤ n.log.committed) : m[a - 1]? = l[a - 1]? := by
  obtain ⟨hleader, b, hb, hbm⟩ := hm.leads hrole
  have hlen := hl.abridges.committed_le
  rcases hl.committed with hnil | ⟨t, ht, r, hr, hlr⟩
  · have := congrArg List.length hnil
    rw [List.length_take, List.length_nil] at this
    omega
  · have hpre := (hlr.trans (hg.prefix_ballot hr hleader hb (by omega))).trans hbm
    have := List.prefix_iff_getElem?.1 hpre (a - 1) (by rw [List.length_take]; omega)
    rw [this, List.getElem_take, List.getElem?_eq_getElem]

end History

namespace Run

variable (r : Run σ)

/-- A leader has every entry that was committed in an earlier term, at the same position, as far as
it still has entries there. -/
theorem get?_of_commits {p q : PeerId} {t u i j a : Nat} {e : Entry}
    (hp : (r.after i).Leads p t) (ha : 0 < a) (hle : a ≤ ((r.after i).log p).committed)
    (hq : (r.after j).Leads q u) (htu : t < u) (hlive : ¬ a ≤ ((r.after j).log q).prevIndex)
    (he : r.Commits a e) : ((r.after j).log q).get? a = some e := by
  have hpm := r.mem_of_leads hp
  have hqm := r.mem_of_leads hq
  obtain ⟨-, rfl⟩ := hp
  obtain ⟨hrole, rfl⟩ := hq
  obtain ⟨o, ho, h, hle', he⟩ := he
  -- the history explains all three moments, whatever their order is
  obtain ⟨g, -, hcoherent, hexplains⟩ := r.exists_history (max (max i j) h)
  obtain ⟨l, hl⟩ := hexplains p hpm i (by omega)
  obtain ⟨m, hm⟩ := hexplains q hqm j (by omega)
  obtain ⟨l', hl'⟩ := hexplains o ho h (by omega)
  have hlead : m[a - 1]? = l[a - 1]? := hcoherent.getElem?_leader hl hm hrole htu ha hle
  have hsame : l[a - 1]? = l'[a - 1]? := hcoherent.getElem?_committed hl hl' ha hle hle'
  have hentry : l'[a - 1]? = some e := (hl'.abridges.getElem?_of_get? he).2
  exact (hm.abridges.get?_eq a).trans ((if_neg hlive).trans (hlead.trans (hsame.trans hentry)))

/-- Once the commit index of a leader has reached a position, every leader of a later term has the
committed entry at this position, or a snapshot that covers it. It does not matter which of the two
is looked at first. -/
theorem leader_completeness {p q : PeerId} {t u i j k : Nat} (hp : (r.after i).Leads p t)
    (hk : k ≤ ((r.after i).log p).committed) (hq : (r.after j).Leads q u) (htu : t < u) :
    ∀ a, 0 < a → a ≤ k →
      (∃ s, ((r.after j).log q).snapshot = some s ∧ a ≤ s.about.index) ∨
      ∃ e, ((r.after j).log q).get? a = some e ∧ r.Commits a e ∧ ∀ f, r.Commits a f → f = e := by
  intro a ha hak
  have hle := Nat.le_trans hak hk
  by_cases hcovered : a ≤ ((r.after j).log q).prevIndex
  · left
    unfold Log.prevIndex at hcovered
    split at hcovered
    next s hs => exact ⟨s, hs, hcovered⟩
    next => omega
  · right
    obtain ⟨e, he⟩ := r.exists_commits (r.mem_of_leads hp) ha hle
    have hget := r.get?_of_commits hp ha hle hq htu hcovered he
    refine ⟨e, hget, he, fun f hf => ?_⟩
    have hget' := r.get?_of_commits hp ha hle hq htu hcovered hf
    exact Option.some.inj (hget'.symm.trans hget)

theorem leader_completeness_twoElections :
    ∃ e, ((twoElections.after 56).log ⟨2⟩).get? 1 = some e ∧ twoElections.Commits 1 e ∧
      ∀ f, twoElections.Commits 1 f → f = e := by
  have hp : (twoElections.after 35).Leads ⟨1⟩ 1 := by decide +kernel
  have hk : 1 ≤ ((twoElections.after 35).log ⟨1⟩).committed := by decide +kernel
  have hq : (twoElections.after 56).Leads ⟨2⟩ 2 := by decide +kernel
  have hnone : ((twoElections.after 56).log ⟨2⟩).snapshot = none := by decide +kernel
  rcases twoElections.leader_completeness hp hk hq (by decide) 1 (by decide) (by decide) with
    ⟨s, hs, -⟩ | hentry
  · rw [hnone] at hs
    cases hs
  · exact hentry

end Run

end Raft
