import Raft.Proofs.InForce
import Raft.Proofs.Tally

/-!
# The stages of a transition

A transition processes its inputs one after the other, and each of them is a `Stage`: the node that
takes the input up, the effects that are asked for, and the node that results. `Node.stages` lists
those of one transition. They form a `Turn.Thread`: all but the last raise exactly one more input,
and `Turn.thread_of_settle` makes an induction over them possible.

For a node from its start on, `Life.emitted` is all that it has asked for so far, and
`Life.Answered` says that every snapshot that it is handed is one of those.
-/

namespace Raft

/-- The processing of one input in the course of a transition. -/
structure Stage where
  before : Node
  input : Input
  effects : List Effect
  after : Node
  deriving DecidableEq

/-- Stages lead from one node to another if each of them goes on where the one before has ended. -/
inductive Stage.Leads : Node → List Stage → Node → Prop
  | nil (n : Node) : Stage.Leads n [] n
  | cons {s : Stage} {ss : List Stage} {m : Node} (h : Stage.Leads s.after ss m) :
    Stage.Leads s.before (s :: ss) m

/-! ### What a log keeps at every stage -/

/-- The live entries are numbered without gaps, and they begin no later than behind the commit
index. -/
structure Log.Anchored (log : Log) : Prop where
  contiguous : log.Contiguous
  prevIndex_le : log.prevIndex ≤ log.committed

theorem Log.WellFormed.isAnchored {log : Log} (h : log.WellFormed) : log.Anchored :=
  ⟨h.isContiguous, h.prevIndex_le_committed⟩

theorem Log.Anchored.wellFormed {log : Log} (h : log.Anchored)
    (hle : log.committed ≤ log.lastIndex) : log.WellFormed where
  contiguous _ hk := h.contiguous _ _ (List.getElem?_eq_getElem hk)
  prevIndex_le_committed := h.prevIndex_le
  committed_le_lastIndex := hle

theorem Log.Anchored.compact {log : Log} (h : log.Anchored) (s : Snapshot) :
    (log.compact s).Anchored where
  contiguous := h.contiguous.compact s
  prevIndex_le := by
    unfold Log.compact
    split
    next => exact h.prevIndex_le
    next => exact Nat.le_max_right ..

theorem Recast.anchored {i : Input} {n m : Node} (h : Recast i n m) (hn : n.log.Anchored) :
    m.log.Anchored := by
  refine ⟨h.contiguous hn.contiguous, ?_⟩
  cases h with
  | same h => exact h.log ▸ hn.prevIndex_le
  | commit j hlog => exact hlog ▸ Nat.le_trans hn.prevIndex_le (Nat.le_max_left ..)
  | append _ _ hlog => exact hlog ▸ hn.prevIndex_le
  | @merge _ _ _ _ prev _ j entries _ hlog =>
    rw [hlog]
    refine Nat.le_trans (Nat.le_trans ?_ hn.prevIndex_le) (Nat.le_trans ?_ (Nat.le_max_left ..))
    · exact Nat.le_of_eq (Log.prevIndex_merge ..)
    · exact Nat.le_of_eq (Log.committed_merge ..).symm
  | install _ hlog => exact hlog ▸ (hn.compact _).prevIndex_le
  | finish _ hlog => exact hlog ▸ (hn.compact _).prevIndex_le
  | told _ _ hlog => exact hlog ▸ hn.prevIndex_le
  | enroll _ _ hlog => exact hlog ▸ hn.prevIndex_le

theorem Act.anchored {i : Input} {n m : Node} {es : List Effect} {js : List Input}
    (a : Act i n es js m) (h : n.log.Anchored) : m.log.Anchored := a.recast.anchored h

namespace Turn

variable {i j : Input} {t u v : Turn} {es : List Effect} {ss : List Stage}

theorem anchored_dispatch (h : t.dispatch i = .ok u) (ht : t.node.log.Anchored) :
    u.node.log.Anchored := by
  obtain ⟨_, _, -, -, hacts⟩ := performs_dispatch h
  exact (hacts.keeps (·.log.Anchored) (fun _ => True) ht
    fun hn a => ⟨a.anchored hn, fun _ _ => trivial⟩).1

/-! ### The stages -/

/-- The stages of processing what is pending. -/
def stages : Nat → Turn → List Stage
  | 0, _ => []
  | budget + 1, t =>
    match t.pending with
    | [] => []
    | i :: rest =>
      match ({ t with pending := rest } : Turn).dispatch i with
      | .ok u => ⟨t.node, i, u.effects.drop t.effects.length, u.node⟩ :: stages budget u
      | .error _ => []

/-- From the input `i` in the turn `t` on, everything is processed in these stages, and that leads
to `u`. -/
inductive Thread : Input → Turn → List Stage → Turn → Prop
  | last {i : Input} {t u : Turn} {es : List Effect} (ht : t.pending = [])
    (hu : t.dispatch i = .ok u) (hes : u.effects = t.effects ++ es) (hpending : u.pending = []) :
    Thread i t [⟨t.node, i, es, u.node⟩] u
  | next {i j : Input} {t u v : Turn} {es : List Effect} {ss : List Stage} (ht : t.pending = [])
    (hu : t.dispatch i = .ok u) (hes : u.effects = t.effects ++ es) (hpending : u.pending = [j])
    (hj : (j = i ∧ i.IsForFollower ∧ Calm i t { u with pending := [] }) ∨ i.Raises u.node j)
    (hrest : Thread j { u with pending := [] } ss v) :
    Thread i t (⟨t.node, i, es, u.node⟩ :: ss) v

/-- A snapshot that has been prepared never comes from the transition itself. -/
theorem ne_snapshotPrepared_of_link
    (hj : (j = i ∧ i.IsForFollower ∧ Calm i t { u with pending := [] }) ∨ i.Raises u.node j)
    (s : Option Snapshot) : j ≠ .snapshotPrepared s := by
  rintro rfl
  rcases hj with ⟨rfl, hfollower, -⟩ | hraised
  · exact hfollower.elim
  · exact hraised.isOwn.elim

/-- What comes of an input that the node has raised itself is raised by the node, too. -/
theorem isOwn_of_link
    (hj : (j = i ∧ i.IsForFollower ∧ Calm i t { u with pending := [] }) ∨ i.Raises u.node j)
    (hi : i.IsOwn) : j.IsOwn := by
  rcases hj with ⟨rfl, -, -⟩ | hraised
  · exact hi
  · exact hraised.isOwn

theorem stages_of_nil (h : t.pending = []) (budget : Nat) : t.stages budget = [] := by
  cases budget with
  | zero => rfl
  | succ budget =>
    unfold stages
    rw [h]

theorem stages_of_cons {j : Input} {rest : List Input} (hp : t.pending = j :: rest)
    (hu : ({ t with pending := rest } : Turn).dispatch j = .ok u) (budget : Nat) :
    t.stages (budget + 1) =
      ⟨t.node, j, u.effects.drop t.effects.length, u.node⟩ :: u.stages budget := by
  rw [stages, hp]
  simp only [hu]

/-- What settles a single input is a thread from that input on, whose stages are those of the
transition. -/
theorem thread_of_settle {budget : Nat} (h : t.settle budget = .ok u) (hp : t.pending = [i]) :
    Thread i { t with pending := [] } (t.stages budget) u := by
  induction budget using Nat.strongRecOn generalizing t i with
  | ind budget ih =>
    rcases settle_cases h with ⟨hnone, -⟩ | ⟨j, rest, b, v, hj, rfl, hv, hsettle⟩
    · cases hp.symm.trans hnone
    obtain ⟨rfl, rfl⟩ := List.cons.inj (hp.symm.trans hj)
    have ih := @ih b (Nat.lt_succ_self b)
    obtain ⟨es, -, hes, -, -⟩ := performs_dispatch hv
    change v.effects = t.effects ++ es at hes
    have hdrop : v.effects.drop t.effects.length = es := by rw [hes, List.drop_left]
    rw [stages_of_cons hp hv, hdrop]
    cases ends_dispatch hv with
    | still _ hpending =>
      obtain rfl : v = u := by simpa [settle_of_nil hpending] using hsettle
      rw [stages_of_nil hpending]
      exact .last rfl hv hes hpending
    | again hcalm hi hpending =>
      exact .next rfl hv hes hpending (.inl ⟨rfl, hi, hcalm⟩) (ih hsettle hpending)
    | raised _ hj hpending => exact .next rfl hv hes hpending (.inr hj) (ih hsettle hpending)

namespace Thread

/-- The first stage is that of the input itself. -/
theorem exists_head (h : Thread i t ss v) : ∃ u es, t.dispatch i = .ok u ∧ t.pending = [] ∧
    u.effects = t.effects ++ es ∧ (⟨t.node, i, es, u.node⟩ : Stage) ∈ ss := by
  cases h with
  | last ht hu hes => exact ⟨_, _, hu, ht, hes, List.mem_cons_self ..⟩
  | next ht hu hes => exact ⟨_, _, hu, ht, hes, List.mem_cons_self ..⟩

theorem effects_eq (h : Thread i t ss v) : v.effects = t.effects ++ ss.flatMap (·.effects) := by
  induction h with
  | last _ _ hes => simpa using hes
  | @next _ _ t u _ es _ _ _ hes _ _ _ ih =>
    rw [ih, List.flatMap_cons, ← List.append_assoc, ← hes]

theorem leads (h : Thread i t ss v) : Stage.Leads t.node ss v.node := by
  induction h with
  | @last i t u es => exact .cons (s := ⟨t.node, i, es, u.node⟩) (.nil _)
  | @next i _ t u _ es _ _ _ _ _ _ _ ih => exact .cons (s := ⟨t.node, i, es, u.node⟩) ih

end Thread

end Turn

/-- The stages of one transition. -/
def Node.stages (n : Node) (i : Input) : List Stage :=
  Turn.stages followUpLimit { n.turn with pending := [i] }

variable {n m : Node} {i : Input} {es : List Effect}

theorem thread_of_step (h : step n i = .ok (m, es)) :
    ∃ u, u.node = m ∧ u.effects = es ∧ Turn.Thread i n.turn (n.stages i) u := by
  obtain ⟨t, ht, rfl, rfl⟩ := exists_process_of_step h
  exact ⟨t, rfl, rfl, Turn.thread_of_settle ht rfl⟩

/-- The effects of a transition are those of its stages, one after the other. -/
theorem effects_of_step (h : step n i = .ok (m, es)) :
    es = (n.stages i).flatMap (·.effects) := by
  obtain ⟨u, -, rfl, hthread⟩ := thread_of_step h
  exact hthread.effects_eq

/-! ### All that a node has asked for -/

namespace Life

/-- The effects that the node has asked for with its first inputs, in their order. -/
def emitted (l : Life) : Nat → List Effect
  | 0 => []
  | k + 1 =>
    l.emitted k ++
      match l.inputs[k]? with
      | some i =>
        match step (l.after k) i with
        | .ok (_, es) => es
        | .error _ => []
      | none => []

variable (l : Life)

/-- With each further input the node makes one transition at most. So a list to which every
transition adds something either stays as it is or gets what one transition adds. -/
theorem gathered_succ_cases {β : Type} (f : Nat → List β) (g : Node → Input → List Effect → List β)
    (hf : ∀ k, f (k + 1) = f k ++
      match l.inputs[k]? with
      | some i =>
        match step (l.after k) i with
        | .ok (_, es) => g (l.after k) i es
        | .error _ => []
      | none => []) (k : Nat) :
    (l.after (k + 1) = l.after k ∧ f (k + 1) = f k) ∨
      ∃ i es, l.inputs[k]? = some i ∧ step (l.after k) i = .ok (l.after (k + 1), es) ∧
        f (k + 1) = f k ++ g (l.after k) i es := by
  cases hi : l.inputs[k]? with
  | none =>
    refine .inl ⟨?_, ?_⟩
    · rw [after, List.take_add_one, hi, Option.toList_none, List.append_nil, after]
    · rw [hf, hi, List.append_nil]
  | some i =>
    have hafter : l.after (k + 1) = (l.after k).next i := Node.foldl_next_succ hi l.start
    cases hstep : step (l.after k) i with
    | ok r =>
      refine .inr ⟨i, r.2, rfl, ?_, ?_⟩
      · rw [hafter, Node.next, hstep]
      · simp only [hf, hi, hstep]
    | error =>
      refine .inl ⟨?_, ?_⟩
      · rw [hafter, Node.next, hstep]
      · simp only [hf, hi, hstep, List.append_nil]

theorem emitted_succ_cases (k : Nat) :
    (l.after (k + 1) = l.after k ∧ l.emitted (k + 1) = l.emitted k) ∨
      ∃ i es, l.inputs[k]? = some i ∧ step (l.after k) i = .ok (l.after (k + 1), es) ∧
        l.emitted (k + 1) = l.emitted k ++ es :=
  l.gathered_succ_cases l.emitted (fun _ _ es => es) (fun _ => rfl) k

/-- The snapshots that the node is handed before moment `k` are for captures that it has asked for
itself. -/
def Answered (k : Nat) : Prop :=
  ∀ j < k, ∀ s, l.inputs[j]? = some (.snapshotPrepared (some s)) →
    .prepareSnapshot s.about ∈ l.emitted j

theorem anchored_after (k : Nat) : (l.after k).log.Anchored := by
  refine l.keeps (·.log.Anchored) ?_ (fun hn a => a.anchored hn) k
  rcases l.isNew with ⟨id, settings, h⟩ | ⟨id, settings, s, h⟩ <;>
  · rw [h]
    exact ⟨Log.contiguous_of_entries_eq_nil rfl, Nat.le_refl _⟩

end Life

end Raft
