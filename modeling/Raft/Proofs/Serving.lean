import Raft.Proofs.StateMachineSafety

/-!
# What an application is asked

A replica asks three things of its application: to apply a command, to be captured, and to be
restored from what was captured. `serve` says what comes of one such `Demand`, and `serveAll` what
comes of several in a row. An application that cannot be restored goes on as it was.

* `Effect.demand?`, the demand that an effect makes, and `Stir.state_foldl_execute`, what the
  effects of a transition do to the application;
* `serve_restore_of_capture`, a restored application is the one that was captured;
* `Recorder.serveAll_apply`, commands and replies of `Recorder`, and `Recorder.restore_as_replay`, a
  restored one answers like one that was given all commands itself.
-/

namespace Raft

/-- What an application is asked. -/
inductive Demand
  | apply (command : Bytes)
  | capture
  | restore (data : Bytes)
  deriving DecidableEq

/-- What an application answers. -/
inductive Outcome
  | replied (result : Bytes)
  | captured (data : Bytes)
  | restored
  | failed (fault : SnapshotFault)
  deriving DecidableEq

section

variable {σ : Type} [StateMachine σ]

/-- The state after a demand, and the answer to it. -/
def serve (s : σ) : Demand → σ × Outcome
  | .apply command => ((StateMachine.apply s command).1, .replied (StateMachine.apply s command).2)
  | .capture =>
    match StateMachine.capture s with
    | .ok data => (s, .captured data)
    | .error fault => (s, .failed fault)
  | .restore data =>
    match StateMachine.restore s data with
    | .ok s' => (s', .restored)
    | .error fault => (s, .failed fault)

/-- The state after some demands, and the answers to them. -/
def serveAll (s : σ) : List Demand → σ × List Outcome
  | [] => (s, [])
  | d :: ds =>
    let (s, answer) := serve s d
    let (s, answers) := serveAll s ds
    (s, answer :: answers)

@[simp] theorem serveAll_nil (s : σ) : serveAll s [] = (s, []) := rfl

theorem serveAll_cons (s : σ) (d : Demand) (ds : List Demand) : serveAll s (d :: ds) =
    ((serveAll (serve s d).1 ds).1, (serve s d).2 :: (serveAll (serve s d).1 ds).2) := rfl

theorem serveAll_append (s : σ) (ds es : List Demand) : serveAll s (ds ++ es) =
    ((serveAll (serveAll s ds).1 es).1,
      (serveAll s ds).2 ++ (serveAll (serveAll s ds).1 es).2) := by
  induction ds generalizing s with
  | nil => rfl
  | cons d rest ih =>
    rw [List.cons_append, serveAll_cons, ih, serveAll_cons]
    rfl

/-- A capture leaves the application alone. -/
theorem serve_capture_fst (s : σ) : (serve s .capture).1 = s := by
  unfold serve
  simp only
  split <;> rfl

theorem serve_capture {s : σ} {data : Bytes} (h : StateMachine.capture s = .ok data) :
    serve s .capture = (s, .captured data) := by
  simp only [serve, h]

/-- An application that cannot be restored goes on as it was. -/
theorem serveAll_restore_of_error {s : σ} {data : Bytes} {fault : SnapshotFault}
    (h : StateMachine.restore s data = .error fault) (later : List Demand) :
    serveAll s (.restore data :: later) =
      ((serveAll s later).1, .failed fault :: (serveAll s later).2) := by
  have hserve : serve s (.restore data) = (s, .failed fault) := by simp only [serve, h]
  rw [serveAll_cons, hserve]

/-- Whatever the state before, a restored application is the one that was captured. -/
theorem serve_restore_of_capture [LawfulStateMachine σ] {s : σ} {data : Bytes}
    (h : StateMachine.capture s = .ok data) (s' : σ) :
    serve s' (.restore data) = (s, .restored) := by
  simp only [serve, LawfulStateMachine.restore_capture h s']

/-! ### Replicas -/

/-- The demand that an effect makes. -/
def Effect.demand? : Effect → Option Demand
  | .apply e _ =>
    match e.command with
    | .application payload => some (.apply payload)
    | _ => none
  | .restore snapshot => some (.restore snapshot.data)
  | .prepareSnapshot _ => some .capture
  | _ => none

namespace Stir

theorem state_execute (moment : Moment) (s : Stir σ) (e : Effect) :
    (s.execute moment e).replica.state = (serveAll s.replica.state e.demand?.toList).1 := by
  cases e with
  | send | forward | arm | cancel => rfl
  | apply entry respond =>
    simp only [execute, apply, Effect.demand?]
    cases entry.command with
    | application payload =>
      simp only
      split <;> rfl
    | configuration | noop => rfl
  | restore snapshot =>
    simp only [execute, Replica.restore, Effect.demand?, Option.toList_some, serveAll, serve]
    cases StateMachine.restore s.replica.state snapshot.data <;> rfl
  | prepareSnapshot about =>
    simp only [execute, capture, Effect.demand?, Option.toList_some, serveAll, serve]
    cases StateMachine.capture s.replica.state <;> rfl

/-- Carrying out effects makes their demands of the application, in their order. -/
theorem state_foldl_execute (moment : Moment) (es : List Effect) (s : Stir σ) :
    (es.foldl (execute moment) s).replica.state =
      (serveAll s.replica.state (es.filterMap Effect.demand?)).1 := by
  induction es generalizing s with
  | nil => rfl
  | cons e rest ih =>
    rw [List.foldl_cons, ih, state_execute]
    cases hd : e.demand? with
    | none => rw [List.filterMap_cons_none hd, Option.toList_none, serveAll_nil]
    | some d => rw [List.filterMap_cons_some hd, Option.toList_some, serveAll_cons]; rfl

end Stir

end

/-! ### The commands kept -/

namespace Recorder

/-- All commands are kept, and each reply is the number of commands kept by then. -/
theorem serveAll_apply (r : Recorder) (cs : List Bytes) : serveAll r (cs.map .apply) =
    (⟨r.applied ++ cs⟩,
      (List.range' (r.applied.length + 1) cs.length).map (.replied <| Json.decimal ·)) := by
  induction cs generalizing r with
  | nil => simp
  | cons c rest ih =>
    have hserve : serve r (.apply c) =
        (⟨r.applied ++ [c]⟩, .replied (Json.decimal (r.applied ++ [c]).length)) := rfl
    rw [List.map_cons, serveAll_cons, hserve, ih]
    simp [List.range'_succ]

/-- An application that was restored from what another one captured after the commands `cs` is from
then on like one that was given `cs` itself: after the commands `ds` it keeps the same and has given
the same replies. From data that is no captured state nothing is restored, and nothing changes
either, so whatever is asked later has the same outcome as without the attempt. -/
theorem restore_as_replay :
    (∀ (cs ds : List Bytes) (m : Recorder), ∃ data,
      serve (serveAll ({} : Recorder) (cs.map .apply)).1 .capture =
        ((serveAll ({} : Recorder) (cs.map .apply)).1, .captured data) ∧
      (serve m (.restore data)).2 = .restored ∧
      serveAll ({} : Recorder) ((cs ++ ds).map .apply) =
        ((serveAll (serve m (.restore data)).1 (ds.map .apply)).1,
          (serveAll ({} : Recorder) (cs.map .apply)).2 ++
            (serveAll (serve m (.restore data)).1 (ds.map .apply)).2)) ∧
    ∀ (m : Recorder) (data : Bytes), ofCapture? data = none →
      StateMachine.restore m data = .error .unreadable ∧
      ∀ later, serveAll m (.restore data :: later) =
        ((serveAll m later).1, .failed .unreadable :: (serveAll m later).2) := by
  constructor
  · intro cs ds m
    have hcapture : StateMachine.capture (serveAll ({} : Recorder) (cs.map .apply)).1 =
        .ok (serveAll ({} : Recorder) (cs.map .apply)).1.capture := rfl
    have hrestore := serve_restore_of_capture hcapture m
    refine ⟨_, serve_capture hcapture, ?_, ?_⟩
    · rw [hrestore]
    · rw [hrestore, List.map_append, serveAll_append]
  · intro m data hdata
    have hrestore : StateMachine.restore m data = .error .unreadable := by
      simp only [StateMachine.restore, hdata]
    exact ⟨hrestore, serveAll_restore_of_error hrestore⟩

/-- A text that breaks off within the second of its commands is refused. -/
theorem restore_as_replay_abrupt :
    ofCapture? ("\x7b\"applied\":[[1],[2,".toList.map Json.ascii) = none ∧
    serveAll (⟨[[5]]⟩ : Recorder)
        [.restore ("\x7b\"applied\":[[1],[2,".toList.map Json.ascii), .apply [6], .capture] =
      (⟨[[5], [6]]⟩, [.failed .unreadable, .replied (Json.decimal 2),
        .captured (capture ⟨[[5], [6]]⟩)]) := by
  have hbroken : ofCapture? ("\x7b\"applied\":[[1],[2,".toList.map Json.ascii) = none := by
    decide +kernel
  have hrefused := (restore_as_replay.2 ⟨[[5]]⟩ _ hbroken).2 [.apply [6], .capture]
  exact ⟨hbroken, hrefused⟩

end Recorder

end Raft
