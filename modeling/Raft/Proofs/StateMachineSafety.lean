import Raft.Proofs.JsonRoundTrip
import Raft.Proofs.Replay

/-!
# The commands kept at each member

`Recorder` keeps every command that it is given, in order. Its captured state reads back as the same
commands, so a member that was caught up by a snapshot keeps the commands that it was never given.

* `Recorder.ofCapture?_capture`, captured states;
* `Recorder.applied_replay`, the commands among some entries;
* `Run.state_machine_safety`, what the members keep at any moments of a run.
-/

namespace Raft

/-! ### Captured states -/

namespace Recorder

open Json

theorem ofJson?_toJson (r : Recorder) : ofJson? r.toJson = some r := by
  have hnodup : ([("applied", Value.list (Value.list fun b => .natural b.toNat) r.applied)].map
      (·.1)).Nodup := by simp
  have hrecord := Value.record?_record hnodup
  have hlist := Value.list?_list Value.bytes?_list r.applied
  simp only [List.map_cons, List.map_nil] at hrecord
  rw [ofJson?, toJson, hrecord]
  simp [Value.required, hlist]

/-- The commands kept are read back from a captured state. -/
theorem ofCapture?_capture (r : Recorder) : ofCapture? r.capture = some r := by
  rw [ofCapture?, capture, Value.parse?_render, Option.bind_some, ofJson?_toJson]

instance : LawfulStateMachine Recorder where
  restore_capture {r data} h r' := by
    obtain rfl : r.capture = data := Except.ok.inj h
    simp only [StateMachine.restore, ofCapture?_capture]

/-! ### Commands among entries -/

/-- The command for the application that an entry has. -/
def payload? (e : Entry) : Option Bytes :=
  match e.command with
  | .application payload => some payload
  | _ => none

theorem applied_give (r : Recorder) (e : Entry) :
    (give r e).applied = r.applied ++ (payload? e).toList := by
  unfold give payload?
  cases e.command with
  | application payload => rfl
  | configuration | noop => exact (List.append_nil _).symm

theorem applied_replay (r : Recorder) (l : List Entry) :
    (replay r l).applied = r.applied ++ l.filterMap payload? := by
  induction l generalizing r with
  | nil => simp
  | cons e rest ih =>
    rw [replay_cons, ih, applied_give, List.append_assoc]
    cases hp : payload? e <;> simp [hp]

/-- More entries only add commands. -/
theorem applied_replay_isPrefix (r : Recorder) {l m : List Entry} (h : l <+: m) :
    (replay r l).applied <+: (replay r m).applied := by
  rw [applied_replay, applied_replay]
  exact (List.prefix_append_right_inj _).2 (h.filterMap payload?)

end Recorder

/-! ### Runs -/

namespace Run

/-- A run with a compaction. Member 1 commits a command together with member 2 and compacts its log,
and member 3, which was never sent the command, is caught up by the snapshot. -/
def caughtUp : Run Recorder where
  members := .ofList [⟨1⟩, ⟨2⟩, ⟨3⟩]
  initial := {}
  events :=
    let calm (p : Nat) : List Event := List.replicate 6 (.carryOut ⟨p⟩ { now := 0 })
    [.expire ⟨1⟩ .election] ++ calm 1 ++ [.deliver 0] ++ calm 2 ++ [.deliver 2] ++ calm 1 ++
    [.call ⟨9⟩ ⟨1⟩ (.submit ⟨⟨9⟩, .application [7]⟩)] ++ calm 1 ++ [.deliver 5] ++ calm 2 ++
    [.deliver 7] ++ calm 1 ++ [.compact ⟨1⟩] ++ calm 1 ++ [.report ⟨1⟩ 0] ++ calm 1 ++
    [.expire ⟨1⟩ .heartbeat] ++ calm 1 ++ [.deliver 10] ++ calm 3
  ordinary := by decide

variable (r : Run Recorder)

/-- Of the commands that two members keep at any two moments, the fewer ones are the first of the
others. When both have carried out all effects and have committed equally far, they keep the same
commands. -/
theorem state_machine_safety {p q : PeerId} (hp : p ∈ r.members) (hq : q ∈ r.members)
    (i j : Nat) :
    (((r.after i).state p).applied <+: ((r.after j).state q).applied ∨
      ((r.after j).state q).applied <+: ((r.after i).state p).applied) ∧
    ((r.after i).Settled p → (r.after j).Settled q →
      ((r.after i).log p).committed = ((r.after j).log q).committed →
      ((r.after i).state p).applied = ((r.after j).state q).applied) := by
  obtain ⟨l, m, hl, hm, hlm, heq⟩ := r.exists_replay hp hq i j
  constructor
  · rw [hl, hm]
    rcases hlm with h | h
    · exact .inl (Recorder.applied_replay_isPrefix _ h)
    · exact .inr (Recorder.applied_replay_isPrefix _ h)
  · intro hsettled hsettled' hcommitted
    rw [heq hsettled hsettled' hcommitted]

theorem state_machine_safety_caughtUp :
    ((caughtUp.after 70).state ⟨3⟩).applied = ((caughtUp.after 70).state ⟨1⟩).applied ∧
      ((caughtUp.after 70).state ⟨1⟩).applied = [[7]] := by
  have hsettled : (caughtUp.after 70).Settled ⟨3⟩ := by decide +kernel
  have hsettled' : (caughtUp.after 70).Settled ⟨1⟩ := by decide +kernel
  have hcommitted : ((caughtUp.after 70).log ⟨3⟩).committed =
      ((caughtUp.after 70).log ⟨1⟩).committed := by decide +kernel
  have hsafe := caughtUp.state_machine_safety (p := ⟨3⟩) (q := ⟨1⟩) (by decide) (by decide) 70 70
  exact ⟨hsafe.2 hsettled hsettled' hcommitted, by decide +kernel⟩

end Run

end Raft
