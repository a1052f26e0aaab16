import Raft.Fault
import Raft.Json.Printer
import Raft.Json.Reading

/-!
# Replicated state machines

`StateMachine σ` is what a node asks of the application: apply a command, capture the state and
restore a captured one. Two applications come with the library:

* `Recorder` keeps every command and answers with their number. Its captured state is a JSON text;
* `Defective` can neither be captured nor restored.
-/

namespace Raft

/-- An application with states of type `σ`. It has to be deterministic, which a function is. -/
class StateMachine (σ : Type) where
  /-- The state after a command, and the reply to it. -/
  apply : σ → Bytes → σ × Bytes
  /-- The captured state. -/
  capture : σ → Except SnapshotFault Bytes
  /-- The state that was captured. -/
  restore : σ → Bytes → Except SnapshotFault σ

/-- The application that keeps every command. -/
structure Recorder where
  applied : List Bytes := []
  deriving DecidableEq

namespace Recorder

open Json (Value)

instance : Inhabited Recorder := ⟨{}⟩

/-- Keeps the command. The reply is the number of commands kept, in decimal digits. -/
def apply (r : Recorder) (command : Bytes) : Recorder × Bytes :=
  let applied := r.applied ++ [command]
  ({ applied }, Json.decimal applied.length)

/-- The JSON form of the commands kept. -/
def toJson (r : Recorder) : Value :=
  .record [("applied", .list (Value.list fun b => .natural b.toNat) r.applied)]

/-- Reads the commands kept. -/
def ofJson? (v : Value) : Option Recorder := do
  let [applied] ← v.record? ["applied"] | none
  return { applied := ← Value.required (Value.list? Value.bytes?) applied }

/-- The captured state, a JSON text. -/
def capture (r : Recorder) : Bytes := r.toJson.render

/-- Reads a captured state. -/
def ofCapture? (data : Bytes) : Option Recorder := (Value.parse? data).bind ofJson?

instance : StateMachine Recorder where
  apply := apply
  capture r := .ok r.capture
  restore _ data :=
    match ofCapture? data with
    | some r => .ok r
    | none => .error .unreadable

end Recorder

/-- An application without a state that can be captured. -/
inductive Defective
  | defective
  deriving DecidableEq

namespace Defective

/-- Why nothing can be captured or restored. -/
def fault : SnapshotFault := .unavailable "disk full"

instance : StateMachine Defective where
  apply d _ := (d, "applied".toList.map Json.ascii)
  capture _ := .error fault
  restore _ _ := .error fault

end Defective

end Raft
