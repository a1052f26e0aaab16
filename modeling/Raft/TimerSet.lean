import Raft.Message

/-!
# Timers

A `TimerSet` holds the deadline of every timer that runs. To arm a timer that runs already
replaces its deadline, so each runs at most once (`deadline_arm`, `deadline_cancel`).
-/

namespace Raft

/-- The deadlines of the timers that run. -/
structure TimerSet where
  election : Option Nat := none
  heartbeat : Option Nat := none
  discovery : Option Nat := none
  deriving DecidableEq

namespace TimerSet

instance : Inhabited TimerSet := ⟨{}⟩

/-- The deadline of a timer, if it runs. -/
def deadline (s : TimerSet) : Timer → Option Nat
  | .election => s.election
  | .heartbeat => s.heartbeat
  | .discovery => s.discovery

/-- Gives a timer a deadline, or none. -/
def set (s : TimerSet) (timer : Timer) (at? : Option Nat) : TimerSet :=
  match timer with
  | .election => { s with election := at? }
  | .heartbeat => { s with heartbeat := at? }
  | .discovery => { s with discovery := at? }

/-- Starts a timer anew, to run out after some time. -/
def arm (s : TimerSet) (timer : Timer) (now after : Nat) : TimerSet :=
  s.set timer (some (now + after))

/-- Stops a timer. -/
def cancel (s : TimerSet) (timer : Timer) : TimerSet := s.set timer none

theorem deadline_set (s : TimerSet) (timer other : Timer) (at? : Option Nat) :
    (s.set timer at?).deadline other = if other = timer then at? else s.deadline other := by
  cases timer <;> cases other <;> rfl

theorem deadline_arm (s : TimerSet) (timer other : Timer) (now after : Nat) :
    (s.arm timer now after).deadline other =
      if other = timer then some (now + after) else s.deadline other :=
  deadline_set ..

theorem deadline_cancel (s : TimerSet) (timer other : Timer) :
    (s.cancel timer).deadline other = if other = timer then none else s.deadline other :=
  deadline_set ..

/-- The timers that run, with their deadlines. -/
def running (s : TimerSet) : List (Timer × Nat) :=
  [Timer.election, .heartbeat, .discovery].filterMap fun timer =>
    (s.deadline timer).map (timer, ·)

/-- The one of two timers that runs out first. -/
def earlier (a b : Timer × Nat) : Timer × Nat := if b.2 < a.2 then b else a

/-- The timer that runs out first, with its deadline. -/
def next? (s : TimerSet) : Option (Timer × Nat) :=
  match s.running with
  | [] => none
  | first :: rest => some (rest.foldl earlier first)

end TimerSet

/-- An election timeout between two bounds, chosen by the number `pick`. There is none if the
bounds are in the wrong order. -/
def electionTimeout? (low high pick : Nat) : Option Nat :=
  if low ≤ high then some (low + pick % (high - low + 1)) else none

end Raft
