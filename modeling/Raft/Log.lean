import Raft.Entry

/-!
# The replicated log

A `Log` is an optional snapshot, the live entries after it, and the commit index.

* Reading by position: `get?`, `termAt?`, `configurationAt?`,
  `matchesAt`, `batchFrom`, `slice`;
* writing: `append` (the leader), `merge` (a follower), `commit`, `compact`;
* what the first two of these assert: `appendLapses`, `mergeLapses`.

In a well-formed log (`Log.WellFormed`) the live entries are numbered without gaps from
`prevIndex + 1` on, and the commit index lies between `prevIndex` and `lastIndex`.
-/

namespace Raft

/-- The log of one node. -/
structure Log where
  entries : List Entry := []
  committed : Nat := 0
  snapshot : Option Snapshot := none
  deriving DecidableEq

namespace Log

instance : Inhabited Log := ⟨{}⟩

/-- The log of a node that starts from a snapshot, all of which is committed. -/
def ofSnapshot (s : Snapshot) : Log := { committed := s.about.index, snapshot := some s }

/-! ### Reading -/

/-- The position before the first live entry. -/
def prevIndex (log : Log) : Nat :=
  match log.snapshot with
  | some s => s.about.index
  | none => 0

/-- The term at the position before the first live entry. -/
def prevTerm (log : Log) : Nat :=
  match log.snapshot with
  | some s => s.about.term
  | none => 0

/-- The position of the last entry. -/
def lastIndex (log : Log) : Nat :=
  match log.entries.getLast? with
  | some e => e.index
  | none => log.prevIndex

/-- The term of the last entry. -/
def lastTerm (log : Log) : Nat :=
  match log.entries.getLast? with
  | some e => e.term
  | none => log.prevTerm

/-- The position that the next entry will take. -/
def nextIndex (log : Log) : Nat := log.lastIndex + 1

/-- The live entry at a position. -/
def get? (log : Log) (i : Nat) : Option Entry :=
  if i ≤ log.prevIndex then none else log.entries[i - log.prevIndex - 1]?

/-- The term at a position: known at 0, at the snapshot's boundary and where an entry is
live. -/
def termAt? (log : Log) (i : Nat) : Option Nat :=
  if i = 0 then some 0
  else if log.snapshot.isSome ∧ i = log.prevIndex then some log.prevTerm
  else (log.get? i).map (·.term)

/-- The newest configuration recorded at or below a position: that of a live entry, else that
of the snapshot. -/
def configurationAt? (log : Log) (i : Nat) : Option Configuration :=
  ((log.entries.filter (·.index ≤ i)).reverse.findSome? (·.command.configuration?)).or
    (log.snapshot.map (·.about.config))

/-- The newest configuration recorded in the log. -/
def latestConfiguration? (log : Log) : Option Configuration := log.configurationAt? log.lastIndex

/-- Whether a leader whose log has `term` at position `i` may append behind it here. Inside the
snapshot everything is committed and hence the same on every log that holds it. -/
def matchesAt (log : Log) (term i : Nat) : Bool :=
  if i = 0 then term == 0
  else if log.snapshot.isSome ∧ i < log.prevIndex then true
  else log.termAt? i == some term

/-- At most `count` live entries, from position `start` on. -/
def batchFrom (log : Log) (start count : Nat) : List Entry :=
  (log.entries.drop (max start (log.prevIndex + 1) - log.prevIndex - 1)).take count

/-- The live entries after position `low` up to position `high`. -/
def slice (log : Log) (low high : Nat) : List Entry :=
  log.entries.filter fun e => low < e.index ∧ e.index ≤ high

/-! ### Writing -/

/-- Adds an entry at the end. -/
def append (log : Log) (e : Entry) : Log := { log with entries := log.entries ++ [e] }

/-- Runs a leader's batch along the live entries that follow position `prev`. Where the terms
agree nothing changes, the first disagreement cuts the rest off, and an entry beyond the end by
more than one place ends the run. Positions up to `after` are not touched. -/
def splice (prev after : Nat) : List Entry → List Entry → List Entry
  | live, [] => live
  | live, e :: rest =>
    if e.index ≤ prev ∨ e.index ≤ after then splice prev after live rest
    else
      match live[e.index - prev - 1]? with
      | some old =>
        if old.term = e.term then splice prev after live rest
        else splice prev after (live.take (e.index - prev - 1) ++ [e]) rest
      | none =>
        if e.index - prev - 1 = live.length then splice prev after (live ++ [e]) rest
        else live

/-- Whether a batch brings anything that the log does not have. -/
def lacks (log : Log) (batch : List Entry) : Bool :=
  batch.any fun e => log.prevIndex < e.index ∧ log.termAt? e.index ≠ some e.term

/-- Merges a leader's batch, which follows position `after`, into the log. A batch that is there
already changes nothing, also where the log goes on behind it. -/
def merge (log : Log) (batch : List Entry) (after : Nat) : Log :=
  if log.lacks batch then { log with entries := splice log.prevIndex after log.entries batch }
  else log

/-- Advances the commit index, at most to the last entry and never backwards. -/
def commit (log : Log) (i : Nat) : Log :=
  { log with committed := max log.committed (min i log.lastIndex) }

/-- Replaces everything up to the snapshot's boundary by the snapshot. The entries behind it stay
if the log agrees with the snapshot at the boundary. A snapshot that covers no more than the
present one is ignored. -/
def compact (log : Log) (s : Snapshot) : Log :=
  if log.snapshot.isSome ∧ s.about.index ≤ log.prevIndex then log
  else
    { entries :=
        if log.termAt? s.about.index = some s.about.term then
          log.entries.filter (s.about.index < ·.index)
        else []
      committed := max log.committed s.about.index
      snapshot := some s }

/-! ### Assertions -/

/-- An assertion that did not hold when a log was changed. The change was made all the same. -/
inductive Lapse
  /-- An entry was appended that does not follow the last one. -/
  | outOfOrder (index next : Nat)
  /-- A committed entry was cut off. -/
  | cutCommitted (index committed : Nat)
  deriving DecidableEq

/-- Appending asserts that the entry follows the last one. -/
def appendLapses (log : Log) (e : Entry) : List Lapse :=
  if e.index = log.nextIndex then [] else [.outOfOrder e.index log.nextIndex]

/-- Running a batch along the live entries asserts, at every place where it cuts, that nothing
committed is cut off. -/
def spliceLapses (prev after committed : Nat) : List Entry → List Entry → List Lapse
  | _, [] => []
  | live, e :: rest =>
    if e.index ≤ prev ∨ e.index ≤ after then spliceLapses prev after committed live rest
    else
      match live[e.index - prev - 1]? with
      | some old =>
        if old.term = e.term then spliceLapses prev after committed live rest
        else
          (if committed < e.index then [] else [.cutCommitted e.index committed]) ++
            spliceLapses prev after committed (live.take (e.index - prev - 1) ++ [e]) rest
      | none =>
        if e.index - prev - 1 = live.length then
          spliceLapses prev after committed (live ++ [e]) rest
        else []

/-- What merging a batch asserts. -/
def mergeLapses (log : Log) (batch : List Entry) (after : Nat) : List Lapse :=
  if log.lacks batch then spliceLapses log.prevIndex after log.committed log.entries batch
  else []

/-! ### Shape -/

/-- The live entries are numbered without gaps, and the commit index lies within the log. -/
structure WellFormed (log : Log) : Prop where
  contiguous : ∀ k (h : k < log.entries.length), log.entries[k].index = log.prevIndex + 1 + k
  prevIndex_le_committed : log.prevIndex ≤ log.committed
  committed_le_lastIndex : log.committed ≤ log.lastIndex

/-- How a log is shown to people. -/
def label (log : Log) : String :=
  let live := log.entries.length
  s!"log(prev={log.prevIndex}, last={log.lastIndex}, committed={log.committed}, live={live})"

end Log

end Raft
