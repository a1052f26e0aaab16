import Raft.Json.Reading
import Raft.Message

/-!
# The wire format, reading

Each `ofJson?` reads what the corresponding `toJson` writes, and the other spellings that
`Raft.Json.Reading` admits.
-/

namespace Raft

open Json (Value)
open Json.Value (required optional)

/-- Reads a peer. -/
def PeerId.ofJson? (v : Value) : Option PeerId := v.natural?.map PeerId.mk

/-- Reads a set. The members may come in any order, and more than once. -/
def PeerSet.ofJson? (v : Value) : Option PeerSet := (v.list? PeerId.ofJson?).map PeerSet.ofList

/-- Reads a configuration. -/
def Configuration.ofJson? (v : Value) : Option Configuration := do
  let (name, contents) ← v.alternative?
  let contents ← contents
  match name with
  | "Stable" =>
    let [sequence, members] ← contents.record? ["sequence", "members"] | none
    return .stable (← required Value.natural? sequence) (← required PeerSet.ofJson? members)
  | "Joint" =>
    let [sequence, old, new] ← contents.record? ["sequence", "old_members", "new_members"] | none
    return .joint (← required Value.natural? sequence) (← required PeerSet.ofJson? old)
      (← required PeerSet.ofJson? new)
  | _ => none

/-- Reads a command. -/
def Command.ofJson? (v : Value) : Option Command := do
  let (name, contents) ← v.alternative?
  match name with
  | "Noop" => Value.bare .noop contents
  | "Configuration" => return .configuration (← required Configuration.ofJson? contents)
  | "Application" => return .application (← required Value.bytes? contents)
  | _ => none

/-- Reads an entry. -/
def Entry.ofJson? (v : Value) : Option Entry := do
  let [term, index, command, client] ← v.record? ["term", "index", "command", "client"] | none
  return {
    term := ← required Value.natural? term
    index := ← required Value.natural? index
    command := ← required Command.ofJson? command
    client := ← optional PeerId.ofJson? client }

/-- Reads what a snapshot covers. -/
def SnapshotMeta.ofJson? (v : Value) : Option SnapshotMeta := do
  let [index, term, config] ←
    v.record? ["last_included_index", "last_included_term", "config"] | none
  return {
    index := ← required Value.natural? index
    term := ← required Value.natural? term
    config := ← required Configuration.ofJson? config }

/-- Reads a snapshot. -/
def Snapshot.ofJson? (v : Value) : Option Snapshot := do
  let [about, data] ← v.record? ["meta", "data"] | none
  return {
    about := ← required SnapshotMeta.ofJson? about
    data := ← required Value.bytes? data }

/-- Reads a client's request. -/
def Request.ofJson? (v : Value) : Option Request := do
  let [client, command] ← v.record? ["client", "command"] | none
  return {
    client := ← required PeerId.ofJson? client
    command := ← required Command.ofJson? command }

/-- Reads a role. -/
def Role.ofJson? (v : Value) : Option Role := do
  let (name, contents) ← v.alternative?
  match name with
  | "Init" => Value.bare .init contents
  | "Follower" => Value.bare .follower contents
  | "Candidate" => Value.bare .candidate contents
  | "Leader" => Value.bare .leader contents
  | _ => none

/-- Reads a timer. -/
def Timer.ofJson? (v : Value) : Option Timer := do
  let (name, contents) ← v.alternative?
  match name with
  | "Election" => Value.bare .election contents
  | "Heartbeat" => Value.bare .heartbeat contents
  | "Discovery" => Value.bare .discovery contents
  | _ => none

/-- Reads contents with a single field. -/
def onlyFieldOf? {α : Type} (name : String) (read : Value → Option α) (contents : Option Value) :
    Option α := do
  let [v] ← (← contents).record? [name] | none
  required read v

/-- Reads contents that are a term only. -/
def termOf? (contents : Option Value) : Option Nat := onlyFieldOf? "term" Value.natural? contents

/-- Reads contents that are a term and the index of a last entry. -/
def termAndLastIndexOf? (contents : Option Value) : Option (Nat × Nat) := do
  let [term, lastIndex] ← (← contents).record? ["term", "last_index"] | none
  return (← required Value.natural? term, ← required Value.natural? lastIndex)

/-- Reads a request for a vote. -/
def voteRequestOf? (contents : Option Value) : Option Message := do
  let [term, candidate, lastTerm, lastIndex] ←
    (← contents).record? ["term", "candidate", "last_log_term", "last_log_index"] | none
  return .requestVote (← required Value.natural? term) (← required PeerId.ofJson? candidate)
    (← required Value.natural? lastTerm) (← required Value.natural? lastIndex)

/-- Reads a batch of entries. -/
def appendEntriesOf? (contents : Option Value) : Option Message := do
  let [leader, term, prevTerm, prevIndex, entries, commit] ← (← contents).record?
    ["member", "term", "prev_log_term", "prev_log_index", "entries", "leader_commit"] | none
  return .appendEntries (← required PeerId.ofJson? leader) (← required Value.natural? term)
    (← required Value.natural? prevTerm) (← required Value.natural? prevIndex)
    (← required (Value.list? Entry.ofJson?) entries) (← required Value.natural? commit)

/-- Reads a leader's snapshot. -/
def installSnapshotOf? (contents : Option Value) : Option Message := do
  let [leader, term, snapshot] ← (← contents).record? ["leader", "term", "snapshot"] | none
  return .installSnapshot (← required PeerId.ofJson? leader) (← required Value.natural? term)
    (← required Snapshot.ofJson? snapshot)

/-- Reads the order to count a member. -/
def memberAddedOf? (contents : Option Value) : Option Message := do
  let [member, found] ← (← contents).record? ["member", "keep_init_until"] | none
  return .memberAdded (← required PeerId.ofJson? member) (← required Value.natural? found)

/-- Reads an answer to a client. -/
def respondOf? (contents : Option Value) : Option Message := do
  let [index, result] ← (← contents).record? ["index", "result"] | none
  return .respond (← required Value.natural? index) (← required Value.bytes? result)

/-- Reads who leads. -/
def leaderIsOf? (contents : Option Value) : Option Message := do
  let [leader, pending] ← (← contents).record? ["leader", "pending"] | none
  return .leaderIs (← optional PeerId.ofJson? leader) (← optional Request.ofJson? pending)

/-- Reads a message. -/
def Message.ofJson? (v : Value) : Option Message := do
  let (name, contents) ← v.alternative?
  match name with
  | "RequestVote" => voteRequestOf? contents
  | "VoteCandidate" => return .grantVote (← termOf? contents)
  | "DeclineCandidate" => return .declineVote (← termOf? contents)
  | "AppendEntries" => appendEntriesOf? contents
  | "AppendSuccessful" =>
    let (term, lastIndex) ← termAndLastIndexOf? contents
    return .appendAccepted term lastIndex
  | "AppendRejected" => return .appendRejected (← termOf? contents)
  | "InstallSnapshot" => installSnapshotOf? contents
  | "InstallSnapshotSuccessful" =>
    let (term, lastIndex) ← termAndLastIndexOf? contents
    return .snapshotAccepted term lastIndex
  | "InstallSnapshotRejected" => return .snapshotRejected (← termOf? contents)
  | "ChangeConfiguration" =>
    return .changeConfiguration (← onlyFieldOf? "new_config" Configuration.ofJson? contents)
  | "RequestConfiguration" => Value.bare .requestConfiguration contents
  | "RaftMembersDiscoveryRequest" => Value.bare .discover contents
  | "RaftMembersDiscoveryResponse" =>
    return .discovered (← onlyFieldOf? "member" PeerId.ofJson? contents)
  | "RaftMemberAdded" => memberAddedOf? contents
  | "ClientMessage" => return .submit (← required Request.ofJson? contents)
  | "ClientResponse" => respondOf? contents
  | "WhoIsTheLeader" => Value.bare .whoLeads contents
  | "LeaderIs" => leaderIsOf? contents
  | "AskForState" => Value.bare .askRole contents
  | "IAmInState" => return .roleIs (← onlyFieldOf? "state" Role.ofJson? contents)
  | _ => none

end Raft
