import Raft.Proofs.JsonRoundTrip
import Raft.Proofs.Majority
import Raft.Wire.Read
import Raft.Wire.Write

/-!
# Everything on the wire is read back

What a node writes is what another one reads: every message, and every part of a message, is read
back from the text that is written for it. The only condition is the one that a reader makes, that
each number fits into a 64-bit word.

* `Message.numbers` and its kin, the numbers that occur in a text;
* `Message.ofJson?_toJson` and its kin, what the values that are written are read as;
* `Wire.survives_of_fits`, the same for whole texts, for all that has a form of its own.
-/

namespace Raft

open Json (Value)

/-! ### Numbers -/

/-- Whether all of some numbers fit into words. -/
def FitWords (ns : List Nat) : Prop := ∀ n ∈ ns, n < wordLimit

instance (ns : List Nat) : Decidable (FitWords ns) :=
  inferInstanceAs (Decidable (∀ n ∈ ns, n < wordLimit))

@[simp] theorem fitWords_nil : FitWords [] := nofun

@[simp] theorem fitWords_cons {n : Nat} {ns : List Nat} :
    FitWords (n :: ns) ↔ n < wordLimit ∧ FitWords ns := List.forall_mem_cons

@[simp] theorem fitWords_append {ns ms : List Nat} :
    FitWords (ns ++ ms) ↔ FitWords ns ∧ FitWords ms := List.forall_mem_append

theorem FitWords.of_mem_flatMap {α : Type} {xs : List α} {f : α → List Nat}
    (h : FitWords (xs.flatMap f)) {x : α} (hx : x ∈ xs) : FitWords (f x) :=
  fun n hn => h n (List.mem_flatMap.2 ⟨x, hx, hn⟩)

/-- The numbers of the members. -/
def PeerSet.numbers (s : PeerSet) : List Nat := s.toList.map PeerId.number

/-- The numbers in a configuration. -/
def Configuration.numbers : Configuration → List Nat
  | .stable n ms => n :: ms.numbers
  | .joint n old new => n :: (old.numbers ++ new.numbers)

/-- The numbers in a command. Those of a payload are bytes anyway. -/
def Command.numbers : Command → List Nat
  | .configuration c => c.numbers
  | _ => []

/-- The number of a peer, if there is one. -/
def PeerId.numbers (p : Option PeerId) : List Nat := p.toList.map number

/-- The numbers in an entry. -/
def Entry.numbers (e : Entry) : List Nat :=
  e.term :: e.index :: (e.command.numbers ++ PeerId.numbers e.client)

/-- The numbers in what a snapshot covers. -/
def SnapshotMeta.numbers (m : SnapshotMeta) : List Nat := m.index :: m.term :: m.config.numbers

/-- The numbers in a client's request. -/
def Request.numbers (r : Request) : List Nat := r.client.number :: r.command.numbers

/-- The numbers in a message. -/
def Message.numbers : Message → List Nat
  | .requestVote term candidate lastTerm lastIndex =>
    [term, candidate.number, lastTerm, lastIndex]
  | .appendEntries leader term prevTerm prevIndex entries commit =>
    [leader.number, term, prevTerm, prevIndex, commit] ++ entries.flatMap Entry.numbers
  | .grantVote term => [term]
  | .declineVote term => [term]
  | .appendRejected term => [term]
  | .snapshotRejected term => [term]
  | .appendAccepted term lastIndex => [term, lastIndex]
  | .snapshotAccepted term lastIndex => [term, lastIndex]
  | .installSnapshot leader term s => leader.number :: term :: s.about.numbers
  | .changeConfiguration c => c.numbers
  | .discovered member => [member.number]
  | .memberAdded member required => [member.number, required]
  | .submit r => r.numbers
  | .respond index _ => [index]
  | .leaderIs leader pending => PeerId.numbers leader ++ pending.toList.flatMap Request.numbers
  | .requestConfiguration => []
  | .discover => []
  | .whoLeads => []
  | .askRole => []
  | .roleIs _ => []

/-! ### Values -/

theorem Json.Value.natural?_natural {n : Nat} (h : n < wordLimit) :
    (Value.natural n).natural? = some n := if_pos h

/-- A value that may be null is read back, if null stands for nothing else. -/
theorem Json.Value.optional_option {α : Type} {write : α → Value} {read : Value → Option α}
    {x : Option α} (hnull : ∀ y, write y ≠ .null) (h : ∀ y ∈ x, read (write y) = some y) :
    Value.optional read (some (Value.option write x)) = some x := by
  cases x with
  | none => rfl
  | some y =>
    have hread : Value.nullable read (write y) = (read (write y)).map some := by
      unfold Value.nullable
      split
      next heq => exact absurd heq (hnull y)
      next => rfl
    show Value.nullable read (write y) = _
    rw [hread, h y rfl, Option.map_some]

theorem PeerId.ofJson?_toJson {p : PeerId} (h : p.number < wordLimit) :
    ofJson? p.toJson = some p := by
  rw [ofJson?, toJson, Json.Value.natural?_natural h, Option.map_some]

theorem PeerId.optional_toJson {p : Option PeerId} (h : FitWords (PeerId.numbers p)) :
    Value.optional ofJson? (some (Value.option toJson p)) = some p := by
  refine Json.Value.optional_option (fun _ => Value.noConfusion) fun q hq => ?_
  obtain rfl := hq
  exact ofJson?_toJson (h q.number (List.mem_cons_self ..))

/-- Any list of members is read, in whatever order and however often they come. -/
theorem PeerSet.ofJson?_list {l : List PeerId} (h : FitWords (l.map PeerId.number)) :
    ofJson? (.list PeerId.toJson l) = some (.ofList l) := by
  have hlist := Json.Value.list?_list_of_mem (l := l) fun p hp =>
    PeerId.ofJson?_toJson (h p.number (List.mem_map.2 ⟨p, hp, rfl⟩))
  rw [ofJson?, hlist, Option.map_some]

theorem PeerSet.ofList_toList (s : PeerSet) : ofList s.toList = s :=
  ext fun _ => mem_ofList

theorem PeerSet.ofJson?_toJson {s : PeerSet} (h : FitWords s.numbers) :
    ofJson? s.toJson = some s := by
  rw [toJson, ofJson?_list h, ofList_toList]

theorem bytes?_bytesToJson (b : Bytes) : (bytesToJson b).bytes? = some b :=
  Json.Value.bytes?_list b

theorem Json.Value.alternative?_tagged (tag : String) (body : Value) :
    (Value.tagged tag body).alternative? = some (tag, some body) := rfl

theorem Configuration.ofJson?_toJson {c : Configuration} (h : FitWords c.numbers) :
    ofJson? c.toJson = some c := by
  cases c with
  | stable n ms =>
    obtain ⟨hn, hms⟩ := fitWords_cons.1 h
    simp [ofJson?, toJson, Json.Value.alternative?_tagged, Json.Value.record?_record_of_names,
      Value.required, Json.Value.natural?_natural hn, PeerSet.ofJson?_toJson hms]
  | joint n old new =>
    obtain ⟨hn, hsides⟩ := fitWords_cons.1 h
    obtain ⟨hold, hnew⟩ := fitWords_append.1 hsides
    simp [ofJson?, toJson, Json.Value.alternative?_tagged, Json.Value.record?_record_of_names,
      Value.required, Json.Value.natural?_natural hn, PeerSet.ofJson?_toJson hold,
      PeerSet.ofJson?_toJson hnew]

theorem Command.ofJson?_toJson {c : Command} (h : FitWords c.numbers) :
    ofJson? c.toJson = some c := by
  cases c with
  | noop => rfl
  | configuration c =>
    simp [ofJson?, toJson, Json.Value.alternative?_tagged, Value.required,
      Configuration.ofJson?_toJson h]
  | application payload =>
    simp [ofJson?, toJson, Json.Value.alternative?_tagged, Value.required, bytes?_bytesToJson]

theorem Entry.ofJson?_toJson {e : Entry} (h : FitWords e.numbers) :
    ofJson? e.toJson = some e := by
  simp only [numbers, fitWords_cons, fitWords_append] at h
  obtain ⟨hterm, hindex, hcommand, hclient⟩ := h
  simp [ofJson?, toJson, Json.Value.record?_record_of_names, Value.required,
    Json.Value.natural?_natural hterm, Json.Value.natural?_natural hindex,
    Command.ofJson?_toJson hcommand, PeerId.optional_toJson hclient]

theorem SnapshotMeta.ofJson?_toJson {m : SnapshotMeta} (h : FitWords m.numbers) :
    ofJson? m.toJson = some m := by
  simp only [numbers, fitWords_cons] at h
  obtain ⟨hindex, hterm, hconfig⟩ := h
  simp [ofJson?, toJson, Json.Value.record?_record_of_names, Value.required,
    Json.Value.natural?_natural hterm, Json.Value.natural?_natural hindex,
    Configuration.ofJson?_toJson hconfig]

theorem Snapshot.ofJson?_toJson {s : Snapshot} (h : FitWords s.about.numbers) :
    ofJson? s.toJson = some s := by
  simp [ofJson?, toJson, Json.Value.record?_record_of_names, Value.required,
    SnapshotMeta.ofJson?_toJson h, bytes?_bytesToJson]

theorem Request.ofJson?_toJson {r : Request} (h : FitWords r.numbers) :
    ofJson? r.toJson = some r := by
  obtain ⟨hclient, hcommand⟩ := fitWords_cons.1 h
  simp [ofJson?, toJson, Json.Value.record?_record_of_names, Value.required,
    PeerId.ofJson?_toJson hclient, Command.ofJson?_toJson hcommand]

theorem Request.optional_toJson {r : Option Request} (h : FitWords (r.toList.flatMap numbers)) :
    Value.optional ofJson? (some (Value.option toJson r)) = some r :=
  Json.Value.optional_option (fun _ => Value.noConfusion) fun _ hq =>
    ofJson?_toJson (h.of_mem_flatMap (Option.mem_toList.2 hq))

theorem Role.ofJson?_toJson (r : Role) : ofJson? r.toJson = some r := by
  cases r <;> rfl

/-! ### Messages -/

theorem onlyFieldOf?_record {α : Type} {name : String} {read : Value → Option α} {v : Value}
    {x : α} (h : read v = some x) :
    onlyFieldOf? name read (some (.record [(name, v)])) = some x := by
  simp [onlyFieldOf?, Json.Value.record?_record_of_names, Value.required, h]

theorem termOf?_record {term : Nat} (h : term < wordLimit) :
    termOf? (some (.record [("term", .natural term)])) = some term :=
  onlyFieldOf?_record (Json.Value.natural?_natural h)

theorem termAndLastIndexOf?_record {term lastIndex : Nat} (hterm : term < wordLimit)
    (hlast : lastIndex < wordLimit) :
    termAndLastIndexOf?
        (some (.record [("term", .natural term), ("last_index", .natural lastIndex)])) =
      some (term, lastIndex) := by
  simp [termAndLastIndexOf?, Json.Value.record?_record_of_names, Value.required,
    Json.Value.natural?_natural hterm, Json.Value.natural?_natural hlast]

theorem Message.ofJson?_toJson {m : Message} (h : FitWords m.numbers) :
    ofJson? m.toJson = some m := by
  cases m with
  | requestConfiguration => rfl
  | discover => rfl
  | whoLeads => rfl
  | askRole => rfl
  | requestVote term candidate lastTerm lastIndex =>
    simp only [numbers, fitWords_cons] at h
    obtain ⟨hterm, hcandidate, hlastTerm, hlastIndex, -⟩ := h
    simp [ofJson?, toJson, name, Json.Value.alternative?_tagged, voteRequestOf?,
      Json.Value.record?_record_of_names, Value.required, Json.Value.natural?_natural hterm,
      PeerId.ofJson?_toJson hcandidate, Json.Value.natural?_natural hlastTerm,
      Json.Value.natural?_natural hlastIndex]
  | appendEntries leader term prevTerm prevIndex entries commit =>
    simp only [numbers, fitWords_append, fitWords_cons] at h
    obtain ⟨⟨hleader, hterm, hprevTerm, hprevIndex, hcommit, -⟩, hentries⟩ := h
    have hlist := Json.Value.list?_list_of_mem (l := entries) fun e he =>
      Entry.ofJson?_toJson (hentries.of_mem_flatMap he)
    simp [ofJson?, toJson, name, Json.Value.alternative?_tagged, appendEntriesOf?,
      Json.Value.record?_record_of_names, Value.required, PeerId.ofJson?_toJson hleader,
      Json.Value.natural?_natural hterm, Json.Value.natural?_natural hprevTerm,
      Json.Value.natural?_natural hprevIndex, hlist, Json.Value.natural?_natural hcommit]
  | grantVote term | declineVote term | appendRejected term | snapshotRejected term =>
    simp only [numbers, fitWords_cons] at h
    simp [ofJson?, toJson, name, Json.Value.alternative?_tagged, termOf?_record h.1]
  | appendAccepted term lastIndex | snapshotAccepted term lastIndex =>
    simp only [numbers, fitWords_cons] at h
    simp [ofJson?, toJson, name, Json.Value.alternative?_tagged,
      termAndLastIndexOf?_record h.1 h.2.1]
  | installSnapshot leader term s =>
    simp only [numbers, fitWords_cons] at h
    obtain ⟨hleader, hterm, hsnapshot⟩ := h
    simp [ofJson?, toJson, name, Json.Value.alternative?_tagged, installSnapshotOf?,
      Json.Value.record?_record_of_names, Value.required, PeerId.ofJson?_toJson hleader,
      Json.Value.natural?_natural hterm, Snapshot.ofJson?_toJson hsnapshot]
  | changeConfiguration c =>
    simp [ofJson?, toJson, name, Json.Value.alternative?_tagged,
      onlyFieldOf?_record (Configuration.ofJson?_toJson h)]
  | discovered member =>
    simp only [numbers, fitWords_cons] at h
    simp [ofJson?, toJson, name, Json.Value.alternative?_tagged,
      onlyFieldOf?_record (PeerId.ofJson?_toJson h.1)]
  | memberAdded member required =>
    simp only [numbers, fitWords_cons] at h
    simp [ofJson?, toJson, name, Json.Value.alternative?_tagged, memberAddedOf?,
      Json.Value.record?_record_of_names, Value.required, PeerId.ofJson?_toJson h.1,
      Json.Value.natural?_natural h.2.1]
  | submit r =>
    simp [ofJson?, toJson, name, Json.Value.alternative?_tagged, Value.required,
      Request.ofJson?_toJson h]
  | respond index result =>
    simp only [numbers, fitWords_cons] at h
    simp [ofJson?, toJson, name, Json.Value.alternative?_tagged, respondOf?,
      Json.Value.record?_record_of_names, Value.required, Json.Value.natural?_natural h.1,
      bytes?_bytesToJson]
  | leaderIs leader pending =>
    obtain ⟨hleader, hpending⟩ := fitWords_append.1 h
    simp [ofJson?, toJson, name, Json.Value.alternative?_tagged, leaderIsOf?,
      Json.Value.record?_record_of_names, PeerId.optional_toJson hleader,
      Request.optional_toJson hpending]
  | roleIs role =>
    simp [ofJson?, toJson, name, Json.Value.alternative?_tagged,
      onlyFieldOf?_record (Role.ofJson?_toJson role)]

/-! ### Texts -/

/-- Whether what is read off the text of `x` is `x` again. -/
def Wire.Survives {α : Type} (write : α → Value) (read : Value → Option α) (x : α) : Prop :=
  (Value.parse? (write x).render).bind read = some x

theorem Wire.survives_iff {α : Type} {write : α → Value} {read : Value → Option α} {x : α} :
    Survives write read x ↔ read (write x) = some x := by
  rw [Survives, Value.parse?_render, Option.bind_some]

/-- All that goes over the wire, and all that has a form of its own there, survives it. -/
theorem Wire.survives_of_fits :
    (∀ m : Message, FitWords m.numbers → Survives Message.toJson Message.ofJson? m) ∧
    (∀ c : Configuration, FitWords c.numbers →
      Survives Configuration.toJson Configuration.ofJson? c) ∧
    (∀ c : Command, FitWords c.numbers → Survives Command.toJson Command.ofJson? c) ∧
    (∀ e : Entry, FitWords e.numbers → Survives Entry.toJson Entry.ofJson? e) ∧
    (∀ s : Snapshot, FitWords s.about.numbers → Survives Snapshot.toJson Snapshot.ofJson? s) ∧
    (∀ m : SnapshotMeta, FitWords m.numbers →
      Survives SnapshotMeta.toJson SnapshotMeta.ofJson? m) ∧
    ∀ r : Request, FitWords r.numbers → Survives Request.toJson Request.ofJson? r := by
  refine ⟨fun m h => ?message, fun c h => ?configuration, fun c h => ?command, fun e h => ?entry,
    fun s h => ?snapshot, fun m h => ?about, fun r h => ?request⟩
  case message => exact survives_iff.2 (Message.ofJson?_toJson h)
  case configuration => exact survives_iff.2 (Configuration.ofJson?_toJson h)
  case command => exact survives_iff.2 (Command.ofJson?_toJson h)
  case entry => exact survives_iff.2 (Entry.ofJson?_toJson h)
  case snapshot => exact survives_iff.2 (Snapshot.ofJson?_toJson h)
  case about => exact survives_iff.2 (SnapshotMeta.ofJson?_toJson h)
  case request => exact survives_iff.2 (Request.ofJson?_toJson h)

/-- The largest number, a joint configuration at three depths, and all bytes. -/
theorem Wire.survives_joint :
    let c : Configuration := .joint (wordLimit - 1) (.ofList [⟨2⟩, ⟨1⟩]) (.ofList [⟨3⟩])
    let e : Entry := ⟨2, 5, .application [0, 255], some ⟨9⟩⟩
    let s : Snapshot := ⟨⟨4, 1, c⟩, [34, 92]⟩
    let r : Request := ⟨⟨9⟩, .configuration c⟩
    Survives Message.toJson Message.ofJson? (.leaderIs none (some r)) ∧
    Survives Configuration.toJson Configuration.ofJson? c ∧
    Survives Command.toJson Command.ofJson? r.command ∧
    Survives Entry.toJson Entry.ofJson? e ∧
    Survives Snapshot.toJson Snapshot.ofJson? s ∧
    Survives SnapshotMeta.toJson SnapshotMeta.ofJson? s.about ∧
    Survives Request.toJson Request.ofJson? r := by
  obtain ⟨hm, hc, hcmd, he, hs, habout, hr⟩ := survives_of_fits
  exact ⟨hm _ (by decide), hc _ (by decide), hcmd _ (by decide), he _ (by decide),
    hs _ (by decide), habout _ (by decide), hr _ (by decide)⟩

end Raft
