import Raft.CommandLine.Flag
import Raft.Ident

/-!
# Command line arguments

The program has one command, `local-cluster`, with flags that each take a value. `parse` reads a
command line in order, so the first fault and the first request for help win.
-/

namespace Raft.CommandLine

/-- How the outcome is written. -/
inductive Format
  | table
  | json
  deriving DecidableEq

/-- What the local cluster is to do. Times are in milliseconds. -/
structure Plan where
  nodes : Nat := 3
  commands : Nat := 10
  electionMin : Nat := 300
  electionMax : Nat := 500
  heartbeat : Nat := 100
  compactionThreshold : Nat := 1000
  format : Format := .table
  deriving DecidableEq

/-- What a command line asks for. -/
inductive Request
  | localCluster (plan : Plan)
  /-- A text to show. -/
  | show (text : String)
  deriving DecidableEq

/-- The name of the program. -/
def program : String := "queue-raft"

/-- The version of the program. -/
def version : String := "0.1.0"

/-! ### Flags of the command -/

/-- Sets a part of a plan from its spelling. -/
abbrev Setter := Plan → String → Option Plan

/-- A 64-bit number in decimal digits, which a plus sign may precede. -/
def word? (s : String) : Option Nat :=
  let digits := match s.toList with
    | '+' :: rest => rest
    | cs => cs
  if digits.isEmpty || digits.any (!·.isDigit) then none
  else
    let n := digits.foldl (fun n c => 10 * n + (c.toNat - '0'.toNat)) 0
    if n < wordLimit then some n else none

/-- The flags of the command, each with what it sets. -/
def flags : List (Flag × Setter) :=
  [({ long := "nodes", placeholder := "NODES", about := "Number of nodes", default := "3" },
      fun p s => (word? s).map ({ p with nodes := · })),
    ({ long := "commands", placeholder := "COMMANDS", about := "Number of commands to replicate",
       default := "10" },
      fun p s => (word? s).map ({ p with commands := · })),
    ({ long := "election-timeout-min-ms", placeholder := "ELECTION_TIMEOUT_MIN_MS",
       about := "Minimum election timeout in milliseconds", default := "300" },
      fun p s => (word? s).map ({ p with electionMin := · })),
    ({ long := "election-timeout-max-ms", placeholder := "ELECTION_TIMEOUT_MAX_MS",
       about := "Maximum election timeout in milliseconds", default := "500" },
      fun p s => (word? s).map ({ p with electionMax := · })),
    ({ long := "heartbeat-ms", placeholder := "HEARTBEAT_MS",
       about := "Heartbeat interval in milliseconds", default := "100" },
      fun p s => (word? s).map ({ p with heartbeat := · })),
    ({ long := "compaction-threshold", placeholder := "COMPACTION_THRESHOLD",
       about := "Committed entries that trigger log compaction (0 disables)",
       default := "1000" },
      fun p s => (word? s).map ({ p with compactionThreshold := · })),
    ({ long := "output", short := some 'o', placeholder := "OUTPUT", about := "Output format",
       default := "table", choices := ["table", "json"] },
      fun p s =>
        if s = "table" then some { p with format := .table }
        else if s = "json" then some { p with format := .json }
        else none)]

/-! ### Texts -/

/-- What the command does. -/
def localClusterAbout : String :=
  "Boot an in-process cluster, replicate commands through it and report each node's state"

/-- What the help command does. -/
def helpAbout : String := "Print this message or the help of the given subcommand(s)"

/-- The help text of the program. -/
def programHelp : String :=
  "Raft consensus core for a replicated message-queue log\n\n" ++
    s!"Usage: {program} <COMMAND>\n\n" ++
    "Commands:\n" ++
    "  local-cluster  " ++ localClusterAbout ++ "\n" ++
    "  help           " ++ helpAbout ++ "\n\n" ++
    optionsSection commonItems

/-- The help text of the command. -/
def localClusterHelp : String :=
  localClusterAbout ++ "\n\n" ++
    s!"Usage: {program} local-cluster [OPTIONS]\n\n" ++
    optionsSection (flags.map (·.1.helpItem) ++ commonItems)

/-- The help text of the help command. -/
def helpHelp : String :=
  helpAbout ++ "\n\n" ++
    s!"Usage: {program} help [COMMAND]...\n\n" ++
    "Arguments:\n" ++
    "  [COMMAND]...  Print help for the subcommand(s)\n"

/-- What the program and its command call themselves when they are asked for their version. -/
def versionText (name : String) : String := s!"{name} {version}\n"

/-! ### Reading -/

/-- A fault in a command line, for people to read. -/
abbrev Usage := String

/-- An argument that nothing is known of. -/
def unexpected (arg : String) : Usage := s!"unexpected argument '{arg}' found"

/-- Gives a flag a value. A flag can be given once only. -/
def assign (p : Plan) (given : List String) (f : Flag × Setter) (value : String) :
    Except Usage (Plan × List String) :=
  if given.contains f.1.long then
    throw s!"the argument '--{f.1.long}' cannot be used multiple times"
  else
    match f.2 p value with
    | some p => return (p, f.1.long :: given)
    | none => throw s!"invalid value '{value}' for '--{f.1.long}'"

/-- Whether an argument cannot be the value of the flag before it. -/
def looksLikeFlag (arg : String) : Bool :=
  match arg.toList with
  | ['-'] => false
  | '-' :: _ => true
  | _ => false

/-- The parts of `--name` or `--name=value`. -/
def splitLong? (arg : String) : Option (String × Option String) :=
  match arg.toList with
  | '-' :: '-' :: rest =>
    let name := String.ofList (rest.takeWhile (· != '='))
    match rest.dropWhile (· != '=') with
    | [] => some (name, none)
    | _ :: value => some (name, some (String.ofList value))
  | _ => none

/-- What a group of short flags asks for. -/
inductive ShortFlags
  | help
  | version
  /-- The flag takes a value, which may follow in the same argument. -/
  | valued (flag : Flag × Setter) (value : Option String)

/-- Reads a group of short flags, of which the first decides. -/
def shortFlags? (arg : String) : Option ShortFlags :=
  match arg.toList with
  | '-' :: 'h' :: _ => some .help
  | '-' :: 'V' :: _ => some .version
  | '-' :: c :: rest =>
    let value := match rest with
      | [] => none
      | '=' :: value => some (String.ofList value)
      | value => some (String.ofList value)
    (flags.find? (·.1.short == some c)).map (.valued · value)
  | _ => none

/-- Reads the arguments of the command. -/
def parseFlags (p : Plan) (given : List String) : List String → Except Usage Request
  | [] => return .localCluster p
  | "--" :: rest =>
    match rest with
    | [] => return .localCluster p
    | arg :: _ => throw (unexpected arg)
  | "--help" :: _ => return .show localClusterHelp
  | "--version" :: _ => return .show (versionText s!"{program}-local-cluster")
  | arg :: rest =>
    let valued (f : Flag × Setter) (value : Option String) := do
      match value, rest with
      | some value, rest =>
        let (p, given) ← assign p given f value
        parseFlags p given rest
      | none, value :: rest =>
        if looksLikeFlag value then throw s!"a value is required for '--{f.1.long}'"
        else
          let (p, given) ← assign p given f value
          parseFlags p given rest
      | none, [] => throw s!"a value is required for '--{f.1.long}'"
    match splitLong? arg with
    | some (name, value) =>
      match flags.find? (·.1.long == name) with
      | some f => valued f value
      | none => throw (unexpected arg)
    | none =>
      match shortFlags? arg with
      | some .help => return .show localClusterHelp
      | some .version => return .show (versionText s!"{program}-local-cluster")
      | some (.valued f value) => valued f value
      | none => throw (unexpected arg)

/-- Reads a command line. -/
def parse : List String → Except Usage Request
  | [] => throw programHelp
  | "local-cluster" :: rest => parseFlags {} [] rest
  | ["help"] => return .show programHelp
  | ["help", "local-cluster"] => return .show localClusterHelp
  | ["help", "help"] => return .show helpHelp
  | "--help" :: _ => return .show programHelp
  | "--version" :: _ => return .show (versionText program)
  | arg :: _ =>
    match shortFlags? arg with
    | some .help => return .show programHelp
    | some .version => return .show (versionText program)
    | _ => throw (unexpected arg)

end Raft.CommandLine
