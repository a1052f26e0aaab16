import Raft.Main
import Raft.Wire.Read
import Raft.Proofs.Abridged
import Raft.Proofs.Cluster
import Raft.Proofs.Overlay
import Raft.Proofs.Majority
import Raft.Proofs.Moves
import Raft.Proofs.Acts
import Raft.Proofs.Transitions
import Raft.Proofs.Steadiness
import Raft.Proofs.Tally
import Raft.Proofs.History
import Raft.Proofs.Records
import Raft.Proofs.Preservation
import Raft.Proofs.Replicating
import Raft.Proofs.Invariant
import Raft.Proofs.Safety
import Raft.Proofs.Replay
import Raft.Proofs.JsonRoundTrip
import Raft.Proofs.StateMachineSafety
import Raft.Proofs.Contracts
import Raft.Proofs.Launch
import Raft.Proofs.Charter
import Raft.Proofs.Membership
import Raft.Proofs.Bootstrap
import Raft.Proofs.Contiguity
import Raft.Proofs.FollowUps
import Raft.Proofs.InForce
import Raft.Proofs.Succession
import Raft.Proofs.Expansion
import Raft.Proofs.Deeds
import Raft.Proofs.Timers
import Raft.Proofs.Conclusion
import Raft.Proofs.Amending
import Raft.Proofs.Applying
import Raft.Proofs.TermOrder
import Raft.Proofs.WireRoundTrip
import Raft.Proofs.Mirroring
import Raft.Proofs.Conversation
import Raft.Proofs.TermGate
import Raft.Proofs.VoteRule
import Raft.Proofs.OneVote
import Raft.Proofs.Hints
import Raft.Proofs.Merging
import Raft.Proofs.Acknowledging
import Raft.Proofs.LogChanges
import Raft.Proofs.Compaction
import Raft.Proofs.Quorum
import Raft.Proofs.CommitRule
import Raft.Proofs.Sending
import Raft.Proofs.Installing
import Raft.Proofs.Aligning
import Raft.Proofs.Responding
import Raft.Proofs.Repair
import Raft.Proofs.Settling
import Raft.Proofs.Outsiders
import Raft.Proofs.Deposed
import Raft.Proofs.Handshake
import Raft.Proofs.Delivery
import Raft.Proofs.Headway
import Raft.Proofs.Restarting
import Raft.Proofs.Newcomers
import Raft.Proofs.Counting
