import DistLab.Systems.Runs
import DistLab.Systems.Network
import DistLab.Systems.History
import DistLab.Systems.Quorum
import DistLab.Systems.Ledger
import DistLab.Systems.Consensus
import DistLab.Systems.Block
import DistLab.Systems.Slices
import DistLab.Systems.Pipe
import DistLab.Systems.Pieces
import DistLab.Systems.Files
import DistLab.Systems.Grouping
import DistLab.Systems.Tasks
import DistLab.Systems.Queue
import DistLab.Systems.Linked
import DistLab.Systems.OnesComplement
import DistLab.Systems.Transducer
import DistLab.Systems.Fields
import DistLab.Systems.Linearization
import DistLab.Systems.Links
import DistLab.Systems.Progress
import DistLab.Raft.Server
import DistLab.Raft.Cluster
import DistLab.Raft.Effects
import DistLab.Raft.Reactions
import DistLab.Raft.Applying
import DistLab.Raft.Election
import DistLab.Raft.Leadership
import DistLab.Raft.Durability
import DistLab.Raft.Replication
import DistLab.Raft.Memory
import DistLab.Raft.LogMatching
import DistLab.Raft.LogShape
import DistLab.Raft.StepDown
import DistLab.Raft.LogRepair
import DistLab.Raft.Actors
import DistLab.Raft.Acknowledgement
import DistLab.Raft.Ballots
import DistLab.Raft.Adoption
import DistLab.Raft.Commitment
import DistLab.Raft.StateMachine
import DistLab.Raft.Completeness
import DistLab.Raft.Validity
import DistLab.Raft.IndexSafety
import DistLab.Rdt.Util
import DistLab.Rdt.Sender
import DistLab.Rdt.Receiver
import DistLab.Rdt.Packet
import DistLab.Rdt.Detection
import DistLab.Rdt.Ring
import DistLab.Rdt.Machine
import DistLab.Rdt.Timers
import DistLab.Rdt.Sending
import DistLab.Rdt.Window
import DistLab.Rdt.Soundness
import DistLab.Rdt.Receiving
import DistLab.Rdt.Validation
import DistLab.Rdt.Link
import DistLab.Rdt.Transfer
import DistLab.MapReduce.Common
import DistLab.MapReduce.Map
import DistLab.MapReduce.Reduce
import DistLab.MapReduce.Sequential
import DistLab.MapReduce.Schedule
import DistLab.MapReduce.Calls
import DistLab.MapReduce.Workers
import DistLab.MapReduce.Distributed
import DistLab.MapReduce.Equivalence
import DistLab.MapReduce.Strings
import DistLab.MapReduce.WordCount
import DistLab.P2P.Pieces
import DistLab.Udp.Packet
import DistLab.Udp.Fragments
import DistLab.Udp.Checksum
import DistLab.Udp.Headers
import DistLab.Qos.Dropper
import DistLab.Qos.Isolation
import DistLab.Linearizability.Bitset
import DistLab.Linearizability.Checker
import DistLab.Linearizability.Remaining
import DistLab.Linearizability.Search
import DistLab.Linearizability.Entries
import DistLab.Linearizability.Check
import DistLab.Linearizability.Operations
import DistLab.Linearizability.Kv
import DistLab.Linearizability.Events
import DistLab.Systems.Agenda
import DistLab.Systems.Carriage
import DistLab.Rdt.Simulation
import DistLab.Rdt.Clock
import DistLab.Rdt.Reactions
import DistLab.Rdt.Session
import DistLab.Labrpc.Network
import DistLab.Labrpc.Calls
import DistLab.Labrpc.Delivery
import DistLab.Labrpc.Termination
import DistLab.Labrpc.Transport
import DistLab.Raft.Config
import DistLab.Raft.Instances
import DistLab.Raft.Deployment
import DistLab.Raft.Isolation
