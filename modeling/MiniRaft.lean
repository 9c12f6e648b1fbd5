import MiniRaft.Lib.Decided
import MiniRaft.Lib.Files
import MiniRaft.Machine
import MiniRaft.Messages
import MiniRaft.State
import MiniRaft.Volatile
import MiniRaft.Recovery
import MiniRaft.Raft
import MiniRaft.Cluster
import MiniRaft.Safety
import MiniRaft.Election
import MiniRaft.Processor
import MiniRaft.Server
import MiniRaft.Applied
import MiniRaft.Replies
import MiniRaft.System
import MiniRaft.StateMachines
import MiniRaft.Progress
import MiniRaft.Writes
import MiniRaft.Queues
import MiniRaft.Reads
import MiniRaft.Matching
import MiniRaft.Merge
import MiniRaft.Acknowledge
import MiniRaft.Forwarding
import MiniRaft.Order
import MiniRaft.Tickets
import MiniRaft.StateChange
import MiniRaft.CatchUp
import MiniRaft.Peers
import MiniRaft.CleanUp
import MiniRaft.DummyRsm
import MiniRaft.LastTerm
import MiniRaft.Host
import MiniRaft.Wire
import MiniRaft.Chunks
import MiniRaft.Malformed
import MiniRaft.Node
import MiniRaft.Outgoing
import MiniRaft.TermOrder
import MiniRaft.Requests
import MiniRaft.Roles
import MiniRaft.Codec
import MiniRaft.Standing
import MiniRaft.Network
import MiniRaft.Lib.Assignments
import MiniRaft.Replicas
import MiniRaft.Kv
import MiniRaft.Lib.Attains
import MiniRaft.Timers
import MiniRaft.Schedules
import MiniRaft.Rounds
import MiniRaft.Availability
import MiniRaft.Campaigns
import MiniRaft.Service
import MiniRaft.Linear
import MiniRaft.Crashes
import MiniRaft.Timely
import MiniRaft.Stability
