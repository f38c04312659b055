import RaftConsensus.Agreement.Safety
import RaftConsensus.Kv.Client
import RaftConsensus.Membership.WellFormed
import RaftConsensus.Membership.OneChange
import RaftConsensus.Membership.Exit
import RaftConsensus.Single.Answers
import RaftConsensus.Single.Tracking
import RaftConsensus.Compaction.Leader
import RaftConsensus.Wal.Crash
import RaftConsensus.Wal.GroupCommit
import RaftConsensus.Kv.Resume
import RaftConsensus.Etcd.Deletes
import RaftConsensus.Sync.Convergence
import RaftConsensus.Sync.Flow
import RaftConsensus.Install.Reassembly
import RaftConsensus.Single.Halt
import RaftConsensus.Durable.OwnVote
import RaftConsensus.Durable.Success
import RaftConsensus.Sync.Matched
import RaftConsensus.Kv.Counter
import RaftConsensus.Kv.Expiry
import RaftConsensus.Snapshots.Crash
import RaftConsensus.Snapshots.Retention
import RaftConsensus.Wal.CompactLaw
import RaftConsensus.Campaign.Rounds
import RaftConsensus.Campaign.Transfers
import RaftConsensus.Position.SnapshotTerms
import RaftConsensus.Kv.Lifetimes
import RaftConsensus.Kv.Paging
import RaftConsensus.Kv.Restoring
import RaftConsensus.Etcd.Responses
import RaftConsensus.Etcd.Serializable
import RaftConsensus.Membership.Encoding
import RaftConsensus.Sync.Inflight
import RaftConsensus.Etcd.Watching
import RaftConsensus.Kv.Codec
import RaftConsensus.Wal.Scanning
import RaftConsensus.Transport.Framing
