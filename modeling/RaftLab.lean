import RaftLab.Lib.Transition
import RaftLab.Lib.GoSlice
import RaftLab.Lib.Quorum
import RaftLab.Lib.RangeLoop
import RaftLab.Lib.DuplicateFilter
import RaftLab.Lib.Linearizability
import RaftLab.Lib.LeaderLogs
import RaftLab.Lib.Replication
import RaftLab.Lib.Grouping
import RaftLab.Lib.EvenShares
import RaftLab.Raft.State
import RaftLab.Raft.Handlers
import RaftLab.Raft.Node
import RaftLab.Raft.HandlerCases
import RaftLab.Raft.NodeCases
import RaftLab.Raft.Server
import RaftLab.Raft.Cluster
import RaftLab.Raft.Ballots
import RaftLab.Raft.Election
import RaftLab.Raft.LeaderMessages
import RaftLab.Raft.IndexSafety
import RaftLab.Raft.CommitSearch
import RaftLab.Raft.StoredLog
import RaftLab.Raft.Retries
import RaftLab.Raft.FirstEntry
import RaftLab.Raft.FullLog
import RaftLab.Raft.Compaction
import RaftLab.Raft.OwnElections
import RaftLab.Raft.Candidacy
import RaftLab.Raft.LogHistory
import RaftLab.Raft.CommitOrder
import RaftLab.Raft.TermAdoption
import RaftLab.Raft.ApplyStream
import RaftLab.Raft.SnapshotOrder
import RaftLab.Raft.LogMatching
import RaftLab.Raft.Acceptance
import RaftLab.Raft.Replies
import RaftLab.Raft.Bookkeeping
import RaftLab.Raft.Truncation
import RaftLab.Raft.LeaderCompleteness
import RaftLab.Raft.Commitment
import RaftLab.Raft.StateMachineSafety
import RaftLab.Raft.Repair
import RaftLab.Raft.RepairConvergence
import RaftLab.Service.Session
import RaftLab.Service.Replies
import RaftLab.Kvraft.Server
import RaftLab.Kvraft.ApplyOrder
import RaftLab.Kvraft.Replies
import RaftLab.Shardctrler.Config
import RaftLab.Shardctrler.Server
import RaftLab.Shardctrler.Assignment
import RaftLab.Shardctrler.Balanced
import RaftLab.Shardctrler.MapOrder
import RaftLab.Shardctrler.MinimalMoves
import RaftLab.Shardctrler.Clerks
import RaftLab.Shardctrler.LostUpdates
import RaftLab.Shardctrler.Poisoning
import RaftLab.Shardkv.Server
import RaftLab.Shardkv.Sessions
import RaftLab.Shardkv.Replicas
import RaftLab.Shardkv.Entries
import RaftLab.Shardkv.Frozen
import RaftLab.Shardkv.MoveShards
import RaftLab.Shardkv.Requests
import RaftLab.Shardkv.Node
import RaftLab.Shardkv.NodeCases
import RaftLab.Shardkv.Cluster
import RaftLab.Shardkv.Delivery
import RaftLab.Shardkv.Conditions
import RaftLab.Shardkv.ConfigChanges
import RaftLab.Shardkv.OwnRequests
import RaftLab.Shardkv.Provenance
import RaftLab.Shardkv.Answers
import RaftLab.Shardkv.Movement
import RaftLab.Shardkv.Deletion
import RaftLab.Shardkv.Reads
import RaftLab.Shardkv.SingleOwner
import RaftLab.Service.AtMostOnce
import RaftLab.Kvsrv.Server
import RaftLab.Kvsrv.Linearizability
import RaftLab.Kvsrv.ExactlyOnce
import RaftLab.Mr.MapReduce
import RaftLab.Mr.Coordinator
import RaftLab.Mr.Tables
import RaftLab.Mr.Accounting
import RaftLab.Mr.Cluster
import RaftLab.Mr.Publication
import RaftLab.Mr.MapOutput
import RaftLab.Mr.JobText
import RaftLab.Lib.Locality
import RaftLab.Models.KvModel
import RaftLab.Raft.CommittedLog
