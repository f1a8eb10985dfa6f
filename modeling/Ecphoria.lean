import Ecphoria.Library.Table
import Ecphoria.Library.Alike
import Ecphoria.Library.Derived
import Ecphoria.Library.Transition
import Ecphoria.Library.Like
import Ecphoria.Library.Text
import Ecphoria.Library.MessagePack
import Ecphoria.Library.Calendar
import Ecphoria.Library.Durable
import Ecphoria.Library.Ring
import Ecphoria.Data
import Ecphoria.Cognition.Types
import Ecphoria.Cognition.Store
import Ecphoria.Memory.Indexes
import Ecphoria.Memory.Rebuild
import Ecphoria.Memory.Records
import Ecphoria.Memory.StateScan
import Ecphoria.Memory.StateStore
import Ecphoria.Memory.StateStream
import Ecphoria.Memory.StateExpiry
import Ecphoria.Memory.StateClients
import Ecphoria.Memory.Facts
import Ecphoria.Memory.VectorStore
import Ecphoria.Memory.ScopedVectors
import Ecphoria.Ingest.Chunk
import Ecphoria.Engine.State
import Ecphoria.Engine.Plan
import Ecphoria.Engine.Apply
import Ecphoria.Engine.Calls
import Ecphoria.Engine.Frame
import Ecphoria.Engine.Belief
import Ecphoria.Engine.BeliefRuns
import Ecphoria.Engine.Timeline
import Ecphoria.Engine.Proposal
import Ecphoria.Engine.Batch
import Ecphoria.Engine.Ahead
import Ecphoria.Cognition.Subjects
import Ecphoria.Engine.Review
import Ecphoria.Engine.Overlap
import Ecphoria.Engine.Ingest
import Ecphoria.Engine.EventTenants
import Ecphoria.Engine.Tenants
import Ecphoria.Engine.StateTenants
import Ecphoria.Engine.Migration
import Ecphoria.Engine.Erasure
import Ecphoria.Cognition.Ranking
import Ecphoria.Engine.Search
import Ecphoria.Engine.Isolation
import Ecphoria.Engine.ProjectFilter
import Ecphoria.Engine.Consolidate
import Ecphoria.Engine.Governance
import Ecphoria.Engine.Upkeep
import Ecphoria.Engine.IndexFrame
import Ecphoria.Engine.Waiting
import Ecphoria.Ingest.Webhook
import Ecphoria.Runtime.Journal
import Ecphoria.Runtime.Transcript
import Ecphoria.Runtime.Ledger
import Ecphoria.Runtime.Resume
import Ecphoria.Runtime.Machine
import Ecphoria.Runtime.Exclusion
import Ecphoria.Runtime.Terminal
import Ecphoria.Runtime.Approval
import Ecphoria.Cluster.Request
import Ecphoria.Cluster.Replay
import Ecphoria.Cluster.Replicas
import Ecphoria.Cluster.Wire
import Ecphoria.Cluster.Backup
import Ecphoria.Cluster.Snapshot
import Ecphoria.Cluster.RaftLog
import Ecphoria.Cluster.LogRecovery
import Ecphoria.Cluster.MembershipRecovery
import Ecphoria.Cluster.Members
import Ecphoria.Engine.TextIndex
import Ecphoria.Engine.VectorIndex
import Ecphoria.Engine.EventVectors
import Ecphoria.Cluster.Shards
import Ecphoria.Gateway.ResponseCache
import Ecphoria.Gateway.SimilarityCache
import Ecphoria.Gateway.Writes
import Ecphoria.Gateway.Replication
import Ecphoria.Library.Sorted
import Ecphoria.Engine.Landing
import Ecphoria.Engine.Sections
import Ecphoria.Engine.Reimport
import Ecphoria.Engine.DocumentFrame
import Ecphoria.Library.Grouping
import Ecphoria.Engine.Writers
import Ecphoria.Engine.Decisions
import Ecphoria.Engine.Links
import Ecphoria.Engine.ProjectFrame
import Ecphoria.Engine.ChangeStream
import Ecphoria.Engine.Sharing
import Ecphoria.Engine.Keywords
import Ecphoria.Cluster.Operator
import Ecphoria.Cluster.Convergence
import Ecphoria.Cluster.Moves
import Ecphoria.Gateway.ShardRouting
import Ecphoria.Gateway.Scatter
import Ecphoria.Cluster.Votes
import Ecphoria.Engine.Keyed
import Ecphoria.Gateway.SourceRecords
import Ecphoria.Gateway.Batches
import Ecphoria.Gateway.Tickets
import Ecphoria.Gateway.Signatures
import Ecphoria.Engine.Uploads
import Ecphoria.Gateway.GitImport
import Ecphoria.Cognition.BatchUpsert
import Ecphoria.Memory.AppendPaths
import Ecphoria.Cluster.Unpacking
import Ecphoria.Cluster.Packing
import Ecphoria.Cluster.Checksum
import Ecphoria.Ingest.Edits
import Ecphoria.Ingest.Fences
import Ecphoria.Library.Vectors
import Ecphoria.Library.Hops
import Ecphoria.Library.UnionFind
import Ecphoria.Library.Trim
import Ecphoria.Graph.Nodes
import Ecphoria.Graph.Centrality
import Ecphoria.Graph.ShortestPath
import Ecphoria.Graph.Communities
import Ecphoria.Runtime.TopoOrder
import Ecphoria.Runtime.Workflow
import Ecphoria.Runtime.Triggers
import Ecphoria.Cognition.Fusion
import Ecphoria.Engine.Subgraph
import Ecphoria.Memory.Schema
import Ecphoria.Memory.SchemaMeaning
import Ecphoria.Memory.SchemaCheck
import Ecphoria.Memory.SchemaExact
import Ecphoria.Query.Planner
import Ecphoria.Query.Literals
import Ecphoria.Query.Faithful
import Ecphoria.Engine.FunctionalLinks
import Ecphoria.Engine.Retention
import Ecphoria.Library.Lossy
import Ecphoria.Engine.BackupUpload
import Ecphoria.Library.Bucket
import Ecphoria.Gateway.RateLimiter
import Ecphoria.Engine.EmbeddingText
import Ecphoria.Gateway.MessageTranslation
import Ecphoria.Gateway.StreamTranslation
import Ecphoria.Gateway.AgentScope
import Ecphoria.Engine.Quota
import Ecphoria.Engine.Clusters
import Ecphoria.Engine.Hydration
import Ecphoria.Runtime.Expiry
import Ecphoria.Query.TenantSearch
import Ecphoria.Gateway.ToolGuard
import Ecphoria.Engine.Listing
import Ecphoria.Engine.Reembedding
import Ecphoria.Memory.Migrations
import Ecphoria.Gateway.PackPaths
import Ecphoria.Gateway.Forwarding
import Ecphoria.Ingest.Vault
import Ecphoria.Library.Versioned
import Ecphoria.Library.Broadcast
import Ecphoria.Library.Outputs
import Ecphoria.Library.Fitting
import Ecphoria.Cluster.Election
import Ecphoria.Memory.QueryLog
import Ecphoria.Gateway.Middleware
import Ecphoria.Gateway.PgSessions
import Ecphoria.Gateway.ContextPack
import Ecphoria.Gateway.ChangeSink
import Ecphoria.Query.TenantViews
import Ecphoria.Library.Stamped
import Ecphoria.Library.Markup
import Ecphoria.Gateway.KeySets
import Ecphoria.Gateway.Publishing
