import ScopeVcs.Lib.BinaryCounter
import ScopeVcs.Lib.Bytes
import ScopeVcs.Lib.EditGraph
import ScopeVcs.Lib.ListUpdate
import ScopeVcs.Lib.SortedMap
import ScopeVcs.Lib.KeyedList
import ScopeVcs.Lib.LastMax
import ScopeVcs.Lib.Mutation
import ScopeVcs.Lib.Machine
import ScopeVcs.Lib.Producer
import ScopeVcs.Lib.Propagation
import ScopeVcs.Lib.Table
import ScopeVcs.Lib.Text
import ScopeVcs.Lib.Transition
import ScopeVcs.Lib.U64
import ScopeVcs.Lib.Worklist
import ScopeVcs.Error
import ScopeVcs.Paths
import ScopeVcs.Views
import ScopeVcs.Postgres.Error
import ScopeVcs.Repository.Git
import ScopeVcs.Repository.GitCompaction
import ScopeVcs.Repository.MainPacks
import ScopeVcs.Runs.Workflow
import ScopeVcs.Runs.Step
import ScopeVcs.Runs.Attempt
import ScopeVcs.Runs.Run
import ScopeVcs.Runs.Job
import ScopeVcs.Runs.Execution
import ScopeVcs.Runs.AttemptTransitions
import ScopeVcs.Runs.Reconcile
import ScopeVcs.Runs.Aggregate
import ScopeVcs.Runs.JobGraph
import ScopeVcs.Runs.JobTransitions
import ScopeVcs.Runs.Fencing
import ScopeVcs.Runs.AttemptHistory
import ScopeVcs.Runs.StepOrder
import ScopeVcs.Runs.Restore
import ScopeVcs.Runs.ReadBack
import ScopeVcs.Runs.Reconciliation
import ScopeVcs.Projection.Content
import ScopeVcs.Projection.Commits
import ScopeVcs.GitTree.TreePath
import ScopeVcs.GitTree.Object
import ScopeVcs.GitTree.Tree
import ScopeVcs.GitTree.TreeFiles
import ScopeVcs.GitTree.CanonicalTree
import ScopeVcs.GitTree.ProjectionHead
import ScopeVcs.GitTree.FlatHead
import ScopeVcs.GitTree.Refinement
import ScopeVcs.GitTree.IncrementalIdentity
import ScopeVcs.Caches.Domain
import ScopeVcs.Caches.Store
import ScopeVcs.Caches.Change
import ScopeVcs.Caches.Sound
import ScopeVcs.Caches.Reconciliation
import ScopeVcs.Caches.BlobSafety
import ScopeVcs.Caches.Budget
import ScopeVcs.Requests.LineDiff
import ScopeVcs.Requests.DiscussionAnchor
import ScopeVcs.Requests.Model
import ScopeVcs.Requests.Stack
import ScopeVcs.Requests.Lifecycle
import ScopeVcs.GitHub.Pushes
import ScopeVcs.GitHub.PushQueue
import ScopeVcs.Outbox.Evaluation
import ScopeVcs.Outbox.Store
import ScopeVcs.Outbox.Execution
import ScopeVcs.Outbox.Workers
import ScopeVcs.Outbox.Change
import ScopeVcs.Outbox.AtMostOnce
import ScopeVcs.Outbox.Delivery
import ScopeVcs.Storage.Envelope
import ScopeVcs.Storage.InPlace
import ScopeVcs.Storage.Reader
import ScopeVcs.Storage.Frames
import ScopeVcs.Storage.Restore
import ScopeVcs.Storage.RoundTrip
import ScopeVcs.Storage.Encodings
import ScopeVcs.Storage.Authentic
import ScopeVcs.Storage.WholeOutputs
import ScopeVcs.Compaction.Pool
import ScopeVcs.Compaction.Chain
import ScopeVcs.Compaction.Jobs
import ScopeVcs.Compaction.PoolInvariant
import ScopeVcs.Compaction.Workers
import ScopeVcs.Compaction.Wakeups
import ScopeVcs.Content.Object
import ScopeVcs.Content.CleanupQueue
import ScopeVcs.Content.CleanupRows
import ScopeVcs.Content.Lifecycle
import ScopeVcs.Content.Invariant
import ScopeVcs.Content.Steps
import ScopeVcs.Content.CleanupSafety
import ScopeVcs.Visibility.RepoConfig
import ScopeVcs.Visibility.RepoVisibility
import ScopeVcs.Visibility.Labels
import ScopeVcs.Visibility.Canonical
import ScopeVcs.Visibility.Toggle
import ScopeVcs.Runs.Failures
import ScopeVcs.Runs.CapacityRetry
import ScopeVcs.Runs.RunLog
import ScopeVcs.Runs.RunLogOrder
import ScopeVcs.Lib.Terminated
import ScopeVcs.Lib.Utf8
import ScopeVcs.Repository.Access
import ScopeVcs.Requests.Access
import ScopeVcs.Requests.CheckIdentity
import ScopeVcs.Runs.SerialOrder
import ScopeVcs.Lib.Reader
import ScopeVcs.Storage.Ingest
import ScopeVcs.Storage.IngestOutcome
import ScopeVcs.Lib.Ring
import ScopeVcs.Lib.Utf8Decode
import ScopeVcs.Lib.Utf8Text
import ScopeVcs.Runner.Capture
import ScopeVcs.Runner.Delivered
import ScopeVcs.GitTree.PathIdentity
import ScopeVcs.Lib.Decimal
import ScopeVcs.Lib.ParentForest
import ScopeVcs.Requests.AttachmentParts
import ScopeVcs.Requests.MainPush
import ScopeVcs.Requests.QueueStacks
import ScopeVcs.Storage.PackCache
import ScopeVcs.Storage.PackCacheChanges
import ScopeVcs.Storage.PackCacheSafety
import ScopeVcs.Lib.ListRewrite
import ScopeVcs.Repository.Model
import ScopeVcs.ReviewedUpdates.Atomicity
import ScopeVcs.Projection.Agreement
import ScopeVcs.Projection.History
import ScopeVcs.Projection.ReadModel
import ScopeVcs.ReviewedUpdates.Labels
import ScopeVcs.ReviewedUpdates.ProjectionAgreement
import ScopeVcs.Projection.Batches
import ScopeVcs.ReviewedUpdates.IncrementalProjection
import ScopeVcs.ReviewedUpdates.RedactedRuns
import ScopeVcs.ReviewedUpdates.RedactedUpdates
import ScopeVcs.ReviewedUpdates.Redaction
import ScopeVcs.History.Batches
import ScopeVcs.History.ReadModel
import ScopeVcs.ReviewedUpdates.HistoryEntries
import ScopeVcs.Requests.ViewPaths
import ScopeVcs.ReviewedUpdates.ConfiguredLabels
import ScopeVcs.ReviewedUpdates.ReadAccess
import ScopeVcs.ReviewedUpdates.RequestGate
import ScopeVcs.Lib.Ancestry
import ScopeVcs.Lib.Traversal
import ScopeVcs.Requests.AutoMerge
import ScopeVcs.Requests.StackForest
import ScopeVcs.Requests.StackRefresh
