import MiniKafka.BigEndian
import MiniKafka.BinarySearch
import MiniKafka.ExactReaders
import MiniKafka.ReadLoop
import MiniKafka.BufferedWriter
import MiniKafka.Runs
import MiniKafka.Dealing
import MiniKafka.LastWrite
import MiniKafka.Murmur
import MiniKafka.SwapDelete
import MiniKafka.Durations
import MiniKafka.PlainText
import MiniKafka.RecordCodec
import MiniKafka.RecordStreams
import MiniKafka.WireCodec
import MiniKafka.PartitionAssignments
import MiniKafka.AssignmentDecoding
import MiniKafka.Assignors
import MiniKafka.AssignorBalance
import MiniKafka.RequestBodies
import MiniKafka.ResponseBodies
import MiniKafka.MessageCodecs
import MiniKafka.Frames
import MiniKafka.FrameSizes
import MiniKafka.OffsetIndex
import MiniKafka.SegmentStore
import MiniKafka.DerivedIndexSize
import MiniKafka.SegmentContents
import MiniKafka.RecordSets
import MiniKafka.SegmentReads
import MiniKafka.SegmentWrites
import MiniKafka.FailedAppends
import MiniKafka.SparseIndex
import MiniKafka.IndexReopening
import MiniKafka.SegmentRebuild
import MiniKafka.SegmentRecovery
import MiniKafka.PartitionLog
import MiniKafka.LogContents
import MiniKafka.LogStart
import MiniKafka.LogWrites
import MiniKafka.LogMaintenance
import MiniKafka.LogReopen
import MiniKafka.LogReads
import MiniKafka.LogRefinement
import MiniKafka.LogRetention
import MiniKafka.CrashFiles
import MiniKafka.LogDirectory
import MiniKafka.ExactIndexes
import MiniKafka.IndexArithmetic
import MiniKafka.AcceptedAppends
import MiniKafka.InterruptedTruncation
import MiniKafka.LogReadFrom
import MiniKafka.ReopenedReads
import MiniKafka.PartitionWriter
import MiniKafka.InSyncReplicas
import MiniKafka.TrackerRuns
import MiniKafka.BrokerHandlers
import MiniKafka.ProducedRecordSets
import MiniKafka.AcksAllQuorum
import MiniKafka.AcksAllWakeups
import MiniKafka.CommittedVisibility
import MiniKafka.GroupCoordinator
import MiniKafka.GroupLedger
import MiniKafka.GroupOwnership
import MiniKafka.SyncAnswers
import MiniKafka.CommittedOffsets
import MiniKafka.OffsetRecovery
import MiniKafka.CommitInterference
import MiniKafka.ConcurrentCommits
import MiniKafka.CommitFencing
import MiniKafka.ReplicaCluster
import MiniKafka.TruncatedResponses
import MiniKafka.ReplicaAgreement
import MiniKafka.ReplicationTruth
import MiniKafka.PartitionClose
import MiniKafka.ConfiguredDurations
import MiniKafka.StrangerReplicas
import MiniKafka.ReadBudget
import MiniKafka.FetchTotals
import MiniKafka.ConsumerClient
import MiniKafka.OwnedCommits
import MiniKafka.DeliveredCommits
import MiniKafka.LongPollListeners
import MiniKafka.ListenerWakeups
import MiniKafka.KeyPartitioning
import MiniKafka.TopicCreation
import MiniKafka.CreationFailures
import MiniKafka.ProducerBatches
import MiniKafka.BatchLedger
import MiniKafka.BatchSteps
import MiniKafka.BatchFanOut
import MiniKafka.ProduceRoundTrips
import MiniKafka.BatchOutcomes
import MiniKafka.ServerConnections
import MiniKafka.ServerLifecycle
import MiniKafka.LeaderEpochs
import MiniKafka.PartitionLeadership
import MiniKafka.CrashDurability
import MiniKafka.ClientRoundTrips
import MiniKafka.CheckpointFile
import MiniKafka.LogHistories
import MiniKafka.PolledRecords
import MiniKafka.OrderedDelivery
import MiniKafka.InitialOffsets
import MiniKafka.PartitionHandover
