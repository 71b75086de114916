import MergeTree.Proof.PartInfo
import MergeTree.Lib.KeyedSet
import MergeTree.Spec.ActiveDataPartSet
import MergeTree.Proof.ActiveDataPartSet
import MergeTree.Proof.ActiveSetRuns
import MergeTree.Lib.Prog
import MergeTree.Proof.PartSetChanges
import MergeTree.Proof.QueueCoverage
import MergeTree.Proof.Scheduler
import MergeTree.Proof.MergePredicate
import MergeTree.Lib.Codec
import MergeTree.Lib.Sorting
import MergeTree.Proof.Wire
import MergeTree.Proof.IndexGranularity
import MergeTree.Lib.BitString
import MergeTree.Proof.AltersSequence
import MergeTree.Proof.BitpackingBlockCodec
import MergeTree.Proof.MergedPartOffsets
import MergeTree.Lib.Text
import MergeTree.Proof.DeduplicationLog
import MergeTree.Proof.DeduplicationReload
import MergeTree.Proof.PostingListCodec
import MergeTree.Proof.EntryText
import MergeTree.Proof.LogEntryText
import MergeTree.Proof.PatchPartsLock
import MergeTree.Proof.BackgroundExecutor
import MergeTree.Proof.PatchReader
import MergeTree.Lib.Loops
import MergeTree.Lib.Postfix
import MergeTree.Proof.SkipIndexes
import MergeTree.Proof.KeyCondition
import MergeTree.Lib.LastWriter
import MergeTree.Proof.ApplyPatches
import MergeTree.Proof.ExclusionSearch
import MergeTree.Proof.ReadingCoordinator
import MergeTree.Proof.RangesInPatchParts
import MergeTree.Proof.ReadPool
import MergeTree.Proof.WorkingSet
import MergeTree.Proof.WorkingSetRuns
import MergeTree.Lib.Units
import MergeTree.Proof.PartWriterColumns
import MergeTree.Proof.PartWriterIndexes
import MergeTree.Proof.PartWriterWide
import MergeTree.Lib.Bisection
import MergeTree.Proof.AddRows
import MergeTree.Proof.BinarySearch
import MergeTree.Proof.BulkFiltering
import MergeTree.Lib.CountedMap
import MergeTree.Proof.PartialResults
import MergeTree.Proof.PlainUpdateLock
import MergeTree.Proof.RangeCut
import MergeTree.Lib.Folding
import MergeTree.Lib.Heaps
import MergeTree.Lib.Selection
import MergeTree.Proof.TTLInfos
import MergeTree.Proof.TextIndexBuilder
import MergeTree.Proof.TopK
import MergeTree.Lib.Outcome
import MergeTree.Proof.ParallelReplicasPool
import MergeTree.Proof.PartWriterCompact
import MergeTree.Proof.PrefetchedReadPool
import MergeTree.Proof.SetIndexGranule
import MergeTree.Lib.EqualRanges
import MergeTree.Lib.Grouping
import MergeTree.Proof.CoveredOutdated
import MergeTree.Proof.DropRange
import MergeTree.Proof.MutationSlice
import MergeTree.Proof.PartitionId
import MergeTree.Proof.PendingRenames
import MergeTree.Proof.RequiredColumns
import MergeTree.Proof.RowOrderOptimizer
import MergeTree.Proof.SplitBlock
import MergeTree.Proof.ReaderStream
import MergeTree.Lib.Kleene
import MergeTree.Proof.BlocksCleanup
import MergeTree.Proof.InversionPushDown
import MergeTree.Proof.MergeRanges
import MergeTree.Proof.PartsMover
import MergeTree.Proof.WhereOptimizer
import MergeTree.Proof.TrivialMergeSelector
import MergeTree.Proof.MutationVersion
import MergeTree.Proof.MutationsSnapshot
import MergeTree.Proof.MarkRanges
import MergeTree.Proof.RowsCountGranularity
import MergeTree.Proof.SourcePartsSet
import MergeTree.Proof.ApplyPatchMerge
import MergeTree.Proof.PatchJoinCache
import MergeTree.Proof.PrimaryKeyScan
