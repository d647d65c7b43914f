import DynamicExtension.OpenScans
import DynamicExtension.PointLookup
import DynamicExtension.RangeCount
import DynamicExtension.LevelCapacity
import DynamicExtension.FlushLogging
import DynamicExtension.ConcurrentAppend
import DynamicExtension.EpochReferences
import DynamicExtension.ReopenedShard
import DynamicExtension.PageReads
import DynamicExtension.StaticStructure
import DynamicExtension.TombstoneCount
import DynamicExtension.TaggedDeletes
import DynamicExtension.BufferRuns
import DynamicExtension.TailAdvance
import DynamicExtension.HeadReferences
import DynamicExtension.SortedBuffer
import DynamicExtension.SerialService
import DynamicExtension.ArrayLookup
import DynamicExtension.NearestNeighbors
import DynamicExtension.WeightedSampling
import DynamicExtension.Quickselect
import DynamicExtension.PlannedWork
import DynamicExtension.EuclidDistance
import DynamicExtension.Truncation
import DynamicExtension.Compaction
import DynamicExtension.CrashRecovery
import DynamicExtension.LayoutShape
import DynamicExtension.Library.FileStore
import DynamicExtension.ShardFiles
import DynamicExtension.SnapshotScans
