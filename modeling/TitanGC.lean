import TitanGC.Compaction.Schedule
import TitanGC.Compaction.StandardPath
import TitanGC.Software.PastReads
import TitanGC.Software.Bitmaps
import TitanGC.Collect.ReadAll
import TitanGC.Table.LostEntries
import TitanGC.Scheduling.GcQueue
import TitanGC.Scheduling.JobExits
import TitanGC.Scheduling.SharedInputs
import TitanGC.Compaction.SnapshotReads
import TitanGC.Offload.FlushReads
import TitanGC.Offload.IteratorReads
import TitanGC.Accounting.Leaks
import TitanGC.Accounting.GcLiveData
import TitanGC.Collect.HandleProtocol
import TitanGC.Kernel.Recollection
import TitanGC.Manifest.FileNumbers
import TitanGC.Compaction.Filter
import TitanGC.Storage.CorruptRecords
import TitanGC.Accounting.LegacyFiles
import TitanGC.Manifest.Purging
import TitanGC.Scheduling.DropRequests
import TitanGC.Accounting.AllOrNothing
import TitanGC.Scheduling.Discipline
import TitanGC.Software.Checkpoints
import TitanGC.Kernel.Driver
import TitanGC.Storage.KeyRanges
import TitanGC.Collect.MergeOrder
import TitanGC.Collect.OutputSizes
