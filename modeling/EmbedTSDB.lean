import EmbedTSDB.BStream.Writer
import EmbedTSDB.BStream.Reader
import EmbedTSDB.BStream.RoundTrip
import EmbedTSDB.BStream.Reads
import EmbedTSDB.Label
import EmbedTSDB.Concurrency
import EmbedTSDB.Memory.Metric
import EmbedTSDB.Memory.Interleaving
import EmbedTSDB.Memory.Encode
import EmbedTSDB.Memory.Select
import EmbedTSDB.Memory.ConcurrentSelect
import EmbedTSDB.Memory.Partition
import EmbedTSDB.Memory.InsertRows
import EmbedTSDB.Memory.PartitionSystem
import EmbedTSDB.Memory.PartitionQueries
import EmbedTSDB.Disk.Partition
import EmbedTSDB.PartitionList.Basic
import EmbedTSDB.PartitionList.Chain
import EmbedTSDB.PartitionList.Refinement
import EmbedTSDB.PartitionList.Concurrent
import EmbedTSDB.PartitionList.CleanSafety
import EmbedTSDB.PartitionList.Atomic
import EmbedTSDB.PartitionList.HeadCache
import EmbedTSDB.PartitionList.Serial
import EmbedTSDB.PartitionList.Progress
import EmbedTSDB.PartitionList.Count
import EmbedTSDB.PartitionList.Visibility
