import ElasticStream.Collections.SortedMap
import ElasticStream.Order.Reach
import ElasticStream.Order.Rank
import ElasticStream.Store.WriteWindow
import ElasticStream.Replication.Quorum
import ElasticStream.Trace.Reachable
import ElasticStream.RangeServer.Range
import ElasticStream.RangeServer.Append
import ElasticStream.RangeServer.Seal
import ElasticStream.Replication.Replica
import ElasticStream.Codec.BigEndian
import ElasticStream.Store.Record
import ElasticStream.Store.BlockCache
import ElasticStream.Store.Segment
import ElasticStream.Store.Wal
import ElasticStream.Store.Recovery
import ElasticStream.Store.Fetch
import ElasticStream.Codec.Crc32
import ElasticStream.Collections.Partition
import ElasticStream.Placement.Id
import ElasticStream.Kv.Optimistic
import ElasticStream.Placement.Metadata
import ElasticStream.Placement.Endpoint
import ElasticStream.Codec.Cursor
import ElasticStream.Codec.Frame
import ElasticStream.Transport.Connection
import ElasticStream.Codec.Framer
import ElasticStream.Collections.Heap
import ElasticStream.Store.Buffer
import ElasticStream.Collections.HalfOpen
import ElasticStream.Store.MergeRange
import ElasticStream.Store.Watermark
import ElasticStream.Placement.RangeServer
import ElasticStream.ObjectStorage.Objects
import ElasticStream.Replication.RangeSeal
import ElasticStream.Store.Uring
import ElasticStream.ObjectStorage.Bound
import ElasticStream.Codec.ByteOrder
import ElasticStream.Store.Indexer
import ElasticStream.Collections.Tally
import ElasticStream.Replication.StreamCache
import ElasticStream.Store.Cache
import ElasticStream.Cache.Hierarchical
import ElasticStream.Store.Reclaim
import ElasticStream.Store.BufWriter
import ElasticStream.Store.Reserve
import ElasticStream.Model.RecordBatch
import ElasticStream.Model.MetaLayout
import ElasticStream.Replication.RecordsBlock
import ElasticStream.RangeServer.StoreRequests
import ElasticStream.Store.ReadIndex
import ElasticStream.ObjectStorage.RangeOffload
import ElasticStream.ObjectStorage.OffloadRun
import ElasticStream.ObjectStorage.Accumulator
