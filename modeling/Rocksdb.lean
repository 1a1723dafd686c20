import Rocksdb.CompactionReachable
import Rocksdb.CompactionPreservesReads
import Rocksdb.CompactionOrder
import Rocksdb.LevelIteratorProofs
import Rocksdb.CompactionOutputsProofs
import Rocksdb.PointLockRuns
import Rocksdb.SnapshotValidation
import Rocksdb.LogTailingProofs
import Rocksdb.ManifestReplay
import Rocksdb.VersionBuilderSteps
import Rocksdb.VersionEditCompat
import Rocksdb.BlockBuilderProofs
import Rocksdb.WriteBatchProofs
import Rocksdb.LruCacheProofs
import Rocksdb.MemTableListProofs
import Rocksdb.RibbonProofs
import Rocksdb.MultiCfIteratorProofs
import Rocksdb.RowCacheProofs
import Rocksdb.WideColumns
import Rocksdb.SeqnoToTimeMapping
import Rocksdb.BottommostFiles
import Rocksdb.PreparedHeap
