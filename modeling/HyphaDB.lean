import HyphaDB.Lib.MachineInt
import HyphaDB.Lib.LittleEndian
import HyphaDB.Lib.Crc32c
import HyphaDB.Lib.Faults
import HyphaDB.Lib.Glob
import HyphaDB.Lib.Base64
import HyphaDB.Lib.Paging
import HyphaDB.Lib.Versions
import HyphaDB.Lib.Merge
import HyphaDB.Lib.Codec
import HyphaDB.Lib.Recency
import HyphaDB.Lib.Linked
import HyphaDB.Lib.Reserving
import HyphaDB.Record
import HyphaDB.Memtable
import HyphaDB.Manifest
import HyphaDB.ManifestFile
import HyphaDB.SSTable
import HyphaDB.Compaction.Picker
import HyphaDB.Compaction.Merge
import HyphaDB.Compaction.Newest
import HyphaDB.Wal.Frame
import HyphaDB.Wal.Replay
import HyphaDB.Wal.Batch
import HyphaDB.Wal.Segment
import HyphaDB.Wal.CrashCut
import HyphaDB.Wal.Corruption
import HyphaDB.Wal.Loss
import HyphaDB.Wal.Directory
import HyphaDB.Engine.State
import HyphaDB.Engine.Write
import HyphaDB.Engine.Read
import HyphaDB.Engine.Iterator
import HyphaDB.Engine.Open
import HyphaDB.Engine.Flush
import HyphaDB.Engine.World
import HyphaDB.Engine.Frames
import HyphaDB.Engine.Alike
import HyphaDB.Engine.Catalog
import HyphaDB.Engine.CompactionLoop
import HyphaDB.Engine.Session
import HyphaDB.Engine.Service
import HyphaDB.Store.View
import HyphaDB.Store.Reads
import HyphaDB.Store.Layers
import HyphaDB.Store.Anchored
import HyphaDB.Store.CrashFree
import HyphaDB.Store.Deleted
import HyphaDB.Store.Snapshots
import HyphaDB.Store.Durable
import HyphaDB.Store.Restart
import HyphaDB.Store.Remembered
import HyphaDB.Store.Mirror
import HyphaDB.Refine.Abstraction
import HyphaDB.Refine.Log
import HyphaDB.Refine.Segments
import HyphaDB.Refine.Write
import HyphaDB.Refine.Flush
import HyphaDB.Refine.Compact
import HyphaDB.Refine.Open
import HyphaDB.Refine.Step
import HyphaDB.Refine.Reads
import HyphaDB.Refine.Scan
import HyphaDB.Refine.ScanPrefix
import HyphaDB.Refine.Pages
import HyphaDB.Refine.Readers
import HyphaDB.Runs.FaultFree
import HyphaDB.Runs.Snapshots
import HyphaDB.Runs.Crashes
import HyphaDB.Runs.Invariants
import HyphaDB.Runs.Compactions
import HyphaDB.Runs.Levels
import HyphaDB.Runs.Sequences
import HyphaDB.Runs.FailedWrites
import HyphaDB.Runs.FailedMutations
import HyphaDB.Runs.Wraparound
import HyphaDB.Runs.Tables
import HyphaDB.Runs.Handles
import HyphaDB.Runs.Signals
import HyphaDB.Runs.Shutdown
import HyphaDB.Runs.Undisturbed
import HyphaDB.Runs.PowerLoss
import HyphaDB.Lib.Checked
import HyphaDB.Lib.Interleaved
import HyphaDB.Table.Bloom
import HyphaDB.Table.Block
import HyphaDB.Table.File
import HyphaDB.Table.Writer
import HyphaDB.Table.Bounds
import HyphaDB.Table.Cursor
import HyphaDB.Table.Layout
import HyphaDB.Table.Reopen
import HyphaDB.Table.Reads
import HyphaDB.Table.Limits
import HyphaDB.Table.Tampered
import HyphaDB.Table.Unnoticed
import HyphaDB.Table.References
import HyphaDB.Reservations
import HyphaDB.BlockCache
import HyphaDB.SkipList.Search
import HyphaDB.SkipList.Put
import HyphaDB.Table.Cached
import HyphaDB.Physical.Tables
import HyphaDB.Physical.Compaction
