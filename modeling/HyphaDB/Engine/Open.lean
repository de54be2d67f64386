import HyphaDB.Engine.Read
import HyphaDB.Engine.Write

/-!
# HyphaDB.Engine.Open

Opening a data directory: all segments are replayed, in ascending order, into **one**
memtable, the last segment (or a new one) is opened for appending, and the sequence
counter starts above everything found.
-/

namespace HyphaDB

open Faults Wal

/-- Options; zero selects a default, a negative value is refused. -/
structure Options where
  maxEntries : Int := 0
  tableCountThreshold : Int := 0
  maxKeyBytes : Int := 0
  maxValueBytes : Int := 0
  maxBatchOperations : Int := 0
  maxBatchBytes : Int := 0
  deriving Repr, DecidableEq

def defaultMaxMemtableEntries : Nat := 10000
def defaultCompactionThreshold : Nat := 4
def defaultMaxBatchOperations : Nat := 10000
def defaultMaxBatchBytes : Nat := 128 * 1024 * 1024

/-- An option with its default. -/
def orDefault (value : Int) (default : Nat) : Int := if value = 0 then default else value

def normalizeLimits (opts : Options) : Except DBError Limits :=
  let maxKeyBytes := orDefault opts.maxKeyBytes Record.maxKeySize
  let maxValueBytes := orDefault opts.maxValueBytes Record.maxValueSize
  let maxBatchOperations := orDefault opts.maxBatchOperations defaultMaxBatchOperations
  let maxBatchBytes := orDefault opts.maxBatchBytes defaultMaxBatchBytes
  if maxKeyBytes < 1 ∨ Record.maxKeySize < maxKeyBytes then .error .invalidOption
  else if maxValueBytes < 1 ∨ Record.maxValueSize < maxValueBytes then .error .invalidOption
  else if maxBatchOperations < 1 then .error .invalidOption
  else if maxBatchBytes < 1 then .error .invalidOption
  else
    .ok ⟨maxKeyBytes.toNat, maxValueBytes.toNat, maxBatchOperations.toNat, maxBatchBytes.toNat⟩

/-- What `Open` makes of its options before it touches the directory. -/
structure Settings where
  maxMemtableSize : Nat
  compactionThreshold : Nat
  limits : Limits

def normalizeOptions (opts : Options) : Except DBError Settings :=
  if opts.maxEntries < 0 then .error .invalidOption
  else if opts.tableCountThreshold < 0 then .error .invalidOption
  else
    match normalizeLimits opts with
    | .error e => .error e
    | .ok limits =>
        .ok ⟨(orDefault opts.maxEntries defaultMaxMemtableEntries).toNat,
          (orDefault opts.tableCountThreshold defaultCompactionThreshold).toNat, limits⟩

variable (cfg : Config)

/-- Replay segments one after the other, cutting torn tails off their files. -/
def replaySegments : List (Nat × Bytes) → MemTable → UInt64 → DiskOp (MemTable × UInt64)
  | [], mt, maxSeq => pure (mt, maxSeq)
  | (id, file) :: segments, mt, maxSeq => do
      let replay := replayInto cfg.crc file mt
      if replay.file.length < file.length then
        Prog.call .segmentTruncate (.io .segmentTruncate) fun d fate =>
          atomically (fun d => d.setWal id replay.file) d fate
      else pure ()
      match replay.result with
      | .error e => Prog.throw (.corruptWAL e)
      | .ok stats => replaySegments segments replay.memtable (max maxSeq stats.maxSequence)

def maxSeqFromSSTables (d : Disk) (tables : List SSTableMetadata) : Except DBError UInt64 :=
  match readTables d tables with
  | .error e => .error e
  | .ok sources => .ok (sources.foldl (fun m recs => max m (SSTable.maxSeq recs)) 0)

/-- The recorded size of a table, recovered from its file when it is missing. -/
def recoverSize (d : Disk) (t : SSTableMetadata) : SSTableMetadata :=
  if t.sizeBytes = 0 then { t with sizeBytes := ((d.tables t.path).map cfg.tableSize).getD 0 }
  else t

/-- Never append to a segment below one that is there. -/
def raiseSegmentID (m : Manifest) (segments : List (Nat × Bytes)) : Manifest :=
  match segments.getLast? with
  | none => m
  | some (id, _) => { m with nextWALSegmentID := max m.nextWALSegmentID id }

/-- The process `Open` returns. -/
def newDB (settings : Settings) (mt : MemTable) (m : Manifest) (maxSeq : UInt64) : DB where
  heap := Function.update (fun _ => .new) 0 mt
  nextRef := 1
  memtable := 0
  immutableMemtables := []
  maxMemtableSize := settings.maxMemtableSize
  memTableSize := mt.len
  sstables := m.sstables
  wal := m.nextWALSegmentID
  manifest := m
  compactionThreshold := settings.compactionThreshold
  nextSeq := maxSeq + 1
  limits := settings.limits
  activeReaders := []
  closed := false
  flusher := .idle

/-- `Open` on a directory that no process has open. -/
def openDB (opts : Options) : DiskOp DB := do
  let settings ← Prog.ofExcept (normalizeOptions opts)
  let d ← Prog.get
  let (mt, walMaxSeq) ← replaySegments cfg d.wals .new 0
  let m := raiseSegmentID (Manifest.read d.manifest) d.wals
  newSegmentInDir m.nextWALSegmentID
  let d ← Prog.get
  let m := { m with sstables := m.sstables.map (recoverSize cfg d) }
  let sstableMaxSeq ← Prog.ofExcept (maxSeqFromSSTables d m.sstables)
  pure (newDB settings mt m (max (max sstableMaxSeq (SSTable.maxSeq mt.records)) walMaxSeq))

end HyphaDB
