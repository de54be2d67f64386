import HyphaDB.Lib.Faults
import HyphaDB.SSTable
import HyphaDB.Wal.Replay

/-!
# HyphaDB.Engine.State

The state of the engine (`internal/db`): the data directory, and the memory of a process
that has it open.

**The directory** holds the manifest, the WAL segments as bytes, and the SSTables as
records in file order. Only completed file operations show: a table or a manifest is
written to a temporary file and appears with its rename.

**The process** refers to memtables by reference, as the source does: a memtable that was
queued for flushing while it was still active receives later writes through both names.
The flush worker runs in steps, with the lock released between them; `Flusher` is its
program counter.
-/

namespace HyphaDB

open Faults

/-- The kinds of file-system calls. -/
inductive Call
  /-- Appending one frame to a segment. -/
  | walFrame
  /-- The fsync at the end of a synchronous batch. -/
  | walSync
  /-- Closing the segment a rotation leaves behind. -/
  | walClose
  | segmentOpen
  | segmentHeader
  | segmentSync
  | segmentSyncDir
  | segmentTruncate
  | segmentRemove
  /-- Everything about a new table up to and including its rename. -/
  | tableRename
  | tableSyncDir
  | tableRemove
  /-- Everything about a new manifest up to and including its rename. -/
  | manifestRename
  | manifestSyncDir
  /-- Syncing the directory after files were removed from it. -/
  | removeSyncDir
  deriving Repr, DecidableEq

/-- The errors of the engine. -/
inductive DBError
  | closed
  | databaseLocked
  | notFound
  | invalidOption
  | keyTooLarge (got maximum : Nat)
  | valueTooLarge (got maximum : Nat)
  | batchTooManyOperations (maximum : Nat)
  | batchTooManyBytes (maximum : Nat)
  | batchClosed
  | encode (e : Wal.EncodeError)
  | corruptWAL (e : Wal.CorruptWAL)
  | unsortedRecords
  | missingTable (path : TablePath)
  | planReferencesMissingSSTable
  /-- A file-system call failed. -/
  | io (c : Call)
  /-- The new manifest is in place but its directory was not synced. -/
  | publish
  | snapshotClosed
  deriving Repr, DecidableEq

/-- What the model takes as given: the checksum, and the size of a table's file. -/
structure Config where
  crc : Bytes → UInt32
  tableSize : List Record → Nat

/-! ### The data directory -/

structure Disk where
  manifest : Option Manifest := none
  /-- The segments, by ascending identifier. -/
  wals : List (Nat × Bytes) := []
  tables : TablePath → Option (List Record) := fun _ => none

namespace Disk

def wal? (d : Disk) (id : Nat) : Option Bytes := d.wals.lookup id

/-- Insert or replace a segment. -/
def putWal (id : Nat) (file : Bytes) : List (Nat × Bytes) → List (Nat × Bytes)
  | [] => [(id, file)]
  | (i, f) :: wals =>
      if id < i then (id, file) :: (i, f) :: wals
      else if id = i then (id, file) :: wals
      else (i, f) :: putWal id file wals

def setWal (d : Disk) (id : Nat) (file : Bytes) : Disk := { d with wals := putWal id file d.wals }

/-- Append to a segment. A segment that was removed while open is written to no more. -/
def appendWal (d : Disk) (id : Nat) (bytes : Bytes) : Disk :=
  { d with wals := d.wals.map fun (i, f) => if i = id then (i, f ++ bytes) else (i, f) }

def removeWal (d : Disk) (id : Nat) : Disk :=
  { d with wals := d.wals.filter fun (i, _) => i ≠ id }

def putTable (d : Disk) (path : TablePath) (recs : List Record) : Disk :=
  { d with tables := Function.update d.tables path (some recs) }

def removeTable (d : Disk) (path : TablePath) : Disk :=
  { d with tables := Function.update d.tables path none }

end Disk

/-- The part of a write that reaches the file: a failed one leaves a proper prefix. -/
def written (bytes : Bytes) : Fate → Bytes
  | .done => bytes
  | .fail n => bytes.dropLast.take n
  | .kill n => bytes.take n

/-- A call that happens or does not; a kill comes before it or after it. -/
def atomically {σ : Type} (f : σ → σ) (s : σ) : Fate → σ
  | .done => f s
  | .fail _ => s
  | .kill 0 => s
  | .kill (_ + 1) => f s

/-! ### The process -/

structure Limits where
  maxKeyBytes : Nat
  maxValueBytes : Nat
  maxBatchOperations : Nat
  maxBatchBytes : Nat
  deriving Repr, DecidableEq

def Limits.validateKey (limits : Limits) (key : Key) : Except DBError Unit :=
  if limits.maxKeyBytes < key.length then .error (.keyTooLarge key.length limits.maxKeyBytes)
  else .ok ()

def Limits.validateValue (limits : Limits) (value : Bytes) : Except DBError Unit :=
  if limits.maxValueBytes < value.length then
    .error (.valueTooLarge value.length limits.maxValueBytes)
  else .ok ()

/-- A memtable queued for flushing, and the segment that holds its records. -/
structure ImmutableMemTable where
  memTable : Nat
  walID : Nat
  deriving Repr, DecidableEq

/-- Where the flush worker stands in `flushImmutableMemtable`. -/
inductive Flusher
  | idle
  /-- The last flush ended with an error. -/
  | failed
  /-- A table ID is taken and the table not yet written. -/
  | reserved (imm : ImmutableMemTable) (id : Nat)
  /-- The table is written and not yet published. -/
  | written (imm : ImmutableMemTable) (table : SSTableMetadata)
  /-- The table is published and the segment not yet removed. -/
  | removing (walID : Nat)
  /-- Publishing failed and the table's file is not yet removed. -/
  | cleanup (path : TablePath)
  deriving Repr, DecidableEq

structure DB where
  /-- The memtables by reference. -/
  heap : Nat → MemTable
  nextRef : Nat
  memtable : Nat
  immutableMemtables : List ImmutableMemTable
  maxMemtableSize : Nat
  memTableSize : Nat
  sstables : List SSTableMetadata
  wal : Nat
  manifest : Manifest
  compactionThreshold : Nat
  nextSeq : UInt64
  limits : Limits
  /-- The registered sequences, one entry for each registration. -/
  activeReaders : List UInt64
  closed : Bool
  flusher : Flusher

namespace DB

/-- The active memtable's contents. -/
def active (db : DB) : MemTable := db.heap db.memtable

def registerReader (db : DB) (sequence : UInt64) : DB :=
  { db with activeReaders := sequence :: db.activeReaders }

def unregisterReader (db : DB) (sequence : UInt64) : DB :=
  { db with activeReaders := db.activeReaders.erase sequence }

/-- `oldestReaderLocked`. -/
def oldestReader (db : DB) : Option UInt64 :=
  db.activeReaders.foldl
    (fun oldest sequence =>
      match oldest with
      | none => some sequence
      | some o => if sequence < o then some sequence else some o)
    none

/-- `currentSequenceLocked`. -/
def currentSequence (db : DB) : UInt64 := db.nextSeq - 1

end DB

/-- A running process and its directory. -/
structure Sys where
  disk : Disk
  db : DB

/-- A program of the engine. -/
abbrev Op (α : Type) : Type := Prog Call Sys DBError α

/-- A program that only touches the directory. -/
abbrev DiskOp (α : Type) : Type := Prog Call Disk DBError α

def onDisk {α : Type} (p : DiskOp α) : Op α :=
  Prog.zoom Sys.disk (fun d s => { s with disk := d }) p

def updateDB (f : DB → DB) : Op Unit := Prog.modify fun s => { s with db := f s.db }

end HyphaDB
