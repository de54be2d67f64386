import HyphaDB.Engine.State
import HyphaDB.Wal.Batch

/-!
# HyphaDB.Engine.Write

Mutations: `Put`, `Delete` and `Batch.Commit`, and the memtable rotation they end with.

A mutation goes to the log first, then to the memtable; only then the sequence counter
moves. A rotation queues the memtable and advances the segment counter before it creates
the new segment, and undoes neither when that fails; it closes the old segment last.
-/

namespace HyphaDB

open Faults Wal

variable (cfg : Config)

/-! ### The log -/

/-- `WAL.WriteRecord` on the active segment. -/
def writeRecord (rec : Record) : Op Unit := do
  let payload ← Prog.ofExcept ((encodeRecord rec).mapError .encode)
  Prog.call .walFrame (.io .walFrame) fun s fate =>
    { s with disk := s.disk.appendWal s.db.wal (written (encodeFrame cfg.crc payload) fate) }

/-- `WAL.WriteBatch`. -/
def writeBatch (batchID : UInt64) (recs : List Record) (sync : Bool) : Op Unit := do
  writeRecord cfg (beginRecord batchID)
  Prog.forEach (fun rec => writeRecord cfg (operationRecord batchID rec)) recs
  writeRecord cfg (commitRecord batchID)
  if sync then Prog.call .walSync (.io .walSync) fun s _ => s else pure ()

/-- `NewSegmentInDir`: create a segment with a synced header, or check the header of one
that is there. -/
def newSegmentInDir (id : Nat) : DiskOp Unit := do
  Prog.call .segmentOpen (.io .segmentOpen) fun d fate =>
    atomically (fun d => if d.wal? id = none then d.setWal id [] else d) d fate
  let d ← Prog.get
  match (d.wal? id).getD [] with
  | [] => do
      Prog.call .segmentHeader (.io .segmentHeader) fun d fate =>
        d.appendWal id (written walHeader fate)
      Prog.call .segmentSync (.io .segmentSync) fun d _ => d
      Prog.call .segmentSyncDir (.io .segmentSyncDir) fun d _ => d
  | file => Prog.ofExcept ((validateWALHeader file).mapError .corruptWAL)

/-! ### Rotation -/

namespace DB

/-- Queue the active memtable and take the next segment number. -/
def enqueue (db : DB) : DB :=
  { db with
    immutableMemtables := db.immutableMemtables ++ [⟨db.memtable, db.wal⟩]
    manifest := { db.manifest with nextWALSegmentID := db.manifest.nextWALSegmentID + 1 } }

/-- Start an empty memtable on the new segment. -/
def switch (db : DB) : DB :=
  { db with
    heap := Function.update db.heap db.nextRef .new
    memtable := db.nextRef
    nextRef := db.nextRef + 1
    memTableSize := 0
    wal := db.manifest.nextWALSegmentID }

/-- Put records into the active memtable. -/
def putRecords (db : DB) (recs : List Record) : DB :=
  { db with
    heap := Function.update db.heap db.memtable (db.active.putAll recs)
    memTableSize := db.memTableSize + recs.length }

end DB

def rotateMemtable : Op Unit := do
  updateDB DB.enqueue
  let s ← Prog.get
  onDisk (newSegmentInDir s.db.manifest.nextWALSegmentID)
  updateDB DB.switch
  Prog.call .walClose (.io .walClose) fun s _ => s

/-- Rotate when the active memtable is full. -/
def rotateIfFull : Op Unit := do
  let s ← Prog.get
  if s.db.maxMemtableSize ≤ s.db.memTableSize then rotateMemtable else pure ()

/-! ### Mutations -/

/-- The record of an entry. -/
def entryRecord (key : Key) (seq : UInt64) (entry : Entry) : Record := { entry with key, seq }

/-- The common part of `Put` and `Delete`, behind their checks. -/
def writeEntry (key : Key) (entry : Entry) : Op Unit := do
  let s ← Prog.get
  let r := entryRecord key s.db.nextSeq entry
  writeRecord cfg r
  updateDB fun db => { db.putRecords [r] with nextSeq := db.nextSeq + 1 }
  rotateIfFull

def put (key : Key) (value : Bytes) : Op Unit := do
  let s ← Prog.get
  if s.db.closed then Prog.throw .closed
  else do
    Prog.ofExcept (s.db.limits.validateKey key)
    Prog.ofExcept (s.db.limits.validateValue value)
    writeEntry cfg key { value, deleted := false }

def delete (key : Key) : Op Unit := do
  let s ← Prog.get
  if s.db.closed then Prog.throw .closed
  else do
    Prog.ofExcept (s.db.limits.validateKey key)
    writeEntry cfg key { value := [], deleted := true }

/-- One operation of a batch. -/
structure BatchOperation where
  key : Key
  entry : Entry
  deriving Repr, DecidableEq

/-- The records of a batch, with consecutive sequence numbers. -/
def batchEntries (seq : UInt64) (operations : List BatchOperation) : List Record :=
  operations.zipIdx.map fun (op, i) => entryRecord op.key (seq + UInt64.ofNat i) op.entry

/-- How far a batch moves the sequence counter; an empty one takes a number too. -/
def batchCost (operations : List BatchOperation) : Nat :=
  if operations.length = 0 then 1 else operations.length

def applyBatch (operations : List BatchOperation) (sync : Bool) : Op Unit := do
  let s ← Prog.get
  if s.db.closed then Prog.throw .closed
  else do
    let recs := batchEntries s.db.nextSeq operations
    writeBatch cfg s.db.nextSeq recs sync
    updateDB fun db =>
      { db.putRecords recs with nextSeq := db.nextSeq + UInt64.ofNat (batchCost operations) }
    rotateIfFull

/-! ### Building a batch -/

/-- A batch as its caller holds it. -/
structure Batch where
  operations : List BatchOperation := []
  sizeBytes : Nat := 0
  closed : Bool := false
  deriving Repr, DecidableEq

/-- A call on a batch. -/
inductive BatchCall
  | put (key : Key) (value : Bytes)
  | delete (key : Key)
  deriving Repr, DecidableEq

/-- The operation a call asks for. -/
def BatchCall.operation : BatchCall → BatchOperation
  | put key value => ⟨key, { value, deleted := false }⟩
  | delete key => ⟨key, { value := [], deleted := true }⟩

def Batch.reserveOperation (limits : Limits) (b : Batch) (size : Nat) : Except DBError Unit :=
  if limits.maxBatchOperations ≤ b.operations.length then
    .error (.batchTooManyOperations limits.maxBatchOperations)
  else if limits.maxBatchBytes - b.sizeBytes < size then
    .error (.batchTooManyBytes limits.maxBatchBytes)
  else .ok ()

/-- `Batch.Put` and `Batch.Delete`, which has no value to check. -/
def Batch.add (limits : Limits) (b : Batch) (call : BatchCall) : Except DBError Batch :=
  if b.closed then .error .batchClosed
  else do
    let op := call.operation
    let size := op.key.length + op.entry.value.length
    limits.validateKey op.key
    limits.validateValue op.entry.value
    b.reserveOperation limits size
    return { b with operations := b.operations ++ [op], sizeBytes := b.sizeBytes + size }

/-- The operations a batch admits; a refused call leaves it as it was. -/
def batchOperations (limits : Limits) (calls : List BatchCall) : List BatchOperation :=
  (calls.foldl (fun b call => (b.add limits call).toOption.getD b) ({} : Batch)).operations

/-- `Batch.Commit`. The batch is closed only when this returns no error. -/
def Batch.commit (b : Batch) (sync : Bool) : Op Unit :=
  if b.closed then Prog.throw .batchClosed else applyBatch cfg b.operations sync

/-- A new batch, filled and committed. -/
def commit (calls : List BatchCall) (sync : Bool) : Op Unit := do
  let s ← Prog.get
  applyBatch cfg (batchOperations s.db.limits calls) sync

end HyphaDB
