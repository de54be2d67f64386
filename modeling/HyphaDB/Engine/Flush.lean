import HyphaDB.Compaction.Merge
import HyphaDB.Compaction.Picker
import HyphaDB.Engine.Read

/-!
# HyphaDB.Engine.Flush

The two background jobs that replace tables.

`flushImmutableMemtable` runs in steps, each with the lock or without it: reserve a table
ID, write the table, publish it, remove the segment. A failed write or an unpublished
manifest puts the ID counter back to where it was **when the ID was reserved**.

`compactLocked` holds the lock from its first line to its last, so it is one program.
-/

namespace HyphaDB

open Faults Compaction

variable (cfg : Config)

/-! ### Files -/

/-- `CreateFromIteratorWithOptions`: the records are written in order and appear with the
rename; the directory is synced behind it. -/
def createTable (path : TablePath) (recs : List Record) : Op Unit := do
  if !SSTable.writable recs then Prog.throw .unsortedRecords
  else do
    Prog.call .tableRename (.io .tableRename) fun s fate =>
      atomically (fun s => { s with disk := s.disk.putTable path recs }) s fate
    Prog.call .tableSyncDir (.io .tableSyncDir) fun s _ => s

/-- What the writer reports about a new table. -/
def tableMetadata (id : Nat) (path : TablePath) (level : Nat) (recs : List Record) :
    SSTableMetadata :=
  ⟨id, path, level, cfg.tableSize recs, SSTable.smallestKey recs, SSTable.largestKey recs⟩

/-- `manifest.Write`: the manifest of memory replaces the one on disk. -/
def writeManifest : Op Unit := do
  Prog.call .manifestRename (.io .manifestRename) fun s fate =>
    atomically (fun s => { s with disk := { s.disk with manifest := some s.db.manifest } }) s fate
  Prog.call .manifestSyncDir .publish fun s _ => s

def removeTable (path : TablePath) : Op Unit :=
  Prog.call .tableRemove (.io .tableRemove) fun s fate =>
    atomically (fun s => { s with disk := s.disk.removeTable path }) s fate

namespace DB

/-- Both lists of tables at once. -/
def setTables (db : DB) (sstables metadata : List SSTableMetadata) : DB :=
  { db with sstables, manifest := { db.manifest with sstables := metadata } }

def setNextSSTableID (db : DB) (id : Nat) : DB :=
  { db with manifest := { db.manifest with nextSSTableID := id } }

def setFlusher (db : DB) (flusher : Flusher) : DB := { db with flusher }

/-- Take the flushed memtable off the queue. -/
def dequeue (db : DB) (imm : ImmutableMemTable) : DB :=
  { db with
    immutableMemtables :=
      match db.immutableMemtables with
      | [] => []
      | q :: qs => if q = imm then qs else q :: qs }

end DB

/-! ### Flushing -/

/-- Take the oldest queued memtable and a table ID for it. -/
def flushReserve : Op Unit := do
  let s ← Prog.get
  match s.db.flusher, s.db.immutableMemtables with
  | .idle, imm :: _ | .failed, imm :: _ =>
      let id := s.db.manifest.nextSSTableID
      updateDB fun db => (db.setNextSSTableID (id + 1)).setFlusher (.reserved imm id)
  | _, _ => pure ()

/-- Write the table, without the lock. -/
def flushWrite : Op Unit := do
  let s ← Prog.get
  match s.db.flusher with
  | .reserved imm id => do
      let recs := (s.db.heap imm.memTable).records
      match ← Prog.attempt (createTable (.data id) recs) with
      | .error e => do
          updateDB fun db => (db.setNextSSTableID id).setFlusher .failed
          Prog.throw e
      | .ok () =>
          updateDB fun db => db.setFlusher (.written imm (tableMetadata cfg id (.data id) L0 recs))
  | _ => pure ()

/-- Publish the table. -/
def flushPublish : Op Unit := do
  let s ← Prog.get
  match s.db.flusher with
  | .written imm table => do
      updateDB fun db => db.setTables (db.sstables ++ [table]) (db.manifest.sstables ++ [table])
      match ← Prog.attempt writeManifest with
      | .ok () => updateDB fun db => (db.dequeue imm).setFlusher (.removing imm.walID)
      | .error .publish => do
          updateDB fun db => (db.dequeue imm).setFlusher .failed
          Prog.throw .publish
      | .error e => do
          updateDB fun db =>
            ((db.setTables (db.sstables.take s.db.sstables.length)
              (db.manifest.sstables.take s.db.manifest.sstables.length)).setNextSSTableID
                table.id).setFlusher (.cleanup table.path)
          Prog.throw e
  | _ => pure ()

/-- `RemoveSegmentInDir`. -/
def removeSegment (walID : Nat) : Op Unit := do
  Prog.call .segmentRemove (.io .segmentRemove) fun s fate =>
    atomically (fun s => { s with disk := s.disk.removeWal walID }) s fate
  Prog.call .removeSyncDir (.io .removeSyncDir) fun s _ => s

/-- Remove the segment of a published memtable, without the lock. -/
def flushRemoveWAL : Op Unit := do
  let s ← Prog.get
  match s.db.flusher with
  | .removing walID => do
      match ← Prog.attempt (removeSegment walID) with
      | .ok () => updateDB fun db => db.setFlusher .idle
      | .error e => do
          updateDB fun db => db.setFlusher .failed
          Prog.throw e
  | _ => pure ()

/-- Remove the file of a table that could not be published. A failure is only logged. -/
def flushCleanup : Op Unit := do
  let s ← Prog.get
  match s.db.flusher with
  | .cleanup path => do
      let _ ← Prog.attempt (removeTable path)
      updateDB fun db => db.setFlusher .failed
  | _ => pure ()

/-! ### Compaction -/

/-- Put `table` in the place of the first table whose ID is selected, and leave the other
selected ones out. -/
def replaceSelected (selected : List Nat) (table : SSTableMetadata) :
    List SSTableMetadata → List SSTableMetadata
  | [] => []
  | t :: tables =>
      if t.id ∈ selected then table :: tables.filter (·.id ∉ selected)
      else t :: replaceSelected selected table tables

/-- The sizes of the files. -/
def Sys.stat (s : Sys) (path : TablePath) : Option Nat := (s.disk.tables path).map cfg.tableSize

/-- The plan of a compaction; the choice does not fault. -/
def compactionPlan (s : Sys) (threshold : Nat) : Option CompactionPlan :=
  Checked.value (pickWork (s.stat cfg) s.db.manifest.sstables threshold) (safe_pickWork threshold)

theorem pickWork_eq (s : Sys) (threshold : Nat) :
    pickWork (s.stat cfg) s.db.manifest.sstables threshold = .ok (compactionPlan cfg s threshold) :=
  Checked.value_eq _

/-- The open tables with the IDs of a plan's inputs. -/
def inputTables (sstables : List SSTableMetadata) (inputs : List SSTableMetadata) :
    List SSTableMetadata :=
  inputs.filterMap fun t => sstables.find? (·.id = t.id)

def mergeOptions (db : DB) (plan : CompactionPlan) : MergeOptions :=
  ⟨db.oldestReader, plan.targetLevel = highestSupportedLevel⟩

/-- Remove the files of replaced tables; a failure does not stop the others. The result is
the first error. -/
def removeTables : List SSTableMetadata → Op (Except DBError Unit)
  | [] => Prog.attempt (Prog.call .removeSyncDir (.io .removeSyncDir) fun s _ => s)
  | t :: tables => do
      let removed ← Prog.attempt (removeTable t.path)
      let rest ← removeTables tables
      pure (removed.bind fun _ => rest)

def compactLocked (threshold : Nat) : Op Unit := do
  let s ← Prog.get
  match compactionPlan cfg s threshold with
  | none => pure ()
  | some plan => do
      let selected := plan.inputs.map (·.id)
      let inputs := inputTables s.db.sstables plan.inputs
      if inputs.length ≠ plan.inputs.length then Prog.throw .planReferencesMissingSSTable
      else do
        let id := s.db.manifest.nextSSTableID
        let sources ← Prog.ofExcept (readTables s.disk inputs)
        let recs := mergeRecords (mergeOptions s.db plan) sources
        createTable (.compact id) recs
        let table := tableMetadata cfg id (.compact id) plan.targetLevel recs
        updateDB fun db =>
          (db.setTables db.sstables
            (replaceSelected selected table db.manifest.sstables)).setNextSSTableID (id + 1)
        match ← Prog.attempt writeManifest with
        | .ok () => do
            updateDB fun db =>
              db.setTables (replaceSelected selected table db.sstables) db.manifest.sstables
            let cleanup ← removeTables (s.db.sstables.filter (·.id ∈ selected))
            Prog.ofExcept cleanup
        | .error .publish => do
            updateDB fun db =>
              db.setTables (replaceSelected selected table db.sstables) db.manifest.sstables
            Prog.throw .publish
        | .error e => do
            updateDB fun db => (db.setTables db.sstables s.db.manifest.sstables).setNextSSTableID id
            let _ ← Prog.attempt (removeTable (.compact id))
            Prog.throw e

/-- `Compact`: any level 0 table is work enough. -/
def compact : Op Unit := compactLocked cfg 1

/-- One turn of the compaction worker. -/
def compactInBackground : Op Unit := do
  let s ← Prog.get
  compactLocked cfg s.db.compactionThreshold

end HyphaDB
