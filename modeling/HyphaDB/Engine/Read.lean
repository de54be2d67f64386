import HyphaDB.Engine.State

/-!
# HyphaDB.Engine.Read

Point reads: the newest visible version over the active memtable, the queued memtables
and the tables. `getAt` asks every source and keeps the candidate of the largest
sequence number, the earlier source on a tie.
-/

namespace HyphaDB

open Versions

/-- The contents of tables. -/
def readTables (d : Disk) : List SSTableMetadata → Except DBError (List (List Record))
  | [] => .ok []
  | t :: tables =>
      match d.tables t.path with
      | none => .error (.missingTable t.path)
      | some recs =>
          match readTables d tables with
          | .error e => .error e
          | .ok rest => .ok (recs :: rest)

/-- The record `getAt` settles on. -/
def findAt (s : Sys) (key : Key) (maxSeq : UInt64) : Except DBError (Option Record) :=
  let best := s.db.active.getAt key maxSeq
  let best := s.db.immutableMemtables.reverse.foldl
    (fun best imm => better Record.seq best ((s.db.heap imm.memTable).getAt key maxSeq)) best
  match readTables s.disk s.db.sstables.reverse with
  | .error e => .error e
  | .ok sources =>
      .ok (sources.foldl
        (fun best recs => better Record.seq best (SSTable.getRecordAt recs key maxSeq)) best)

/-- What a read makes of the record it found. -/
def answer : Option Record → Except DBError Bytes
  | none => .error .notFound
  | some r => if r.deleted then .error .notFound else .ok r.value

def getAt (s : Sys) (key : Key) (maxSeq : UInt64) : Except DBError Bytes :=
  match findAt s key maxSeq with
  | .error e => .error e
  | .ok best => answer best

/-- `DB.Get`. -/
def get (s : Sys) (key : Key) : Except DBError Bytes :=
  if s.db.closed then .error .closed
  else
    match s.db.limits.validateKey key with
    | .error e => .error e
    | .ok () => getAt s key (~~~0)

end HyphaDB
