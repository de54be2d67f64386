import HyphaDB.Engine.Read
import HyphaDB.Lib.Merge

/-!
# HyphaDB.Engine.Iterator

Range scans: a merge of all sources that yields, key by key, the newest version at or
below the iterator's sequence, tombstones left out.

An iterator takes its sources when it is made: a copy of the active memtable, the queued
memtables, and the open files of the tables. A queued memtable receives no more writes
and an open file stays readable, so a source is the list of its records.
-/

namespace HyphaDB

open Merge

/-- A half-open key range; an empty bound is no bound. -/
structure IteratorOptions where
  start : Key := []
  stop : Key := []
  deriving Repr, DecidableEq

def beforeStart (opts : IteratorOptions) (key : Key) : Bool :=
  opts.start ≠ [] && key < opts.start

def atOrPastEnd (opts : IteratorOptions) (key : Key) : Bool :=
  opts.stop ≠ [] && opts.stop ≤ key

/-- The loop of `PrefixEnd`, from the last byte on: bytes that cannot be raised are cut off. -/
def raiseLast : Bytes → Bytes
  | [] => []
  | b :: before => if b ≠ 0xff then ((b + 1) :: before).reverse else raiseLast before

/-- `PrefixEnd`: the first key behind all keys that start with `p`, empty if there is none. -/
def prefixEnd (p : Key) : Key := if p = [] then [] else raiseLast p.reverse

/-- The range `ScanPrefix` asks for. -/
def prefixRange (p : Key) : IteratorOptions := { start := p, stop := prefixEnd p }

/-- The records `advanceSource` takes from a source, one after the other: those behind the
sequence bound or before the start are skipped, and the first one at the end closes the
source. -/
def sourceRecords (opts : IteratorOptions) (maxSeq : UInt64) (recs : List Record) : List Record :=
  (recs.filter fun r => r.seq ≤ maxSeq && !beforeStart opts r.key).takeWhile
    fun r => !atOrPastEnd opts r.key

structure Iterator where
  maxSeq : UInt64
  heap : List (Cursor Record)
  closed : Bool := false

/-- `newIteratorLocked`, without the registration of the reader. -/
def newIterator (s : Sys) (opts : IteratorOptions) (maxSeq : UInt64) : Except DBError Iterator :=
  match readTables s.disk s.db.sstables.reverse with
  | .error e => .error e
  | .ok tables =>
      let memtables := s.db.active.records ::
        s.db.immutableMemtables.reverse.map fun imm => (s.db.heap imm.memTable).records
      let sources := (memtables ++ tables).map (sourceRecords opts maxSeq)
      .ok { maxSeq, heap := sources.flatMap cursorOf }

/-- The inner loop of `resolveNextKey`: take every other record of the key. -/
def absorb : Nat → Record → List (Cursor Record) → Record × List (Cursor Record)
  | 0, best, heap => (best, heap)
  | fuel + 1, best, heap =>
      match pop less heap with
      | none => (best, heap)
      | some (r, rest) =>
          if r.key = best.key then absorb fuel (if best.seq < r.seq then r else best) rest
          else (best, heap)

/-- The newest version of the smallest key in the heap, and the heap without that key. -/
def resolveNextKey (heap : List (Cursor Record)) : Option (Record × List (Cursor Record)) :=
  match pop less heap with
  | none => none
  | some (r, rest) => some (absorb (elements rest).length r rest)

/-- The loop of `Next`: skip deleted keys. -/
def nextRecord : Nat → List (Cursor Record) → Option (Record × List (Cursor Record))
  | 0, _ => none
  | fuel + 1, heap =>
      match resolveNextKey heap with
      | none => none
      | some (r, rest) => if r.deleted then nextRecord fuel rest else some (r, rest)

namespace Iterator

/-- `Iterator.Next` and `Iterator.Record`. -/
def next (it : Iterator) : Option Record × Iterator :=
  if it.closed then (none, it)
  else
    match nextRecord (elements it.heap).length it.heap with
    | none => (none, { it with heap := [] })
    | some (r, rest) => (some r, { it with heap := rest })

/-- Everything the iterator still yields. -/
def drain : Nat → Iterator → List Record
  | 0, _ => []
  | fuel + 1, it =>
      match it.next with
      | (none, _) => []
      | (some r, it) => r :: drain fuel it

/-- The output of an iterator. Every record comes from the heap, so its size is fuel
enough. -/
def output (it : Iterator) : List Record := drain (elements it.heap).length it

end Iterator

end HyphaDB
