import HyphaDB.Engine.Flush
import HyphaDB.Engine.Iterator
import HyphaDB.Engine.Open

/-!
# HyphaDB.Engine.World

**Runs of the whole engine.** A world is a data directory and, when a process has it open,
the process with the snapshots and iterators it handed out. An event is a call of the
API, one step of a background job, or the death of the process; with it comes the fate of
each file-system call it makes. The lock orders the events, so a run is a list of them.

The **ledger** is what the callers of a run know: for each key, what a read must return,
or nothing when the last call on the key ended without an acknowledgement that says
whether it took effect.
-/

namespace HyphaDB

open Faults

structure Snapshot where
  sequence : UInt64
  closed : Bool := false
  deriving Repr, DecidableEq

structure World where
  disk : Disk := {}
  proc : Option DB := none
  snapshots : List Snapshot := []
  iterators : List Iterator := []

inductive Event
  | openDB (opts : Options)
  | put (key : Key) (value : Bytes)
  | delete (key : Key)
  | commit (calls : List BatchCall) (sync : Bool)
  | flushReserve
  | flushWrite
  | flushPublish
  | flushRemoveWAL
  | flushCleanup
  | compact
  | compactInBackground
  /-- `Close` up to the point where it waits for the background jobs. -/
  | beginClose
  /-- The rest of `Close`, once the queue is drained. -/
  | endClose
  | newSnapshot
  | closeSnapshot (i : Nat)
  | newIterator (opts : IteratorOptions)
  | snapshotIterator (i : Nat) (opts : IteratorOptions)
  | iteratorNext (i : Nat)
  | closeIterator (i : Nat)
  /-- The process dies between two calls. -/
  | kill
  deriving Repr, DecidableEq

/-- A call on a handle, or on a batch, a snapshot or an iterator of it. Those that only read
have no effect and are left out. -/
inductive HandleCall
  | put (key : Key) (value : Bytes)
  | delete (key : Key)
  | commit (calls : List BatchCall) (sync : Bool)
  | compact
  | close
  | newSnapshot
  | closeSnapshot (i : Nat)
  | newIterator (opts : IteratorOptions)
  | snapshotIterator (i : Nat) (opts : IteratorOptions)
  | iteratorNext (i : Nat)
  | closeIterator (i : Nat)
  deriving Repr, DecidableEq

/-- The event a call is. On a closed handle `Close` ends where it finds the mark. -/
def HandleCall.event : HandleCall → Event
  | .put key value => .put key value
  | .delete key => .delete key
  | .commit calls sync => .commit calls sync
  | .compact => .compact
  | .close => .beginClose
  | .newSnapshot => .newSnapshot
  | .closeSnapshot i => .closeSnapshot i
  | .newIterator opts => .newIterator opts
  | .snapshotIterator i opts => .snapshotIterator i opts
  | .iteratorNext i => .iteratorNext i
  | .closeIterator i => .closeIterator i

/-- How an event ends for its caller. -/
inductive Response
  | ok
  | err (e : DBError)
  | killed
  deriving Repr, DecidableEq

namespace World

/-- The directory without a process. -/
def afterKill (d : Disk) : World := { disk := d }

/-- Run a program of the engine in the process. -/
def runOp (M : Model Call) (w : World) (p : Op Unit) (fates : List Fate) : World × Response :=
  match w.proc with
  | none => (w, .err .closed)
  | some db =>
      match p M ⟨w.disk, db⟩ fates with
      | .ret _ s _ => ({ w with disk := s.disk, proc := some s.db }, .ok)
      | .err e s _ => ({ w with disk := s.disk, proc := some s.db }, .err e)
      | .killed s => (afterKill s.disk, .killed)

/-- Change the process without a file-system call. -/
def updateProc (w : World) (f : DB → Except DBError World) : World × Response :=
  match w.proc with
  | none => (w, .err .closed)
  | some db =>
      match f db with
      | .error e => (w, .err e)
      | .ok w' => (w', .ok)

/-- Make an iterator at a sequence and register its reader. -/
def addIterator (w : World) (db : DB) (opts : IteratorOptions) (maxSeq : UInt64) :
    Except DBError World := do
  db.limits.validateKey opts.start
  db.limits.validateKey opts.stop
  let it ← HyphaDB.newIterator ⟨w.disk, db⟩ opts maxSeq
  return { w with proc := some (db.registerReader maxSeq), iterators := w.iterators ++ [it] }

def newSnapshot (w : World) (db : DB) : Except DBError World :=
  if db.closed then .error .closed
  else
    .ok { w with
      proc := some (db.registerReader db.currentSequence)
      snapshots := w.snapshots ++ [{ sequence := db.currentSequence }] }

def closeSnapshot (w : World) (db : DB) (i : Nat) : Except DBError World :=
  match w.snapshots[i]? with
  | none => .ok w
  | some s =>
      if s.closed then .ok w
      else
        .ok { w with
          proc := some (db.unregisterReader s.sequence)
          snapshots := w.snapshots.set i { s with closed := true } }

def snapshotIterator (w : World) (db : DB) (i : Nat) (opts : IteratorOptions) :
    Except DBError World :=
  match w.snapshots[i]? with
  | none => .ok w
  | some s =>
      if s.closed then .error .snapshotClosed
      else if db.closed then .error .closed
      else w.addIterator db opts s.sequence

def iteratorNext (w : World) (i : Nat) : World :=
  match w.iterators[i]? with
  | none => w
  | some it => { w with iterators := w.iterators.set i it.next.2 }

def closeIterator (w : World) (db : DB) (i : Nat) : Except DBError World :=
  match w.iterators[i]? with
  | none => .ok w
  | some it =>
      if it.closed then .ok w
      else
        .ok { w with
          proc := some (db.unregisterReader it.maxSeq)
          iterators := w.iterators.set i { it with closed := true } }

/-- `Close` waits until the flush worker has nothing left to do, or has given up. -/
def drained (db : DB) : Bool :=
  match db.flusher with
  | .idle => db.immutableMemtables = []
  | .failed => true
  | _ => false

end World

variable (cfg : Config) (M : Model Call)

/-- `Open`: the directory lock admits one process. -/
def openWorld (w : World) (opts : Options) (fates : List Fate) : World × Response :=
  match w.proc with
  | some _ => (w, .err .databaseLocked)
  | none =>
      match openDB cfg opts M w.disk fates with
      | .ret db d _ => ({ disk := d, proc := some db }, .ok)
      | .err e d _ => (.afterKill d, .err e)
      | .killed d => (.afterKill d, .killed)

def step (w : World) (event : Event) (fates : List Fate) : World × Response :=
  match event with
  | .openDB opts => openWorld cfg M w opts fates
  | .put key value => w.runOp M (put cfg key value) fates
  | .delete key => w.runOp M (delete cfg key) fates
  | .commit calls sync => w.runOp M (commit cfg calls sync) fates
  | .flushReserve => w.runOp M flushReserve fates
  | .flushWrite => w.runOp M (flushWrite cfg) fates
  | .flushPublish => w.runOp M flushPublish fates
  | .flushRemoveWAL => w.runOp M flushRemoveWAL fates
  | .flushCleanup => w.runOp M flushCleanup fates
  | .compact => w.runOp M (compact cfg) fates
  | .compactInBackground => w.runOp M (compactInBackground cfg) fates
  | .beginClose => w.updateProc fun db => .ok { w with proc := some { db with closed := true } }
  | .endClose =>
      w.updateProc fun db =>
        if db.closed ∧ World.drained db then .ok { disk := w.disk } else .error .closed
  | .newSnapshot => w.updateProc w.newSnapshot
  | .closeSnapshot i => w.updateProc fun db => w.closeSnapshot db i
  | .newIterator opts =>
      w.updateProc fun db =>
        if db.closed then .error .closed else w.addIterator db opts db.currentSequence
  | .snapshotIterator i opts => w.updateProc fun db => w.snapshotIterator db i opts
  | .iteratorNext i => (w.iteratorNext i, .ok)
  | .closeIterator i => w.updateProc fun db => w.closeIterator db i
  | .kill => (.afterKill w.disk, .killed)

/-- `ScanPrefix` is `NewIterator` with the range of the keys that start with `p`. -/
def scanPrefix (w : World) (p : Key) (fates : List Fate) : World × Response :=
  step cfg M w (.newIterator (prefixRange p)) fates

/-- No call fails and no call is the last one. -/
def noFaults : Model Call := fun _ _ => false

/-! ### The ledger -/

/-- What a read of each key must return, as far as the callers know: a value, nothing, or
unknown. -/
abbrev Ledger : Type := Key → Option (Option Bytes)

/-- What a read returns after an entry is written. -/
def Entry.visible (entry : Entry) : Option Bytes := if entry.deleted then none else some entry.value

/-- The operations of an event that pass the checks of an open database. -/
def DB.admits (db : DB) : Event → List BatchOperation
  | .put key value =>
      if db.limits.maxKeyBytes < key.length ∨ db.limits.maxValueBytes < value.length then []
      else [⟨key, { value, deleted := false }⟩]
  | .delete key =>
      if db.limits.maxKeyBytes < key.length then [] else [⟨key, { value := [], deleted := true }⟩]
  | .commit calls _ => batchOperations db.limits calls
  | _ => []

/-- The operations an event carries out. -/
def mutations (w : World) (event : Event) : List BatchOperation :=
  match w.proc with
  | none => []
  | some db => if db.closed then [] else db.admits event

/-- The errors after which a mutation may or may not have taken effect. -/
def DBError.unsettled : DBError → Bool
  | .io c =>
      c = .walSync || c = .walClose || c = .segmentOpen || c = .segmentHeader ||
        c = .segmentSync || c = .segmentSyncDir
  | .corruptWAL _ => true
  | _ => false

namespace Ledger

/-- Acknowledged operations. -/
def acknowledge (l : Ledger) (ops : List BatchOperation) : Ledger :=
  ops.foldl (fun l op => Function.update l op.key (some op.entry.visible)) l

/-- Operations whose effect is not known. -/
def forget (l : Ledger) (ops : List BatchOperation) : Ledger :=
  ops.foldl (fun l op => Function.update l op.key none) l

/-- What the caller learns from a response. -/
def learn (l : Ledger) (ops : List BatchOperation) : Response → Ledger
  | .ok => l.acknowledge ops
  | .err e => if e.unsettled then l.forget ops else l
  | .killed => l.forget ops

end Ledger

/-- An event with the fates of its calls. -/
abbrev Input : Type := Event × List Fate

/-- One event and what is learnt from it. -/
def stepLedger (s : World × Ledger) (input : Input) : World × Ledger :=
  let (w, r) := step cfg M s.1 input.1 input.2
  (w, s.2.learn (mutations s.1 input.1) r)

/-- A run. -/
def run (s : World × Ledger) (inputs : List Input) : World × Ledger :=
  inputs.foldl (stepLedger cfg M) s

/-- The sequence numbers an event takes, or writes to the log before it fails. -/
def Event.cost (w : World) (event : Event) : Nat :=
  match w.proc with
  | none => 0
  | some db =>
      if db.closed then 0
      else
        match event with
        | .commit _ _ => batchCost (db.admits event)
        | _ => (db.admits event).length

/-- The sequence numbers a run takes. -/
def sequencesUsed (s : World × Ledger) : List Input → Nat
  | [] => 0
  | input :: inputs =>
      input.1.cost s.1 + sequencesUsed (stepLedger cfg M s input) inputs

/-- A condition on every event of a run, in the world that meets it. -/
def Along (P : World → Event → Prop) (s : World × Ledger) : List Input → Prop
  | [] => True
  | input :: inputs => P s.1 input.1 ∧ Along P (stepLedger cfg M s input) inputs

instance instDecidableAlong {P : World → Event → Prop} [∀ w event, Decidable (P w event)]
    (s : World × Ledger)
    (inputs : List Input) : Decidable (Along cfg M P s inputs) :=
  match inputs with
  | [] => .isTrue trivial
  | input :: inputs =>
      have := instDecidableAlong (P := P) (stepLedger cfg M s input) inputs
      inferInstanceAs (Decidable (P s.1 input.1 ∧ Along cfg M P (stepLedger cfg M s input) inputs))

/-- `DB.Get` in a world. -/
def World.get (w : World) (key : Key) : Except DBError Bytes :=
  match w.proc with
  | none => .error .closed
  | some db => HyphaDB.get ⟨w.disk, db⟩ key

/-- `Snapshot.Get` of a snapshot of the process. -/
def World.snapshotGet (w : World) (i : Nat) (key : Key) : Except DBError Bytes :=
  match w.proc, w.snapshots[i]? with
  | some db, some s =>
      if s.closed then .error .snapshotClosed
      else if db.closed then .error .closed
      else
        match db.limits.validateKey key with
        | .error e => .error e
        | .ok () => getAt ⟨w.disk, db⟩ key s.sequence
  | _, _ => .error .closed

/-- The full output of the iterator that `Snapshot.NewIterator` returns. -/
def World.snapshotScan (w : World) (i : Nat) (opts : IteratorOptions) :
    Except DBError (List Record) :=
  match w.proc with
  | none => .error .closed
  | some db =>
      match w.snapshotIterator db i opts with
      | .error e => .error e
      | .ok w' => .ok ((w'.iterators.getLast?.map Iterator.output).getD [])

/-- A process is open and so is its snapshot `i`. -/
def World.snapshotOpen (w : World) (i : Nat) : Bool :=
  match w.proc, w.snapshots[i]? with
  | some db, some s => !db.closed && !s.closed
  | _, _ => false

/-- A process is open and takes reads of the key. -/
def World.serves (w : World) (key : Key) : Bool :=
  match w.proc with
  | none => false
  | some db => !db.closed && key.length ≤ db.limits.maxKeyBytes

/-- What `Get` returns when a read must return this. -/
def promised : Option Bytes → Except DBError Bytes
  | none => .error .notFound
  | some value => .ok value

/-- The empty directory, and callers who know that it is empty. -/
def blank : World × Ledger := ({}, fun _ => some none)

end HyphaDB
