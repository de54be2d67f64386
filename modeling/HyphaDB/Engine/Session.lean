import HyphaDB.Engine.CompactionLoop

/-!
# HyphaDB.Engine.Session

**The goroutines of one process**: any number of clients, the flush worker, the compaction
worker, and any number of `Close` calls, with the two channels that wake the workers. A turn is
one critical section under `db.mu`, one channel operation, or one piece of work outside the
lock; a list of turns is a schedule. A goroutine that is blocked when it gets a turn stays where
it is.

The engine's own state is a `World`, and what a goroutine does to it is an event of the engine;
what is added here is where each goroutine stands. Only the compaction worker keeps the lock
over several turns, because its critical section is a loop.

An operation on a channel that Go answers with a panic stops the session.
-/

namespace HyphaDB

open Faults

/-! ### Channels -/

/-- A run-time panic of a channel operation. -/
inductive Panic
  | sendOnClosed
  | closeOfClosed
  deriving Repr, DecidableEq

/-- A channel of signals with room for one. -/
structure Signal where
  pending : Bool := false
  closed : Bool := false
  deriving Repr, DecidableEq

namespace Signal

/-- A send that gives up when there is no room. On a closed channel it panics all the same. -/
def trySend (c : Signal) : Except Panic Signal :=
  if c.closed then .error .sendOnClosed else .ok { c with pending := true }

def close (c : Signal) : Except Panic Signal :=
  if c.closed then .error .closeOfClosed else .ok { c with closed := true }

/-- What `range` does: it takes a signal, it ends, or it blocks. -/
def receive (c : Signal) : Option (Bool × Signal) :=
  if c.pending then some (true, { c with pending := false })
  else if c.closed then some (false, c)
  else none

end Signal

/-! ### Goroutines -/

/-- Where `flushLoop` stands. -/
inductive FlushLoop
  /-- At the `range` over `flushSignal`. -/
  | waiting
  /-- In `flushUntilEmpty`; in the `last` one the channel is closed. -/
  | flushing (last : Bool)
  /-- At the `signalCompaction` of a flush that succeeded. -/
  | signalling (last : Bool)
  /-- At the `signalCompaction` behind the last flush. -/
  | leaving
  | exited
  deriving Repr, DecidableEq

/-- `flushUntilEmpty` returns. -/
def FlushLoop.back (last : Bool) : FlushLoop := if last then .leaving else .waiting

/-- The flush worker has seen its channel closed. -/
def FlushLoop.ending : FlushLoop → Bool
  | .waiting => false
  | .flushing last => last
  | .signalling last => last
  | .leaving => true
  | .exited => true

/-- Where `compactionLoop` stands. -/
inductive CompactionWorker
  | waiting
  | woken
  /-- In the loop over `compactLocked`, with the lock. -/
  | compacting
  /-- At the send on `compactionDone`. -/
  | reporting
  | exited
  deriving Repr, DecidableEq

/-- Where a `Close` call stands. -/
inductive Closer
  | started
  | waitsForFlush
  /-- At `close(db.compactionSignal)`. -/
  | closesSignal
  | waitsForCompaction
  /-- At the end, where the segment and the directory's lock are closed. -/
  | closesFiles
  /-- The call has returned; only one of the calls shuts the database down. -/
  | returned (shutDown : Bool)
  deriving Repr, DecidableEq

/-- How far a `Close` call has come with the shutdown; the calls that do not shut the database
down stay at 0. -/
def Closer.phase : Closer → Nat
  | .started => 0
  | .waitsForFlush => 1
  | .closesSignal => 2
  | .waitsForCompaction => 3
  | .closesFiles => 4
  | .returned shutDown => if shutDown then 5 else 0

structure Session where
  world : World
  flushSignal : Signal := {}
  compactionSignal : Signal := {}
  compactionDone : Signal := {}
  flusher : FlushLoop := .waiting
  compactor : CompactionWorker := .waiting
  closers : List Closer := []
  panic : Option Panic := none

/-- Whose turn it is, with the fates of the file-system calls of the turn. -/
inductive Turn
  /-- A call of a client; `Close` becomes a goroutine of its own. -/
  | client (call : HandleCall) (fates : List Fate)
  | flusher (fates : List Fate)
  | compactor (fates : List Fate)
  | closer (i : Nat)
  deriving Repr, DecidableEq

/-- All calls but a step of an iterator take the lock. -/
def HandleCall.locks : HandleCall → Bool
  | .iteratorNext _ => false
  | _ => true

namespace Session

variable (cfg : Config) (M : Model Call)

def locked (s : Session) : Bool := s.compactor = .compacting

/-- A mutation has rotated the memtable: it succeeded and the queue is longer. A rotation that
fails ends before its signal. -/
def rotated (w w' : World) : Response → Bool
  | .ok =>
      match w.proc, w'.proc with
      | some db, some db' => db.immutableMemtables.length < db'.immutableMemtables.length
      | _, _ => false
  | _ => false

/-- A client's call. `signalFlush` is the last thing a rotation does under the lock. -/
def clientTurn (s : Session) (call : HandleCall) (fates : List Fate) : Except Panic Session :=
  if call = .close then .ok { s with closers := s.closers ++ [.started] }
  else if s.locked && call.locks then .ok s
  else
    let (world, r) := HyphaDB.step cfg M s.world call.event fates
    if call.event.mutates && rotated s.world world r then
      match s.flushSignal.trySend with
      | .error p => .error p
      | .ok flushSignal => .ok { s with world, flushSignal }
    else .ok { s with world }

/-- A step of `flushUntilEmpty`. -/
def flushTurn (s : Session) (db : DB) (last : Bool) (fates : List Fate) : Session :=
  match db.flusher with
  | .idle | .failed =>
      if s.locked then s
      else if db.immutableMemtables = [] then { s with flusher := .back last }
      else { s with world := (HyphaDB.step cfg M s.world .flushReserve fates).1 }
  | .reserved _ _ =>
      let (world, r) := HyphaDB.step cfg M s.world .flushWrite fates
      -- A failed write takes the lock to give the table's ID back.
      if r = .ok then { s with world }
      else if s.locked then s
      else { s with world, flusher := .back last }
  | .written _ _ =>
      if s.locked then s
      else
        let (world, r) := HyphaDB.step cfg M s.world .flushPublish fates
        -- Behind any other failure the table's file is still to be removed.
        if r = .err .publish then { s with world, flusher := .back last } else { s with world }
  | .removing _ =>
      let (world, r) := HyphaDB.step cfg M s.world .flushRemoveWAL fates
      if r = .ok then { s with world, flusher := .signalling last }
      else { s with world, flusher := .back last }
  | .cleanup _ =>
      { s with
        world := (HyphaDB.step cfg M s.world .flushCleanup fates).1
        flusher := .back last }

def flusherTurn (s : Session) (db : DB) (fates : List Fate) : Except Panic Session :=
  match s.flusher with
  | .waiting =>
      match s.flushSignal.receive with
      | none => .ok s
      | some (more, flushSignal) => .ok { s with flushSignal, flusher := .flushing (!more) }
  | .flushing last => .ok (s.flushTurn cfg M db last fates)
  | .signalling last =>
      match s.compactionSignal.trySend with
      | .error p => .error p
      | .ok compactionSignal => .ok { s with compactionSignal, flusher := .flushing last }
  | .leaving =>
      match s.compactionSignal.trySend with
      | .error p => .error p
      | .ok compactionSignal => .ok { s with compactionSignal, flusher := .exited }
  | .exited => .ok s

def compactorTurn (s : Session) (db : DB) (fates : List Fate) : Except Panic Session :=
  match s.compactor with
  | .waiting =>
      match s.compactionSignal.receive with
      | none => .ok s
      | some (true, compactionSignal) => .ok { s with compactionSignal, compactor := .woken }
      | some (false, compactionSignal) => .ok { s with compactionSignal, compactor := .exited }
  | .woken => .ok { s with compactor := .compacting }
  | .compacting =>
      if Checked.value (hasCompactionWork (Sys.stat cfg ⟨s.world.disk, db⟩) db.manifest.sstables
          db.compactionThreshold) (safe_hasCompactionWork _ _ _) then
        let (world, r) := HyphaDB.step cfg M s.world .compactInBackground fates
        if r = .ok then .ok { s with world } else .ok { s with world, compactor := .reporting }
      else .ok { s with compactor := .reporting }
  | .reporting =>
      match s.compactionDone.trySend with
      | .error p => .error p
      | .ok compactionDone => .ok { s with compactionDone, compactor := .waiting }
  | .exited => .ok s

/-- A `Close` call stands somewhere else. -/
def moveCloser (s : Session) (i : Nat) (c : Closer) : Session :=
  { s with closers := s.closers.set i c }

def closerTurn (s : Session) (db : DB) (i : Nat) : Except Panic Session :=
  match s.closers[i]? with
  | none => .ok s
  | some .started =>
      if s.locked then .ok s
      else if db.closed then .ok (s.moveCloser i (.returned false))
      else
        match s.flushSignal.close with
        | .error p => .error p
        | .ok flushSignal =>
            .ok ({ s with
              world := (HyphaDB.step cfg M s.world .beginClose []).1
              flushSignal }.moveCloser i .waitsForFlush)
  | some .waitsForFlush =>
      .ok (if s.flusher = .exited then s.moveCloser i .closesSignal else s)
  | some .closesSignal =>
      match s.compactionSignal.close with
      | .error p => .error p
      | .ok compactionSignal =>
          .ok ({ s with compactionSignal }.moveCloser i .waitsForCompaction)
  | some .waitsForCompaction =>
      .ok (if s.compactor = .exited then s.moveCloser i .closesFiles else s)
  | some .closesFiles => .ok (s.moveCloser i (.returned true))
  | some (.returned _) => .ok s

def turn (s : Session) (db : DB) : Turn → Except Panic Session
  | .client call fates => s.clientTurn cfg M call fates
  | .flusher fates => s.flusherTurn cfg M db fates
  | .compactor fates => s.compactorTurn cfg M db fates
  | .closer i => s.closerTurn cfg M db i

/-- One turn. A session whose process died or panicked takes no more. -/
def step (s : Session) (turn : Turn) : Session :=
  match s.panic, s.world.proc with
  | none, some db =>
      match s.turn cfg M db turn with
      | .ok s' => s'
      | .error p => { s with panic := some p }
  | _, _ => s

def run (s : Session) (turns : List Turn) : Session := turns.foldl (step cfg M) s

/-- The session `Open` starts. -/
def opened (d : Disk) (db : DB) : Session := { world := { disk := d, proc := some db } }

end Session

end HyphaDB
