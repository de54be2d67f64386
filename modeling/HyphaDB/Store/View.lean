import HyphaDB.Engine.World

/-!
# HyphaDB.Store.View

**The engine as a store of versions.** A view forgets bytes, file names and counters and
keeps what decides reads: the records each segment replays to, the published tables, and
the memory of the process. `Move` lists every way a view can change, together with the
ledger of what callers were promised; the invariants of the development are proved about
moves, and the engine is proved to make only moves.

Which moves are possible depends on the faults under consideration and, where a result
needs it, on a condition at each step. A `Guard` collects both.
-/

namespace HyphaDB.Store

open Compaction

/-- A published table. -/
structure Tab where
  id : Nat
  level : Nat
  recs : List Record
  inOrder : InOrder recs

/-- Where the flush worker stands. -/
inductive Stage
  | idle
  | reserved (imm : ImmutableMemTable)
  | written (imm : ImmutableMemTable) (tab : Tab)
  | removing (walID : Nat)

/-- The memory of a process. -/
structure Handle where
  heap : Nat → MemTable
  memtable : Nat
  queue : List ImmutableMemTable
  wal : Nat
  nextSeq : UInt64
  stage : Stage
  readers : List UInt64

structure View where
  /-- The segments, oldest first, with the records they replay to. -/
  logs : List (Nat × List Record)
  tabs : List Tab
  handle : Option Handle

/-! ### Sets of versions -/

/-- The records of tables. -/
def tabRecs (tabs : List Tab) : Set Record := {r | ∃ t ∈ tabs, r ∈ t.recs}

/-- The records of segments. -/
def logRecs (logs : List (Nat × List Record)) : Set Record := {r | ∃ p ∈ logs, r ∈ p.2}

/-- All memtables with their segments, the active one last. -/
def Handle.entries (h : Handle) : List ImmutableMemTable := h.queue ++ [⟨h.memtable, h.wal⟩]

/-- The records of a queued or active memtable. -/
def Handle.recsOf (h : Handle) (e : ImmutableMemTable) : List Record := (h.heap e.memTable).records

def Handle.memRecs (h : Handle) : Set Record := {r | ∃ e ∈ h.entries, r ∈ h.recsOf e}

/-- What a running process reads. -/
def View.live (v : View) (h : Handle) : Set Record := h.memRecs ∪ tabRecs v.tabs

/-- What the next `Open` finds. -/
def View.durable (v : View) : Set Record := logRecs v.logs ∪ tabRecs v.tabs

/-- The segment whose memtable is published and that is about to be removed. -/
def Stage.pending : Stage → Option Nat
  | removing walID => some walID
  | _ => none

/-- The memtable `Open` replays all segments into. -/
def replayed (logs : List (Nat × List Record)) : MemTable :=
  MemTable.new.putAll (logs.flatMap Prod.snd)

/-! ### Ledgers -/

/-- A ledger after acknowledged records. -/
def record (l : Ledger) (recs : List Record) : Ledger :=
  recs.foldl (fun l r => Function.update l r.key (some r.toEntry.visible)) l

/-- `l'` promises no more than `l`. -/
def Weaker (l' l : Ledger) : Prop := ∀ k m, l' k = some m → l k = some m

/-- `l'` promises no more than `l`, and nothing about the keys of `recs`. -/
def WeakerWithout (recs : List Record) (l' l : Ledger) : Prop :=
  ∀ k m, l' k = some m → l k = some m ∧ ∀ r ∈ recs, r.key ≠ k

/-! ### Moves -/

/-- Records with ascending sequence numbers from `s` on, `n` of them at most. -/
structure Sequenced (s : UInt64) (n : Nat) (recs : List Record) : Prop where
  ascending : recs.Pairwise (fun a b => a.seq < b.seq)
  bounds : ∀ r ∈ recs, s ≤ r.seq ∧ r.seq.toNat < s.toNat + n
  room : s.toNat + n < 2 ^ 64

def appendLog (id : Nat) (recs : List Record) (logs : List (Nat × List Record)) :
    List (Nat × List Record) :=
  logs.map fun p => if p.1 = id then (p.1, p.2 ++ recs) else p

def removeLog (id : Nat) (logs : List (Nat × List Record)) : List (Nat × List Record) :=
  logs.filter fun p => p.1 ≠ id

namespace Handle

/-- Put records into the active memtable and move the sequence counter. -/
def write (h : Handle) (recs : List Record) (n : Nat) : Handle :=
  { h with
    heap := Function.update h.heap h.memtable ((h.heap h.memtable).putAll recs)
    nextSeq := h.nextSeq + UInt64.ofNat n }

/-- Queue the active memtable. -/
def enqueue (h : Handle) : Handle := { h with queue := h.queue ++ [⟨h.memtable, h.wal⟩] }

/-- Start an empty memtable `ref` on segment `id`. -/
def switch (h : Handle) (ref id : Nat) : Handle :=
  { h with heap := Function.update h.heap ref .new, memtable := ref, wal := id }

end Handle

/-- One compaction of `inputs` into `out`, as far as reads can tell. -/
structure Compacts (readers : List UInt64) (tabs tabs' inputs : List Tab) (options : MergeOptions)
    (out : Tab) : Prop where
  sub : ∀ t ∈ inputs, t ∈ tabs
  recs : out.recs = mergeRecords options (inputs.map Tab.recs)
  mem_iff : ∀ t, t ∈ tabs' ↔ t = out ∨ t ∈ tabs ∧ t ∉ inputs
  fresh : ∀ t ∈ tabs, t.id ≠ out.id
  readers : ∀ s ∈ readers, Protected options s
  drop : options.dropTombstones = true → out.level = 2
  /-- All of level 0 goes to level 1, or something of level 1 to level 2. -/
  source : (out.level = 1 ∧ ∀ t ∈ tabs, t.level = 0 → t ∈ inputs) ∨ out.level = 2
  levels : ∀ t ∈ inputs, t.level + 1 = out.level ∨ t.level = out.level
  /-- What stays of the target level lies beside a range that holds every source table and
  meets every table that joins them. -/
  apart : ∀ t ∈ tabs, t ∉ inputs → t.level = out.level → ∃ lo hi : Key,
    (∀ s ∈ inputs, s.level + 1 = out.level → ∀ r ∈ s.recs, lo ≤ r.key ∧ r.key ≤ hi) ∧
    (∀ s ∈ inputs, s.level = out.level → s.recs ≠ [] →
      (∃ r ∈ s.recs, lo ≤ r.key) ∧ ∃ r ∈ s.recs, r.key ≤ hi) ∧
    ((∀ r ∈ t.recs, r.key < lo) ∨ ∀ r ∈ t.recs, hi < r.key)

/-- The faults that may occur, and what is asked of the steps. -/
structure Guard where
  /-- Asked of every mutation that reaches the log. -/
  write : View → List Record → Prop
  /-- Asked of every compaction. -/
  compact : View → List Tab → MergeOptions → Prop
  /-- Asked of every memtable whose table is written. -/
  flush : Handle → ImmutableMemTable → Prop
  /-- A mutation may reach the log and not the memtable while the process goes on. -/
  logOnly : Prop
  /-- The creation of the next segment may fail. -/
  rotateFail : Prop
  /-- The process may be killed. -/
  crash : Prop

variable (g : Guard)

/-- Every way a view and the ledger change. -/
inductive Move : View × Ledger → View × Ledger → Prop
  | forget {v l l'} (hl : Weaker l' l) : Move (v, l) (v, l')
  | write {v l h recs n} (hh : v.handle = some h) (hs : Sequenced h.nextSeq n recs)
      (hg : g.write v recs) :
      Move (v, l) ({ v with logs := appendLog h.wal recs v.logs, handle := some (h.write recs n) },
        record l recs)
  | logOnly {v l l' h recs n} (hh : v.handle = some h) (hs : Sequenced h.nextSeq n recs)
      (hl : WeakerWithout recs l' l) (hg : g.logOnly) :
      Move (v, l) ({ v with logs := appendLog h.wal recs v.logs }, l')
  | crashLogged {v l l' h recs n} (hh : v.handle = some h) (hs : Sequenced h.nextSeq n recs)
      (hl : WeakerWithout recs l' l) (hg : g.crash) :
      Move (v, l) ({ v with logs := appendLog h.wal recs v.logs, handle := none }, l')
  | rotate {v l h ref id} (hh : v.handle = some h) (hid : ∀ p ∈ v.logs, p.1 < id)
      (href : ∀ e ∈ h.entries, e.memTable ≠ ref) :
      Move (v, l) ({ v with
        logs := v.logs ++ [(id, [])], handle := some (h.enqueue.switch ref id) }, l)
  | rotateFail {v l h logs} (hh : v.handle = some h)
      (hlogs : logs = v.logs ∨ ∃ id, (∀ p ∈ v.logs, p.1 < id) ∧ logs = v.logs ++ [(id, [])])
      (hg : g.rotateFail) :
      Move (v, l) ({ v with logs, handle := some h.enqueue }, l)
  | segment {v l id} (hh : v.handle = none) (hid : ∀ p ∈ v.logs, p.1 < id)
      (hg : g.crash ∨ g.rotateFail) :
      Move (v, l) ({ v with logs := v.logs ++ [(id, [])] }, l)
  | reserve {v l h imm qs} (hh : v.handle = some h) (hstage : h.stage = .idle)
      (hq : h.queue = imm :: qs) :
      Move (v, l) ({ v with handle := some { h with stage := .reserved imm } }, l)
  | writeTable {v l h imm tab} (hh : v.handle = some h) (hstage : h.stage = .reserved imm)
      (hrecs : tab.recs = h.recsOf imm) (hlevel : tab.level = 0) (hg : g.flush h imm) :
      Move (v, l) ({ v with handle := some { h with stage := .written imm tab } }, l)
  | publish {v l h imm tab qs} (hh : v.handle = some h) (hstage : h.stage = .written imm tab)
      (hq : h.queue = imm :: qs) (hfresh : ∀ t ∈ v.tabs, t.id ≠ tab.id) :
      Move (v, l) ({ v with
        tabs := v.tabs ++ [tab]
        handle := some { h with queue := qs, stage := .removing imm.walID } }, l)
  | removeSegment {v l h id} (hh : v.handle = some h) (hstage : h.stage = .removing id) :
      Move (v, l) ({ v with
        logs := removeLog id v.logs, handle := some { h with stage := .idle } }, l)
  | compact {v l h tabs inputs options out} (hh : v.handle = some h)
      (hc : Compacts h.readers v.tabs tabs inputs options out)
      (hg : g.compact v inputs options) :
      Move (v, l) ({ v with tabs }, l)
  | readers {v l h readers} (hh : v.handle = some h) :
      Move (v, l) ({ v with handle := some { h with readers } }, l)
  | crash {v l} (hg : g.crash) : Move (v, l) ({ v with handle := none }, l)
  | close {v l h} (hh : v.handle = some h) (hq : h.queue = []) (hstage : h.stage = .idle) :
      Move (v, l) ({ v with handle := none }, l)
  | openAt {v l h logs id} (hh : v.handle = none) (hid : ∀ p ∈ v.logs, p.1 ≤ id)
      (hlogs : (logs = v.logs ∧ ∃ p ∈ v.logs, p.1 = id) ∨
        logs = v.logs ++ [(id, [])] ∧ (∀ p ∈ v.logs, p.1 < id) ∧ (g.rotateFail ∨ v.logs = []))
      (hmem : h.heap h.memtable = replayed v.logs) (hqueue : h.queue = []) (hwal : h.wal = id)
      (hstage : h.stage = .idle) (hseq : ∀ r ∈ v.durable, r.seq < h.nextSeq) :
      Move (v, l) ({ v with logs, handle := some h }, l)

/-- Any number of moves. -/
abbrev Moves : View × Ledger → View × Ledger → Prop := Relation.ReflTransGen (Move g)

end HyphaDB.Store
