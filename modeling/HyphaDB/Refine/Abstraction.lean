import HyphaDB.Store.View
import HyphaDB.Wal.Segment

/-!
# HyphaDB.Refine.Abstraction

**From the engine to its view.** `viewOf` reads a directory and a process as a store of
versions: a segment is what its replay puts, a table what its file holds, and the memory
of the process is taken over as it is.

`DiskSound` and `ProcSound` are what the engine maintains below that level: well-formed
files, table IDs that are handed out once, segment numbers that grow, and sequence numbers
up to the number used so far. They are what makes the steps of the engine moves of the
view.
-/

namespace HyphaDB.Refine

open Faults Store Wal

/-- The tables of the manifest on disk. -/
def liveTables (d : Disk) : List SSTableMetadata := (Manifest.read d.manifest).sstables

/-- The contents of a table's file. -/
def tableRecords (d : Disk) (t : SSTableMetadata) : List Record := (d.tables t.path).getD []

/-- A table of records the writer accepts, or an empty one. -/
def mkTab (id level : Nat) (recs : List Record) : Tab :=
  if h : SSTable.writable recs = true then ⟨id, level, recs, SSTable.writable_iff.mp h⟩
  else ⟨id, level, [], List.Pairwise.nil⟩

/-- A table with its contents. -/
def tabOf (d : Disk) (t : SSTableMetadata) : Tab := mkTab t.id t.level (tableRecords d t)

def stageOf (d : Disk) : Flusher → Stage
  | .reserved imm _ => .reserved imm
  | .written imm table => .written imm (tabOf d table)
  | .removing walID => .removing walID
  | _ => .idle

def handleOf (d : Disk) (db : DB) : Handle where
  heap := db.heap
  memtable := db.memtable
  queue := db.immutableMemtables
  wal := db.wal
  nextSeq := db.nextSeq
  stage := stageOf d db.flusher
  readers := db.activeReaders

variable (cfg : Config)

def logsOf (d : Disk) : List (Nat × List Record) :=
  d.wals.map fun p => (p.1, applied cfg.crc p.2)

def tabsOf (d : Disk) : List Tab := (liveTables d).map (tabOf d)

/-- The view of a directory and the process that has it open. -/
def viewOf (d : Disk) (proc : Option DB) : View :=
  ⟨logsOf cfg d, tabsOf d, proc.map (handleOf d)⟩

def viewSys (s : Sys) : View := viewOf cfg s.disk (some s.db)

/-! ### What the engine maintains -/

/-- A table whose file is there and is what its metadata says. -/
structure TableSound (used : Nat) (d : Disk) (t : SSTableMetadata) : Prop where
  file : d.tables t.path = some (tableRecords d t)
  inOrder : InOrder (tableRecords d t)
  path_id : t.path.id = t.id
  smallest : t.smallestKey = SSTable.smallestKey (tableRecords d t)
  largest : t.largestKey = SSTable.largestKey (tableRecords d t)
  seq_le : ∀ r ∈ tableRecords d t, r.seq.toNat ≤ used

structure DiskSound (g : Guard) (used : Nat) (d : Disk) : Prop where
  sorted : d.wals.Pairwise (fun p q => p.1 < q.1)
  segments : ∀ p ∈ d.wals, Segment cfg.crc used p.2
  tables : ∀ t ∈ liveTables d, TableSound used d t
  ids : ((liveTables d).map SSTableMetadata.id).Nodup
  /-- Unless a rotation failed, the manifest names no segment beyond the last. -/
  next : ¬ g.rotateFail → d.wals = [] ∨
    ∃ p ∈ d.wals, (Manifest.read d.manifest).nextWALSegmentID ≤ p.1

/-- A table without its recorded size, which `Open` may correct. -/
def unsized (t : SSTableMetadata) : SSTableMetadata := { t with sizeBytes := 0 }

/-- An ID that no table of the process has and that will not be handed out again. -/
def Reserved (db : DB) (id : Nat) : Prop :=
  id < db.manifest.nextSSTableID ∧ ∀ t ∈ db.sstables, t.id ≠ id

def FlusherSound (used : Nat) (d : Disk) (db : DB) : Prop :=
  match db.flusher with
  | .idle => True
  | .reserved _ id => Reserved db id
  | .written _ table => Reserved db table.id ∧ TableSound used d table ∧ table.level = 0
  | .removing _ => True
  | .failed => False
  | .cleanup _ => False

/-- The active segment ends on a frame boundary. -/
def ActiveClean (used : Nat) (d : Disk) (db : DB) : Prop :=
  ∀ p ∈ d.wals, p.1 = db.wal → Clean cfg.crc used p.2

/-- A frame may be cut short while the process goes on. -/
def TearsFrames (M : Model Call) : Prop := ∃ n, n ≠ 0 ∧ M .walFrame (.fail n) = true

structure ProcSound (g : Guard) (M : Model Call) (used : Nat) (d : Disk) (db : DB) : Prop where
  sstables : db.sstables = db.manifest.sstables
  agree : db.sstables.map unsized = (liveTables d).map unsized
  below : ∀ t ∈ db.sstables, t.id < db.manifest.nextSSTableID
  flusher : FlusherSound used d db
  wals_le : ∀ p ∈ d.wals, p.1 ≤ db.manifest.nextWALSegmentID
  next_le : (Manifest.read d.manifest).nextWALSegmentID ≤ db.manifest.nextWALSegmentID
  next_eq : ¬ g.rotateFail → db.manifest.nextWALSegmentID = db.wal
  /-- The active segment is there, with its header. -/
  active : ∃ p ∈ d.wals, p.1 = db.wal
  header : ∀ p ∈ d.wals, p.1 = db.wal → p.2 ≠ []
  clean : TearsFrames M ∨ ActiveClean cfg used d db
  refs : ∀ e ∈ (handleOf d db).entries, e.memTable < db.nextRef
  maxKey : db.limits.maxKeyBytes ≤ Record.maxKeySize
  maxValue : db.limits.maxValueBytes ≤ Record.maxValueSize
  seq_pos : 0 < db.nextSeq
  seq_le : db.nextSeq.toNat ≤ used + 1

structure SysSound (g : Guard) (M : Model Call) (used : Nat) (s : Sys) : Prop where
  disk : DiskSound cfg g used s.disk
  proc : ProcSound cfg g M used s.disk s.db

/-! ### Which faults a guard stands for -/

/-- The faults of a model are those the moves of a guard account for. -/
structure Allowed (g : Guard) (M : Model Call) : Prop where
  kill : ∀ {c n}, M c (.kill n) = true → g.crash
  header_kill : ∀ {n}, M .segmentHeader (.kill n) = true → n = 0 ∨ walHeaderSize ≤ n
  header_fail : ∀ {n}, M .segmentHeader (.fail n) = true → n = 0
  walSync : ∀ {n}, M .walSync (.fail n) = true → g.logOnly
  segment : ∀ {c n}, M c (.fail n) = true →
    c = .segmentOpen ∨ c = .segmentHeader ∨ c = .segmentSync ∨ c = .segmentSyncDir → g.rotateFail
  other : ∀ {c n}, M c (.fail n) = true →
    c = .walFrame ∨ c = .walSync ∨ c = .segmentOpen ∨ c = .segmentHeader ∨ c = .segmentSync ∨
      c = .segmentSyncDir

/-! ### More sequence numbers used -/

variable {cfg} {g : Guard} {M : Model Call} {used more : Nat} {d : Disk} {db : DB}

theorem TableSound.mono {t : SSTableMetadata} (h : TableSound used d t) (hle : used ≤ more) :
    TableSound more d t :=
  { h with seq_le := fun r hr => (h.seq_le r hr).trans hle }

theorem DiskSound.mono (h : DiskSound cfg g used d) (hle : used ≤ more) :
    DiskSound cfg g more d :=
  { h with
    segments := fun p hp => (h.segments p hp).mono hle
    tables := fun t ht => (h.tables t ht).mono hle }

theorem FlusherSound.mono (h : FlusherSound used d db) (hle : used ≤ more) :
    FlusherSound more d db := by
  unfold FlusherSound at h ⊢
  cases hf : db.flusher with
  | written imm table =>
      rw [hf] at h
      exact ⟨h.1, h.2.1.mono hle, h.2.2⟩
  | _ =>
      rw [hf] at h
      exact h

theorem ProcSound.mono (h : ProcSound cfg g M used d db) (hle : used ≤ more) :
    ProcSound cfg g M more d db :=
  { h with
    flusher := h.flusher.mono hle
    clean := h.clean.imp_right fun hc p hp hw => (hc p hp hw).mono hle
    seq_le := h.seq_le.trans (by omega) }

theorem SysSound.mono {s : Sys} (h : SysSound cfg g M used s) (hle : used ≤ more) :
    SysSound cfg g M more s :=
  ⟨h.disk.mono hle, h.proc.mono hle⟩

/-! ### Tables -/

theorem mkTab_recs {id level : Nat} {recs : List Record} (h : InOrder recs) :
    (mkTab id level recs).recs = recs := by
  unfold mkTab
  rw [dif_pos (SSTable.writable_iff.mpr h)]

@[simp] theorem mkTab_id (id level : Nat) (recs : List Record) : (mkTab id level recs).id = id := by
  unfold mkTab
  split
  · rfl
  · rfl

@[simp] theorem mkTab_level (id level : Nat) (recs : List Record) :
    (mkTab id level recs).level = level := by
  unfold mkTab
  split
  · rfl
  · rfl

@[simp] theorem tabOf_id (d : Disk) (t : SSTableMetadata) : (tabOf d t).id = t.id := mkTab_id _ _ _

@[simp] theorem tabOf_level (d : Disk) (t : SSTableMetadata) : (tabOf d t).level = t.level :=
  mkTab_level _ _ _

theorem TableSound.tabOf_recs {t : SSTableMetadata} (h : TableSound used d t) :
    (tabOf d t).recs = tableRecords d t := mkTab_recs h.inOrder

/-- Only the table's own file matters. -/
theorem tabOf_congr {d' : Disk} {t : SSTableMetadata} (h : d'.tables t.path = d.tables t.path) :
    tabOf d' t = tabOf d t := by
  unfold tabOf tableRecords
  rw [h]

theorem TableSound.congr {d' : Disk} {t : SSTableMetadata} (ht : TableSound used d t)
    (h : d'.tables t.path = d.tables t.path) : TableSound used d' t := by
  have hrecs : tableRecords d' t = tableRecords d t := by
    unfold tableRecords
    rw [h]
  refine ⟨?_, ?_, ht.path_id, ?_, ?_, ?_⟩
  · rw [h, hrecs]
    exact ht.file
  · rw [hrecs]
    exact ht.inOrder
  · rw [hrecs]
    exact ht.smallest
  · rw [hrecs]
    exact ht.largest
  · rw [hrecs]
    exact ht.seq_le

/-! ### Segments -/

/-- Other segments, the same tables. -/
theorem DiskSound.setWals (h : DiskSound cfg g used d) (wals : List (Nat × Bytes))
    (hsorted : wals.Pairwise (fun p q => p.1 < q.1))
    (hsegments : ∀ p ∈ wals, Segment cfg.crc used p.2)
    (hnext : ¬ g.rotateFail → wals = [] ∨
      ∃ p ∈ wals, (Manifest.read d.manifest).nextWALSegmentID ≤ p.1) :
    DiskSound cfg g used { d with wals } :=
  ⟨hsorted, hsegments, fun t ht => (h.tables t ht).congr rfl, h.ids, hnext⟩

theorem FlusherSound.congr {d' : Disk} (h : FlusherSound used d db)
    (htables : ∀ imm table, db.flusher = .written imm table →
      d'.tables table.path = d.tables table.path) : FlusherSound used d' db := by
  unfold FlusherSound at h ⊢
  cases hf : db.flusher with
  | written imm table =>
      rw [hf] at h
      exact ⟨h.1, h.2.1.congr (htables imm table hf), h.2.2⟩
  | _ =>
      rw [hf] at h
      exact h

theorem ProcSound.setWals (h : ProcSound cfg g M used d db) (wals : List (Nat × Bytes))
    (hle : ∀ p ∈ wals, p.1 ≤ db.manifest.nextWALSegmentID) (hactive : ∃ p ∈ wals, p.1 = db.wal)
    (hheader : ∀ p ∈ wals, p.1 = db.wal → p.2 ≠ [])
    (hclean : TearsFrames M ∨ ∀ p ∈ wals, p.1 = db.wal → Clean cfg.crc used p.2) :
    ProcSound cfg g M used { d with wals } db :=
  { h with
    flusher := h.flusher.congr fun _ _ _ => rfl
    wals_le := hle
    active := hactive
    header := hheader
    clean := hclean }

end HyphaDB.Refine
