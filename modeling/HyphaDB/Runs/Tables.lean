import HyphaDB.Engine.Catalog
import HyphaDB.Refine.Readers
import HyphaDB.Runs.FaultFree

/-!
# HyphaDB.Runs.Tables

**The table set under failures.** Any call of a flush or a compaction may fail: the write of a
table, that of the manifest before or after its rename, the removal of a file. The list of open
tables, the manifest in memory and the one on disk then still name the same tables
(`views_agree`).

Table identifiers fare worse. A failed flush puts the counter back to the number it reserved,
also when a compaction has taken the next one in between, and that number is handed out again.
-/

namespace HyphaDB.Runs

open Faults Store Refine Compaction

variable {cfg : Config} {M : Model Call} {w : World}

/-! ### The beginning and the end of a process -/

/-- A process that has just opened the directory `d`. -/
structure Started (d : Disk) (s : Sys) : Prop where
  manifest : s.disk.manifest = d.manifest
  tables : s.disk.tables = d.tables
  sstables : s.db.sstables = s.db.manifest.sstables
  agree : s.db.sstables.map unsized = (liveTables d).map unsized
  nextID : s.db.manifest.nextSSTableID = (Manifest.read d.manifest).nextSSTableID
  flusher : s.db.flusher = .idle

/-- The manifest and the tables of a directory. -/
def SameTables (d d' : Disk) : Prop := d'.manifest = d.manifest ∧ d'.tables = d.tables

theorem sameTables_setWal {d d' : Disk} (h : SameTables d d') (id : Nat) (file : Bytes) :
    SameTables d (d'.setWal id file) := h

theorem keeps_replaySegments (d : Disk) (segments : List (Nat × Bytes)) (mt : MemTable)
    (maxSeq : UInt64) : Keeps (SameTables d) (replaySegments cfg segments mt maxSeq) := by
  induction segments generalizing mt maxSeq with
  | nil => exact keeps_pure _
  | cons segment segments ih =>
      obtain ⟨id, file⟩ := segment
      have hcut : ∀ file', Keeps (SameTables d) (Prog.call Call.segmentTruncate
          (DBError.io .segmentTruncate) fun d fate =>
            atomically (fun d => Disk.setWal d id file') d fate) :=
        fun file' => keeps_call fun d' fate h =>
          keeps_atomically (I := SameTables d) (fun _ h => sameTables_setWal h id file') d' fate h
      unfold replaySegments
      dsimp only
      cases hresult : (Wal.replayInto cfg.crc file mt).result with
      | error e =>
          split
          · exact keeps_bind (hcut _) fun _ => keeps_throw _
          · exact keeps_bind (keeps_pure _) fun _ => keeps_throw _
      | ok stats =>
          split
          · exact keeps_bind (hcut _) fun _ => ih _ _
          · exact keeps_bind (keeps_pure _) fun _ => ih _ _

theorem raiseSegmentID_fields (m : Manifest) (segments : List (Nat × Bytes)) :
    (raiseSegmentID m segments).sstables = m.sstables ∧
      (raiseSegmentID m segments).nextSSTableID = m.nextSSTableID := by
  unfold raiseSegmentID
  split
  · exact ⟨rfl, rfl⟩
  · exact ⟨rfl, rfl⟩

theorem unsized_recoverSize (d : Disk) (t : SSTableMetadata) :
    unsized (recoverSize cfg d t) = unsized t := by
  unfold recoverSize
  split
  · rfl
  · rfl

theorem wp_openDB_started (opts : Options) (d : Disk) :
    wp M (openDB cfg opts)
      ⟨fun db d' => Started d ⟨d', db⟩, fun _ d' => SameTables d d', SameTables d⟩ d := by
  have hrefl : SameTables d d := ⟨rfl, rfl⟩
  refine wp_bind (wp_ofExcept (fun settings _ => ?_) fun _ _ => hrefl)
  refine wp_bind (wp_get (wp_bind (wp_mono (keeps_replaySegments d d.wals .new 0 M d hrefl)
    (fun r d₁ h₁ => ?_) (fun _ _ h => h) fun _ h => h)))
  obtain ⟨mt, walMaxSeq⟩ := r
  dsimp only
  refine wp_bind (wp_mono (keeps_newSegmentInDir (fun _ _ h => h) _ M d₁ h₁) (fun _ d₂ h₂ => ?_)
    (fun _ _ h => h) fun _ h => h)
  refine wp_bind (wp_get (wp_bind (wp_ofExcept (fun maxSeq _ => wp_pure ?_) fun _ _ => h₂)))
  obtain ⟨hsst, hnext⟩ := raiseSegmentID_fields (Manifest.read d.manifest) d.wals
  refine ⟨h₂.1, h₂.2, rfl, ?_, hnext, rfl⟩
  show ((raiseSegmentID (Manifest.read d.manifest) d.wals).sstables.map
    (recoverSize cfg d₂)).map unsized = _
  rw [hsst, List.map_map]
  exact List.map_congr_left fun t _ => unsized_recoverSize d₂ t

/-- Opening a directory that no process has open. -/
theorem openWorld_started (hno : w.proc = none) (opts : Options) (fates : List Fate) :
    SameTables w.disk (openWorld cfg M w opts fates).1.disk ∧
      ∀ db, (openWorld cfg M w opts fates).1.proc = some db →
        Started w.disk ⟨(openWorld cfg M w opts fates).1.disk, db⟩ := by
  have hopen : (openDB cfg opts M w.disk fates).Sat _ := wp_openDB_started opts w.disk fates
  unfold openWorld
  rw [hno]
  dsimp only
  cases hout : openDB cfg opts M w.disk fates with
  | ret db d rest =>
      rw [hout] at hopen
      exact ⟨⟨hopen.manifest, hopen.tables⟩, fun db' h => Option.some.inj h ▸ hopen⟩
  | err e d rest =>
      rw [hout] at hopen
      exact ⟨hopen, fun db' h => by cases h⟩
  | killed d =>
      rw [hout] at hopen
      exact ⟨hopen, fun db' h => by cases h⟩

/-! ### Three views of the table set -/

/-- The open tables are those of the manifest in memory and of the one on disk. -/
structure Agree (s : Sys) : Prop where
  sstables : s.db.sstables = s.db.manifest.sstables
  disk : s.db.sstables.map unsized = (liveTables s.disk).map unsized

theorem liveTables_some {d : Disk} {m : Manifest} (h : d.manifest = some m) :
    liveTables d = m.sstables := by
  unfold liveTables
  rw [h]
  exact Manifest.ensureSafeNextSSTableID_sstables m

theorem liveTables_congr {d d' : Disk} (h : d'.manifest = d.manifest) :
    liveTables d' = liveTables d := by
  unfold liveTables
  rw [h]

theorem Agree.step {s t : Sys} {event : Event} {r : Response} (hs : Agree s)
    (h : CatalogStep cfg s event r t) : Agree t := by
  cases h with
  | same h =>
      refine ⟨?_, ?_⟩
      · rw [h.sstables, h.metadata, hs.sstables]
      · rw [h.sstables, liveTables_congr h.manifest, hs.disk]
  | reserve _ _ => exact ⟨hs.sstables, hs.disk⟩
  | write _ => exact ⟨hs.sstables, hs.disk⟩
  | writeFailed _ hd => exact ⟨hs.sstables, hs.disk.trans (liveTables_congr hd.manifest ▸ rfl)⟩
  | @publish imm table r flusher _ _ =>
      have hlists : s.db.sstables ++ [table] = s.db.manifest.sstables ++ [table] := by
        rw [hs.sstables]
      refine ⟨hlists, ?_⟩
      rw [liveTables_some rfl]
      exact congrArg _ hlists
  | publishFailed _ _ => exact ⟨hs.sstables, hs.disk⟩
  | removeWAL _ _ => exact ⟨hs.sstables, hs.disk⟩
  | cleanup _ hd => exact ⟨hs.sstables, hs.disk.trans (liveTables_congr hd.manifest ▸ rfl)⟩
  | compact h =>
      cases h with
      | idle _ => exact hs
      | failed _ _ hd => exact ⟨hs.sstables, hs.disk.trans (liveTables_congr hd.manifest ▸ rfl)⟩
      | @published plan sources r t _ _ _ _ ht =>
          have hlists : t.db.sstables = t.db.manifest.sstables := by
            rw [ht.db]
            show replaceSelected _ _ s.db.sstables = replaceSelected _ _ s.db.manifest.sstables
            rw [hs.sstables]
          refine ⟨hlists, ?_⟩
          rw [liveTables_some ht.manifest, hlists]

theorem Started.agree_views {d : Disk} {s : Sys} (h : Started d s) : Agree s :=
  ⟨h.sstables, h.agree.trans (liveTables_congr h.manifest ▸ rfl)⟩

/-- A process that runs agrees with its directory. -/
def Agreeing (w : World) : Prop := ∀ db, w.proc = some db → Agree ⟨w.disk, db⟩

theorem Agreeing.step (hM : Survives M) (hw : Agreeing w) (event : Event) (fates : List Fate) :
    Agreeing (step cfg M w event fates).1 := by
  intro db' hdb'
  cases hdb : w.proc with
  | some db => exact (hw db hdb).step (step_catalog hdb hM hdb')
  | none =>
      by_cases hopen : ∃ opts, event = .openDB opts
      · obtain ⟨opts, rfl⟩ := hopen
        exact ((openWorld_started hdb opts fates).2 db' hdb').agree_views
      · rw [(step_stopped (fun opts he => hopen ⟨opts, he⟩) hdb _).1] at hdb'
        cases hdb'

theorem agreeing_run (hM : Survives M) (inputs : List Input) {s : World × Ledger}
    (h : Agreeing s.1) : Agreeing (run cfg M s inputs).1 := by
  induction inputs generalizing s with
  | nil => exact h
  | cons input inputs ih => exact ih (h.step hM input.1 input.2)

/-- What happens to the queue in one step: it grows, or its first memtable leaves it and the
table written for it is added to all three lists. -/
theorem queue_step {s t : Sys} {event : Event} {r : Response} (h : CatalogStep cfg s event r t) :
    (∃ more, t.db.immutableMemtables = s.db.immutableMemtables ++ more) ∨
      ∃ imm table, s.db.flusher = .written imm table ∧
        s.db.immutableMemtables = imm :: t.db.immutableMemtables ∧
        t.db.sstables = s.db.sstables ++ [table] ∧
        t.db.manifest.sstables = s.db.manifest.sstables ++ [table] ∧
        t.disk.manifest = some t.db.manifest := by
  have hsame : ∀ q : List ImmutableMemTable, ∃ more, q = q ++ more :=
    fun q => ⟨[], (List.append_nil q).symm⟩
  cases h with
  | same h => exact Or.inl h.queue
  | reserve _ _ => exact Or.inl (hsame _)
  | write _ => exact Or.inl (hsame _)
  | writeFailed _ _ => exact Or.inl (hsame _)
  | @publish imm table r flusher hflusher _ =>
      cases hqueue : s.db.immutableMemtables with
      | nil =>
          refine Or.inl ⟨[], ?_⟩
          show (s.db.dequeue imm).immutableMemtables = _
          unfold DB.dequeue
          rw [hqueue]
          rfl
      | cons q qs =>
          have hdequeue : (flushedDB s.db imm table flusher).immutableMemtables =
              if q = imm then qs else q :: qs := by
            show (s.db.dequeue imm).immutableMemtables = _
            unfold DB.dequeue
            rw [hqueue]
          by_cases hq : q = imm
          · rw [if_pos hq] at hdequeue
            exact Or.inr ⟨imm, table, hflusher, by rw [hdequeue, hq], rfl, rfl, rfl⟩
          · rw [if_neg hq] at hdequeue
            exact Or.inl ⟨[], by rw [List.append_nil]; exact hdequeue⟩
  | publishFailed _ _ => exact Or.inl (hsame _)
  | removeWAL _ _ => exact Or.inl (hsame _)
  | cleanup _ _ => exact Or.inl (hsame _)
  | compact h =>
      cases h with
      | idle _ => exact Or.inl (hsame _)
      | failed _ _ _ => exact Or.inl (hsame _)
      | published _ _ _ _ ht =>
          refine Or.inl ⟨[], ?_⟩
          rw [ht.db, List.append_nil]
          rfl

/-- The tables of a manifest by ID and level. -/
def entriesOf (tables : List SSTableMetadata) : List (Nat × Nat) :=
  tables.map fun t => (t.id, t.level)

/-- The entries of the manifest file; a missing file has none. -/
def fileEntries (d : Disk) : List (Nat × Nat) :=
  match d.manifest with
  | none => []
  | some m => entriesOf m.sstables

theorem fileEntries_eq (d : Disk) : fileEntries d = entriesOf (liveTables d) := by
  unfold fileEntries
  cases hm : d.manifest with
  | none =>
      unfold liveTables
      rw [hm]
      rfl
  | some m => rw [liveTables_some hm]

/-- **Three views of the table set agree**, in every state of every run in which any call may
fail, and a memtable leaves the queue only in the step that adds its table to all three. -/
theorem views_agree (cfg : Config) (inputs : List Input) {db : DB}
    (hdb : (run cfg failures blank inputs).1.proc = some db) :
    db.sstables.map SSTableMetadata.id = db.manifest.sstables.map SSTableMetadata.id ∧
      entriesOf db.manifest.sstables = fileEntries (run cfg failures blank inputs).1.disk ∧
      ∀ event fates, ∀ w' db', w' = (step cfg failures (run cfg failures blank inputs).1 event
          fates).1 → w'.proc = some db' →
        (∃ more, db'.immutableMemtables = db.immutableMemtables ++ more) ∨
          ∃ imm table, db.flusher = .written imm table ∧
            db.immutableMemtables = imm :: db'.immutableMemtables ∧
            db'.sstables = db.sstables ++ [table] ∧
            db'.manifest.sstables = db.manifest.sstables ++ [table] ∧
            w'.disk.manifest = some db'.manifest := by
  have hagree := agreeing_run survives_failures inputs
    (show Agreeing blank.1 from fun _ h => by cases h) db hdb
  refine ⟨congrArg _ hagree.sstables, ?_, fun event fates w' db' hw' hdb' => ?_⟩
  · rw [fileEntries_eq, ← hagree.sstables]
    exact map_eq_of_unsized (fun t => (t.id, t.level)) (fun _ => rfl) hagree.disk
  · subst hw'
    exact queue_step (step_catalog hdb survives_failures hdb')

/-- Two memtables are queued; the write of the first table fails, then that of the manifest, the
second after its rename. -/
def failing : List Input :=
  [(.openDB { maxEntries := 1 }, []), (.put [1] [1], []), (.put [2] [2], []),
    (.flushReserve, []), (.flushWrite, [.fail 0]), (.flushReserve, []), (.flushWrite, []),
    (.flushPublish, [.fail 0]), (.flushCleanup, [.fail 0]), (.flushReserve, []), (.flushWrite, []),
    (.flushPublish, [.done, .fail 0])]

/-- The three views after those failures. -/
theorem views_agree_failing :
    ∃ db, (run sample failures blank failing).1.proc = some db ∧
      entriesOf db.manifest.sstables = [(0, 0)] ∧
      entriesOf db.manifest.sstables = fileEntries (run sample failures blank failing).1.disk := by
  have hentries : ((run sample failures blank failing).1.proc.map fun db =>
      entriesOf db.manifest.sstables) = some [(0, 0)] := by decide +kernel
  obtain ⟨db, hdb, heq⟩ := Option.map_eq_some_iff.mp hentries
  exact ⟨db, hdb, heq, (views_agree sample failing hdb).2.1⟩

/-! ### Table identifiers -/

/-- The identifier a flush in progress has taken. -/
def tableID : Flusher → Option Nat
  | .reserved _ id => some id
  | .written _ table => some table.id
  | _ => none

/-- What the flush worker may count on. -/
def FlusherIDs (db : DB) : Prop :=
  match db.flusher with
  | .reserved _ id => Reserved db id
  | .written _ table => Reserved db table.id ∧ table.path = .data table.id
  | .cleanup path => ∃ id, path = .data id ∧ ∀ t ∈ db.sstables, t.path ≠ path
  | _ => True

/-- Every table has its own identifier, below the counter, and a file named by it. -/
structure Identified (s : Sys) : Prop where
  agree : Agree s
  nodup : (s.db.sstables.map SSTableMetadata.id).Nodup
  below : ∀ t ∈ s.db.sstables, t.id < s.db.manifest.nextSSTableID
  paths : ∀ t ∈ s.db.sstables, t.path.id = t.id
  flusher : FlusherIDs s.db

/-- The step puts the counter back although another identifier was taken in between. -/
def rewinds (db : DB) (event : Event) (r : Response) : Bool :=
  match event, r with
  | .flushWrite, .err _ =>
      match tableID db.flusher with
      | some id => db.manifest.nextSSTableID ≠ id + 1
      | none => false
  | .flushPublish, .err e =>
      match tableID db.flusher with
      | some id => !e.afterRename && db.manifest.nextSSTableID ≠ id + 1
      | none => false
  | _, _ => false

theorem path_ne_of_id {t : SSTableMetadata} (path : TablePath) (hpath : t.path.id = t.id)
    (hne : t.id ≠ path.id) : t.path ≠ path :=
  fun h => hne (hpath.symm.trans (congrArg TablePath.id h))

/-- The flush worker does not notice compactions: their tables have new identifiers and files of
another name. -/
theorem FlusherIDs.mono {db db' : DB} (h : FlusherIDs db) (hflusher : db'.flusher = db.flusher)
    (hnext : db.manifest.nextSSTableID ≤ db'.manifest.nextSSTableID)
    (hsub : ∀ t ∈ db'.sstables, t ∈ db.sstables ∨
      db.manifest.nextSSTableID ≤ t.id ∧ t.path = .compact t.id) : FlusherIDs db' := by
  have hreserved : ∀ id, Reserved db id → Reserved db' id := by
    intro id hid
    refine ⟨hid.1.trans_le hnext, fun t ht => ?_⟩
    rcases hsub t ht with ht | ⟨hge, -⟩
    · exact hid.2 t ht
    · exact (hid.1.trans_le hge).ne'
  unfold FlusherIDs at h ⊢
  rw [hflusher]
  cases hf : db.flusher with
  | reserved imm id =>
      rw [hf] at h
      exact hreserved id h
  | written imm table =>
      rw [hf] at h
      exact ⟨hreserved _ h.1, h.2⟩
  | cleanup path =>
      rw [hf] at h
      obtain ⟨id, rfl, hne⟩ := h
      refine ⟨id, rfl, fun t ht => ?_⟩
      rcases hsub t ht with ht | ⟨-, hpath⟩
      · exact hne t ht
      · rw [hpath]
        exact fun h => by cases h
  | _ => trivial

/-- A failed flush may put the counter back when its own identifier was the last one taken. -/
theorem Identified.rewind {s : Sys} (hs : Identified s) {id : Nat} (hid : Reserved s.db id)
    (hlast : s.db.manifest.nextSSTableID = id + 1) : ∀ t ∈ s.db.sstables, t.id < id := by
  intro t ht
  have hlt := hs.below t ht
  have hne := hid.2 t ht
  omega

theorem Identified.compacted {s : Sys} (hs : Identified s) (cfg : Config) (plan : CompactionPlan)
    (recs : List Record) :
    ((compactedDB cfg s.db plan recs).sstables.map SSTableMetadata.id).Nodup ∧
      (∀ t ∈ (compactedDB cfg s.db plan recs).sstables,
        t.id < (compactedDB cfg s.db plan recs).manifest.nextSSTableID) ∧
      (∀ t ∈ (compactedDB cfg s.db plan recs).sstables, t.path.id = t.id) ∧
      FlusherIDs (compactedDB cfg s.db plan recs) := by
  refine ⟨replaceSelected_ids_nodup hs.nodup fun t ht => (hs.below t ht).ne, fun t ht => ?_,
    fun t ht => ?_, hs.flusher.mono rfl (Nat.le_succ _) fun t ht => ?_⟩
  · rcases replaceSelected_sub ht with rfl | ⟨ht, -⟩
    · exact Nat.lt_succ_self _
    · exact (hs.below t ht).trans (Nat.lt_succ_self _)
  · rcases replaceSelected_sub ht with rfl | ⟨ht, -⟩
    · rfl
    · exact hs.paths t ht
  · rcases replaceSelected_sub ht with rfl | ⟨ht, -⟩
    · exact Or.inr ⟨Nat.le_refl _, rfl⟩
    · exact Or.inl ht

theorem Identified.step {s t : Sys} {event : Event} {r : Response} (hs : Identified s)
    (h : CatalogStep cfg s event r t) (hrew : rewinds s.db event r = false) : Identified t := by
  have hagree := hs.agree.step h
  have hids := hs.flusher
  unfold FlusherIDs at hids
  cases h with
  | same h =>
      refine ⟨hagree, by rw [h.sstables]; exact hs.nodup, ?_, ?_, ?_⟩
      · rw [h.sstables, h.nextID]
        exact hs.below
      · rw [h.sstables]
        exact hs.paths
      · refine hs.flusher.mono h.flusher h.nextID.ge fun t ht => Or.inl ?_
        rwa [h.sstables] at ht
  | @reserve imm rest _ _ =>
      refine ⟨hagree, hs.nodup, fun t ht => (hs.below t ht).trans (Nat.lt_succ_self _),
        hs.paths, ?_⟩
      exact ⟨Nat.lt_succ_self _, fun t ht => (hs.below t ht).ne⟩
  | @write imm id hflusher =>
      rw [hflusher] at hids
      exact ⟨hagree, hs.nodup, hs.below, hs.paths, hids, rfl⟩
  | @writeFailed imm id e d hflusher hd =>
      rw [hflusher] at hids
      have hlast : s.db.manifest.nextSSTableID = id + 1 := by
        unfold rewinds at hrew
        rw [hflusher] at hrew
        simpa [tableID] using hrew
      exact ⟨hagree, hs.nodup, hs.rewind hids hlast, hs.paths, trivial⟩
  | @publish imm table r flusher hflusher hr =>
      rw [hflusher] at hids
      obtain ⟨hid, hpath⟩ := hids
      refine ⟨hagree, ?_, ?_, ?_, ?_⟩
      · show ((s.db.sstables ++ [table]).map SSTableMetadata.id).Nodup
        rw [List.map_append, List.nodup_append]
        refine ⟨hs.nodup, List.nodup_singleton _, fun x hx y hy => ?_⟩
        obtain ⟨u, hu, rfl⟩ := List.mem_map.mp hx
        rw [List.mem_singleton.mp hy]
        exact hid.2 u hu
      · intro u hu
        rcases List.mem_append.mp hu with hu | hu
        · exact hs.below u hu
        · rw [List.mem_singleton.mp hu]
          exact hid.1
      · intro u hu
        rcases List.mem_append.mp hu with hu | hu
        · exact hs.paths u hu
        · rw [List.mem_singleton.mp hu, hpath]
          rfl
      · rcases hr with ⟨-, rfl⟩ | ⟨-, rfl⟩
        · trivial
        · trivial
  | @publishFailed imm table e hflusher he =>
      rw [hflusher] at hids
      obtain ⟨hid, hpath⟩ := hids
      have hlast : s.db.manifest.nextSSTableID = table.id + 1 := by
        unfold rewinds at hrew
        rw [hflusher] at hrew
        simpa [tableID, he] using hrew
      refine ⟨hagree, hs.nodup, hs.rewind hid hlast, hs.paths, table.id, hpath, fun t ht => ?_⟩
      rw [hpath]
      exact path_ne_of_id _ (hs.paths t ht) (hid.2 t ht)
  | @removeWAL walID r wals flusher hflusher hnew =>
      refine ⟨hagree, hs.nodup, hs.below, hs.paths, ?_⟩
      rcases hnew with rfl | rfl
      · trivial
      · trivial
  | cleanup _ _ => exact ⟨hagree, hs.nodup, hs.below, hs.paths, trivial⟩
  | compact h =>
      cases h with
      | idle _ => exact hs
      | failed _ _ _ => exact ⟨hagree, hs.nodup, hs.below, hs.paths, hs.flusher⟩
      | @published plan sources r t _ _ _ _ ht =>
          obtain ⟨hnodup, hbelow, hpaths, hflusher⟩ :=
            hs.compacted cfg plan (mergeRecords (mergeOptions s.db plan) sources)
          refine ⟨hagree, ?_, ?_, ?_, ?_⟩
          · rwa [ht.db]
          · rwa [ht.db]
          · rwa [ht.db]
          · rwa [ht.db]

/-- No step touches the file of a table that stays in the manifest. -/
theorem files_step {s t : Sys} {event : Event} {r : Response} (hs : Identified s)
    (h : CatalogStep cfg s event r t) {u : SSTableMetadata} (hu : u ∈ s.db.sstables)
    (hu' : u ∈ t.db.sstables) : t.disk.tables u.path = s.disk.tables u.path := by
  have hids := hs.flusher
  unfold FlusherIDs at hids
  cases h with
  | same h => rw [h.tables]
  | reserve _ _ => rfl
  | @write imm id hflusher =>
      rw [hflusher] at hids
      exact Function.update_of_ne (path_ne_of_id (.data id) (hs.paths u hu) (hids.2 u hu)) _ _
  | @writeFailed imm id e d hflusher hd =>
      rw [hflusher] at hids
      exact hd.tables _ (path_ne_of_id (.data id) (hs.paths u hu) (hids.2 u hu))
  | publish _ _ => rfl
  | publishFailed _ _ => rfl
  | removeWAL _ _ => rfl
  | @cleanup path r d hflusher hd =>
      rw [hflusher] at hids
      obtain ⟨id, -, hne⟩ := hids
      exact hd.tables _ (hne u hu)
  | compact h =>
      have hnew : u.path ≠ .compact s.db.manifest.nextSSTableID :=
        path_ne_of_id _ (hs.paths u hu) (hs.below u hu).ne
      cases h with
      | idle _ => rfl
      | failed _ _ hd => exact hd.tables _ hnew
      | @published plan sources r t _ _ _ _ ht =>
          rw [ht.db] at hu'
          -- it is none of the inputs, so its file is none of those that are removed
          have hout : u.id ∉ plan.inputs.map SSTableMetadata.id := by
            rcases replaceSelected_sub hu' with heq | ⟨-, hnot⟩
            · have hid : u.id = s.db.manifest.nextSSTableID := congrArg SSTableMetadata.id heq
              exact absurd hid (hs.below u hu).ne
            · exact hnot
          refine (ht.tables u.path fun x hx hsel hpath => hout ?_).trans
            (Function.update_of_ne hnew _ _)
          rwa [← hs.paths u hu, ← hpath, hs.paths x hx]

/-! ### Runs -/

/-- Tables with identifiers of their own, and files named by them. -/
structure Named (tables : List SSTableMetadata) : Prop where
  nodup : (tables.map SSTableMetadata.id).Nodup
  paths : ∀ t ∈ tables, t.path.id = t.id

/-- Recorded sizes do not matter. -/
theorem Named.of_unsized {xs ys : List SSTableMetadata} (h : Named xs)
    (heq : xs.map unsized = ys.map unsized) : Named ys := by
  have hids : xs.map SSTableMetadata.id = ys.map SSTableMetadata.id :=
    map_eq_of_unsized SSTableMetadata.id (fun _ => rfl) heq
  have hpairs : xs.map (fun t => (t.path.id, t.id)) = ys.map fun t => (t.path.id, t.id) :=
    map_eq_of_unsized (fun t => (t.path.id, t.id)) (fun _ => rfl) heq
  refine ⟨hids ▸ h.nodup, fun t ht => ?_⟩
  have hmem : (t.path.id, t.id) ∈ xs.map fun t => (t.path.id, t.id) :=
    hpairs ▸ List.mem_map_of_mem ht
  obtain ⟨u, hu, heq⟩ := List.mem_map.mp hmem
  obtain ⟨hpath, hid⟩ := Prod.mk.inj heq
  rw [← hpath, ← hid, h.paths u hu]

/-- `Open` starts above all identifiers of the manifest. -/
theorem Started.identified {d : Disk} {s : Sys} (h : Started d s) (hd : Named (liveTables d)) :
    Identified s := by
  have hnamed := hd.of_unsized h.agree.symm
  refine ⟨h.agree_views, hnamed.nodup, fun t ht => ?_, hnamed.paths, ?_⟩
  · have hids : s.db.sstables.map SSTableMetadata.id = (liveTables d).map SSTableMetadata.id :=
      map_eq_of_unsized SSTableMetadata.id (fun _ => rfl) h.agree
    have hmem : t.id ∈ (liveTables d).map SSTableMetadata.id := hids ▸ List.mem_map_of_mem ht
    obtain ⟨u, hu, heq⟩ := List.mem_map.mp hmem
    rw [h.nextID, ← heq]
    exact lt_nextSSTableID hu
  · unfold FlusherIDs
    rw [h.flusher]
    trivial

/-- A process that ends leaves the tables as they are. -/
theorem runOp_ends {db : DB} {fates : List Fate} {p : Op Unit} (hdb : w.proc = some db)
    (hp : wp M p ⟨fun _ _ => True, fun _ _ => True, fun t => SameTables w.disk t.disk⟩ ⟨w.disk, db⟩)
    (hno : (w.runOp M p fates).1.proc = none) :
    SameTables w.disk (w.runOp M p fates).1.disk := by
  rcases runOp_cases hdb hp fates with ⟨t, -, heq⟩ | ⟨_, t, -, heq⟩ | ⟨t, ht, heq⟩
  all_goals rw [heq] at hno ⊢
  · cases hno
  · cases hno
  · exact ht

theorem step_ends (hM : Survives M) {db : DB} (hdb : w.proc = some db) {event : Event}
    {fates : List Fate} (hno : (step cfg M w event fates).1.proc = none) :
    SameTables w.disk (step cfg M w event fates).1.disk := by
  have hjob : ∀ {p : Op Unit} {Q : Post Sys DBError Unit}, wp M p Q ⟨w.disk, db⟩ →
      (∀ t, Q.kill t → False) → (w.runOp M p fates).1.proc = none →
      SameTables w.disk (w.runOp M p fates).1.disk := fun hp hkill =>
    runOp_ends hdb (wp_mono hp (fun _ _ _ => trivial) (fun _ _ _ => trivial)
      fun t h => (hkill t h).elim)
  have hflush : ∀ {p : Op Unit} {job : Event}, wp M p (Leaves cfg ⟨w.disk, db⟩ job) ⟨w.disk, db⟩ →
      (w.runOp M p fates).1.proc = none → SameTables w.disk (w.runOp M p fates).1.disk :=
    fun hp => hjob hp fun _ h => h
  have hmutation : event.mutates = true → SameTables w.disk (step cfg M w event fates).1.disk := by
    intro hevent
    have hcases : MutationCases cfg w db event := mutation_cases hdb hevent
    cases hcases with
    | refused e _ _ _ hstep =>
        rw [hstep]
        exact ⟨rfl, rfl⟩
    | admitted _ _ hstep =>
        rw [hstep] at hno ⊢
        have hsame := sameCatalog_rotation ⟨w.disk, db⟩
        refine runOp_ends hdb (wp_mono (wp_mutate hsame (keeps_appendOf hsame.append db event)
          (fun d x h => ?_) (.refl _)) (fun _ _ _ => trivial) (fun _ _ _ => trivial)
          fun t h => ?_) hno
        · exact ⟨h.sstables, h.metadata, h.nextID, h.flusher, h.manifest, h.tables, h.queue⟩
        · exact h.elim (fun h => ⟨h.manifest, h.tables⟩) fun h => ⟨h.manifest, h.tables⟩
  have hidle : event.idle = true → SameTables w.disk (step cfg M w event fates).1.disk := by
    intro hevent
    rcases step_idle hdb hevent with ⟨closed, -, hdisk, -⟩ | ⟨-, hended⟩
    · rw [hdisk]
      exact ⟨rfl, rfl⟩
    · rw [hended]
      exact ⟨rfl, rfl⟩
  cases event with
  | put _ _ | delete _ | commit _ _ => exact hmutation rfl
  | flushReserve => exact hflush wp_flushReserve_any hno
  | flushWrite => exact hflush (wp_flushWrite_any hM) hno
  | flushPublish => exact hflush (wp_flushPublish_any hM) hno
  | flushRemoveWAL => exact hflush (wp_flushRemoveWAL_any hM) hno
  | flushCleanup => exact hflush (wp_flushCleanup_any hM) hno
  | compact => exact hjob (wp_compactLocked_any hM _) (fun _ h => h) hno
  | compactInBackground =>
      have hrun : step cfg M w .compactInBackground fates =
          w.runOp M (compactLocked cfg db.compactionThreshold) fates := runOp_congr hdb rfl
      rw [hrun] at hno ⊢
      exact hjob (wp_compactLocked_any hM _) (fun _ h => h) hno
  | _ => exact hidle rfl

/-- What holds of a directory, with or without a process. -/
def IdentifiedWorld (w : World) : Prop :=
  match w.proc with
  | none => Named (liveTables w.disk)
  | some db => Identified ⟨w.disk, db⟩

theorem identifiedWorld_some {db : DB} (hdb : w.proc = some db) :
    IdentifiedWorld w ↔ Identified ⟨w.disk, db⟩ := by
  unfold IdentifiedWorld
  rw [hdb]

theorem identifiedWorld_none (hno : w.proc = none) :
    IdentifiedWorld w ↔ Named (liveTables w.disk) := by
  unfold IdentifiedWorld
  rw [hno]

/-- The event makes a failed flush put the counter back behind a compaction's identifier. -/
def rewound (cfg : Config) (w : World) (input : Input) : Bool :=
  match w.proc with
  | none => false
  | some db => rewinds db input.1 (step cfg failures w input.1 input.2).2

/-- No flush of the run fails after a compaction took an identifier in the meantime. -/
def neverRewound (cfg : Config) (s : World × Ledger) : List Input → Bool
  | [] => true
  | input :: inputs =>
      !rewound cfg s.1 input && neverRewound cfg (stepLedger cfg failures s input) inputs

theorem IdentifiedWorld.step {input : Input} (hw : IdentifiedWorld w)
    (hrew : rewound cfg w input = false) :
    IdentifiedWorld (step cfg failures w input.1 input.2).1 := by
  cases hdb : w.proc with
  | some db =>
      have hs := (identifiedWorld_some hdb).mp hw
      cases hdb' : (HyphaDB.step cfg failures w input.1 input.2).1.proc with
      | some db' =>
          unfold rewound at hrew
          rw [hdb] at hrew
          exact (identifiedWorld_some hdb').mpr
            (hs.step (step_catalog hdb survives_failures hdb') hrew)
      | none =>
          rw [identifiedWorld_none hdb',
            liveTables_congr (step_ends survives_failures hdb hdb').1]
          exact (Named.mk hs.nodup hs.paths).of_unsized hs.agree.disk
  | none =>
      have hd := (identifiedWorld_none hdb).mp hw
      by_cases hopen : ∃ opts, input.1 = .openDB opts
      · obtain ⟨opts, hevent⟩ := hopen
        rw [hevent]
        obtain ⟨hsame, hstarted⟩ :
            SameTables w.disk (openWorld cfg failures w opts input.2).1.disk ∧
            ∀ db, (openWorld cfg failures w opts input.2).1.proc = some db →
              Started w.disk ⟨(openWorld cfg failures w opts input.2).1.disk, db⟩ :=
          openWorld_started hdb opts input.2
        cases hdb' : (openWorld cfg failures w opts input.2).1.proc with
        | some db' => exact (identifiedWorld_some hdb').mpr ((hstarted db' hdb').identified hd)
        | none =>
            refine (identifiedWorld_none hdb').mpr ?_
            rwa [liveTables_congr hsame.1]
      · obtain ⟨hno, hdisk⟩ : (HyphaDB.step cfg failures w input.1 input.2).1.proc = none ∧
            (HyphaDB.step cfg failures w input.1 input.2).1.disk = w.disk :=
          step_stopped (fun opts he => hopen ⟨opts, he⟩) hdb input.2
        rwa [identifiedWorld_none hno, hdisk]

theorem identifiedWorld_run (inputs : List Input) {s : World × Ledger}
    (h : IdentifiedWorld s.1) (hrew : neverRewound cfg s inputs = true) :
    IdentifiedWorld (run cfg failures s inputs).1 := by
  induction inputs generalizing s with
  | nil => exact h
  | cons input inputs ih =>
      obtain ⟨hstep, hrest⟩ := Bool.and_eq_true_iff.mp hrew
      exact ih (h.step (by simpa using hstep)) hrest

/-- **A table keeps its identifier and its file**, in every run in which no flush fails after a
compaction took an identifier in the meantime. -/
theorem table_ids_distinct (cfg : Config) (inputs : List Input)
    (hrew : neverRewound cfg blank inputs = true) {db : DB}
    (hdb : (run cfg failures blank inputs).1.proc = some db) :
    (db.manifest.sstables.map SSTableMetadata.id).Nodup ∧
      (∀ t ∈ db.manifest.sstables, t.id < db.manifest.nextSSTableID) ∧
      ∀ event fates, ∀ w', w' = (step cfg failures (run cfg failures blank inputs).1 event
          fates).1 →
        ∀ t ∈ db.manifest.sstables, (∀ db', w'.proc = some db' → t ∈ db'.manifest.sstables) →
          w'.disk.tables t.path = (run cfg failures blank inputs).1.disk.tables t.path := by
  have hs := (identifiedWorld_some hdb).mp (identifiedWorld_run (s := blank) inputs
    ⟨List.nodup_nil, fun t ht => by cases ht⟩ hrew)
  have hlists := hs.agree.sstables
  refine ⟨hlists ▸ hs.nodup, hlists ▸ hs.below, fun event fates w' hw' t ht hstays => ?_⟩
  cases hdb' : w'.proc with
  | some db' =>
      rw [hw'] at hdb'
      have hstep := step_catalog hdb survives_failures hdb'
      have ht' := hstays db' (hw' ▸ hdb')
      rw [hw']
      exact files_step hs hstep (hlists ▸ ht) ((hs.agree.step hstep).sstables ▸ ht')
  | none =>
      rw [hw'] at hdb' ⊢
      rw [(step_ends survives_failures hdb hdb').2]

/-- Three memtables of one entry each wait for the flush worker. -/
def threeQueued : List Input :=
  [(.openDB { maxEntries := 1 }, []), (.put [1] [1], []), (.put [2] [2], []), (.put [3] [3], [])]

/-- One round of the flush worker. -/
def flushed : List Input :=
  [(.flushReserve, []), (.flushWrite, []), (.flushPublish, []), (.flushRemoveWAL, [])]

/-- A table, a manifest and a compaction fail before anything else takes an identifier. -/
def harmless : List Input :=
  threeQueued ++ [(.flushReserve, []), (.flushWrite, [.fail 0])] ++ flushed ++
    [(.flushReserve, []), (.flushWrite, []), (.flushPublish, [.fail 0]), (.flushCleanup, []),
      (.compact, [.fail 0])] ++ flushed ++ [(.compact, [])] ++ flushed

/-- The identifiers after those failures. -/
theorem table_ids_distinct_harmless :
    ∃ db, (run sample failures blank harmless).1.proc = some db ∧
      db.manifest.sstables.map SSTableMetadata.id = [2, 3] ∧
      (db.manifest.sstables.map SSTableMetadata.id).Nodup := by
  have hids : ((run sample failures blank harmless).1.proc.map fun db =>
      db.manifest.sstables.map SSTableMetadata.id) = some [2, 3] := by decide +kernel
  obtain ⟨db, hdb, heq⟩ := Option.map_eq_some_iff.mp hids
  exact ⟨db, hdb, heq, (table_ids_distinct sample harmless (by decide +kernel) hdb).1⟩

/-- The flush worker reserves identifier 1, a compaction takes 2, and the write of the worker's
table fails. -/
def rewinding : List Input :=
  threeQueued ++ flushed ++ [(.flushReserve, []), (.compact, []), (.flushWrite, [.fail 0])] ++
    [(.put [4] [4], [])] ++ flushed ++ flushed

/-- The compaction's table and a later one share the identifier 2. -/
theorem table_id_reused :
    ∃ db, (run sample failures blank rewinding).1.proc = some db ∧
      ¬(db.manifest.sstables.map SSTableMetadata.id).Nodup := by
  have hids : ((run sample failures blank rewinding).1.proc.map fun db =>
      db.manifest.sstables.map SSTableMetadata.id) = some [2, 1, 2] := by decide +kernel
  obtain ⟨db, hdb, heq⟩ := Option.map_eq_some_iff.mp hids
  exact ⟨db, hdb, by rw [heq]; decide⟩

end HyphaDB.Runs
