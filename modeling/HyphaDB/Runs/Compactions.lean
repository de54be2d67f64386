import HyphaDB.Engine.Alike
import HyphaDB.Engine.Catalog
import HyphaDB.Runs.Snapshots

/-!
# HyphaDB.Runs.Compactions

**Compactions and readers.** However a compaction ends, a read at the current sequence or at
that of a registered reader finds what it found before: a compaction that failed before the
manifest's rename left one file nobody names, and one that got further replaced tables by
their merge, of which the registered readers see no more and no less.
-/

namespace HyphaDB.Runs

open Faults Store Refine Compaction Versions

variable {cfg : Config} {used : Nat} {l : Ledger} {M : Model Call} {s : Sys}

theorem getAt_congr {d d' : Disk} {db : DB}
    (h : ∀ t ∈ db.sstables, d'.tables t.path = d.tables t.path) (k : Key) (q : UInt64) :
    getAt ⟨d', db⟩ k q = getAt ⟨d, db⟩ k q := by
  unfold getAt
  rw [findAt_congr h]

/-- The sequences a process reads at. -/
def ReadAt (db : DB) (q : UInt64) : Prop := q = db.currentSequence ∨ q ∈ db.activeReaders

section Merged

variable {threshold : Nat} {plan : CompactionPlan} (hs : SysSound cfg quiet M used s)
  (hlive : LiveSound (viewSys cfg s) (handleOf s.disk s.db) l)
  (hplan : compactionPlan cfg s threshold = some plan)

include hs hlive hplan

/-- A merge drops no version that is read. -/
theorem reads_merged {k : Key} {q : UInt64} (hq : ReadAt s.db q) {o : Option Record}
    (ho : ReadsAt ((viewSys cfg s).live (handleOf s.disk s.db)) k q o) :
    ∃ o', ReadsAt (View.live { viewSys cfg s with
        tabs := (mergedTables cfg s plan).map (tabOf (mergedDisk s plan)) }
        (handleOf s.disk s.db)) k q o' ∧ answer o' = answer o := by
  have hc := compacts_plan hs hplan
  have hle : ∀ r ∈ (viewSys cfg s).live (handleOf s.disk s.db), r.seq ≤ s.db.currentSequence :=
    fun r hr => le_currentSequence (hlive.seq_lt r hr)
  rcases hq with rfl | hreader
  · have hraised := ho.raise hle (le_newest _)
    have hle' := hlive.compact hc
    have hlower : ∀ {o'}, ReadsAt (View.live { viewSys cfg s with
        tabs := (mergedTables cfg s plan).map (tabOf (mergedDisk s plan)) }
        (handleOf s.disk s.db)) k newest o' → ReadsAt _ k s.db.currentSequence o' :=
      fun h => h.lower (fun r hr => le_currentSequence (hle'.seq_lt r hr)) (le_newest _)
    rcases hlive.compact_reads hc (protected_newest _) hraised with hkept | ⟨-, hnone, hgone⟩
    · exact ⟨o, hlower hkept, rfl⟩
    · refine ⟨none, hlower hgone, ?_⟩
      rw [answer_eq, answer_eq, hnone]
      rfl
  · rcases hlive.compact_reads hc (protected_reader hreader plan) ho with hkept | ⟨hno, -⟩
    · exact ⟨o, hkept, rfl⟩
    · obtain ⟨oldest, holdest, -⟩ := oldestReader_le hreader
      rw [show (mergeOptions s.db plan).oldestReader = some oldest from holdest] at hno
      cases hno

/-- The state behind the manifest's rename. -/
theorem getAt_merged {k : Key} {q : UInt64} (hq : ReadAt s.db q) :
    getAt ⟨setManifest (mergedDisk s plan) (mergedDB cfg s plan).manifest,
      mergedDB cfg s plan⟩ k q = getAt s k q := by
  obtain ⟨o, -, ho⟩ := findAt_reads hs k q
  obtain ⟨o', ho', hanswer⟩ := reads_merged hs hlive hplan hq ho
  have hmoved := (runs_compacted (l := l) hs hplan trivial).sound
  have hview : (viewSys cfg ⟨setManifest (mergedDisk s plan) (mergedDB cfg s plan).manifest,
      mergedDB cfg s plan⟩).live (handleOf (setManifest (mergedDisk s plan)
        (mergedDB cfg s plan).manifest) (mergedDB cfg s plan)) =
      View.live { viewSys cfg s with
        tabs := (mergedTables cfg s plan).map (tabOf (mergedDisk s plan)) }
        (handleOf s.disk s.db) := by
    unfold View.live
    rw [handleOf_merged hs]
    show _ ∪ tabRecs (tabsOf (setManifest (mergedDisk s plan) _)) = _
    rw [tabsOf_setManifest]
    rfl
  have hafter := hlive.compact (compacts_plan hs hplan)
  rw [getAt_reads hs hlive.consistent ho, ← hanswer]
  refine getAt_reads hmoved ?_ ?_
  · rw [hview]
    exact hafter.consistent
  · rw [hview]
    exact ho'

end Merged

/-- What a compaction leaves alone: the memtables, the log, the counter and the readers. -/
structure SameMemory (s t : Sys) : Prop where
  heap : t.db.heap = s.db.heap
  memtable : t.db.memtable = s.db.memtable
  size : t.db.memTableSize = s.db.memTableSize
  queue : t.db.immutableMemtables = s.db.immutableMemtables
  wal : t.db.wal = s.db.wal
  wals : t.disk.wals = s.disk.wals
  nextSeq : t.db.nextSeq = s.db.nextSeq
  readers : t.db.activeReaders = s.db.activeReaders

section Outcomes

variable (hs : SysSound cfg quiet M used s)
  (hlive : LiveSound (viewSys cfg s) (handleOf s.disk s.db) l)

include hs

/-- The new file is not that of a table. -/
theorem path_ne_compact {t : SSTableMetadata} (ht : t ∈ s.db.sstables) :
    t.path ≠ .compact s.db.manifest.nextSSTableID := by
  intro h
  have hid := (hs.proc.tableSound hs.disk ht).path_id
  rw [h] at hid
  exact (hs.proc.below t ht).ne hid.symm

/-- What the program merges is what the plan says. -/
theorem compactedDB_eq {threshold : Nat} {plan : CompactionPlan} {sources : List (List Record)}
    (hplan : compactionPlan cfg s threshold = some plan)
    (hread : readTables s.disk (inputTables s.db.sstables plan.inputs) = .ok sources) :
    sources = plan.inputs.map (tableRecords s.disk) ∧
      compactedDB cfg s.db plan (mergeRecords (mergeOptions s.db plan) sources) =
        mergedDB cfg s plan := by
  rw [plan_inputs hs hplan, readTables_eq fun t ht => (plan_tables hs hplan t ht).file] at hread
  obtain rfl := Except.ok.inj hread
  refine ⟨rfl, ?_⟩
  unfold compactedDB mergedDB mergedTables mergedTable
  dsimp only
  rw [← hs.proc.sstables]

include hlive

/-- **No outcome of a compaction changes a read.** -/
theorem compacted_reads {threshold : Nat} {r : Response} {t : Sys}
    (h : Compacted cfg s threshold r t) :
    (∀ k q, ReadAt s.db q → getAt t k q = getAt s k q) ∧ SameMemory s t := by
  cases h with
  | idle _ => exact ⟨fun _ _ _ => rfl, ⟨rfl, rfl, rfl, rfl, rfl, rfl, rfl, rfl⟩⟩
  | failed _ _ hd =>
      refine ⟨fun k q _ => ?_, ⟨rfl, rfl, rfl, rfl, rfl, hd.wals, rfl, rfl⟩⟩
      exact getAt_congr (fun u hu => hd.tables u.path (path_ne_compact hs hu)) k q
  | @published plan sources r t hplan _ hread _ ht =>
      obtain ⟨rfl, hdb⟩ := compactedDB_eq hs hplan hread
      refine ⟨fun k q hq => ?_, ?_⟩
      · rw [← getAt_merged hs hlive hplan hq]
        obtain ⟨d, db⟩ := t
        obtain rfl : db = mergedDB cfg s plan := ht.db.trans hdb
        refine getAt_congr (fun u hu => ?_) k q
        refine ht.tables u.path fun x hx hsel hpath => ?_
        -- the removed files are those of the inputs
        have hxid := (hs.proc.tableSound hs.disk hx).path_id
        rcases (mem_mergedTables hs hplan).mp hu with rfl | ⟨hu, hno⟩
        · exact path_ne_compact hs hx hpath
        · rw [hpath, (hs.proc.tableSound hs.disk hu).path_id] at hxid
          exact hno (hxid ▸ hsel)
      · have hfields := ht.db
        rw [hdb] at hfields
        refine ⟨?_, ?_, ?_, ?_, ?_, ht.wals, ?_, ?_⟩ <;> rw [hfields] <;> rfl

end Outcomes

/-- **Compaction never changes what readers see.** After any run without crashes and faults, and
however the next compaction ends, reads at the current sequence and at every registered one are
what they were, and so are the memtables, the log, the counter and the readers; a failure before
the manifest's rename leaves the tables and the manifest as they were. -/
theorem compaction_unseen (cfg : Config) {inputs : List Input}
    (hkill : ∀ input ∈ inputs, input.1 ≠ .kill)
    (hused : sequencesUsed cfg noFaults blank inputs < 2 ^ 64 - 1) {db : DB}
    (hdb : (run cfg noFaults blank inputs).1.proc = some db) (threshold : Nat) (fates : List Fate) :
    ∃ w' r db', (run cfg noFaults blank inputs).1.runOp failures
        (compactLocked cfg threshold) fates = (w', r) ∧ w'.proc = some db' ∧
      (∀ k q, q = db.currentSequence ∨ q ∈ db.activeReaders →
        getAt ⟨w'.disk, db'⟩ k q = getAt ⟨(run cfg noFaults blank inputs).1.disk, db⟩ k q) ∧
      SameMemory ⟨(run cfg noFaults blank inputs).1.disk, db⟩ ⟨w'.disk, db'⟩ ∧
      ∀ e, r = .err e → e.afterRename = false →
        db' = db ∧ w'.disk.manifest = (run cfg noFaults blank inputs).1.disk.manifest := by
  obtain ⟨hw, hv, -⟩ := run_quiet hkill hused
  generalize (run cfg noFaults blank inputs).1 = w at hdb hw hv ⊢
  rw [viewWorld_running hdb] at hv
  obtain ⟨hlive, -⟩ := (CrashFree.running (h := handleOf w.disk db) rfl).mp hv
  have hdone : ∀ {r : Response} {t : Sys}, Compacted cfg ⟨w.disk, db⟩ threshold r t →
      (∀ k q, ReadAt db q → getAt t k q = getAt ⟨w.disk, db⟩ k q) ∧ SameMemory ⟨w.disk, db⟩ t ∧
        ∀ e, r = .err e → e.afterRename = false →
          t.db = db ∧ t.disk.manifest = w.disk.manifest := by
    intro r t h
    obtain ⟨hreads, hmemory⟩ := compacted_reads (hw.sys hdb) hlive h
    refine ⟨hreads, hmemory, fun e hr he => ?_⟩
    cases h with
    | idle _ => cases hr
    | failed _ _ hd => exact ⟨rfl, hd.manifest⟩
    | published _ _ _ hpub _ =>
        rcases hpub with rfl | ⟨e', rfl, he'⟩
        · cases hr
        · rw [← Response.err.inj hr, he'] at he
          cases he
  rcases runOp_cases hdb (wp_compactLocked_any survives_failures threshold) fates with
    ⟨t, ht, heq⟩ | ⟨_, t, ht, heq⟩ | ⟨_, ht, -⟩
  · exact ⟨_, _, t.db, heq, rfl, hdone ht⟩
  · exact ⟨_, _, t.db, heq, rfl, hdone ht⟩
  · exact ht.elim

/-- A put under a snapshot, and its deletion, in two tables. -/
def watchedDelete : List Input :=
  [(.openDB { maxEntries := 1 }, []), (.put [0x6B] [1], []), (.newSnapshot, []),
    (.delete [0x6B], []), (.flushReserve, []), (.flushWrite, []), (.flushPublish, []),
    (.flushRemoveWAL, []), (.flushReserve, []), (.flushWrite, []), (.flushPublish, []),
    (.flushRemoveWAL, [])]

/-- They are compacted, and the directory's sync fails behind the rename. -/
theorem compaction_unseen_watchedDelete :
    ∃ db w' db', (run sample noFaults blank watchedDelete).1.proc = some db ∧
      (run sample noFaults blank watchedDelete).1.runOp failures (compactLocked sample 1)
        [.done, .done, .done, .fail 0] = (w', .err .publish) ∧ w'.proc = some db' ∧
      getAt ⟨(run sample noFaults blank watchedDelete).1.disk, db⟩ [0x6B] 1 = .ok [1] ∧
      getAt ⟨w'.disk, db'⟩ [0x6B] 1 = .ok [1] := by
  have hbefore : ((run sample noFaults blank watchedDelete).1.proc.map fun db =>
      (db.activeReaders, getAt ⟨(run sample noFaults blank watchedDelete).1.disk, db⟩ [0x6B] 1)) =
      some ([1], .ok [1]) := by decide +kernel
  have hr : ((run sample noFaults blank watchedDelete).1.runOp failures (compactLocked sample 1)
      [.done, .done, .done, .fail 0]).2 = .err .publish := by decide +kernel
  obtain ⟨db, hdb, heq⟩ := Option.map_eq_some_iff.mp hbefore
  obtain ⟨hreaders, hget⟩ := Prod.mk.inj heq
  obtain ⟨w', r, db', hrun, hdb', hreads, -⟩ := @compaction_unseen sample watchedDelete
    (by decide) (by decide +kernel) db hdb 1 [.done, .done, .done, .fail 0]
  rw [hrun] at hr
  refine ⟨db, w', db', hdb, ?_, hdb', hget, ?_⟩
  · rw [hrun]
    exact congrArg _ hr
  · rw [hreads [0x6B] 1 (Or.inr (hreaders ▸ List.mem_singleton_self _)), hget]

end HyphaDB.Runs
