import HyphaDB.Engine.Frames

/-!
# HyphaDB.Engine.Catalog

**What an event does to the tables**, whichever of its calls fail. The two jobs that replace
tables edit two lists in memory, a counter and a file, and roll back on some of their exits;
`CatalogStep` lists what they may leave behind, and `step_catalog` says that there is nothing
else. Everything about tables under failures is derived from it.
-/

namespace HyphaDB

open Faults Compaction

/-- Every call may fail, and none is the last one of the process. -/
def failures : Model Call
  | _, .kill _ => false
  | _, _ => true

/-- No call is the last one of the process. -/
def Survives (M : Model Call) : Prop := ∀ c n, M c (.kill n) ≠ true

theorem survives_failures : Survives failures := fun _ _ h => by cases h

/-- The errors of a job behind the rename of the manifest. -/
def DBError.afterRename : DBError → Bool
  | .publish => true
  | .io c => c = .tableRemove || c = .removeSyncDir
  | _ => false

/-! ### What a step may leave -/

/-- The tables, the manifest and the flush worker are as they were, and no memtable left the
queue. -/
structure SameCatalog (s t : Sys) : Prop where
  sstables : t.db.sstables = s.db.sstables
  metadata : t.db.manifest.sstables = s.db.manifest.sstables
  nextID : t.db.manifest.nextSSTableID = s.db.manifest.nextSSTableID
  flusher : t.db.flusher = s.db.flusher
  manifest : t.disk.manifest = s.disk.manifest
  tables : t.disk.tables = s.disk.tables
  queue : ∃ more, t.db.immutableMemtables = s.db.immutableMemtables ++ more

/-- The directory but for one table file. -/
structure SameBut (path : TablePath) (d d' : Disk) : Prop where
  manifest : d'.manifest = d.manifest
  wals : d'.wals = d.wals
  tables : ∀ p, p ≠ path → d'.tables p = d.tables p

/-- The process behind a compaction of `plan` into `recs`. -/
def compactedDB (cfg : Config) (db : DB) (plan : CompactionPlan) (recs : List Record) : DB :=
  let id := db.manifest.nextSSTableID
  let table := tableMetadata cfg id (.compact id) plan.targetLevel recs
  let selected := plan.inputs.map SSTableMetadata.id
  (db.setTables (replaceSelected selected table db.sstables)
    (replaceSelected selected table db.manifest.sstables)).setNextSSTableID (id + 1)

/-- The state behind a published compaction; the files it replaced may be gone. -/
structure Switched (cfg : Config) (s : Sys) (plan : CompactionPlan) (recs : List Record) (t : Sys) :
    Prop where
  db : t.db = compactedDB cfg s.db plan recs
  manifest : t.disk.manifest = some t.db.manifest
  wals : t.disk.wals = s.disk.wals
  tables : ∀ p, (∀ u ∈ s.db.sstables, u.id ∈ plan.inputs.map SSTableMetadata.id → u.path ≠ p) →
    t.disk.tables p = (s.disk.putTable (.compact s.db.manifest.nextSSTableID) recs).tables p

/-- What a compaction may leave: nothing to do, a failure before the manifest was renamed, or
the new tables. -/
inductive Compacted (cfg : Config) (s : Sys) (threshold : Nat) : Response → Sys → Prop
  | idle (hplan : compactionPlan cfg s threshold = none) : Compacted cfg s threshold .ok s
  | failed {plan e d} (hplan : compactionPlan cfg s threshold = some plan)
      (he : e.afterRename = false)
      (hd : SameBut (.compact s.db.manifest.nextSSTableID) s.disk d) :
      Compacted cfg s threshold (.err e) ⟨d, s.db⟩
  | published {plan sources r t} (hplan : compactionPlan cfg s threshold = some plan)
      (hlen : (inputTables s.db.sstables plan.inputs).length = plan.inputs.length)
      (hread : readTables s.disk (inputTables s.db.sstables plan.inputs) = .ok sources)
      (hr : r = .ok ∨ ∃ e, r = .err e ∧ e.afterRename = true)
      (ht : Switched cfg s plan (mergeRecords (mergeOptions s.db plan) sources) t) :
      Compacted cfg s threshold r t

/-- The process behind a published flush. -/
def flushedDB (db : DB) (imm : ImmutableMemTable) (table : SSTableMetadata) (flusher : Flusher) :
    DB :=
  ((db.setTables (db.sstables ++ [table]) (db.manifest.sstables ++ [table])).dequeue
    imm).setFlusher flusher

/-- The table a memtable is flushed to. -/
def flushTable (cfg : Config) (db : DB) (imm : ImmutableMemTable) (id : Nat) : SSTableMetadata :=
  tableMetadata cfg id (.data id) L0 (db.heap imm.memTable).records

/-- What a step may leave. -/
inductive CatalogStep (cfg : Config) (s : Sys) : Event → Response → Sys → Prop
  | same {event r t} (h : SameCatalog s t) : CatalogStep cfg s event r t
  | reserve {imm rest} (hflusher : s.db.flusher = .idle ∨ s.db.flusher = .failed)
      (hqueue : s.db.immutableMemtables = imm :: rest) :
      CatalogStep cfg s .flushReserve .ok
        ⟨s.disk, (s.db.setNextSSTableID (s.db.manifest.nextSSTableID + 1)).setFlusher
          (.reserved imm s.db.manifest.nextSSTableID)⟩
  | write {imm id} (hflusher : s.db.flusher = .reserved imm id) :
      CatalogStep cfg s .flushWrite .ok
        ⟨s.disk.putTable (.data id) (s.db.heap imm.memTable).records,
          s.db.setFlusher (.written imm (flushTable cfg s.db imm id))⟩
  | writeFailed {imm id e d} (hflusher : s.db.flusher = .reserved imm id)
      (hd : SameBut (.data id) s.disk d) :
      CatalogStep cfg s .flushWrite (.err e) ⟨d, (s.db.setNextSSTableID id).setFlusher .failed⟩
  | publish {imm table r flusher} (hflusher : s.db.flusher = .written imm table)
      (hr : r = .ok ∧ flusher = .removing imm.walID ∨ r = .err .publish ∧ flusher = .failed) :
      CatalogStep cfg s .flushPublish r
        ⟨{ s.disk with manifest := some (flushedDB s.db imm table flusher).manifest },
          flushedDB s.db imm table flusher⟩
  | publishFailed {imm table e} (hflusher : s.db.flusher = .written imm table)
      (he : e.afterRename = false) :
      CatalogStep cfg s .flushPublish (.err e)
        ⟨s.disk, (s.db.setNextSSTableID table.id).setFlusher (.cleanup table.path)⟩
  | removeWAL {walID r wals flusher} (hflusher : s.db.flusher = .removing walID)
      (hnew : flusher = .idle ∨ flusher = .failed) :
      CatalogStep cfg s .flushRemoveWAL r ⟨{ s.disk with wals }, s.db.setFlusher flusher⟩
  | cleanup {path r d} (hflusher : s.db.flusher = .cleanup path) (hd : SameBut path s.disk d) :
      CatalogStep cfg s .flushCleanup r ⟨d, s.db.setFlusher .failed⟩
  | compact {event threshold r t} (h : Compacted cfg s threshold r t) :
      CatalogStep cfg s event r t

variable {cfg : Config} {M : Model Call} {s : Sys}

theorem SameCatalog.refl (s : Sys) : SameCatalog s s :=
  ⟨rfl, rfl, rfl, rfl, rfl, rfl, [], (List.append_nil _).symm⟩

theorem SameBut.refl (path : TablePath) (d : Disk) : SameBut path d d := ⟨rfl, rfl, fun _ _ => rfl⟩

theorem sameBut_putTable (path : TablePath) (recs : List Record) (d : Disk) :
    SameBut path d (d.putTable path recs) :=
  ⟨rfl, rfl, fun _ hp => Function.update_of_ne hp _ _⟩

theorem sameBut_removeTable {path : TablePath} {d d' : Disk} (h : SameBut path d d') :
    SameBut path d (d'.removeTable path) :=
  ⟨h.manifest, h.wals, fun p hp => (Function.update_of_ne hp _ _).trans (h.tables p hp)⟩

/-! ### The programs -/

section Programs

variable (hM : Survives M)

include hM

/-- A call that is done or fails. -/
theorem wp_attemptCall {Q : Post Sys DBError Unit} {c : Call} {e : DBError} {f : Sys → Sys}
    (hdone : Q.ret () (f s)) (hfail : Q.err e s) :
    wp M (Prog.call c e fun s fate => atomically f s fate) Q s :=
  wp_call hdone (fun _ _ => hfail) fun n h => absurd h (hM c n)

theorem wp_syncCall {Q : Post Sys DBError Unit} {c : Call} {e : DBError} (hdone : Q.ret () s)
    (hfail : Q.err e s) : wp M (Prog.call c e fun s _ => s) Q s :=
  wp_call hdone (fun _ _ => hfail) fun n h => absurd h (hM c n)

theorem wp_createTable_any (path : TablePath) (recs : List Record) :
    wp M (createTable path recs)
      ⟨fun _ t => t = ⟨s.disk.putTable path recs, s.db⟩,
        fun e t => e.afterRename = false ∧ ∃ d, SameBut path s.disk d ∧ t = ⟨d, s.db⟩,
        fun _ => False⟩ s := by
  unfold createTable
  split
  · exact wp_throw ⟨rfl, s.disk, .refl _ _, rfl⟩
  · refine wp_bind (wp_attemptCall hM ?_ ⟨rfl, s.disk, .refl _ _, rfl⟩)
    exact wp_syncCall hM rfl ⟨rfl, _, sameBut_putTable path recs s.disk, rfl⟩

theorem wp_writeManifest_any :
    wp M writeManifest
      ⟨fun _ t => t = ⟨{ s.disk with manifest := some s.db.manifest }, s.db⟩,
        fun e t => e = .io .manifestRename ∧ t = s ∨
          e = .publish ∧ t = ⟨{ s.disk with manifest := some s.db.manifest }, s.db⟩,
        fun _ => False⟩ s := by
  refine wp_bind (wp_attemptCall hM ?_ (Or.inl ⟨rfl, rfl⟩))
  exact wp_syncCall hM rfl (Or.inr ⟨rfl, rfl⟩)

theorem wp_removeTable_any (path : TablePath) :
    wp M (removeTable path)
      ⟨fun _ t => t = ⟨s.disk.removeTable path, s.db⟩,
        fun e t => e = .io .tableRemove ∧ t = s, fun _ => False⟩ s :=
  wp_attemptCall hM rfl ⟨rfl, rfl⟩

/-- Files of other tables stay. -/
theorem wp_removeTables_any (tables : List SSTableMetadata) :
    wp M (removeTables tables)
      ⟨fun r t => (∀ e, r = .error e → e.afterRename = true) ∧ t.db = s.db ∧
          t.disk.manifest = s.disk.manifest ∧ t.disk.wals = s.disk.wals ∧
          ∀ p, (∀ u ∈ tables, u.path ≠ p) → t.disk.tables p = s.disk.tables p,
        fun _ _ => False, fun _ => False⟩ s := by
  induction tables generalizing s with
  | nil =>
      refine wp_attempt (wp_syncCall hM ?_ ?_)
      · exact ⟨fun e h => (by cases h), rfl, rfl, rfl, fun _ _ => rfl⟩
      · exact ⟨fun e h => Except.error.inj h ▸ rfl, rfl, rfl, rfl, fun _ _ => rfl⟩
  | cons u us ih =>
      -- whether or not this file goes, the others are treated the same
      have hrest : ∀ (removed : Except DBError Unit) (t : Sys),
          (∀ e, removed = .error e → e.afterRename = true) → t.db = s.db →
          SameBut u.path s.disk t.disk →
          wp M (do let rest ← removeTables us; pure (removed.bind fun _ => rest))
            ⟨fun r t => (∀ e, r = .error e → e.afterRename = true) ∧ t.db = s.db ∧
                t.disk.manifest = s.disk.manifest ∧ t.disk.wals = s.disk.wals ∧
                ∀ p, (∀ u' ∈ u :: us, u'.path ≠ p) → t.disk.tables p = s.disk.tables p,
              fun _ _ => False, fun _ => False⟩ t := by
        intro removed t hremoved hdb hd
        refine wp_bind (wp_mono ih (fun r t' h => wp_pure ?_) (fun _ _ h => h) fun _ h => h)
        obtain ⟨hr, hdb', hm, hw, htables⟩ := h
        refine ⟨fun e he => ?_, hdb'.trans hdb, hm.trans hd.manifest, hw.trans hd.wals,
          fun p hp => ?_⟩
        · cases removed with
          | ok _ => exact hr e he
          | error e' => exact hremoved e (Except.error.inj he ▸ rfl)
        · rw [htables p fun u' hu' => hp u' (List.mem_cons_of_mem _ hu')]
          exact hd.tables p fun h => hp u List.mem_cons_self h.symm
      refine wp_bind (wp_attempt (wp_mono (wp_removeTable_any hM u.path) (fun _ t ht => ?_)
        (fun e t ht => ?_) fun _ h => h))
      · subst ht
        exact hrest _ _ (fun e h => (by cases h)) rfl (sameBut_removeTable (.refl _ _))
      · obtain ⟨rfl, rfl⟩ := ht
        exact hrest _ _ (fun e h => Except.error.inj h ▸ rfl) rfl (.refl _ _)

/-- How a program that is one step ends. -/
def Leaves (cfg : Config) (s : Sys) (event : Event) : Post Sys DBError Unit :=
  ⟨fun _ t => CatalogStep cfg s event .ok t, fun e t => CatalogStep cfg s event (.err e) t,
    fun _ => False⟩

omit hM in
theorem wp_flushReserve_any : wp M flushReserve (Leaves cfg s .flushReserve) s := by
  refine wp_bind (wp_get ?_)
  dsimp only
  split
  · rename_i imm rest hflusher hqueue
    exact wp_modify (.reserve (Or.inl hflusher) hqueue)
  · rename_i imm rest hflusher hqueue
    exact wp_modify (.reserve (Or.inr hflusher) hqueue)
  · exact wp_pure (.same (.refl s))

theorem wp_flushWrite_any : wp M (flushWrite cfg) (Leaves cfg s .flushWrite) s := by
  refine wp_bind (wp_get ?_)
  dsimp only
  split
  · rename_i imm id hflusher
    refine wp_bind (wp_attempt (wp_mono (wp_createTable_any hM _ _) (fun _ t ht => ?_)
      (fun e t ht => ?_) fun _ h => h))
    · subst ht
      exact wp_modify (.write hflusher)
    · obtain ⟨-, d, hd, rfl⟩ := ht
      exact wp_bind (wp_modify (wp_throw (.writeFailed hflusher hd)))
  · exact wp_pure (.same (.refl s))

theorem wp_flushRemoveWAL_any : wp M flushRemoveWAL (Leaves cfg s .flushRemoveWAL) s := by
  refine wp_bind (wp_get ?_)
  dsimp only
  split
  · rename_i walID hflusher
    have hleft : wp M (removeSegment walID)
        ⟨fun _ t => ∃ wals, t = ⟨{ s.disk with wals }, s.db⟩,
          fun _ t => ∃ wals, t = ⟨{ s.disk with wals }, s.db⟩, fun _ => False⟩ s := by
      refine wp_bind (wp_attemptCall hM ?_ ⟨s.disk.wals, rfl⟩)
      exact wp_syncCall hM ⟨_, rfl⟩ ⟨_, rfl⟩
    refine wp_bind (wp_attempt (wp_mono hleft (fun _ t ht => ?_) (fun e t ht => ?_) fun _ h => h))
    · obtain ⟨wals, rfl⟩ := ht
      exact wp_modify (.removeWAL hflusher (Or.inl rfl))
    · obtain ⟨wals, rfl⟩ := ht
      exact wp_bind (wp_modify (wp_throw (.removeWAL hflusher (Or.inr rfl))))
  · exact wp_pure (.same (.refl s))

theorem wp_flushCleanup_any : wp M flushCleanup (Leaves cfg s .flushCleanup) s := by
  refine wp_bind (wp_get ?_)
  dsimp only
  split
  · rename_i path hflusher
    refine wp_bind (wp_attempt (wp_mono (wp_removeTable_any hM path) (fun _ t ht => ?_)
      (fun e t ht => ?_) fun _ h => h))
    · subst ht
      exact wp_modify (.cleanup hflusher (sameBut_removeTable (.refl _ _)))
    · obtain ⟨-, rfl⟩ := ht
      exact wp_modify (.cleanup hflusher (.refl _ _))
  · exact wp_pure (.same (.refl s))

theorem wp_flushPublish_any : wp M flushPublish (Leaves cfg s .flushPublish) s := by
  refine wp_bind (wp_get ?_)
  dsimp only
  split
  · rename_i imm table hflusher
    refine wp_bind (wp_modify (wp_bind (wp_attempt (wp_mono (wp_writeManifest_any hM)
      (fun _ t ht => ?_) (fun e t ht => ?_) fun _ h => h))))
    · subst ht
      exact wp_modify (.publish hflusher (Or.inl ⟨rfl, rfl⟩))
    · rcases ht with ⟨rfl, rfl⟩ | ⟨rfl, rfl⟩
      · refine wp_bind (wp_modify (wp_throw ?_))
        -- the lists are cut back to the lengths they had
        show CatalogStep cfg s .flushPublish (.err (.io .manifestRename)) ⟨s.disk, ((s.db.setTables
          ((s.db.sstables ++ [table]).take s.db.sstables.length)
          ((s.db.manifest.sstables ++ [table]).take
            s.db.manifest.sstables.length)).setNextSSTableID table.id).setFlusher
              (.cleanup table.path)⟩
        rw [List.take_left, List.take_left]
        exact .publishFailed hflusher rfl
      · exact wp_bind (wp_modify (wp_throw (.publish hflusher (Or.inr ⟨rfl, rfl⟩))))
  · exact wp_pure (.same (.refl s))

omit hM in
theorem readTables_error {d : Disk} {tables : List SSTableMetadata} {e : DBError}
    (h : readTables d tables = .error e) : ∃ path, e = .missingTable path := by
  induction tables with
  | nil => cases h
  | cons t tables ih =>
      unfold readTables at h
      split at h
      · exact ⟨t.path, (Except.error.inj h).symm⟩
      · split at h
        · rename_i hrest
          obtain rfl := Except.error.inj h
          exact ih hrest
        · cases h

/-- **Every exit of a compaction.** -/
theorem wp_compactLocked_any (threshold : Nat) :
    wp M (compactLocked cfg threshold)
      ⟨fun _ t => Compacted cfg s threshold .ok t, fun e t => Compacted cfg s threshold (.err e) t,
        fun _ => False⟩ s := by
  refine wp_bind (wp_get ?_)
  dsimp only
  cases hplan : compactionPlan cfg s threshold with
  | none => exact wp_pure (.idle hplan)
  | some plan =>
      dsimp only
      split
      · exact wp_throw (.failed hplan rfl (.refl _ _))
      · rename_i hlen
        refine wp_bind (wp_ofExcept (fun sources hread => ?_) fun e he => ?_)
        · refine wp_bind (wp_mono (wp_createTable_any hM _ _) (fun _ t ht => ?_) (fun e t ht => ?_)
            fun _ h => h)
          · subst ht
            refine wp_bind (wp_modify (wp_bind (wp_attempt (wp_mono (wp_writeManifest_any hM)
              (fun _ t ht => ?_) (fun e t ht => ?_) fun _ h => h))))
            · subst ht
              refine wp_bind (wp_modify (wp_bind (wp_mono (wp_removeTables_any hM _)
                (fun r t ht => ?_) (fun _ _ h => h.elim) fun _ h => h)))
              obtain ⟨hr, hdb, hm, hw, htables⟩ := ht
              have hswitched : Switched cfg s plan
                  (mergeRecords (mergeOptions s.db plan) sources) t := by
                refine ⟨hdb, ?_, hw, fun p hp => htables p fun u hu => ?_⟩
                · rw [hm, hdb]
                  rfl
                · obtain ⟨hmem, hsel⟩ := List.mem_filter.mp hu
                  exact hp u hmem (of_decide_eq_true hsel)
              exact wp_ofExcept
                (fun _ h => .published hplan (not_not.mp hlen) hread (Or.inl rfl) hswitched)
                fun e h =>
                  .published hplan (not_not.mp hlen) hread (Or.inr ⟨e, rfl, hr e h⟩) hswitched
            · rcases ht with ⟨rfl, rfl⟩ | ⟨rfl, rfl⟩
              · refine wp_bind (wp_modify (wp_bind (wp_attempt (wp_mono (wp_removeTable_any hM _)
                  (fun _ t ht => ?_) (fun e t ht => ?_) fun _ h => h))))
                · subst ht
                  exact wp_throw (.failed hplan rfl
                    (sameBut_removeTable (sameBut_putTable _ _ _)))
                · obtain ⟨-, rfl⟩ := ht
                  exact wp_throw (.failed hplan rfl (sameBut_putTable _ _ _))
              · refine wp_bind (wp_modify (wp_throw ?_))
                exact .published hplan (not_not.mp hlen) hread (Or.inr ⟨_, rfl, rfl⟩)
                  ⟨rfl, rfl, rfl, fun _ _ => rfl⟩
          · obtain ⟨he, d, hd, rfl⟩ := ht
            exact .failed hplan he hd
        · obtain ⟨path, rfl⟩ := readTables_error he
          exact .failed hplan rfl (.refl _ _)

end Programs

/-! ### Events -/

theorem sameCatalog_rotation (s : Sys) : IgnoresRotation (SameCatalog s) where
  segments := fun _ _ _ h =>
    ⟨h.sstables, h.metadata, h.nextID, h.flusher, h.manifest, h.tables, h.queue⟩
  enqueue := by
    intro d db h
    obtain ⟨more, hmore⟩ := h.queue
    refine ⟨h.sstables, h.metadata, h.nextID, h.flusher, h.manifest, h.tables,
      more ++ [⟨db.memtable, db.wal⟩], ?_⟩
    show db.immutableMemtables ++ [⟨db.memtable, db.wal⟩] = _
    rw [show db.immutableMemtables = _ from hmore, List.append_assoc]
  switch := fun _ _ h =>
    ⟨h.sstables, h.metadata, h.nextID, h.flusher, h.manifest, h.tables, h.queue⟩

/-- A change of the process that is none of tables. -/
theorem sameCatalog_readers (d : Disk) (db : DB) (readers : List UInt64) (closed : Bool) :
    SameCatalog ⟨d, db⟩ ⟨d, { db with activeReaders := readers, closed }⟩ :=
  ⟨rfl, rfl, rfl, rfl, rfl, rfl, [], (List.append_nil _).symm⟩

section Events

variable {w : World} {db db' : DB} {event : Event} {fates : List Fate} (hdb : w.proc = some db)

include hdb

theorem runOp_leaves {p : Op Unit} {Q : Response → Sys → Prop}
    (hp : wp M p ⟨fun _ t => Q .ok t, fun e t => Q (.err e) t, fun _ => True⟩ ⟨w.disk, db⟩)
    (hdb' : (w.runOp M p fates).1.proc = some db') :
    Q (w.runOp M p fates).2 ⟨(w.runOp M p fates).1.disk, db'⟩ := by
  rcases runOp_cases hdb hp fates with ⟨t, ht, heq⟩ | ⟨_, t, ht, heq⟩ | ⟨_, -, heq⟩
  all_goals rw [heq] at hdb' ⊢
  · exact Option.some.inj hdb' ▸ ht
  · exact Option.some.inj hdb' ▸ ht
  · cases hdb'

/-- A job's program. -/
theorem catalog_job {p : Op Unit} (hp : wp M p (Leaves cfg ⟨w.disk, db⟩ event) ⟨w.disk, db⟩)
    (hdb' : (w.runOp M p fates).1.proc = some db') :
    CatalogStep cfg ⟨w.disk, db⟩ event (w.runOp M p fates).2
      ⟨(w.runOp M p fates).1.disk, db'⟩ :=
  runOp_leaves hdb (wp_mono hp (fun _ _ h => h) (fun _ _ h => h) fun _ h => h.elim) hdb'

theorem catalog_compaction (hM : Survives M) {threshold : Nat}
    (hdb' : (w.runOp M (compactLocked cfg threshold) fates).1.proc = some db') :
    CatalogStep cfg ⟨w.disk, db⟩ event (w.runOp M (compactLocked cfg threshold) fates).2
      ⟨(w.runOp M (compactLocked cfg threshold) fates).1.disk, db'⟩ :=
  catalog_job hdb (wp_mono (wp_compactLocked_any hM threshold) (fun _ _ h => .compact h)
    (fun _ _ h => .compact h) fun _ h => h) hdb'

theorem catalog_mutation (hevent : event.mutates = true)
    (hdb' : (step cfg M w event fates).1.proc = some db') :
    CatalogStep cfg ⟨w.disk, db⟩ event (step cfg M w event fates).2
      ⟨(step cfg M w event fates).1.disk, db'⟩ := by
  have hcases : MutationCases cfg w db event := mutation_cases hdb hevent
  cases hcases with
  | refused e _ _ _ hstep =>
      rw [hstep] at hdb' ⊢
      obtain rfl := Option.some.inj (hdb.symm.trans hdb')
      exact .same (.refl _)
  | admitted _ _ hstep =>
      rw [hstep] at hdb' ⊢
      have hsame := sameCatalog_rotation ⟨w.disk, db⟩
      refine runOp_leaves hdb (wp_mono (wp_mutate hsame (keeps_appendOf hsame.append db event)
        (fun d x h => ?_) (.refl _)) (fun _ _ h => .same h)
        (fun _ _ h => .same (h.elim id id)) fun _ _ => trivial) hdb'
      exact ⟨h.sstables, h.metadata, h.nextID, h.flusher, h.manifest, h.tables, h.queue⟩

/-- An event without a file-system call. -/
theorem catalog_idle (hevent : event.idle = true)
    (hdb' : (step cfg M w event fates).1.proc = some db') :
    CatalogStep cfg ⟨w.disk, db⟩ event (step cfg M w event fates).2
      ⟨(step cfg M w event fates).1.disk, db'⟩ := by
  rcases step_idle hdb hevent with ⟨closed, -, hdisk, readers, hproc⟩ | ⟨-, hended⟩
  · rw [hdisk, ← Option.some.inj (hproc.symm.trans hdb')]
    exact .same (sameCatalog_readers w.disk db readers closed)
  · rw [hended] at hdb'
    cases hdb'

/-- **What an event does to the tables of a process that goes on.** -/
theorem step_catalog (hM : Survives M) (hdb' : (step cfg M w event fates).1.proc = some db') :
    CatalogStep cfg ⟨w.disk, db⟩ event (step cfg M w event fates).2
      ⟨(step cfg M w event fates).1.disk, db'⟩ := by
  cases event with
  | put key value | delete key | commit calls sync => exact catalog_mutation hdb rfl hdb'
  | flushReserve => exact catalog_job hdb wp_flushReserve_any hdb'
  | flushWrite => exact catalog_job hdb (wp_flushWrite_any hM) hdb'
  | flushPublish => exact catalog_job hdb (wp_flushPublish_any hM) hdb'
  | flushRemoveWAL => exact catalog_job hdb (wp_flushRemoveWAL_any hM) hdb'
  | flushCleanup => exact catalog_job hdb (wp_flushCleanup_any hM) hdb'
  | compact => exact catalog_compaction hdb hM hdb'
  | compactInBackground =>
      have hrun : step cfg M w .compactInBackground fates =
          w.runOp M (compactLocked cfg db.compactionThreshold) fates := runOp_congr hdb rfl
      rw [hrun] at hdb' ⊢
      exact catalog_compaction hdb hM hdb'
  | _ => exact catalog_idle hdb rfl hdb'

end Events

end HyphaDB
