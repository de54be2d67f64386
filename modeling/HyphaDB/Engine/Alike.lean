import HyphaDB.Engine.Frames

/-!
# HyphaDB.Engine.Alike

**What a process cannot tell apart.** A process appends to its segments and does not read them
back; that is left to the next `Open`. The one file it looks into is that of a segment it is
about to create, which an earlier failure may have left there. So two directories that differ in
the contents of the segments in use make a process go on in the same way: the same calls with
the same fates end with the same results (`step_alike`).
-/

namespace HyphaDB

open Faults Wal Compaction

/-! ### Looking up segments -/

theorem wal?_appendWal (d : Disk) (id i : Nat) (bytes : Bytes) :
    (d.appendWal id bytes).wal? i = (d.wal? i).map fun f => if i = id then f ++ bytes else f := by
  unfold Disk.wal? Disk.appendWal
  dsimp only
  induction d.wals with
  | nil => rfl
  | cons p wals ih =>
      obtain ⟨j, f⟩ := p
      rw [List.map_cons]
      by_cases hj : i = j
      · subst hj
        by_cases hid : i = id
        · simp [hid]
        · simp [hid]
      · have hne : (i == j) = false := by simpa using hj
        by_cases hid : j = id
        · simp only [hid, if_true]
          rw [List.lookup_cons, List.lookup_cons, ← hid, hne]
          exact hid ▸ ih
        · simp only [hid, if_false]
          rw [List.lookup_cons, List.lookup_cons, hne]
          exact ih

theorem wal?_setWal (d : Disk) (id i : Nat) (file : Bytes) :
    (d.setWal id file).wal? i = if i = id then some file else d.wal? i := by
  unfold Disk.wal? Disk.setWal
  dsimp only
  induction d.wals with
  | nil =>
      by_cases hid : i = id
      · simp [Disk.putWal, hid]
      · have hne : (i == id) = false := by simpa using hid
        simp [Disk.putWal, List.lookup_cons, hne, hid]
  | cons p wals ih =>
      obtain ⟨j, f⟩ := p
      unfold Disk.putWal
      by_cases hid : i = id
      · subst hid
        rw [if_pos rfl] at ih ⊢
        split
        · simp
        · split
          · simp
          · rename_i hlt hne
            have hj : (i == j) = false := by simpa using hne
            rw [List.lookup_cons, hj]
            exact ih
      · have hne : (i == id) = false := by simpa using hid
        rw [if_neg hid] at ih ⊢
        split
        · rw [List.lookup_cons, hne]
        · split
          · rename_i hlt heq
            rw [List.lookup_cons, List.lookup_cons, hne, ← heq, hne]
          · rw [List.lookup_cons, List.lookup_cons, ih]

theorem wal?_removeWal (d : Disk) (id i : Nat) :
    (d.removeWal id).wal? i = if i = id then none else d.wal? i := by
  unfold Disk.wal? Disk.removeWal
  dsimp only
  induction d.wals with
  | nil => simp
  | cons p wals ih =>
      obtain ⟨j, f⟩ := p
      rw [List.filter_cons]
      by_cases hj : j = id
      · subst hj
        rw [if_neg (by simp), ih]
        by_cases hi : i = j
        · rw [if_pos hi, if_pos hi]
        · have hne : (i == j) = false := by simpa using hi
          rw [if_neg hi, if_neg hi, List.lookup_cons, hne]
      · rw [if_pos (by simpa using hj), List.lookup_cons, List.lookup_cons, ih]
        by_cases hi : i = j
        · subst hi
          simp [hj]
        · have hne : (i == j) = false := by simpa using hi
          rw [hne]

/-! ### Directories and processes -/

/-- Directories that may differ in the contents of segments before `n`. -/
structure AlikeDisk (n : Nat) (d d' : Disk) : Prop where
  manifest : d'.manifest = d.manifest
  tables : d'.tables = d.tables
  files : ∀ id, n ≤ id → d'.wal? id = d.wal? id

/-- The same process on such directories; the segments in use come before the next one. -/
structure Alike (s t : Sys) : Prop where
  db : t.db = s.db
  wal_le : s.db.wal ≤ s.db.manifest.nextWALSegmentID
  disk : AlikeDisk (s.db.manifest.nextWALSegmentID + 1) s.disk t.disk

section Disks

variable {n : Nat} {d d' : Disk}

theorem AlikeDisk.refl (n : Nat) (d : Disk) : AlikeDisk n d d := ⟨rfl, rfl, fun _ _ => rfl⟩

theorem AlikeDisk.trans {d'' : Disk} (h : AlikeDisk n d d') (h' : AlikeDisk n d' d'') :
    AlikeDisk n d d'' :=
  ⟨h'.manifest.trans h.manifest, h'.tables.trans h.tables,
    fun id hid => (h'.files id hid).trans (h.files id hid)⟩

theorem AlikeDisk.mono {m : Nat} (h : AlikeDisk n d d') (hle : n ≤ m) : AlikeDisk m d d' :=
  ⟨h.manifest, h.tables, fun id hid => h.files id (hle.trans hid)⟩

theorem AlikeDisk.appendWal (h : AlikeDisk n d d') (id : Nat) (bytes : Bytes) :
    AlikeDisk n (d.appendWal id bytes) (d'.appendWal id bytes) :=
  ⟨h.manifest, h.tables, fun i hi => by rw [wal?_appendWal, wal?_appendWal, h.files i hi]⟩

/-- An append to a segment in use. -/
theorem AlikeDisk.appendOne (h : AlikeDisk n d d') {id : Nat} (hid : id < n) (bytes : Bytes) :
    AlikeDisk n d (d'.appendWal id bytes) := by
  refine ⟨h.manifest, h.tables, fun i hi => ?_⟩
  have hne : i ≠ id := (hid.trans_le hi).ne'
  rw [wal?_appendWal, ← h.files i hi]
  simp [hne]

theorem AlikeDisk.setWal (h : AlikeDisk n d d') (id : Nat) (file : Bytes) :
    AlikeDisk n (d.setWal id file) (d'.setWal id file) :=
  ⟨h.manifest, h.tables, fun i hi => by rw [wal?_setWal, wal?_setWal, h.files i hi]⟩

theorem AlikeDisk.removeWal (h : AlikeDisk n d d') (id : Nat) :
    AlikeDisk n (d.removeWal id) (d'.removeWal id) :=
  ⟨h.manifest, h.tables, fun i hi => by rw [wal?_removeWal, wal?_removeWal, h.files i hi]⟩

theorem AlikeDisk.setTables (h : AlikeDisk n d d') (tables : TablePath → Option (List Record)) :
    AlikeDisk n { d with tables } { d' with tables } := ⟨h.manifest, rfl, h.files⟩

theorem AlikeDisk.setManifest (h : AlikeDisk n d d') (manifest : Option Manifest) :
    AlikeDisk n { d with manifest } { d' with manifest } := ⟨rfl, h.tables, h.files⟩

theorem readTables_congr {tables : List SSTableMetadata}
    (h : ∀ t ∈ tables, d'.tables t.path = d.tables t.path) :
    readTables d' tables = readTables d tables := by
  induction tables with
  | nil => rfl
  | cons t tables ih =>
      unfold readTables
      rw [h t List.mem_cons_self, ih fun u hu => h u (List.mem_cons_of_mem _ hu)]

/-- A read looks at the memory of the process and at the files of its tables. -/
theorem findAt_congr {db : DB} (h : ∀ t ∈ db.sstables, d'.tables t.path = d.tables t.path)
    (key : Key) (maxSeq : UInt64) : findAt ⟨d', db⟩ key maxSeq = findAt ⟨d, db⟩ key maxSeq := by
  unfold findAt
  dsimp only
  rw [readTables_congr fun t ht => h t (List.mem_reverse.mp ht)]

end Disks

theorem coupled_atomically {σ : Type} {R : σ → σ → Prop} {s t : σ} {f g : σ → σ} (h : R s t)
    (hfg : R (f s) (g t)) (fate : Fate) : R (atomically f s fate) (atomically g t fate) := by
  cases fate with
  | done => exact hfg
  | fail n => exact h
  | kill n =>
      cases n with
      | zero => exact h
      | succ n => exact hfg

/-! ### The programs -/

section Programs

variable {cfg : Config} {M : Model Call} {n : Nat} {d d' : Disk} {db : DB}

theorem coupled_newSegmentInDir {id : Nat} (hid : n ≤ id) (h : AlikeDisk n d d') :
    coupled M (AlikeDisk n) (newSegmentInDir id) (newSegmentInDir id) d d' := by
  refine coupled_bind (coupled_call fun fate => coupled_atomically h ?_ fate) fun _ e e' he => ?_
  · rw [h.files id hid]
    split
    · exact h.setWal id []
    · exact h
  refine coupled_get ?_
  rw [he.files id hid]
  split
  · refine coupled_bind (coupled_call fun fate => he.appendWal id _) fun _ _ _ h₁ => ?_
    exact coupled_bind (coupled_call fun _ => h₁) fun _ _ _ h₂ => coupled_call fun _ => h₂
  · exact coupled_ofExcept he

/-- A process is the same on both sides, so programs are compared at one. -/
theorem Alike.elim {P : Sys → Sys → Prop} {s t : Sys} (h : Alike s t)
    (hP : ∀ d d' db, Alike ⟨d, db⟩ ⟨d', db⟩ → P ⟨d, db⟩ ⟨d', db⟩) : P s t := by
  obtain ⟨d, db⟩ := s
  obtain ⟨d', db'⟩ := t
  obtain rfl : db' = db := h.db
  exact hP d d' db' h

/-- A change of memory that leaves the segment numbers alone. -/
theorem Alike.update (h : Alike ⟨d, db⟩ ⟨d', db⟩) {db' : DB} (hwal : db'.wal = db.wal)
    (hnext : db'.manifest.nextWALSegmentID = db.manifest.nextWALSegmentID) :
    Alike ⟨d, db'⟩ ⟨d', db'⟩ := by
  refine ⟨rfl, ?_, ?_⟩
  · show db'.wal ≤ db'.manifest.nextWALSegmentID
    rw [hwal, hnext]
    exact h.wal_le
  · show AlikeDisk (db'.manifest.nextWALSegmentID + 1) d d'
    rw [hnext]
    exact h.disk

variable {s t : Sys} (h : Alike s t)

include h

theorem coupled_updateDB {f : DB → DB} (hwal : ∀ db, (f db).wal = db.wal)
    (hnext : ∀ db, (f db).manifest.nextWALSegmentID = db.manifest.nextWALSegmentID) :
    coupled M Alike (updateDB f) (updateDB f) s t :=
  h.elim fun _ _ db h => coupled_modify (h.update (hwal db) (hnext db))

theorem coupled_writeRecord (rec : Record) :
    coupled M Alike (writeRecord cfg rec) (writeRecord cfg rec) s t := by
  refine coupled_bind (coupled_ofExcept h) fun _ s t h => h.elim fun d d' db h => ?_
  exact coupled_call fun fate => ⟨rfl, h.wal_le, h.disk.appendWal _ _⟩

theorem coupled_writeBatch (batchID : UInt64) (recs : List Record) (sync : Bool) :
    coupled M Alike (writeBatch cfg batchID recs sync) (writeBatch cfg batchID recs sync) s t := by
  refine coupled_bind (coupled_writeRecord h _) fun _ s t h => ?_
  refine coupled_bind (coupled_forEach (fun _ _ _ h => coupled_writeRecord h _) _ h)
    fun _ s t h => ?_
  refine coupled_bind (coupled_writeRecord h _) fun _ s t h => ?_
  split
  · exact coupled_call fun _ => h
  · exact coupled_pure h

/-- A rotation looks into the file of the next segment only. -/
theorem coupled_rotateMemtable : coupled M Alike rotateMemtable rotateMemtable s t := by
  refine h.elim fun d d' db h => ?_
  -- from the new counter to the new segment: the next number is taken and not yet in use
  let R : Sys → Sys → Prop := fun s t => s.db = db.enqueue ∧ t.db = db.enqueue ∧
    AlikeDisk (db.manifest.nextWALSegmentID + 1) s.disk t.disk
  have hweak : ∀ s t, R s t → Alike s t := by
    intro s t hR
    obtain ⟨hs, ht, hd⟩ := hR
    refine ⟨ht.trans hs.symm, ?_, ?_⟩
    · rw [hs]
      exact h.wal_le.trans (Nat.le_succ _)
    · rw [hs]
      exact hd.mono (Nat.le_succ _)
  refine coupled_bind_of (coupled_modify (R := R) ⟨rfl, rfl, h.disk⟩) hweak fun _ s t hst => ?_
  obtain ⟨e, db₁⟩ := s
  obtain ⟨e', db₂⟩ := t
  obtain ⟨rfl, rfl, he⟩ := hst
  refine coupled_get ?_
  refine coupled_bind_of (coupled_zoom (R := R) (coupled_newSegmentInDir (Nat.le_refl _) he)
    fun _ _ he => ⟨rfl, rfl, he⟩) hweak fun _ s t hst => ?_
  obtain ⟨e, db₁⟩ := s
  obtain ⟨e', db₂⟩ := t
  obtain ⟨rfl, rfl, he⟩ := hst
  refine coupled_bind (coupled_modify ⟨rfl, Nat.le_refl _, ?_⟩) fun _ _ _ h =>
    coupled_call fun _ => h
  exact he.mono (Nat.le_succ _)

theorem coupled_rotateIfFull : coupled M Alike rotateIfFull rotateIfFull s t := by
  refine h.elim fun d d' db h => coupled_get ?_
  dsimp only
  split
  · exact coupled_rotateMemtable h
  · exact coupled_pure h

omit h in
/-- The common part of mutations: log, memtable and counter, rotation. -/
theorem coupled_mutation {p : Op Unit} {f : DB → DB} (hp : coupled M Alike p p s t)
    (hwal : ∀ db, (f db).wal = db.wal)
    (hnext : ∀ db, (f db).manifest.nextWALSegmentID = db.manifest.nextWALSegmentID) :
    coupled M Alike (do p; updateDB f; rotateIfFull) (do p; updateDB f; rotateIfFull) s t := by
  refine coupled_bind hp fun _ s t h => ?_
  refine coupled_bind (coupled_updateDB h hwal hnext) fun _ s t h => ?_
  exact coupled_rotateIfFull h

theorem coupled_writeEntry (key : Key) (entry : Entry) :
    coupled M Alike (writeEntry cfg key entry) (writeEntry cfg key entry) s t :=
  h.elim fun _ _ _ h => coupled_get
    (coupled_mutation (coupled_writeRecord h _) (fun _ => rfl) fun _ => rfl)

theorem coupled_put (key : Key) (value : Bytes) :
    coupled M Alike (put cfg key value) (put cfg key value) s t := by
  refine h.elim fun d d' db h => coupled_get ?_
  dsimp only
  split
  · exact coupled_throw h
  · refine coupled_bind (coupled_ofExcept h) fun _ s t h => ?_
    exact coupled_bind (coupled_ofExcept h) fun _ s t h => coupled_writeEntry h _ _

theorem coupled_delete (key : Key) : coupled M Alike (delete cfg key) (delete cfg key) s t := by
  refine h.elim fun d d' db h => coupled_get ?_
  dsimp only
  split
  · exact coupled_throw h
  · exact coupled_bind (coupled_ofExcept h) fun _ s t h => coupled_writeEntry h _ _

theorem coupled_applyBatch (operations : List BatchOperation) (sync : Bool) :
    coupled M Alike (applyBatch cfg operations sync) (applyBatch cfg operations sync) s t := by
  refine h.elim fun d d' db h => coupled_get ?_
  dsimp only
  split
  · exact coupled_throw h
  · exact coupled_mutation (coupled_writeBatch h _ _ sync) (fun _ => rfl) fun _ => rfl

theorem coupled_commit (calls : List BatchCall) (sync : Bool) :
    coupled M Alike (commit cfg calls sync) (commit cfg calls sync) s t :=
  h.elim fun _ _ _ h => coupled_get (coupled_applyBatch h _ sync)

/-! ### The background jobs -/

theorem coupled_createTable (path : TablePath) (recs : List Record) :
    coupled M Alike (createTable path recs) (createTable path recs) s t := by
  refine h.elim fun d d' db h => ?_
  unfold createTable
  split
  · exact coupled_throw h
  · refine coupled_bind (coupled_call fun fate => coupled_atomically h ?_ fate)
      fun _ _ _ h => coupled_call fun _ => h
    exact ⟨rfl, h.wal_le, by
      show AlikeDisk _ { d with tables := _ } { d' with tables := _ }
      rw [h.disk.tables]
      exact h.disk.setTables _⟩

theorem coupled_removeTable (path : TablePath) :
    coupled M Alike (removeTable path) (removeTable path) s t := by
  refine h.elim fun d d' db h => coupled_call fun fate => coupled_atomically h ?_ fate
  exact ⟨rfl, h.wal_le, by
    show AlikeDisk _ { d with tables := _ } { d' with tables := _ }
    rw [h.disk.tables]
    exact h.disk.setTables _⟩

theorem coupled_writeManifest : coupled M Alike writeManifest writeManifest s t := by
  refine h.elim fun d d' db h => ?_
  refine coupled_bind (coupled_call fun fate => coupled_atomically h ?_ fate)
    fun _ _ _ h => coupled_call fun _ => h
  exact ⟨rfl, h.wal_le, h.disk.setManifest _⟩

theorem coupled_removeTables (tables : List SSTableMetadata) :
    coupled M Alike (removeTables tables) (removeTables tables) s t := by
  induction tables generalizing s t with
  | nil => exact coupled_attempt (coupled_call fun _ => h)
  | cons u tables ih =>
      refine coupled_bind (coupled_attempt (coupled_removeTable h _)) fun _ s t h => ?_
      exact coupled_bind (ih h) fun _ _ _ h => coupled_pure h

theorem coupled_flushReserve : coupled M Alike flushReserve flushReserve s t := by
  refine h.elim fun d d' db h => coupled_get ?_
  dsimp only
  split
  · exact coupled_updateDB h (fun _ => rfl) fun _ => rfl
  · exact coupled_updateDB h (fun _ => rfl) fun _ => rfl
  · exact coupled_pure h

theorem coupled_flushWrite : coupled M Alike (flushWrite cfg) (flushWrite cfg) s t := by
  refine h.elim fun d d' db h => coupled_get ?_
  dsimp only
  split
  · refine coupled_bind (coupled_attempt (coupled_createTable h _ _)) fun result s t h => ?_
    split
    · exact coupled_bind (coupled_updateDB h (fun _ => rfl) fun _ => rfl)
        fun _ _ _ h => coupled_throw h
    · exact coupled_updateDB h (fun _ => rfl) fun _ => rfl
  · exact coupled_pure h

theorem coupled_flushPublish : coupled M Alike flushPublish flushPublish s t := by
  refine h.elim fun d d' db h => coupled_get ?_
  dsimp only
  split
  · refine coupled_bind (coupled_updateDB h (fun _ => rfl) fun _ => rfl) fun _ s t h => ?_
    refine coupled_bind (coupled_attempt (coupled_writeManifest h)) fun result s t h => ?_
    split
    · exact coupled_updateDB h (fun _ => rfl) fun _ => rfl
    · exact coupled_bind (coupled_updateDB h (fun _ => rfl) fun _ => rfl)
        fun _ _ _ h => coupled_throw h
    · exact coupled_bind (coupled_updateDB h (fun _ => rfl) fun _ => rfl)
        fun _ _ _ h => coupled_throw h
  · exact coupled_pure h

theorem coupled_removeSegment (walID : Nat) :
    coupled M Alike (removeSegment walID) (removeSegment walID) s t := by
  refine h.elim fun d d' db h => ?_
  refine coupled_bind (coupled_call fun fate => coupled_atomically h ?_ fate)
    fun _ _ _ h => coupled_call fun _ => h
  exact ⟨rfl, h.wal_le, h.disk.removeWal _⟩

theorem coupled_flushRemoveWAL : coupled M Alike flushRemoveWAL flushRemoveWAL s t := by
  refine h.elim fun d d' db h => coupled_get ?_
  dsimp only
  split
  · refine coupled_bind (coupled_attempt (coupled_removeSegment h _)) fun result s t h => ?_
    split
    · exact coupled_updateDB h (fun _ => rfl) fun _ => rfl
    · exact coupled_bind (coupled_updateDB h (fun _ => rfl) fun _ => rfl)
        fun _ _ _ h => coupled_throw h
  · exact coupled_pure h

theorem coupled_flushCleanup : coupled M Alike flushCleanup flushCleanup s t := by
  refine h.elim fun d d' db h => coupled_get ?_
  dsimp only
  split
  · refine coupled_bind (coupled_attempt (coupled_removeTable h _)) fun _ s t h => ?_
    exact coupled_updateDB h (fun _ => rfl) fun _ => rfl
  · exact coupled_pure h

theorem coupled_compactLocked (threshold : Nat) :
    coupled M Alike (compactLocked cfg threshold) (compactLocked cfg threshold) s t := by
  refine h.elim fun d d' db h => coupled_get ?_
  have hstat : Sys.stat cfg ⟨d', db⟩ = Sys.stat cfg ⟨d, db⟩ := by
    unfold Sys.stat
    rw [h.disk.tables]
  have hplan : compactionPlan cfg ⟨d', db⟩ threshold = compactionPlan cfg ⟨d, db⟩ threshold := by
    simp only [compactionPlan, hstat]
  have hread : ∀ tables, readTables d' tables = readTables d tables :=
    fun tables => readTables_congr fun _ _ => by rw [h.disk.tables]
  rw [hplan]
  cases compactionPlan cfg ⟨d, db⟩ threshold with
  | none => exact coupled_pure h
  | some plan =>
      dsimp only
      split
      · exact coupled_throw h
      · rw [hread]
        refine coupled_bind (coupled_ofExcept h) fun sources s t h => ?_
        refine coupled_bind (coupled_createTable h _ _) fun _ s t h => ?_
        refine coupled_bind (coupled_updateDB h (fun _ => rfl) fun _ => rfl) fun _ s t h => ?_
        refine coupled_bind (coupled_attempt (coupled_writeManifest h)) fun result s t h => ?_
        split
        · refine coupled_bind (coupled_updateDB h (fun _ => rfl) fun _ => rfl) fun _ s t h => ?_
          exact coupled_bind (coupled_removeTables h _) fun _ _ _ h => coupled_ofExcept h
        · exact coupled_bind (coupled_updateDB h (fun _ => rfl) fun _ => rfl)
            fun _ _ _ h => coupled_throw h
        · refine coupled_bind (coupled_updateDB h (fun _ => rfl) fun _ => rfl) fun _ s t h => ?_
          exact coupled_bind (coupled_attempt (coupled_removeTable h _))
            fun _ _ _ h => coupled_throw h

end Programs

/-! ### Worlds -/

/-- Worlds whose processes cannot tell them apart. -/
structure AlikeWorld (w w' : World) : Prop where
  proc : w'.proc = w.proc
  snapshots : w'.snapshots = w.snapshots
  iterators : w'.iterators = w.iterators
  sys : ∀ db, w.proc = some db → Alike ⟨w.disk, db⟩ ⟨w'.disk, db⟩

section Worlds

variable {cfg : Config} {M : Model Call} {w w' w'' : World} {fates : List Fate}

/-- A result and a world from each side. -/
def AlikeResult (p p' : World × Response) : Prop := p'.2 = p.2 ∧ AlikeWorld p.1 p'.1

theorem alikeWorld_afterKill (d d' : Disk) : AlikeWorld (.afterKill d) (.afterKill d') :=
  ⟨rfl, rfl, rfl, fun _ h => by cases h⟩

theorem AlikeWorld.trans (h : AlikeWorld w w') (h' : AlikeWorld w' w'') : AlikeWorld w w'' := by
  refine ⟨h'.proc.trans h.proc, h'.snapshots.trans h.snapshots, h'.iterators.trans h.iterators,
    fun db hdb => ?_⟩
  have hs := h.sys db hdb
  exact ⟨rfl, hs.wal_le, hs.disk.trans (h'.sys db (h.proc.trans hdb)).disk⟩

variable (h : AlikeWorld w w')

include h

theorem AlikeWorld.runOp {p : Op Unit} (hp : ∀ s t, Alike s t → coupled M Alike p p s t) :
    AlikeResult (w.runOp M p fates) (w'.runOp M p fates) := by
  unfold World.runOp
  rw [h.proc]
  cases hdb : w.proc with
  | none => exact ⟨rfl, h⟩
  | some db =>
      dsimp only
      have hout := hp _ _ (h.sys db hdb) fates
      generalize p M ⟨w.disk, db⟩ fates = o at hout ⊢
      generalize p M ⟨w'.disk, db⟩ fates = o' at hout ⊢
      cases hout with
      | ret hst =>
          refine ⟨rfl, congrArg some hst.db, h.snapshots, h.iterators, fun db' hdb' => ?_⟩
          obtain rfl := Option.some.inj hdb'
          exact ⟨rfl, hst.wal_le, hst.disk⟩
      | err hst =>
          refine ⟨rfl, congrArg some hst.db, h.snapshots, h.iterators, fun db' hdb' => ?_⟩
          obtain rfl := Option.some.inj hdb'
          exact ⟨rfl, hst.wal_le, hst.disk⟩
      | killed hst => exact ⟨rfl, alikeWorld_afterKill _ _⟩

/-- Changes of the process that make no call. -/
theorem AlikeWorld.updateProc {f f' : DB → Except DBError World}
    (hf : ∀ db, w.proc = some db → (∃ e, f db = .error e ∧ f' db = .error e) ∨
      ∃ v v', f db = .ok v ∧ f' db = .ok v' ∧ AlikeWorld v v') :
    AlikeResult (w.updateProc f) (w'.updateProc f') := by
  unfold World.updateProc
  rw [h.proc]
  cases hdb : w.proc with
  | none => exact ⟨rfl, h⟩
  | some db =>
      dsimp only
      rcases hf db hdb with ⟨e, he, he'⟩ | ⟨v, v', hv, hv', halike⟩
      · rw [he, he']
        exact ⟨rfl, h⟩
      · rw [hv, hv']
        exact ⟨rfl, halike⟩

/-- Another process in the same place, with the segments it had. -/
theorem AlikeWorld.setProc {db : DB} (hdb : w.proc = some db) (db' : DB) (hwal : db'.wal = db.wal)
    (hnext : db'.manifest.nextWALSegmentID = db.manifest.nextWALSegmentID)
    (snapshots : List Snapshot) (iterators : List Iterator) :
    AlikeWorld { w with proc := some db', snapshots, iterators }
      { w' with proc := some db', snapshots, iterators } :=
  ⟨rfl, rfl, rfl, fun _ h' => Option.some.inj h' ▸ (h.sys db hdb).update hwal hnext⟩

theorem AlikeWorld.newIterator {db : DB} (hdb : w.proc = some db) (opts : IteratorOptions)
    (maxSeq : UInt64) :
    HyphaDB.newIterator ⟨w'.disk, db⟩ opts maxSeq =
      HyphaDB.newIterator ⟨w.disk, db⟩ opts maxSeq := by
  have htables : w'.disk.tables = w.disk.tables := (h.sys db hdb).disk.tables
  have hread : readTables w'.disk db.sstables.reverse = readTables w.disk db.sstables.reverse :=
    readTables_congr fun _ _ => by rw [htables]
  unfold HyphaDB.newIterator
  dsimp only
  rw [hread]

theorem AlikeWorld.addIterator {db : DB} (hdb : w.proc = some db) (opts : IteratorOptions)
    (maxSeq : UInt64) :
    (∃ e, w.addIterator db opts maxSeq = .error e ∧ w'.addIterator db opts maxSeq = .error e) ∨
      ∃ v v', w.addIterator db opts maxSeq = .ok v ∧ w'.addIterator db opts maxSeq = .ok v' ∧
        AlikeWorld v v' := by
  unfold World.addIterator
  rw [h.newIterator hdb]
  cases db.limits.validateKey opts.start with
  | error e => exact Or.inl ⟨e, rfl, rfl⟩
  | ok _ =>
      cases db.limits.validateKey opts.stop with
      | error e => exact Or.inl ⟨e, rfl, rfl⟩
      | ok _ =>
          cases HyphaDB.newIterator ⟨w.disk, db⟩ opts maxSeq with
          | error e => exact Or.inl ⟨e, rfl, rfl⟩
          | ok it =>
              refine Or.inr ⟨_, _, rfl, rfl, ?_⟩
              rw [h.snapshots, h.iterators]
              exact h.setProc hdb _ (by rfl) (by rfl) _ _

theorem AlikeWorld.get (key : Key) : w'.get key = w.get key := by
  unfold World.get
  rw [h.proc]
  cases hdb : w.proc with
  | none => rfl
  | some db =>
      have htables : w'.disk.tables = w.disk.tables := (h.sys db hdb).disk.tables
      unfold HyphaDB.get getAt
      dsimp only
      rw [findAt_congr fun _ _ => congrFun htables _]

/-- **One event on both sides.** -/
theorem step_alike {event : Event} (hopen : ∀ opts, event ≠ .openDB opts) :
    AlikeResult (step cfg M w event fates) (step cfg M w' event fates) := by
  cases event with
  | openDB opts => exact absurd rfl (hopen opts)
  | put key value => exact h.runOp fun _ _ h => coupled_put h key value
  | delete key => exact h.runOp fun _ _ h => coupled_delete h key
  | commit calls sync => exact h.runOp fun _ _ h => coupled_commit h calls sync
  | flushReserve => exact h.runOp fun _ _ h => coupled_flushReserve h
  | flushWrite => exact h.runOp fun _ _ h => coupled_flushWrite h
  | flushPublish => exact h.runOp fun _ _ h => coupled_flushPublish h
  | flushRemoveWAL => exact h.runOp fun _ _ h => coupled_flushRemoveWAL h
  | flushCleanup => exact h.runOp fun _ _ h => coupled_flushCleanup h
  | compact => exact h.runOp fun _ _ h => coupled_compactLocked h 1
  | compactInBackground =>
      exact h.runOp fun _ _ h => h.elim fun _ _ _ h => coupled_get (coupled_compactLocked h _)
  | iteratorNext i =>
      show _ ∧ AlikeWorld (w.iteratorNext i) (w'.iteratorNext i)
      unfold World.iteratorNext
      rw [h.iterators]
      split
      · exact ⟨rfl, h⟩
      · exact ⟨rfl, h.proc, h.snapshots, rfl, h.sys⟩
  | kill => exact ⟨rfl, alikeWorld_afterKill _ _⟩
  | beginClose =>
      refine h.updateProc fun db hdb => Or.inr ⟨_, _, rfl, rfl, ?_⟩
      rw [h.snapshots, h.iterators]
      exact h.setProc hdb _ (by rfl) (by rfl) _ _
  | endClose =>
      refine h.updateProc fun db hdb => ?_
      split
      · exact Or.inr ⟨_, _, rfl, rfl, alikeWorld_afterKill _ _⟩
      · exact Or.inl ⟨_, rfl, rfl⟩
  | newSnapshot =>
      refine h.updateProc fun db hdb => ?_
      unfold World.newSnapshot
      split
      · exact Or.inl ⟨_, rfl, rfl⟩
      · refine Or.inr ⟨_, _, rfl, rfl, ?_⟩
        rw [h.snapshots, h.iterators]
        exact h.setProc hdb _ (by rfl) (by rfl) _ _
  | closeSnapshot i =>
      refine h.updateProc fun db hdb => ?_
      unfold World.closeSnapshot
      rw [h.snapshots]
      split
      · exact Or.inr ⟨_, _, rfl, rfl, h⟩
      · split
        · exact Or.inr ⟨_, _, rfl, rfl, h⟩
        · refine Or.inr ⟨_, _, rfl, rfl, ?_⟩
          rw [h.iterators]
          exact h.setProc hdb _ (by rfl) (by rfl) _ _
  | newIterator opts =>
      refine h.updateProc fun db hdb => ?_
      split
      · exact Or.inl ⟨_, rfl, rfl⟩
      · exact h.addIterator hdb opts _
  | snapshotIterator i opts =>
      refine h.updateProc fun db hdb => ?_
      unfold World.snapshotIterator
      rw [h.snapshots]
      split
      · exact Or.inr ⟨_, _, rfl, rfl, h⟩
      · split
        · exact Or.inl ⟨_, rfl, rfl⟩
        · split
          · exact Or.inl ⟨_, rfl, rfl⟩
          · exact h.addIterator hdb opts _
  | closeIterator i =>
      refine h.updateProc fun db hdb => ?_
      unfold World.closeIterator
      rw [h.iterators]
      split
      · exact Or.inr ⟨_, _, rfl, rfl, h⟩
      · split
        · exact Or.inr ⟨_, _, rfl, rfl, h⟩
        · refine Or.inr ⟨_, _, rfl, rfl, ?_⟩
          rw [h.snapshots]
          exact h.setProc hdb _ (by rfl) (by rfl) _ _

end Worlds

end HyphaDB
