import HyphaDB.Engine.World

/-!
# HyphaDB.Engine.Frames

**What the programs of the engine leave alone**, whatever becomes of their calls. A condition
that does not look at what a program changes is kept by it; the three structures below say what
that is for compactions, for the flush worker, and for mutations.
-/

namespace HyphaDB

open Faults Wal

variable {cfg : Config} {I : Sys → Prop}

theorem keeps_atomically {σ : Type} {I : σ → Prop} {f : σ → σ} (hf : ∀ s, I s → I (f s)) (s : σ)
    (fate : Fate) (h : I s) : I (atomically f s fate) := by
  cases fate with
  | done => exact hf s h
  | fail n => exact h
  | kill n =>
      cases n with
      | zero => exact h
      | succ n => exact hf s h

theorem keeps_updateDB {f : DB → DB} (hf : ∀ d db, I ⟨d, db⟩ → I ⟨d, f db⟩) :
    Keeps I (updateDB f) := keeps_modify fun s h => hf s.disk s.db h

/-! ### Compactions -/

/-- A condition that looks neither at tables nor at the manifest. -/
structure IgnoresTables (I : Sys → Prop) : Prop where
  tables : ∀ d db sstables metadata, I ⟨d, db⟩ → I ⟨d, db.setTables sstables metadata⟩
  nextID : ∀ d db id, I ⟨d, db⟩ → I ⟨d, db.setNextSSTableID id⟩
  files : ∀ d db manifest tables, I ⟨d, db⟩ → I ⟨{ d with manifest, tables }, db⟩

section Tables

variable (hI : IgnoresTables I)

include hI

theorem keeps_createTable (path : TablePath) (recs : List Record) :
    Keeps I (createTable path recs) := by
  unfold createTable
  split
  · exact keeps_throw _
  · refine keeps_bind (keeps_call fun s fate h => ?_) fun _ => keeps_call fun _ _ h => h
    exact keeps_atomically (fun s h => hI.files s.disk s.db s.disk.manifest _ h) s fate h

theorem keeps_writeManifest : Keeps I writeManifest := by
  refine keeps_bind (keeps_call fun s fate h => ?_) fun _ => keeps_call fun _ _ h => h
  exact keeps_atomically (fun s h => hI.files s.disk s.db _ s.disk.tables h) s fate h

theorem keeps_removeTable (path : TablePath) : Keeps I (removeTable path) := by
  refine keeps_call fun s fate h => ?_
  exact keeps_atomically (fun s h => hI.files s.disk s.db s.disk.manifest _ h) s fate h

theorem keeps_removeTables (tables : List SSTableMetadata) : Keeps I (removeTables tables) := by
  induction tables with
  | nil => exact keeps_attempt (keeps_call fun _ _ h => h)
  | cons t tables ih =>
      refine keeps_bind (keeps_attempt (keeps_removeTable hI _)) fun _ => ?_
      exact keeps_bind ih fun _ => keeps_pure _

theorem keeps_compactLocked (threshold : Nat) : Keeps I (compactLocked cfg threshold) := by
  refine keeps_bind keeps_get fun s => ?_
  cases compactionPlan cfg s threshold with
  | none => exact keeps_pure _
  | some plan =>
      dsimp only
      split
      · exact keeps_throw _
      · refine keeps_bind (keeps_ofExcept _) fun sources => ?_
        refine keeps_bind (keeps_createTable hI _ _) fun _ => ?_
        refine keeps_bind (keeps_updateDB fun d db h => ?_) fun _ => ?_
        · exact hI.nextID _ _ _ (hI.tables _ _ _ _ h)
        refine keeps_bind (keeps_attempt (keeps_writeManifest hI)) fun result => ?_
        have hswitch : ∀ table selected, Keeps I (updateDB fun db =>
            db.setTables (replaceSelected selected table db.sstables) db.manifest.sstables) :=
          fun _ _ => keeps_updateDB fun d db h => hI.tables _ _ _ _ h
        split
        · refine keeps_bind (hswitch _ _) fun _ => ?_
          exact keeps_bind (keeps_removeTables hI _) fun _ => keeps_ofExcept _
        · exact keeps_bind (hswitch _ _) fun _ => keeps_throw _
        · refine keeps_bind (keeps_updateDB fun d db h => ?_) fun _ => ?_
          · exact hI.nextID _ _ _ (hI.tables _ _ _ _ h)
          · exact keeps_bind (keeps_attempt (keeps_removeTable hI _)) fun _ => keeps_throw _

theorem keeps_compact : Keeps I (compact cfg) := keeps_compactLocked hI 1

theorem keeps_compactInBackground : Keeps I (compactInBackground cfg) :=
  keeps_bind keeps_get fun _ => keeps_compactLocked hI _

end Tables

/-! ### The flush worker -/

/-- A condition that looks at nothing a flush changes before it removes a segment. -/
structure IgnoresQueue (I : Sys → Prop) : Prop extends IgnoresTables I where
  flusher : ∀ d db flusher, I ⟨d, db⟩ → I ⟨d, db.setFlusher flusher⟩
  queue : ∀ d db imm, I ⟨d, db⟩ → I ⟨d, db.dequeue imm⟩

/-- A condition that looks at nothing a flush changes. -/
structure IgnoresFlush (I : Sys → Prop) : Prop extends IgnoresQueue I where
  segments : ∀ d db wals, I ⟨d, db⟩ → I ⟨{ d with wals }, db⟩

section Flush

variable (hI : IgnoresQueue I)

include hI

theorem keeps_flushReserve : Keeps I flushReserve := by
  refine keeps_bind keeps_get fun s => ?_
  split
  · exact keeps_updateDB fun d db h => hI.flusher _ _ _ (hI.nextID _ _ _ h)
  · exact keeps_updateDB fun d db h => hI.flusher _ _ _ (hI.nextID _ _ _ h)
  · exact keeps_pure _

theorem keeps_flushWrite : Keeps I (flushWrite cfg) := by
  refine keeps_bind keeps_get fun s => ?_
  split
  · refine keeps_bind (keeps_attempt (keeps_createTable hI.toIgnoresTables _ _)) fun result => ?_
    split
    · refine keeps_bind (keeps_updateDB fun d db h => ?_) fun _ => keeps_throw _
      exact hI.flusher _ _ _ (hI.nextID _ _ _ h)
    · exact keeps_updateDB fun d db h => hI.flusher _ _ _ h
  · exact keeps_pure _

theorem keeps_flushPublish : Keeps I flushPublish := by
  refine keeps_bind keeps_get fun s => ?_
  split
  · refine keeps_bind (keeps_updateDB fun d db h => hI.tables _ _ _ _ h) fun _ => ?_
    refine keeps_bind (keeps_attempt (keeps_writeManifest hI.toIgnoresTables)) fun result => ?_
    split
    · exact keeps_updateDB fun d db h => hI.flusher _ _ _ (hI.queue _ _ _ h)
    · refine keeps_bind (keeps_updateDB fun d db h => ?_) fun _ => keeps_throw _
      exact hI.flusher _ _ _ (hI.queue _ _ _ h)
    · refine keeps_bind (keeps_updateDB fun d db h => ?_) fun _ => keeps_throw _
      exact hI.flusher _ _ _ (hI.nextID _ _ _ (hI.tables _ _ _ _ h))
  · exact keeps_pure _

theorem keeps_flushCleanup : Keeps I flushCleanup := by
  refine keeps_bind keeps_get fun s => ?_
  split
  · refine keeps_bind (keeps_attempt (keeps_removeTable hI.toIgnoresTables _)) fun _ => ?_
    exact keeps_updateDB fun d db h => hI.flusher _ _ _ h
  · exact keeps_pure _

omit hI in
theorem keeps_flushRemoveWAL (hI : IgnoresFlush I) : Keeps I flushRemoveWAL := by
  refine keeps_bind keeps_get fun s => ?_
  split
  · refine keeps_bind (keeps_attempt (keeps_bind (keeps_call fun t fate h => ?_) fun _ =>
      keeps_call fun _ _ h => h)) fun result => ?_
    · exact keeps_atomically (fun t h => hI.segments t.disk t.db _ h) t fate h
    · split
      · exact keeps_updateDB fun d db h => hI.flusher _ _ _ h
      · exact keeps_bind (keeps_updateDB fun d db h => hI.flusher _ _ _ h) fun _ => keeps_throw _
  · exact keeps_pure _

end Flush

/-! ### Mutations -/

/-- A condition that looks at no segment and not at the queue of memtables. -/
structure IgnoresRotation (I : Sys → Prop) : Prop where
  segments : ∀ d db wals, I ⟨d, db⟩ → I ⟨{ d with wals }, db⟩
  enqueue : ∀ d db, I ⟨d, db⟩ → I ⟨d, db.enqueue⟩
  switch : ∀ d db, I ⟨d, db⟩ → I ⟨d, db.switch⟩

/-- A condition that an append to the active segment keeps. -/
def IgnoresAppend (I : Sys → Prop) : Prop :=
  ∀ d db bytes, I ⟨d, db⟩ → I ⟨d.appendWal db.wal bytes, db⟩

theorem IgnoresRotation.append (hI : IgnoresRotation I) : IgnoresAppend I :=
  fun d db _ h => hI.segments d db _ h

section Appends

variable (hI : IgnoresAppend I)

include hI

theorem keeps_writeRecord (rec : Record) : Keeps I (writeRecord cfg rec) :=
  keeps_bind (keeps_ofExcept _) fun _ => keeps_call fun s _ h => hI s.disk s.db _ h

theorem keeps_writeBatch (batchID : UInt64) (recs : List Record) (sync : Bool) :
    Keeps I (writeBatch cfg batchID recs sync) := by
  refine keeps_bind (keeps_writeRecord hI _) fun _ => ?_
  refine keeps_bind (keeps_forEach (fun _ => keeps_writeRecord hI _) _) fun _ => ?_
  refine keeps_bind (keeps_writeRecord hI _) fun _ => ?_
  split
  · exact keeps_call fun _ _ h => h
  · exact keeps_pure _

end Appends

section Writes

variable (hI : IgnoresRotation I)

include hI

omit hI in
theorem keeps_newSegmentInDir {J : Disk → Prop} (hJ : ∀ d wals, J d → J { d with wals })
    (id : Nat) : Keeps J (newSegmentInDir id) := by
  refine keeps_bind (keeps_call fun d fate h => ?_) fun _ => keeps_bind keeps_get fun d => ?_
  · refine keeps_atomically (fun d h => ?_) d fate h
    split
    · exact hJ d _ h
    · exact h
  · split
    · refine keeps_bind (keeps_call fun d _ h => hJ d _ h) fun _ => ?_
      exact keeps_bind (keeps_call fun _ _ h => h) fun _ => keeps_call fun _ _ h => h
    · exact keeps_ofExcept _

theorem keeps_rotateIfFull : Keeps I rotateIfFull := by
  refine keeps_bind keeps_get fun s => ?_
  split
  · refine keeps_bind (keeps_updateDB fun d db h => hI.enqueue _ _ h) fun _ => ?_
    refine keeps_bind keeps_get fun s => ?_
    refine keeps_bind (keeps_zoom (fun _ => rfl) fun t => ?_) fun _ => ?_
    · exact keeps_newSegmentInDir (fun d wals h => hI.segments d _ wals h) _
    refine keeps_bind (keeps_updateDB fun d db h => hI.switch _ _ h) fun _ => ?_
    exact keeps_call fun _ _ h => h
  · exact keeps_pure _

omit hI in
/-- The common part of mutations: log, memtable and counter, rotation. -/
theorem wp_mutate {J : Sys → Prop} (hJ : IgnoresRotation J) {p : Op Unit} (hp : Keeps I p)
    {f : DB → DB} (hf : ∀ d db, I ⟨d, db⟩ → J ⟨d, f db⟩) {M : Model Call} {s : Sys} (hs : I s) :
    wp M (do p; updateDB f; rotateIfFull)
      ⟨fun _ t => J t, fun _ t => I t ∨ J t, fun t => I t ∨ J t⟩ s := by
  refine wp_bind (wp_mono (hp M s hs) (fun _ t ht => ?_) (fun _ _ ht => Or.inl ht)
    fun _ ht => Or.inl ht)
  refine wp_bind (wp_modify ?_)
  exact wp_mono (keeps_rotateIfFull hJ M _ (hf t.disk t.db ht)) (fun _ _ h => h)
    (fun _ _ h => Or.inr h) fun _ h => Or.inr h

end Writes

/-! ### Mutations as events -/

/-- What a mutation does behind its checks. -/
def mutate (append : Op Unit) (recs : List Record) (n : Nat) : Op Unit := do
  append
  updateDB fun db => { db.putRecords recs with nextSeq := db.nextSeq + UInt64.ofNat n }
  rotateIfFull

/-- What a mutation writes to the log. -/
def appendOf (cfg : Config) (db : DB) : Event → Op Unit
  | .put key value => writeRecord cfg (entryRecord key db.nextSeq { value, deleted := false })
  | .delete key => writeRecord cfg (entryRecord key db.nextSeq { value := [], deleted := true })
  | .commit calls sync =>
      writeBatch cfg db.nextSeq (batchEntries db.nextSeq (batchOperations db.limits calls)) sync
  | _ => pure ()

theorem keeps_appendOf (hI : IgnoresAppend I) (db : DB) (event : Event) :
    Keeps I (appendOf cfg db event) := by
  cases event with
  | put key value => exact keeps_writeRecord hI _
  | delete key => exact keeps_writeRecord hI _
  | commit calls sync => exact keeps_writeBatch hI _ _ sync
  | _ => exact keeps_pure ()

def Event.mutates : Event → Bool
  | .put _ _ | .delete _ | .commit _ _ => true
  | _ => false

/-- A mutation is refused by its checks, or it is admitted. -/
inductive MutationCases (cfg : Config) (w : World) (db : DB) (event : Event) : Prop
  | refused (e : DBError) (he : e.unsettled = false) (hops : mutations w event = [])
      (hcost : event.cost w = 0) (hstep : ∀ M fates, step cfg M w event fates = (w, .err e))
  | admitted (hopen : db.closed = false) (hpos : 0 < event.cost w)
      (hstep : ∀ M fates, step cfg M w event fates =
        w.runOp M (mutate (appendOf cfg db event)
          (batchEntries db.nextSeq (mutations w event)) (event.cost w)) fates)

section Events

variable {w : World} {db : DB} (hdb : w.proc = some db)

include hdb

theorem runOp_congr {p q : Op Unit} {M : Model Call} {fates : List Fate}
    (h : p M ⟨w.disk, db⟩ fates = q M ⟨w.disk, db⟩ fates) :
    w.runOp M p fates = w.runOp M q fates := by
  unfold World.runOp
  rw [hdb]
  dsimp only
  rw [h]

theorem runOp_throw {p : Op Unit} {M : Model Call} {fates : List Fate} {e : DBError}
    (h : p M ⟨w.disk, db⟩ fates = .err e ⟨w.disk, db⟩ fates) :
    w.runOp M p fates = (w, .err e) := by
  obtain ⟨disk, proc, snapshots, iterators⟩ := w
  obtain rfl : proc = some db := hdb
  unfold World.runOp
  dsimp only at h ⊢
  rw [h]

omit hdb in
theorem runOp_stopped (hno : w.proc = none) (M : Model Call) (p : Op Unit) (fates : List Fate) :
    w.runOp M p fates = (w, .err .closed) := by
  unfold World.runOp
  rw [hno]

theorem runOp_running {p : Op Unit} {M : Model Call} {fates : List Fate} :
    w.runOp M p fates =
      match p M ⟨w.disk, db⟩ fates with
      | .ret _ s _ => ({ w with disk := s.disk, proc := some s.db }, .ok)
      | .err e s _ => ({ w with disk := s.disk, proc := some s.db }, .err e)
      | .killed s => (.afterKill s.disk, .killed) := by
  obtain ⟨disk, proc, snapshots, iterators⟩ := w
  obtain rfl : proc = some db := hdb
  rfl

/-- **The ways a program ends**, and what a condition on it says then. -/
theorem runOp_cases {p : Op Unit} {M : Model Call} {Q : Post Sys DBError Unit}
    (hp : wp M p Q ⟨w.disk, db⟩) (fates : List Fate) :
    (∃ t : Sys, Q.ret () t ∧
      w.runOp M p fates = ({ w with disk := t.disk, proc := some t.db }, .ok)) ∨
    (∃ e, ∃ t : Sys, Q.err e t ∧
      w.runOp M p fates = ({ w with disk := t.disk, proc := some t.db }, .err e)) ∨
    ∃ t : Sys, Q.kill t ∧ w.runOp M p fates = (.afterKill t.disk, .killed) := by
  have hout := hp fates
  rw [runOp_running hdb]
  generalize p M ⟨w.disk, db⟩ fates = o at hout ⊢
  cases o with
  | ret a t rest => exact Or.inl ⟨t, hout, rfl⟩
  | err e t rest => exact Or.inr (Or.inl ⟨e, t, hout, rfl⟩)
  | killed t => exact Or.inr (Or.inr ⟨t, hout, rfl⟩)

/-- The check that every mutation begins with. -/
theorem runOp_checked (p : Sys → Op Unit) (M : Model Call) (fates : List Fate) :
    w.runOp M (do
        let s ← Prog.get
        if s.db.closed then Prog.throw .closed else p s) fates =
      if db.closed then (w, .err .closed) else w.runOp M (p ⟨w.disk, db⟩) fates := by
  by_cases hclosed : db.closed = true
  · rw [if_pos hclosed]
    refine runOp_throw hdb ?_
    show (if db.closed = true then Prog.throw DBError.closed else _ : Op Unit) M _ fates = _
    rw [if_pos hclosed]
    rfl
  · rw [if_neg hclosed]
    refine runOp_congr hdb ?_
    show (if db.closed = true then Prog.throw DBError.closed else _ : Op Unit) M _ fates = _
    rw [if_neg hclosed]

theorem mutations_closed (hclosed : db.closed = true) (event : Event) :
    mutations w event = [] ∧ event.cost w = 0 := by
  unfold mutations Event.cost
  rw [hdb]
  exact ⟨if_pos hclosed, if_pos hclosed⟩

theorem mutations_open (hopen : db.closed = false) (event : Event) :
    mutations w event = db.admits event := by
  unfold mutations
  rw [hdb]
  exact if_neg (by simp [hopen])

theorem cost_entry (hopen : db.closed = false) {event : Event}
    (hevent : ∀ calls sync, event ≠ .commit calls sync) :
    event.cost w = (db.admits event).length := by
  unfold Event.cost
  rw [hdb]
  dsimp only
  rw [if_neg (by simp [hopen])]
  cases event with
  | commit calls sync => exact absurd rfl (hevent calls sync)
  | _ => rfl

/-- A `Put` or `Delete` that passed its checks. -/
theorem MutationCases.entry (hopen : db.closed = false) {event : Event} {key : Key} {entry : Entry}
    (hevent : ∀ calls sync, event ≠ .commit calls sync)
    (hadmits : db.admits event = [⟨key, entry⟩])
    (happend : appendOf cfg db event = writeRecord cfg (entryRecord key db.nextSeq entry))
    (hstep : ∀ M fates, step cfg M w event fates = w.runOp M (writeEntry cfg key entry) fates) :
    MutationCases cfg w db event := by
  have hcost : event.cost w = 1 := by rw [cost_entry hdb hopen hevent, hadmits]; rfl
  have hrec : batchEntries db.nextSeq [⟨key, entry⟩] = [entryRecord key db.nextSeq entry] := by
    show [entryRecord key (db.nextSeq + UInt64.ofNat 0) entry] = _
    rw [show UInt64.ofNat 0 = 0 from rfl, UInt64.add_zero]
  refine .admitted hopen (by omega) fun M fates => ?_
  rw [hstep, mutations_open hdb hopen, hadmits, happend, hcost, hrec]
  exact runOp_congr hdb rfl

theorem MutationCases.closed (hclosed : db.closed = true) {event : Event}
    (hstep : ∀ M fates, step cfg M w event fates = (w, .err .closed)) :
    MutationCases cfg w db event :=
  .refused .closed rfl (mutations_closed hdb hclosed event).1
    (mutations_closed hdb hclosed event).2 hstep

/-- A `Put` or `Delete` that failed a check. -/
theorem MutationCases.invalid (hopen : db.closed = false) {event : Event} {e : DBError}
    (he : e.unsettled = false) (hevent : ∀ calls sync, event ≠ .commit calls sync)
    (hadmits : db.admits event = [])
    (hstep : ∀ M fates, step cfg M w event fates = (w, .err e)) : MutationCases cfg w db event := by
  refine .refused e he ?_ ?_ hstep
  · rw [mutations_open hdb hopen, hadmits]
  · rw [cost_entry hdb hopen hevent, hadmits]
    rfl

theorem put_cases (key : Key) (value : Bytes) : MutationCases cfg w db (.put key value) := by
  have hput : ∀ M fates, step cfg M w (.put key value) fates = _ :=
    fun M fates => runOp_checked hdb _ M fates
  cases hclosed : db.closed with
  | true => exact .closed hdb hclosed fun M fates => (hput M fates).trans (if_pos hclosed)
  | false =>
      have hne : ∀ calls sync, Event.put key value ≠ .commit calls sync :=
        fun _ _ h => (by cases h)
      simp only [hclosed, Bool.false_eq_true, if_false] at hput
      by_cases hkey : db.limits.maxKeyBytes < key.length
      · refine .invalid hdb hclosed (e := .keyTooLarge key.length db.limits.maxKeyBytes) rfl hne
          (if_pos (Or.inl hkey)) fun M fates => ?_
        rw [hput, Limits.validateKey, if_pos hkey]
        exact runOp_throw hdb rfl
      · by_cases hvalue : db.limits.maxValueBytes < value.length
        · refine .invalid hdb hclosed
            (e := .valueTooLarge value.length db.limits.maxValueBytes) rfl hne
            (if_pos (Or.inr hvalue)) fun M fates => ?_
          rw [hput, Limits.validateKey, if_neg hkey, Limits.validateValue, if_pos hvalue]
          exact runOp_throw hdb rfl
        · refine .entry hdb hclosed hne (if_neg (not_or.mpr ⟨hkey, hvalue⟩)) rfl fun M fates => ?_
          rw [hput, Limits.validateKey, if_neg hkey, Limits.validateValue, if_neg hvalue]
          exact runOp_congr hdb rfl

theorem delete_cases (key : Key) : MutationCases cfg w db (.delete key) := by
  have hdelete : ∀ M fates, step cfg M w (.delete key) fates = _ :=
    fun M fates => runOp_checked hdb _ M fates
  cases hclosed : db.closed with
  | true => exact .closed hdb hclosed fun M fates => (hdelete M fates).trans (if_pos hclosed)
  | false =>
      have hne : ∀ calls sync, Event.delete key ≠ .commit calls sync := fun _ _ h => (by cases h)
      simp only [hclosed, Bool.false_eq_true, if_false] at hdelete
      by_cases hkey : db.limits.maxKeyBytes < key.length
      · refine .invalid hdb hclosed (e := .keyTooLarge key.length db.limits.maxKeyBytes) rfl hne
          (if_pos hkey) fun M fates => ?_
        rw [hdelete, Limits.validateKey, if_pos hkey]
        exact runOp_throw hdb rfl
      · refine .entry hdb hclosed hne (if_neg hkey) rfl fun M fates => ?_
        rw [hdelete, Limits.validateKey, if_neg hkey]
        exact runOp_congr hdb rfl

theorem commit_cases (calls : List BatchCall) (sync : Bool) :
    MutationCases cfg w db (.commit calls sync) := by
  have hcommit : ∀ M fates, step cfg M w (.commit calls sync) fates =
      w.runOp M (applyBatch cfg (batchOperations db.limits calls) sync) fates :=
    fun M fates => runOp_congr hdb rfl
  cases hclosed : db.closed with
  | true =>
      exact .closed hdb hclosed fun M fates =>
        ((hcommit M fates).trans (runOp_checked hdb _ M fates)).trans (if_pos hclosed)
  | false =>
      have hcost : (Event.commit calls sync).cost w =
          batchCost (batchOperations db.limits calls) := by
        unfold Event.cost
        rw [hdb]
        exact if_neg (by simp [hclosed])
      refine .admitted hclosed ?_ fun M fates => ?_
      · rw [hcost, batchCost]
        split
        · exact Nat.one_pos
        · omega
      · rw [mutations_open hdb hclosed, hcost]
        exact ((hcommit M fates).trans (runOp_checked hdb _ M fates)).trans
          (if_neg (by simp [hclosed]))

omit hdb in
/-- A new iterator registers its reader. -/
theorem addIterator_ok {opts : IteratorOptions} {maxSeq : UInt64} {w' : World}
    (h : w.addIterator db opts maxSeq = .ok w') :
    ∃ it, HyphaDB.newIterator ⟨w.disk, db⟩ opts maxSeq = .ok it ∧
      w' = { w with
        proc := some (db.registerReader maxSeq), iterators := w.iterators ++ [it] } := by
  unfold World.addIterator at h
  obtain ⟨-, -, h⟩ := Checked.bind_eq_ok h
  obtain ⟨-, -, h⟩ := Checked.bind_eq_ok h
  obtain ⟨it, hit, h⟩ := Checked.bind_eq_ok h
  exact ⟨it, hit, (Except.ok.inj h).symm⟩

/-- **A mutation is refused without effect, or it appends, puts and rotates.** -/
theorem mutation_cases {event : Event} (hevent : event.mutates = true) :
    MutationCases cfg w db event := by
  cases event with
  | put key value => exact put_cases hdb key value
  | delete key => exact delete_cases hdb key
  | commit calls sync => exact commit_cases hdb calls sync
  | _ => cases hevent

/-! ### Events that make no file-system call -/

omit hdb in
/-- The directory is as it was, and so is the process but for its readers and its mark. -/
def Untouched (w : World) (db : DB) (closed : Bool) (w' : World) : Prop :=
  w'.disk = w.disk ∧ ∃ readers, w'.proc = some { db with activeReaders := readers, closed }

theorem untouched_self : Untouched w db db.closed w := ⟨rfl, db.activeReaders, hdb⟩

theorem untouched_updateProc {f : DB → Except DBError World}
    (hf : ∀ w', f db = .ok w' → Untouched w db db.closed w') :
    Untouched w db db.closed (w.updateProc f).1 := by
  unfold World.updateProc
  rw [hdb]
  dsimp only
  cases hok : f db with
  | error e => exact untouched_self hdb
  | ok w' => exact hf w' hok

omit hdb in
/-- A step of a background job, or a compaction. -/
def Event.works : Event → Bool
  | .flushReserve | .flushWrite | .flushPublish | .flushRemoveWAL | .flushCleanup | .compact
  | .compactInBackground => true
  | _ => false

omit hdb in
/-- **Such an event runs a program**, which leaves alone what a flush leaves alone. -/
theorem step_works {I : Sys → Prop} (hI : IgnoresFlush I) {event : Event}
    (hevent : event.works = true) (cfg : Config) :
    ∃ p : Op Unit, Keeps I p ∧ ∀ M w fates, step cfg M w event fates = w.runOp M p fates := by
  cases event with
  | flushReserve => exact ⟨_, keeps_flushReserve hI.toIgnoresQueue, fun _ _ _ => rfl⟩
  | flushWrite => exact ⟨_, keeps_flushWrite hI.toIgnoresQueue, fun _ _ _ => rfl⟩
  | flushPublish => exact ⟨_, keeps_flushPublish hI.toIgnoresQueue, fun _ _ _ => rfl⟩
  | flushRemoveWAL => exact ⟨_, keeps_flushRemoveWAL hI, fun _ _ _ => rfl⟩
  | flushCleanup => exact ⟨_, keeps_flushCleanup hI.toIgnoresQueue, fun _ _ _ => rfl⟩
  | compact => exact ⟨_, keeps_compact hI.toIgnoresTables, fun _ _ _ => rfl⟩
  | compactInBackground =>
      exact ⟨_, keeps_compactInBackground hI.toIgnoresTables, fun _ _ _ => rfl⟩
  | _ => cases hevent

omit hdb in
/-- An event that is neither a mutation nor a step of a background job. -/
def Event.idle : Event → Bool
  | .put _ _ | .delete _ | .commit _ _ | .flushReserve | .flushWrite | .flushPublish
  | .flushRemoveWAL | .flushCleanup | .compact | .compactInBackground => false
  | _ => true

omit hdb in
theorem Event.kinds (event : Event) :
    event.mutates = true ∨ event.works = true ∨ event.idle = true := by
  cases event <;> simp [Event.mutates, Event.works, Event.idle]

omit hdb in
/-- A call that makes, moves or closes a snapshot or an iterator. -/
def Event.reads : Event → Bool
  | .newSnapshot | .closeSnapshot _ | .newIterator _ | .snapshotIterator _ _ | .iteratorNext _
  | .closeIterator _ => true
  | _ => false

/-- Snapshots and iterators only come and go as readers. -/
theorem step_reads {M : Model Call} {event : Event} {fates : List Fate}
    (hevent : event.reads = true) : Untouched w db db.closed (step cfg M w event fates).1 := by
  have hself := untouched_self hdb
  have hadd : ∀ {opts maxSeq w'}, w.addIterator db opts maxSeq = .ok w' →
      Untouched w db db.closed w' := by
    intro opts maxSeq w' h
    obtain ⟨it, -, rfl⟩ := addIterator_ok h
    exact ⟨rfl, _, rfl⟩
  cases event with
  | newSnapshot =>
      refine untouched_updateProc hdb fun w' h => ?_
      unfold World.newSnapshot at h
      split at h
      · cases h
      · obtain rfl := Except.ok.inj h
        exact ⟨rfl, _, rfl⟩
  | closeSnapshot i =>
      refine untouched_updateProc hdb fun w' h => ?_
      unfold World.closeSnapshot at h
      split at h
      · exact Except.ok.inj h ▸ hself
      · split at h
        · exact Except.ok.inj h ▸ hself
        · obtain rfl := Except.ok.inj h
          exact ⟨rfl, _, rfl⟩
  | newIterator opts =>
      refine untouched_updateProc hdb fun w' h => ?_
      split at h
      · cases h
      · exact hadd h
  | snapshotIterator i opts =>
      refine untouched_updateProc hdb fun w' h => ?_
      unfold World.snapshotIterator at h
      split at h
      · exact Except.ok.inj h ▸ hself
      · split at h
        · cases h
        · split at h
          · cases h
          · exact hadd h
  | iteratorNext i =>
      show Untouched w db db.closed (w.iteratorNext i)
      unfold World.iteratorNext
      split
      · exact hself
      · exact ⟨rfl, db.activeReaders, hdb⟩
  | closeIterator i =>
      refine untouched_updateProc hdb fun w' h => ?_
      unfold World.closeIterator at h
      split at h
      · exact Except.ok.inj h ▸ hself
      · split at h
        · exact Except.ok.inj h ▸ hself
        · obtain rfl := Except.ok.inj h
          exact ⟨rfl, _, rfl⟩
  | _ => cases hevent

/-- **Such an event touches nothing**, or the process ends, killed or drained; only a `Close` call
that begins marks the database as closed. -/
theorem step_idle {M : Model Call} {event : Event} {fates : List Fate}
    (hevent : event.idle = true) :
    (∃ closed, (event = .beginClose ∨ closed = db.closed) ∧
      Untouched w db closed (step cfg M w event fates).1) ∨
    (event = .kill ∨ World.drained db = true) ∧
      (step cfg M w event fates).1 = .afterKill w.disk := by
  cases event with
  | put _ _ | delete _ | commit _ _ | flushReserve | flushWrite | flushPublish | flushRemoveWAL
  | flushCleanup | compact | compactInBackground => cases hevent
  | openDB opts =>
      refine Or.inl ⟨_, Or.inr rfl, ?_⟩
      show Untouched w db db.closed (openWorld cfg M w opts fates).1
      unfold openWorld
      rw [hdb]
      exact untouched_self hdb
  | kill => exact Or.inr ⟨Or.inl rfl, rfl⟩
  | beginClose =>
      refine Or.inl ⟨true, Or.inl rfl, ?_⟩
      show Untouched w db true (w.updateProc _).1
      unfold World.updateProc
      rw [hdb]
      exact ⟨rfl, db.activeReaders, rfl⟩
  | endClose =>
      show (∃ closed, _ ∧ Untouched w db closed (w.updateProc _).1) ∨ _ ∧ (w.updateProc _).1 = _
      unfold World.updateProc
      rw [hdb]
      dsimp only
      by_cases hdrained : db.closed ∧ World.drained db
      · rw [if_pos hdrained]
        exact Or.inr ⟨Or.inr hdrained.2, rfl⟩
      · rw [if_neg hdrained]
        exact Or.inl ⟨_, Or.inr rfl, untouched_self hdb⟩
  | newSnapshot | closeSnapshot _ | newIterator _ | snapshotIterator _ _ | iteratorNext _
  | closeIterator _ => exact Or.inl ⟨_, Or.inr rfl, step_reads hdb rfl⟩

end Events

/-- Without `Open` a process that ended stays ended, and nothing happens to its directory. -/
theorem step_stopped {cfg : Config} {M : Model Call} {w : World} {event : Event}
    (hopen : ∀ opts, event ≠ .openDB opts) (hno : w.proc = none) (fates : List Fate) :
    (step cfg M w event fates).1.proc = none ∧ (step cfg M w event fates).1.disk = w.disk := by
  have hrun : ∀ p, (w.runOp M p fates).1.proc = none ∧ (w.runOp M p fates).1.disk = w.disk :=
    fun p => by
      rw [runOp_stopped hno]
      exact ⟨hno, rfl⟩
  have hupdate : ∀ f, (w.updateProc f).1.proc = none ∧ (w.updateProc f).1.disk = w.disk :=
    fun f => by
      unfold World.updateProc
      rw [hno]
      exact ⟨hno, rfl⟩
  cases event with
  | openDB opts => exact absurd rfl (hopen opts)
  | iteratorNext i =>
      show (w.iteratorNext i).proc = none ∧ (w.iteratorNext i).disk = w.disk
      unfold World.iteratorNext
      split
      · exact ⟨hno, rfl⟩
      · exact ⟨hno, rfl⟩
  | kill => exact ⟨rfl, rfl⟩
  | put _ _ | delete _ | commit _ _ | flushReserve | flushWrite | flushPublish | flushRemoveWAL
  | flushCleanup | compact | compactInBackground => exact hrun _
  | _ => exact hupdate _

end HyphaDB
