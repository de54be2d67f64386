import HyphaDB.Engine.Alike
import HyphaDB.Engine.Catalog
import HyphaDB.Refine.Readers
import HyphaDB.Runs.FaultFree

/-!
# HyphaDB.Runs.FailedMutations

**Mutations that return an error.** A mutation writes the log, then moves the counter and fills
the memtable, and rotates last. When the log fails nothing but the bytes of the active segment
has changed, and the process never notices; the caller of a batch may try again. A mutation that
gets to its rotation has taken effect, whether the rotation fails or not (`runOp_behind`), and a
batch that is tried again takes effect twice.
-/

namespace HyphaDB.Runs

open Faults Refine Versions

variable {cfg : Config} {M : Model Call} {w w' : World} {s : Sys} {fates : List Fate}

/-! ### Mutations behind their checks -/

/-- What a mutation appends to the log, and what it then puts into the memtable. -/
structure Change where
  append : Op Unit
  recs : List Record
  cost : Nat
  appends : ∀ {I : Sys → Prop}, IgnoresAppend I → Keeps I append

namespace Change

def program (m : Change) : Op Unit := mutate m.append m.recs m.cost

/-- The process when the memtable has the records. -/
def apply (m : Change) (db : DB) : DB :=
  { db.putRecords m.recs with nextSeq := db.nextSeq + UInt64.ofNat m.cost }

/-- The log takes the records, and the memtable is full with them. -/
def rotates (m : Change) (M : Model Call) (s : Sys) (fates : List Fate) : Bool :=
  match m.append M s fates with
  | .ret _ _ _ => s.db.maxMemtableSize ≤ s.db.memTableSize + m.recs.length
  | _ => false

end Change

/-- The mutation of an event, if its checks let it pass. -/
def change? (cfg : Config) (w : World) (event : Event) : Option Change :=
  w.proc.bind fun db =>
    if event.cost w = 0 then none
    else some ⟨appendOf cfg db event, batchEntries db.nextSeq (mutations w event), event.cost w,
      fun h => keeps_appendOf h db event⟩

/-- The mutation of a `Commit`. -/
def commitChange? (cfg : Config) (w : World) (b : Batch) (sync : Bool) : Option Change :=
  w.proc.bind fun db =>
    if b.closed || db.closed then none
    else some ⟨writeBatch cfg db.nextSeq (batchEntries db.nextSeq b.operations) sync,
      batchEntries db.nextSeq b.operations, batchCost b.operations,
      fun h => keeps_writeBatch h _ _ sync⟩

/-- From this world the call gets to its rotation: the log takes the records, and the memtable is
full with them. -/
def reachesRotation (M : Model Call) (w : World) (m? : Option Change) (fates : List Fate) : Bool :=
  match w.proc, m? with
  | some db, some m => m.rotates M ⟨w.disk, db⟩ fates
  | _, _ => false

/-- The world in which the mutation has taken effect. -/
def afterChange (w : World) (m? : Option Change) : World :=
  match w.proc, m? with
  | some db, some m => { w with proc := some (m.apply db) }
  | _, _ => w

/-- The result of a call that runs its mutation, or is refused. -/
def Performs (M : Model Call) (w : World) (m? : Option Change) (fates : List Fate)
    (result : World × Response) : Prop :=
  (∃ m, m? = some m ∧ result = w.runOp M m.program fates) ∨
    m? = none ∧ ∃ e, result = (w, .err e)

theorem step_performs {event : Event} (hevent : event.mutates = true) (fates : List Fate) :
    Performs M w (change? cfg w event) fates (step cfg M w event fates) := by
  cases hdb : w.proc with
  | none =>
      refine Or.inr ⟨by rw [change?, hdb]; rfl, .closed, ?_⟩
      cases event with
      | put | delete | commit => exact runOp_stopped hdb _ _ _
      | _ => cases hevent
  | some db =>
      have hcases : MutationCases cfg w db event := mutation_cases hdb hevent
      cases hcases with
      | refused e _ _ hcost hstep =>
          refine Or.inr ⟨?_, e, hstep M fates⟩
          rw [change?, hdb]
          exact if_pos hcost
      | admitted _ hpos hstep =>
          refine Or.inl ⟨⟨appendOf cfg db event, batchEntries db.nextSeq (mutations w event),
            event.cost w, fun h => keeps_appendOf h db event⟩, ?_, hstep M fates⟩
          rw [change?, hdb]
          exact if_neg hpos.ne'

theorem commit_performs (b : Batch) (sync : Bool) (fates : List Fate) :
    Performs M w (commitChange? cfg w b sync) fates (w.runOp M (b.commit cfg sync) fates) := by
  unfold commitChange? Batch.commit
  cases hdb : w.proc with
  | none => exact Or.inr ⟨rfl, .closed, runOp_stopped hdb _ _ _⟩
  | some db =>
      by_cases hb : b.closed = true
      · rw [if_pos hb]
        exact Or.inr ⟨if_pos (by simp [hb]), .batchClosed, runOp_throw hdb rfl⟩
      · rw [if_neg hb, show w.runOp M (applyBatch cfg b.operations sync) fates = _ from
          runOp_checked hdb _ M fates]
        by_cases hclosed : db.closed = true
        · exact Or.inr ⟨if_pos (by simp [hclosed]), .closed, if_pos hclosed⟩
        · exact Or.inl ⟨_, if_neg (by simp [hb, hclosed]), if_neg hclosed⟩

/-! ### Segment numbers and memtable references -/

/-- The active segment is not beyond the counter, and no memtable has the next reference. -/
structure Numbered (s : Sys) : Prop where
  wal : s.db.wal ≤ s.db.manifest.nextWALSegmentID
  active : s.db.memtable < s.db.nextRef
  queued : ∀ imm ∈ s.db.immutableMemtables, imm.memTable < s.db.nextRef

def NumberedWorld (w : World) : Prop := ∀ db, w.proc = some db → Numbered ⟨w.disk, db⟩

theorem ignoresFlush_numbered : IgnoresFlush Numbered where
  tables := fun _ _ _ _ h => ⟨h.wal, h.active, h.queued⟩
  nextID := fun _ _ _ h => ⟨h.wal, h.active, h.queued⟩
  files := fun _ _ _ _ h => ⟨h.wal, h.active, h.queued⟩
  flusher := fun _ _ _ h => ⟨h.wal, h.active, h.queued⟩
  queue := by
    intro d db imm h
    refine ⟨h.wal, h.active, fun q hq => h.queued q ?_⟩
    unfold DB.dequeue at hq
    dsimp only at hq
    split at hq
    · cases hq
    · rename_i q' qs heq
      show q ∈ db.immutableMemtables
      rw [heq]
      split at hq
      · exact List.mem_cons_of_mem _ hq
      · exact hq
  segments := fun _ _ _ h => ⟨h.wal, h.active, h.queued⟩

theorem ignoresRotation_numbered : IgnoresRotation Numbered where
  segments := fun _ _ _ h => ⟨h.wal, h.active, h.queued⟩
  enqueue := by
    intro d db h
    refine ⟨Nat.le_succ_of_le h.wal, h.active, fun imm himm => ?_⟩
    rcases List.mem_append.mp himm with himm | himm
    · exact h.queued imm himm
    · rw [List.mem_singleton.mp himm]
      exact h.active
  switch := fun _ _ h =>
    ⟨Nat.le_refl _, Nat.lt_succ_self _, fun imm himm => Nat.lt_succ_of_lt (h.queued imm himm)⟩

theorem Change.keeps_numbered (m : Change) : Keeps Numbered m.program := by
  refine keeps_bind (m.appends ignoresRotation_numbered.append) fun _ => ?_
  refine keeps_bind (keeps_updateDB fun _ _ h => ⟨h.wal, h.active, h.queued⟩) fun _ => ?_
  exact keeps_rotateIfFull ignoresRotation_numbered

theorem NumberedWorld.runOp (h : NumberedWorld w) {p : Op Unit} (hp : Keeps Numbered p) :
    NumberedWorld (w.runOp M p fates).1 := by
  cases hdb : w.proc with
  | none =>
      rw [runOp_stopped hdb]
      exact h
  | some db =>
      intro db' hdb'
      rcases runOp_cases hdb (hp M ⟨w.disk, db⟩ (h db hdb)) fates with
        ⟨t, ht, heq⟩ | ⟨_, t, ht, heq⟩ | ⟨_, -, heq⟩
      all_goals rw [heq] at hdb' ⊢
      · exact Option.some.inj hdb' ▸ ht
      · exact Option.some.inj hdb' ▸ ht
      · cases hdb'

theorem Performs.numbered {m? : Option Change} {result : World × Response}
    (h : Performs M w m? fates result) (hnum : NumberedWorld w) : NumberedWorld result.1 := by
  rcases h with ⟨m, -, rfl⟩ | ⟨-, e, rfl⟩
  · exact hnum.runOp m.keeps_numbered
  · exact hnum

theorem NumberedWorld.step (h : NumberedWorld w) (event : Event) (fates : List Fate) :
    NumberedWorld (step cfg M w event fates).1 := by
  have hidle : event.idle = true → NumberedWorld (HyphaDB.step cfg M w event fates).1 := by
    intro hevent db' hdb'
    cases hdb : w.proc with
    | some db =>
        rcases step_idle hdb hevent with ⟨closed, -, -, readers, hproc⟩ | ⟨-, hended⟩
        · rw [← Option.some.inj (hproc.symm.trans hdb')]
          exact ⟨(h db hdb).wal, (h db hdb).active, (h db hdb).queued⟩
        · rw [hended] at hdb'
          cases hdb'
    | none =>
        by_cases hopen : ∃ opts, event = .openDB opts
        · obtain ⟨opts, rfl⟩ := hopen
          obtain ⟨⟨settings, mt, m, maxSeq, rfl⟩, -⟩ := openWorld_new hdb hdb'
          exact ⟨Nat.le_refl m.nextWALSegmentID, Nat.one_pos, fun _ himm => by cases himm⟩
        · rw [(step_stopped (fun opts he => hopen ⟨opts, he⟩) hdb _).1] at hdb'
          cases hdb'
  rcases event.kinds with hevent | hevent | hevent
  · exact (step_performs hevent fates).numbered h
  · obtain ⟨p, hp, hstep⟩ := step_works ignoresFlush_numbered hevent cfg
    rw [hstep]
    exact h.runOp hp
  · exact hidle hevent

theorem numbered_run (inputs : List Input) {s : World × Ledger} (h : NumberedWorld s.1) :
    NumberedWorld (run cfg M s inputs).1 := by
  induction inputs generalizing s with
  | nil => exact h
  | cons input inputs ih => exact ih (h.step input.1 input.2)

/-! ### Before the rotation -/

/-- Appends to the active segment make no difference to the process. -/
theorem ignoresAppend_alike (s : Sys) : IgnoresAppend (Alike s) := by
  intro d db bytes h
  obtain ⟨hdb, hle, hd⟩ := h
  obtain rfl : db = s.db := hdb
  exact ⟨rfl, hle, hd.appendOne (Nat.lt_succ_of_le hle) bytes⟩

theorem Numbered.alike (h : Numbered s) : Alike s s := ⟨rfl, h.wal, .refl _ _⟩

theorem alikeWorld_refl (h : NumberedWorld w) : AlikeWorld w w :=
  ⟨rfl, rfl, rfl, fun db hdb => (h db hdb).alike⟩

/-- The append leaves the process as it was. -/
theorem Change.append_alike (m : Change) (h : Numbered s) (fates : List Fate) :
    (m.append M s fates).Sat ⟨fun _ t => Alike s t, fun _ t => Alike s t, fun t => Alike s t⟩ :=
  m.appends (ignoresAppend_alike s) M s h.alike fates

theorem Change.program_eq (m : Change) (M : Model Call) (s : Sys) (fates : List Fate) :
    m.program M s fates =
      match m.append M s fates with
      | .ret _ t rest => rotateIfFull M ⟨t.disk, m.apply t.db⟩ rest
      | .err e t rest => .err e t rest
      | .killed t => .killed t := by
  unfold Change.program mutate
  rw [Prog.bind_eq]
  cases m.append M s fates with
  | ret _ t rest => rfl
  | err e t rest => rfl
  | killed t => rfl

theorem rotateIfFull_idle (h : ¬ s.db.maxMemtableSize ≤ s.db.memTableSize) :
    rotateIfFull M s fates = .ret () s fates := by
  unfold rotateIfFull
  rw [Prog.bind_eq]
  show (if s.db.maxMemtableSize ≤ s.db.memTableSize then _ else pure () : Op Unit) M s fates = _
  rw [if_neg h]
  rfl

/-- **A mutation that fails before its rotation**: the process cannot tell. -/
theorem runOp_before (hnum : NumberedWorld w) {db : DB} (hdb : w.proc = some db) {m : Change}
    (hno : m.rotates M ⟨w.disk, db⟩ fates = false) {e : DBError}
    (hr : (w.runOp M m.program fates).2 = .err e) :
    AlikeWorld w (w.runOp M m.program fates).1 := by
  have happend := m.append_alike (M := M) (hnum db hdb) fates
  unfold Change.rotates at hno
  rw [runOp_running hdb, m.program_eq] at hr ⊢
  cases hout : m.append M ⟨w.disk, db⟩ fates with
  | ret _ t rest =>
      rw [hout] at happend hno
      have hroom : ¬ (m.apply t.db).maxMemtableSize ≤ (m.apply t.db).memTableSize := by
        rw [show t.db = db from happend.db]
        exact of_decide_eq_false hno
      rw [hout] at hr
      dsimp only at hr
      rw [rotateIfFull_idle hroom] at hr
      cases hr
  | err e' t rest =>
      rw [hout] at happend
      refine ⟨(congrArg some happend.db).trans hdb.symm, rfl, rfl, fun db' hdb' => ?_⟩
      obtain rfl := Option.some.inj (hdb.symm.trans hdb')
      exact ⟨rfl, happend.wal_le, happend.disk⟩
  | killed t =>
      rw [hout] at hr
      cases hr

theorem Performs.before {m? : Option Change} {result : World × Response}
    (h : Performs M w m? fates result) (hnum : NumberedWorld w) {e : DBError}
    (hr : result.2 = .err e) (hno : reachesRotation M w m? fates = false) :
    AlikeWorld w result.1 := by
  rcases h with ⟨m, rfl, rfl⟩ | ⟨-, e', rfl⟩
  · cases hdb : w.proc with
    | none =>
        rw [runOp_stopped hdb]
        exact alikeWorld_refl hnum
    | some db =>
        unfold reachesRotation at hno
        rw [hdb] at hno
        exact runOp_before hnum hdb hno hr
  · exact alikeWorld_refl hnum

/-- A process goes on as if nothing had happened. -/
theorem run_alike {rest : List Input} (hopen : NoOpen rest) {s s' : World × Ledger}
    (h : AlikeWorld s.1 s'.1) : AlikeWorld (run cfg M s rest).1 (run cfg M s' rest).1 := by
  induction rest generalizing s s' with
  | nil => exact h
  | cons input rest ih => exact ih hopen.tail (step_alike h hopen.head).2

/-! ### Behind the rotation -/

/-- Reads find the same. -/
structure SameReads (s t : Sys) : Prop where
  closed : t.db.closed = s.db.closed
  limits : t.db.limits = s.db.limits
  found : ∀ key maxSeq, findAt t key maxSeq = findAt s key maxSeq

theorem SameReads.get {t : Sys} (h : SameReads s t) (key : Key) :
    HyphaDB.get t key = HyphaDB.get s key := by
  unfold HyphaDB.get getAt
  rw [h.closed, h.limits]
  simp only [h.found]

theorem better_self (o : Option Record) : better Record.seq o o = o := by
  cases o with
  | none => rfl
  | some r => exact if_neg (lt_irrefl _)

/-- What the memtables have to say. -/
def inMemory (db : DB) (key : Key) (maxSeq : UInt64) : Option Record :=
  db.immutableMemtables.reverse.foldl
    (fun best imm => better Record.seq best ((db.heap imm.memTable).getAt key maxSeq))
    (db.active.getAt key maxSeq)

/-- A process with the same tables, whose memtables say the same. -/
theorem sameReads_of_memory {d : Disk} {db : DB} (hd : d.tables = s.disk.tables)
    (hclosed : db.closed = s.db.closed) (hlimits : db.limits = s.db.limits)
    (htables : db.sstables = s.db.sstables)
    (hmemory : ∀ key maxSeq, inMemory db key maxSeq = inMemory s.db key maxSeq) :
    SameReads s ⟨d, db⟩ := by
  refine ⟨hclosed, hlimits, fun key maxSeq => ?_⟩
  rw [findAt_congr (d := s.disk) fun _ _ => congrFun hd _]
  have hbest := hmemory key maxSeq
  unfold inMemory at hbest
  unfold findAt
  dsimp only
  rw [hbest, htables]

theorem inMemory_enqueue (db : DB) (key : Key) (maxSeq : UInt64) :
    inMemory db.enqueue key maxSeq = inMemory db key maxSeq := by
  unfold inMemory
  rw [show db.enqueue.immutableMemtables.reverse =
    ⟨db.memtable, db.wal⟩ :: db.immutableMemtables.reverse from List.reverse_concat,
    List.foldl_cons]
  -- the memtable is asked twice
  show List.foldl _ (better Record.seq (db.active.getAt key maxSeq)
    (db.active.getAt key maxSeq)) _ = _
  rw [better_self]
  rfl

theorem inMemory_switch {d : Disk} {db : DB} (h : Numbered ⟨d, db⟩) (key : Key) (maxSeq : UInt64) :
    inMemory db.enqueue.switch key maxSeq = inMemory db key maxSeq := by
  unfold inMemory
  rw [show db.enqueue.switch.immutableMemtables.reverse =
    ⟨db.memtable, db.wal⟩ :: db.immutableMemtables.reverse from List.reverse_concat,
    List.foldl_cons]
  have hold : ∀ ref, ref < db.nextRef → db.enqueue.switch.heap ref = db.heap ref :=
    fun ref hlt => Function.update_of_ne hlt.ne _ _
  have hnew : db.enqueue.switch.active = .new := Function.update_self _ _ _
  -- the new memtable is empty, and the old one is asked next
  rw [hnew, hold _ h.active]
  refine List.foldl_ext _ _ _ fun best imm himm => ?_
  rw [hold _ (h.queued imm (List.mem_reverse.mp himm))]

theorem wp_rotateIfFull_reads (hs : Numbered s) :
    wp M rotateIfFull ⟨fun _ t => SameReads s t, fun _ t => SameReads s t, fun _ => True⟩ s := by
  refine wp_bind (wp_get ?_)
  dsimp only
  split
  · refine wp_bind (wp_modify (wp_bind (wp_get (wp_bind (wp_zoom (wp_mono
      (keeps_newSegmentInDir (J := fun d => d.tables = s.disk.tables) (fun _ _ h => h) _ M _ rfl)
      (fun _ d hd => ?_) (fun _ d hd => ?_) fun _ _ => trivial))))))
    · have hswitch : SameReads s ⟨d, s.db.enqueue.switch⟩ :=
        sameReads_of_memory hd rfl rfl rfl (inMemory_switch hs)
      exact wp_bind (wp_modify (wp_call hswitch (fun _ _ => hswitch) fun _ _ => trivial))
    · exact sameReads_of_memory hd rfl rfl rfl (inMemory_enqueue s.db)
  · exact wp_pure ⟨rfl, rfl, fun _ _ => rfl⟩

/-- **A mutation that gets to its rotation has taken effect**, whether the rotation fails or
not. -/
theorem runOp_behind (hnum : NumberedWorld w) {db : DB} (hdb : w.proc = some db) {m : Change}
    (hrot : m.rotates M ⟨w.disk, db⟩ fates = true)
    (halive : (w.runOp M m.program fates).2 ≠ .killed) (key : Key) :
    (w.runOp M m.program fates).1.get key = HyphaDB.get ⟨w.disk, m.apply db⟩ key := by
  have happend := m.append_alike (M := M) (hnum db hdb) fates
  unfold Change.rotates at hrot
  rw [runOp_running hdb, m.program_eq] at halive ⊢
  cases hout : m.append M ⟨w.disk, db⟩ fates with
  | err _ _ _ => rw [hout] at hrot; cases hrot
  | killed _ => rw [hout] at hrot; cases hrot
  | ret _ t rest =>
      rw [hout] at happend
      have hdb' : t.db = db := happend.db
      have hnum' : Numbered ⟨t.disk, m.apply t.db⟩ := by
        rw [hdb']
        exact ⟨(hnum db hdb).wal, (hnum db hdb).active, (hnum db hdb).queued⟩
      have hreads := wp_rotateIfFull_reads hnum' (M := M) rest
      have hsame : HyphaDB.get ⟨t.disk, m.apply t.db⟩ key =
          HyphaDB.get ⟨w.disk, m.apply db⟩ key := by
        rw [hdb']
        exact (sameReads_of_memory (s := ⟨w.disk, m.apply db⟩) happend.disk.tables rfl rfl rfl
          fun _ _ => rfl).get key
      rw [hout] at halive
      dsimp only at halive ⊢
      generalize rotateIfFull M ⟨t.disk, m.apply t.db⟩ rest = o at hreads halive ⊢
      cases o with
      | ret _ u _ => exact (hreads.get key).trans hsame
      | err _ u _ => exact (hreads.get key).trans hsame
      | killed u => exact absurd rfl halive

theorem Performs.behind {m? : Option Change} {result : World × Response}
    (h : Performs M w m? fates result) (hnum : NumberedWorld w)
    (hrot : reachesRotation M w m? fates = true) (halive : result.2 ≠ .killed) (key : Key) :
    result.1.get key = (afterChange w m?).get key := by
  unfold reachesRotation at hrot
  unfold afterChange
  cases hdb : w.proc with
  | none =>
      rw [hdb] at hrot
      cases hrot
  | some db =>
      rw [hdb] at hrot
      rcases h with ⟨m, rfl, rfl⟩ | ⟨rfl, -⟩
      · exact runOp_behind hnum hdb hrot halive key
      · cases hrot

/-! ### A batch that is tried again -/

/-- What the holder of a batch sees: an event, or a `Commit` of the batch. -/
inductive Act
  | event (input : Input)
  | commit (sync : Bool) (fates : List Fate)
  deriving Repr, DecidableEq

/-- One act. A batch is closed by a `Commit` without an error. -/
def act (cfg : Config) (M : Model Call) (s : World × Batch) : Act → (World × Batch) × Response
  | .event input =>
      let (w, r) := step cfg M s.1 input.1 input.2
      ((w, s.2), r)
  | .commit sync fates =>
      let (w, r) := s.1.runOp M (s.2.commit cfg sync) fates
      ((w, if r = .ok then { s.2 with closed := true } else s.2), r)

def runActs (cfg : Config) (M : Model Call) (s : World × Batch) (acts : List Act) : World × Batch :=
  acts.foldl (fun s a => (act cfg M s a).1) s

/-- A `Commit` that gets to its rotation and returns an error. -/
def rotationFails (cfg : Config) (M : Model Call) (s : World × Batch) : Act → Bool
  | .event _ => false
  | .commit sync fates =>
      match (act cfg M s (.commit sync fates)).2 with
      | .err _ => reachesRotation M s.1 (commitChange? cfg s.1 s.2 sync) fates
      | _ => false

/-- No `Commit` of the batch fails in its rotation. -/
def settled (cfg : Config) (M : Model Call) (s : World × Batch) : List Act → Bool
  | [] => true
  | a :: acts => !rotationFails cfg M s a && settled cfg M (act cfg M s a).1 acts

/-- The acts without the commits. -/
def otherActs (acts : List Act) : List Act :=
  acts.filter fun a => match a with
    | .event _ => true
    | .commit _ _ => false

/-- No act opens the directory. -/
def sameProcess (acts : List Act) : Bool :=
  acts.all fun a => match a with
    | .event input => !opens input.1
    | .commit _ _ => true

/-- The batch is closed, or its process is gone. -/
def Spent (s : World × Batch) : Prop := s.2.closed = true ∨ s.1.proc = none

theorem coupled_batchCommit {t : Sys} (h : Alike s t) (b : Batch) (sync : Bool) :
    coupled M Alike (b.commit cfg sync) (b.commit cfg sync) s t := by
  unfold Batch.commit
  split
  · exact coupled_throw h
  · exact coupled_applyBatch h _ sync

theorem runOp_killed {p : Op Unit} (hr : (w.runOp M p fates).2 = .killed) :
    (w.runOp M p fates).1.proc = none := by
  cases hdb : w.proc with
  | none =>
      rw [runOp_stopped hdb] at hr
      cases hr
  | some db =>
      rw [runOp_running hdb] at hr ⊢
      generalize p M ⟨w.disk, db⟩ fates = o at hr ⊢
      cases o with
      | ret a t rest => cases hr
      | err e t rest => cases hr
      | killed t => rfl

/-- A `Commit` that fails leaves its batch open. -/
theorem act_failed {b : Batch} {sync : Bool} {e : DBError}
    (hr : (w.runOp M (b.commit cfg sync) fates).2 = .err e) :
    (act cfg M (w, b) (.commit sync fates)).1 = ((w.runOp M (b.commit cfg sync) fates).1, b) := by
  unfold act
  dsimp only
  rw [hr, if_neg (by simp)]

theorem not_reaches_of_settled {b : Batch} {sync : Bool} {e : DBError}
    (hr : (w.runOp M (b.commit cfg sync) fates).2 = .err e)
    (h : rotationFails cfg M (w, b) (.commit sync fates) = false) :
    reachesRotation M w (commitChange? cfg w b sync) fates = false := by
  unfold rotationFails act at h
  dsimp only at h
  rwa [hr] at h

/-- A `Commit` of a spent batch does nothing. -/
theorem Spent.commit {s : World × Batch} (h : Spent s) (sync : Bool) (fates : List Fate) :
    (act cfg M s (.commit sync fates)).1 = s := by
  obtain ⟨w, b⟩ := s
  have hsame : ∃ e, w.runOp M (b.commit cfg sync) fates = (w, .err e) := by
    cases hdb : w.proc with
    | none => exact ⟨.closed, runOp_stopped hdb _ _ _⟩
    | some db =>
        have hclosed : b.closed = true := h.resolve_right fun hno => by
          rw [show w.proc = none from hno] at hdb
          cases hdb
        refine ⟨.batchClosed, runOp_throw hdb ?_⟩
        unfold Batch.commit
        rw [if_pos hclosed]
        rfl
  obtain ⟨e, he⟩ := hsame
  show ((w.runOp M (b.commit cfg sync) fates).1,
    if (w.runOp M (b.commit cfg sync) fates).2 = .ok then { b with closed := true } else b) = _
  rw [he]
  rfl

theorem sameProcess_event {input : Input} {acts : List Act}
    (h : sameProcess (.event input :: acts) = true) (opts : Options) : input.1 ≠ .openDB opts := by
  intro he
  have hno : (!opens input.1) = true := (Bool.and_eq_true_iff.mp h).1
  rw [he] at hno
  cases hno

/-- From then on only the other events count. -/
theorem Spent.run {acts : List Act} (hacts : sameProcess acts = true) {v : World}
    {s : World × Batch} (h : Spent s) (halike : AlikeWorld v s.1) (b : Batch) :
    AlikeWorld (runActs cfg M (v, b) (otherActs acts)).1 (runActs cfg M s acts).1 := by
  induction acts generalizing v s with
  | nil => exact halike
  | cons a acts ih =>
      have htail : sameProcess acts = true := (Bool.and_eq_true_iff.mp hacts).2
      cases a with
      | event input =>
          have hopen := sameProcess_event hacts
          refine ih (v := (HyphaDB.step cfg M v input.1 input.2).1) htail ?_
            (step_alike halike hopen).2
          exact h.imp id fun hno => (step_stopped hopen hno input.2).1
      | commit sync fates =>
          show AlikeWorld _ (runActs cfg M (act cfg M s (.commit sync fates)).1 acts).1
          rw [h.commit]
          exact ih htail h halike

/-- **A batch takes effect at most once**: what its commits leave is what the other events
leave, with one of the commits among them at most. -/
theorem runActs_once {acts : List Act} (hacts : sameProcess acts = true) {v : World}
    {s : World × Batch} (hnum : NumberedWorld s.1) (hset : settled cfg M s acts = true)
    (halike : AlikeWorld v s.1) :
    AlikeWorld (runActs cfg M (v, s.2) (otherActs acts)).1 (runActs cfg M s acts).1 ∨
      ∃ xs sync fates ys, acts = xs ++ .commit sync fates :: ys ∧
        AlikeWorld (runActs cfg M (v, s.2) (otherActs xs ++ .commit sync fates :: otherActs ys)).1
          (runActs cfg M s acts).1 := by
  induction acts generalizing v s with
  | nil => exact Or.inl halike
  | cons a acts ih =>
      have htail : sameProcess acts = true := (Bool.and_eq_true_iff.mp hacts).2
      obtain ⟨hhead, hrest⟩ := Bool.and_eq_true_iff.mp hset
      cases a with
      | event input =>
          have hstep : AlikeResult (HyphaDB.step cfg M v input.1 input.2)
              (HyphaDB.step cfg M s.1 input.1 input.2) :=
            step_alike halike (sameProcess_event hacts)
          rcases ih (s := ((HyphaDB.step cfg M s.1 input.1 input.2).1, s.2)) htail
            (hnum.step input.1 input.2) hrest hstep.2 with h | ⟨xs, sync, fates, ys, rfl, h⟩
          · exact Or.inl h
          · exact Or.inr ⟨.event input :: xs, sync, fates, ys, rfl, h⟩
      | commit sync fates =>
          obtain ⟨w, b⟩ := s
          -- the commit that ends the batch or the process is the one that counts
          have hcounts : Spent (act cfg M (w, b) (.commit sync fates)).1 →
              ∃ xs sync' fates' ys, .commit sync fates :: acts = xs ++ .commit sync' fates' :: ys ∧
                AlikeWorld (runActs cfg M (v, b)
                  (otherActs xs ++ .commit sync' fates' :: otherActs ys)).1
                  (runActs cfg M (w, b) (.commit sync fates :: acts)).1 := by
            intro hspent
            have hboth : AlikeResult (v.runOp M (b.commit cfg sync) fates)
                (w.runOp M (b.commit cfg sync) fates) :=
              halike.runOp fun _ _ h => coupled_batchCommit h b sync
            exact ⟨[], sync, fates, acts, rfl, hspent.run htail hboth.2 _⟩
          cases hr : (w.runOp M (b.commit cfg sync) fates).2 with
          | ok =>
              refine Or.inr (hcounts (Or.inl ?_))
              show (if (w.runOp M (b.commit cfg sync) fates).2 = .ok then { b with closed := true }
                else b).closed = true
              rw [hr, if_pos rfl]
          | killed => exact Or.inr (hcounts (Or.inr (runOp_killed hr)))
          | err e =>
              -- it failed before its rotation, so the batch is as it was
              have hact := act_failed hr
              have hfail := (commit_performs b sync fates).before hnum hr
                (not_reaches_of_settled hr (by simpa using hhead))
              have hnum' := (@commit_performs cfg M w b sync fates).numbered hnum
              rw [hact] at hrest
              rcases ih (s := ((w.runOp M (b.commit cfg sync) fates).1, b)) htail hnum' hrest
                (halike.trans hfail) with h | ⟨xs, sync', fates', ys, rfl, h⟩
              · refine Or.inl ?_
                show AlikeWorld _ (runActs cfg M (act cfg M (w, b) (.commit sync fates)).1 acts).1
                rw [hact]
                exact h
              · refine Or.inr ⟨.commit sync fates :: xs, sync', fates', ys, rfl, ?_⟩
                show AlikeWorld _ (runActs cfg M (act cfg M (w, b) (.commit sync fates)).1
                  (xs ++ .commit sync' fates' :: ys)).1
                rw [hact]
                exact h

/-! ### In every reachable state -/

/-- The acts with one of the commits left, or none. -/
def Once (acts once : List Act) : Prop :=
  once = otherActs acts ∨ ∃ xs sync fates ys, acts = xs ++ .commit sync fates :: ys ∧
    once = otherActs xs ++ .commit sync fates :: otherActs ys

/-- **A mutation that fails before its rotation was never made**, as far as its process can
tell, and a batch whose commits fail in no other way takes effect at most once. A call that gets
to its rotation has taken effect, whatever it returns. -/
theorem failed_mutation_unnoticed (cfg : Config) (M : Model Call) (inputs : List Input) :
    (∀ event fates e, event.mutates = true →
      reachesRotation M (run cfg M blank inputs).1
        (change? cfg (run cfg M blank inputs).1 event) fates = false →
      (step cfg M (run cfg M blank inputs).1 event fates).2 = .err e →
      ∀ rest, NoOpen rest →
        (∀ key,
          (run cfg M (stepLedger cfg M (run cfg M blank inputs) (event, fates)) rest).1.get key =
            (run cfg M (run cfg M blank inputs) rest).1.get key) ∧
        (run cfg M (stepLedger cfg M (run cfg M blank inputs) (event, fates)) rest).1.iterators =
          (run cfg M (run cfg M blank inputs) rest).1.iterators) ∧
    (∀ event fates, event.mutates = true →
      reachesRotation M (run cfg M blank inputs).1
        (change? cfg (run cfg M blank inputs).1 event) fates = true →
      (step cfg M (run cfg M blank inputs).1 event fates).2 ≠ .killed →
      ∀ key, (step cfg M (run cfg M blank inputs).1 event fates).1.get key =
        (afterChange (run cfg M blank inputs).1
          (change? cfg (run cfg M blank inputs).1 event)).get key) ∧
    (∀ b acts, sameProcess acts = true →
      settled cfg M ((run cfg M blank inputs).1, b) acts = true →
      ∃ once, Once acts once ∧
        (∀ key, (runActs cfg M ((run cfg M blank inputs).1, b) acts).1.get key =
          (runActs cfg M ((run cfg M blank inputs).1, b) once).1.get key) ∧
        (runActs cfg M ((run cfg M blank inputs).1, b) acts).1.iterators =
          (runActs cfg M ((run cfg M blank inputs).1, b) once).1.iterators) ∧
    ∀ b sync fates,
      reachesRotation M (run cfg M blank inputs).1
        (commitChange? cfg (run cfg M blank inputs).1 b sync) fates = true →
      (act cfg M ((run cfg M blank inputs).1, b) (.commit sync fates)).2 ≠ .killed →
      ∀ key, (act cfg M ((run cfg M blank inputs).1, b) (.commit sync fates)).1.1.get key =
        (afterChange (run cfg M blank inputs).1
          (commitChange? cfg (run cfg M blank inputs).1 b sync)).get key := by
  have hnum : NumberedWorld (run cfg M blank inputs).1 :=
    numbered_run inputs (s := blank) fun _ h => by cases h
  refine ⟨fun event fates e hevent hno hr rest hopen => ?_,
    fun event fates hevent hrot halive => ?_,
    fun b acts hacts hset => ?_, fun b sync fates hrot halive => ?_⟩
  · have halike := (step_performs hevent fates).before hnum hr hno
    have hrun : AlikeWorld (run cfg M (run cfg M blank inputs) rest).1
        (run cfg M (stepLedger cfg M (run cfg M blank inputs) (event, fates)) rest).1 :=
      run_alike hopen halike
    exact ⟨hrun.get, hrun.iterators⟩
  · exact (step_performs hevent fates).behind hnum hrot halive
  · rcases runActs_once hacts (s := ((run cfg M blank inputs).1, b)) hnum hset
      (alikeWorld_refl hnum) with h | ⟨xs, sync, fates, ys, heq, h⟩
    · exact ⟨_, Or.inl rfl, h.get, h.iterators⟩
    · exact ⟨_, Or.inr ⟨xs, sync, fates, ys, heq, rfl⟩, h.get, h.iterators⟩
  · exact (commit_performs b sync fates).behind hnum hrot halive

/-- A database whose memtable holds one entry. -/
def oneEntry : List Input := [(.openDB { maxEntries := 1 }, [])]

/-- A batch of one put. -/
def oneOperation : Batch := { operations := [⟨[0x6B], { value := [1], deleted := false }⟩] }

/-- The frame of a put is cut short, and so is the second frame of a batch that is tried again;
the next segment of a put cannot be made. -/
theorem failed_mutation_unnoticed_cut :
    (run sample failures (stepLedger sample failures (run sample failures blank oneEntry)
        (.put [0x6B] [1], [.fail 3])) [(.put [0x6C] [2], [])]).1.get [0x6B] =
        (run sample failures (run sample failures blank oneEntry)
          [(.put [0x6C] [2], [])]).1.get [0x6B] ∧
      (step sample failures (run sample failures blank oneEntry).1 (.put [0x6B] [1])
        [.done, .fail 0]).1.get [0x6B] = .ok [1] ∧
      ∃ once, Once [.commit false [.done, .fail 3], .commit false []] once ∧
        (runActs sample failures ((run sample failures blank oneEntry).1, oneOperation)
          [.commit false [.done, .fail 3], .commit false []]).1.get [0x6B] =
        (runActs sample failures ((run sample failures blank oneEntry).1, oneOperation)
          once).1.get [0x6B] := by
  obtain ⟨hcall, hbehind, hbatch, -⟩ := failed_mutation_unnoticed sample failures oneEntry
  have herr : (step sample failures (run sample failures blank oneEntry).1 (.put [0x6B] [1])
      [.fail 3]).2 = .err (.io .walFrame) := by decide +kernel
  refine ⟨(hcall _ _ _ rfl (by decide +kernel) herr _ (by decide)).1 _, ?_, ?_⟩
  · rw [hbehind _ _ rfl (by decide +kernel) (by decide +kernel)]
    decide +kernel
  · obtain ⟨once, honce, hget, -⟩ := hbatch oneOperation
      [.commit false [.done, .fail 3], .commit false []] (by decide) (by decide +kernel)
    exact ⟨once, honce, hget _⟩

/-- The creation of the next segment fails: the error is returned for a put that reads see, and
a batch that is tried again is in the memtable twice. -/
theorem failed_rotation_noticed :
    (step sample failures (run sample failures blank oneEntry).1 (.put [0x6B] [1])
        [.done, .fail 0]).2 = .err (.io .segmentOpen) ∧
      (run sample failures blank oneEntry).1.get [0x6B] = .error .notFound ∧
      (step sample failures (run sample failures blank oneEntry).1 (.put [0x6B] [1])
        [.done, .fail 0]).1.get [0x6B] = .ok [1] ∧
      (act sample failures ((run sample failures blank oneEntry).1, oneOperation)
        (.commit false [.done, .done, .done, .fail 0])).2 = .err (.io .segmentOpen) ∧
      ((runActs sample failures ((run sample failures blank oneEntry).1, oneOperation)
        [.commit false [.done, .done, .done, .fail 0], .commit false []]).1.proc.map fun db =>
          (db.heap 0).records.map fun r => (r.key, r.seq)) = some [([0x6B], 2), ([0x6B], 1)] := by
  refine ⟨by decide +kernel, by decide +kernel, by decide +kernel, by decide +kernel, ?_⟩
  decide +kernel

end HyphaDB.Runs
