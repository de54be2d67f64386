import HyphaDB.Runs.Compactions
import HyphaDB.Runs.Crashes
import HyphaDB.Runs.FailedMutations
import HyphaDB.Runs.Levels

/-!
# HyphaDB.Runs.Wraparound

**The end of the sequence counter.** The counter has 64 bits and nothing stops it: a batch
without operations takes a number, so a caller can bring it to its end without writing a
record. The number behind the last one is 0, and a record that gets it is older than every
other.

`Alone` describes the process of these runs: one segment, one memtable, no table. It is
carried along by equations, since a run of this length cannot be evaluated.
-/

namespace HyphaDB.Runs

open Faults Store Wal Refine

variable {cfg : Config} {s : Sys}

/-! ### Programs whose calls are all done -/

theorem does_writeRecord {r : Record} (hfit : r.Fits) :
    Does (writeRecord cfg r) s () (appendActive s (frame cfg.crc r)) := by
  have hok : encodeRecord r = .ok (encodePayload r) := encodeRecord_eq_ok.mpr ⟨hfit, rfl⟩
  unfold writeRecord
  refine does_bind (does_ofExcept (by rw [hok]; rfl)) ?_
  exact does_call _ _ _

theorem does_rotateIfFull (h : s.db.memTableSize < s.db.maxMemtableSize) :
    Does rotateIfFull s () s := by
  refine does_bind does_get ?_
  show Does (if s.db.maxMemtableSize ≤ s.db.memTableSize then _ else _) s () s
  rw [if_neg (not_le.mpr h)]
  exact does_pure ()

/-- The state behind a mutation that does not fill the memtable. -/
def mutated (s : Sys) (bytes : Bytes) (recs : List Record) (n : Nat) : Sys :=
  { appendActive s bytes with
    db := { s.db.putRecords recs with nextSeq := s.db.nextSeq + UInt64.ofNat n } }

theorem does_mutation {p : Op Unit} {bytes : Bytes} {recs : List Record} {n : Nat}
    (hp : Does p s () (appendActive s bytes))
    (hroom : s.db.memTableSize + recs.length < s.db.maxMemtableSize) :
    Does (do
      p
      updateDB fun db => { db.putRecords recs with nextSeq := db.nextSeq + UInt64.ofNat n }
      rotateIfFull) s () (mutated s bytes recs n) := by
  have hrotate : Does rotateIfFull (mutated s bytes recs n) () (mutated s bytes recs n) :=
    does_rotateIfFull hroom
  exact does_bind hp (does_bind (does_modify _) hrotate)

/-- A batch without operations: two frames and one sequence number. -/
theorem does_emptyCommit (hopen : s.db.closed = false)
    (hroom : s.db.memTableSize < s.db.maxMemtableSize) :
    Does (commit cfg [] false) s ()
      (mutated s (frames cfg.crc (batchRecords s.db.nextSeq [])) [] 1) := by
  have hframes : frames cfg.crc (batchRecords s.db.nextSeq []) =
      frame cfg.crc (beginRecord s.db.nextSeq) ++ frame cfg.crc (commitRecord s.db.nextSeq) := by
    show frames cfg.crc [beginRecord s.db.nextSeq, commitRecord s.db.nextSeq] = _
    rw [frames_cons, frames_cons, frames_nil, List.append_nil]
  have hwrite : Does (writeBatch cfg s.db.nextSeq [] false) s ()
      (appendActive s (frames cfg.crc (batchRecords s.db.nextSeq []))) := by
    rw [hframes, ← appendActive_appendActive]
    refine does_bind (does_writeRecord ⟨Nat.zero_le _, Nat.zero_le _⟩) ?_
    refine does_bind (does_pure ()) ?_
    exact does_bind (does_writeRecord ⟨Nat.zero_le _, Nat.zero_le _⟩) (does_pure ())
  refine does_bind does_get (does_bind does_get ?_)
  show Does (if s.db.closed = true then _ else _) s () _
  rw [if_neg (by simp [hopen])]
  exact does_mutation hwrite hroom

theorem does_put {key : Key} {value : Bytes} (hopen : s.db.closed = false)
    (hkey : key.length ≤ s.db.limits.maxKeyBytes)
    (hvalue : value.length ≤ s.db.limits.maxValueBytes)
    (hfit : (entryRecord key s.db.nextSeq { value, deleted := false }).Fits)
    (hroom : s.db.memTableSize + 1 < s.db.maxMemtableSize) :
    Does (put cfg key value) s ()
      (mutated s (frame cfg.crc (entryRecord key s.db.nextSeq { value, deleted := false }))
        [entryRecord key s.db.nextSeq { value, deleted := false }] 1) := by
  refine does_bind does_get ?_
  show Does (if s.db.closed = true then _ else _) s () _
  rw [if_neg (by simp [hopen])]
  refine does_bind (does_ofExcept (validateKey_eq_ok.mpr hkey)) ?_
  refine does_bind (does_ofExcept (validateValue_eq_ok.mpr hvalue)) ?_
  exact does_bind does_get (does_mutation (does_writeRecord hfit) hroom)

/-! ### One segment, one memtable, no table -/

/-- A read sees the active memtable only. -/
theorem getAt_active {mt : MemTable} (hqueue : s.db.immutableMemtables = [])
    (htables : s.db.sstables = []) (hactive : s.db.active = mt) (key : Key) (maxSeq : UInt64) :
    getAt s key maxSeq = answer (mt.getAt key maxSeq) := by
  unfold getAt findAt
  rw [hqueue, htables, hactive]
  rfl

/-- The limits of a database opened without options. -/
def defaults : Limits :=
  ⟨Record.maxKeySize, Record.maxValueSize, defaultMaxBatchOperations, defaultMaxBatchBytes⟩

/-- A process that has put `puts` and never filled its memtable. -/
structure Alone (cfg : Config) (puts : List Record) (seq : UInt64) (s : Sys) : Prop where
  opened : s.db.closed = false
  limits : s.db.limits = defaults
  room : s.db.maxMemtableSize = defaultMaxMemtableEntries
  size : s.db.memTableSize = puts.length
  seq_eq : s.db.nextSeq = seq
  wal : s.db.wal = 0
  queue : s.db.immutableMemtables = []
  tables : s.db.sstables = []
  active : s.db.active = MemTable.new.putAll puts
  manifest : s.disk.manifest = none
  log : ∃ recs, s.disk.wals = [(0, walHeader ++ frames cfg.crc recs)] ∧ (∀ r ∈ recs, r.Fits) ∧
    (ReplayState.run {} recs).puts = puts

section Alone

variable {puts : List Record} {seq : UInt64}

theorem Alone.mutated (ha : Alone cfg puts seq s) {more recs : List Record} {n : Nat}
    (hfit : ∀ r ∈ more, r.Fits)
    (hputs : ∀ st : ReplayState, (st.run more).puts = st.puts ++ recs) :
    Alone cfg (puts ++ recs) (seq + UInt64.ofNat n)
      (mutated s (frames cfg.crc more) recs n) where
  opened := ha.opened
  limits := ha.limits
  room := ha.room
  size := by
    show s.db.memTableSize + recs.length = _
    rw [ha.size, List.length_append]
  seq_eq := congrArg (· + UInt64.ofNat n) ha.seq_eq
  wal := ha.wal
  queue := ha.queue
  tables := ha.tables
  active := by
    show Function.update s.db.heap s.db.memtable (s.db.active.putAll recs) s.db.memtable = _
    rw [Function.update_self, ha.active, MemTable.putAll_append]
  manifest := ha.manifest
  log := by
    obtain ⟨old, hwals, hold, hrun⟩ := ha.log
    refine ⟨old ++ more, ?_, ?_, ?_⟩
    · show (s.disk.appendWal s.db.wal (frames cfg.crc more)).wals = _
      rw [appendWal_wals, hwals, ha.wal, ← frames_append_frames]
      rfl
    · intro r hr
      exact (List.mem_append.mp hr).elim (hold r) (hfit r)
    · rw [ReplayState.run_append, hputs, hrun]

/-- A process in a world. -/
def inProcess (s : Sys) (w : World) : World := { w with disk := s.disk, proc := some s.db }

theorem runOp_does {p : Op Unit} {t : Sys} (h : Does p s () t) (M : Model Call) (w : World) :
    (inProcess s w).runOp M p [] = (inProcess t w, .ok) := by
  unfold World.runOp inProcess
  dsimp only
  rw [h M]

/-- A mutation none of whose calls meets a fault. -/
theorem stepLedger_does {p : Op Unit} {t : Sys} (h : Does p s () t) {M : Model Call}
    {event : Event} (hevent : ∀ w, step cfg M w event [] = w.runOp M p []) (w : World)
    (l : Ledger) :
    stepLedger cfg M (inProcess s w, l) (event, []) =
      (inProcess t w, l.acknowledge (mutations (inProcess s w) event)) := by
  show (fun p : World × Response => (p.1, l.learn (mutations (inProcess s w) event) p.2))
    (step cfg M (inProcess s w) event []) = _
  rw [hevent, runOp_does h M w]
  rfl

theorem stepLedger_kill (hopen : s.db.closed = false) {M : Model Call} (w : World) (l : Ledger) :
    stepLedger cfg M (inProcess s w, l) (.kill, []) = (.afterKill s.disk, l) := by
  show (World.afterKill s.disk, l.forget (if s.db.closed then [] else [])) = _
  rw [hopen]
  rfl

/-- Batches without operations move the counter and nothing a caller can see. -/
theorem run_emptyCommits (n : Nat) (ha : Alone cfg puts seq s)
    (hroom : puts.length < defaultMaxMemtableEntries) :
    ∃ t, Alone cfg puts (seq + UInt64.ofNat n) t ∧ ∀ M w l,
      run cfg M (inProcess s w, l) (List.replicate n (.commit [] false, [])) =
        (inProcess t w, l) := by
  induction n generalizing s seq with
  | zero => exact ⟨s, by simpa using ha, fun _ _ _ => rfl⟩
  | succ n ih =>
      have hdoes : Does (commit cfg [] false) s () _ :=
        does_emptyCommit ha.opened (by rw [ha.size, ha.room]; exact hroom)
      have hfit : ∀ r ∈ batchRecords s.db.nextSeq [], r.Fits := by
        simp [batchRecords, beginRecord, commitRecord, Record.Fits]
      have hone := ha.mutated (n := 1) hfit fun st => run_batchRecords st _ []
      rw [List.map_nil, List.append_nil] at hone
      obtain ⟨t, ht, hrun⟩ := ih hone
      refine ⟨t, ?_, fun M w l => ?_⟩
      · rwa [UInt64.add_assoc, ← UInt64.ofNat_add, Nat.add_comm 1 n] at ht
      · have hstep := stepLedger_does hdoes (M := M)
          (show ∀ w, step cfg M w (.commit [] false) [] = w.runOp M _ [] from fun _ => rfl) w l
        have hnone : mutations (inProcess s w) (.commit [] false) = [] := by
          show (if s.db.closed then [] else batchOperations s.db.limits []) = []
          rw [if_neg (by simp [ha.opened])]
          rfl
        rw [hnone] at hstep
        rw [List.replicate_succ, ← hrun M w l]
        exact congrArg (fun s => run cfg M s _) hstep

/-- A put of a small record. -/
theorem run_put (ha : Alone cfg puts seq s) (hroom : puts.length + 1 < defaultMaxMemtableEntries)
    {key : Key} {value : Bytes} (hkey : key.length ≤ Record.maxKeySize)
    (hvalue : value.length ≤ Record.maxValueSize) :
    ∃ t, Alone cfg (puts ++ [entryRecord key seq { value, deleted := false }]) (seq + 1) t ∧
      ∀ M w l, stepLedger cfg M (inProcess s w, l) (.put key value, []) =
        (inProcess t w, l.acknowledge [⟨key, { value, deleted := false }⟩]) := by
  have hfit : (entryRecord key seq { value, deleted := false }).Fits := ⟨hkey, hvalue⟩
  have hdoes : Does (put cfg key value) s () _ :=
    does_put ha.opened (by rw [ha.limits]; exact hkey) (by rw [ha.limits]; exact hvalue)
      (by rw [ha.seq_eq]; exact hfit) (by rw [ha.size, ha.room]; exact hroom)
  have hfits : ∀ r ∈ [entryRecord key seq { value, deleted := false }], r.Fits :=
    fun r hr => List.mem_singleton.mp hr ▸ hfit
  have hone := ha.mutated (n := 1) hfits fun st => rfl
  refine ⟨_, hone, fun M w l => ?_⟩
  have hstep := stepLedger_does hdoes (M := M)
    (show ∀ w, step cfg M w (.put key value) [] = w.runOp M _ [] from fun _ => rfl) w l
  have hadmits : mutations (inProcess s w) (.put key value) =
      [⟨key, { value, deleted := false }⟩] := by
    show (if s.db.closed then ([] : List BatchOperation)
      else if s.db.limits.maxKeyBytes < key.length ∨ s.db.limits.maxValueBytes < value.length
        then [] else [⟨key, { value, deleted := false }⟩]) = _
    have hsmall : ¬ (Record.maxKeySize < key.length ∨ Record.maxValueSize < value.length) :=
      not_or.mpr ⟨not_lt.mpr hkey, not_lt.mpr hvalue⟩
    rw [if_neg (by simp [ha.opened]), ha.limits]
    exact if_neg hsmall
  rw [hadmits, ha.seq_eq] at hstep
  rw [hstep, frames_cons, frames_nil, List.append_nil]

/-- Opening the directory again replays the one segment. -/
theorem openWorld_alone (ha : Alone cfg puts seq s) (M : Model Call) :
    ∃ db : DB, openWorld cfg M (.afterKill s.disk) {} [] =
        ({ disk := s.disk, proc := some db }, .ok) ∧
      db.closed = false ∧ db.limits = defaults ∧
      db.immutableMemtables = [] ∧ db.sstables = [] ∧ db.active = MemTable.new.putAll puts := by
  obtain ⟨recs, hwals, hfit, hputs⟩ := ha.log
  have hreplay := replayInto_segment cfg.crc hfit (TornTail.nil cfg.crc) .new
  rw [List.append_nil] at hreplay
  have hreplays : Does (replaySegments cfg s.disk.wals .new 0) s.disk
      (MemTable.new.putAll puts, max 0 (ReplayState.run {} recs).stats.maxSequence) s.disk := by
    rw [hwals, replaySegments, hreplay, ← hputs]
    dsimp only
    rw [if_neg (lt_irrefl _)]
    exact does_pure _
  have hwal : s.disk.wal? 0 = some (walHeader ++ frames cfg.crc recs) := by
    unfold Disk.wal?
    rw [hwals]
    rfl
  have hsegment : Does (newSegmentInDir 0) s.disk () s.disk := by
    unfold newSegmentInDir
    refine does_bind (does_call _ _ _) ?_
    show Does _ (if s.disk.wal? 0 = none then s.disk.setWal 0 [] else s.disk) () s.disk
    rw [if_neg (by rw [hwal]; simp)]
    refine does_bind does_get ?_
    rw [hwal]
    exact does_ofExcept (congrArg (·.mapError DBError.corruptWAL) (validateWALHeader_walHeader _))
  have hmanifest : raiseSegmentID (Manifest.read s.disk.manifest) s.disk.wals = {} := by
    rw [ha.manifest, hwals]
    rfl
  have hopen : ∃ m, Does (openDB cfg {}) s.disk
      (newDB ⟨defaultMaxMemtableEntries, defaultCompactionThreshold, defaults⟩
        (MemTable.new.putAll puts) {} m) s.disk := by
    refine ⟨max (max 0 (SSTable.maxSeq (MemTable.new.putAll puts).records))
      (max 0 (ReplayState.run {} recs).stats.maxSequence), ?_⟩
    refine does_bind (does_ofExcept rfl) (does_bind does_get (does_bind hreplays ?_))
    dsimp only
    rw [hmanifest]
    exact does_bind hsegment (does_bind does_get (does_bind (does_ofExcept rfl) (does_pure _)))
  obtain ⟨m, hdoes⟩ := hopen
  refine ⟨newDB ⟨defaultMaxMemtableEntries, defaultCompactionThreshold, defaults⟩
    (MemTable.new.putAll puts) {} m, ?_, rfl, rfl, rfl, rfl, rfl⟩
  unfold openWorld World.afterKill
  dsimp only
  rw [hdoes M]

/-- The process of a new directory. -/
theorem run_openDB (cfg : Config) :
    ∃ s, Alone cfg [] 1 s ∧
      ∀ M, run cfg M blank [(.openDB {}, [])] = (inProcess s {}, blank.2) := by
  refine ⟨⟨{ wals := [(0, walHeader)] }, newDB ⟨defaultMaxMemtableEntries,
    defaultCompactionThreshold, defaults⟩ .new {} 0⟩, ?_, fun M => rfl⟩
  refine ⟨rfl, rfl, rfl, rfl, rfl, rfl, rfl, rfl, rfl, rfl, [], ?_, ?_, rfl⟩
  · rw [frames_nil, List.append_nil]
  · exact fun r hr => by cases hr

end Alone

/-! ### The counter at its end -/

/-- Empty batches up to the last number, then two puts of one key. The second one gets the
number 0. -/
def exhausting : List Input :=
  [(.openDB {}, [])] ++ (List.replicate (2 ^ 64 - 2) (.commit [] false, []) ++
    [(.put [0x6B] [1], []), (.put [0x6B] [2], []), (.kill, []), (.openDB {}, [])])

/-- The second put is acknowledged, and reads return the first. -/
theorem get_exhausting :
    (run sample kills blank exhausting).2 [0x6B] = some (some [2]) ∧
      (run sample kills blank exhausting).1.serves [0x6B] = true ∧
      (run sample kills blank exhausting).1.get [0x6B] = .ok [1] := by
  obtain ⟨s0, h0, hrun0⟩ := run_openDB sample
  obtain ⟨s1, h1, hrun1⟩ := run_emptyCommits (2 ^ 64 - 2) h0 (by decide)
  obtain ⟨s2, h2, hrun2⟩ := run_put h1 (by decide)
    (show [0x6B].length ≤ Record.maxKeySize by decide)
    (show [1].length ≤ Record.maxValueSize by decide)
  obtain ⟨s3, h3, hrun3⟩ := run_put h2 (by decide)
    (show [0x6B].length ≤ Record.maxKeySize by decide)
    (show [2].length ≤ Record.maxValueSize by decide)
  obtain ⟨db, hopen, hclosed, hlimits, hqueue, htables, hactive⟩ := openWorld_alone h3 kills
  have hrun : run sample kills blank exhausting = ({ disk := s3.disk, proc := some db },
      (blank.2.acknowledge [⟨[0x6B], { value := [1], deleted := false }⟩]).acknowledge
        [⟨[0x6B], { value := [2], deleted := false }⟩]) := by
    rw [exhausting, run_append, hrun0, run_append, hrun1]
    show stepLedger sample kills (stepLedger sample kills (stepLedger sample kills
      (stepLedger sample kills _ (.put [0x6B] [1], [])) (.put [0x6B] [2], [])) (.kill, []))
      (.openDB {}, []) = _
    rw [hrun2, hrun3, stepLedger_kill h3.opened]
    show (fun p : World × Response => (p.1, Ledger.learn _ [] p.2))
      (openWorld sample kills (.afterKill s3.disk) {} []) = _
    rw [hopen]
    rfl
  rw [hrun]
  refine ⟨rfl, ?_, ?_⟩
  · show (!db.closed && decide ([0x6B].length ≤ db.limits.maxKeyBytes)) = true
    rw [hclosed, hlimits]
    rfl
  · show HyphaDB.get ⟨s3.disk, db⟩ [0x6B] = _
    unfold HyphaDB.get
    rw [hclosed, hlimits, getAt_active hqueue htables hactive]
    decide +kernel

/-- A snapshot at sequence 0, then empty batches until the counter is there again, and a put. -/
def outrun : List Input :=
  List.replicate (2 ^ 64 - 1) (.commit [] false, []) ++ [(.put [0x6B] [1], [])]

theorem Alone.registerReader {puts : List Record} {seq : UInt64} (ha : Alone cfg puts seq s)
    (q : UInt64) : Alone cfg puts seq { s with db := s.db.registerReader q } where
  opened := ha.opened
  limits := ha.limits
  room := ha.room
  size := ha.size
  seq_eq := ha.seq_eq
  wal := ha.wal
  queue := ha.queue
  tables := ha.tables
  active := ha.active
  manifest := ha.manifest
  log := ha.log

/-- The open snapshot shows a put that came after it. -/
theorem snapshot_outrun :
    (run sample noFaults blank
        ([(.openDB {}, [])] ++ [(.newSnapshot, [])])).1.snapshotGet 0 [0x6B] = .error .notFound ∧
      (run sample noFaults blank
        ([(.openDB {}, [])] ++ ([(.newSnapshot, [])] ++ outrun))).1.snapshotOpen 0 = true ∧
      (run sample noFaults blank
        ([(.openDB {}, [])] ++ ([(.newSnapshot, [])] ++ outrun))).1.snapshotGet 0 [0x6B] =
          .ok [1] := by
  obtain ⟨s0, h0, hrun0⟩ := run_openDB sample
  have hseq : s0.db.currentSequence = 0 := by
    unfold DB.currentSequence
    rw [h0.seq_eq]
    rfl
  have hnew : run sample noFaults (inProcess s0 {}, blank.2) [(.newSnapshot, [])] =
      (inProcess { s0 with db := s0.db.registerReader 0 } { snapshots := [⟨0, false⟩] },
        blank.2) := by
    show (fun p : World × Response =>
      (p.1, blank.2.learn (mutations (inProcess s0 {}) .newSnapshot) p.2))
      (step sample noFaults (inProcess s0 {}) .newSnapshot []) = _
    rw [step_newSnapshot rfl h0.opened, hseq,
      Silent.mutations (.of_admits (fun _ => rfl) fun _ => rfl)]
    rfl
  have h1 := h0.registerReader 0
  obtain ⟨s2, h2, hrun2⟩ := run_emptyCommits (2 ^ 64 - 1) h1 (by decide)
  obtain ⟨s3, h3, hrun3⟩ := run_put h2 (by decide)
    (show [0x6B].length ≤ Record.maxKeySize by decide)
    (show [1].length ≤ Record.maxValueSize by decide)
  have hcreated : run sample noFaults blank ([(.openDB {}, [])] ++ [(.newSnapshot, [])]) =
      (inProcess { s0 with db := s0.db.registerReader 0 } { snapshots := [⟨0, false⟩] },
        blank.2) := by
    rw [run_append, hrun0, hnew]
  have hlater : (run sample noFaults blank
      ([(.openDB {}, [])] ++ ([(.newSnapshot, [])] ++ outrun))).1 =
      inProcess s3 { snapshots := [⟨0, false⟩] } := by
    rw [run_append, hrun0, run_append, hnew, outrun, run_append, hrun2]
    exact congrArg Prod.fst (hrun3 noFaults _ _)
  have hget : ∀ {s : Sys} {puts : List Record} {seq : UInt64}, Alone sample puts seq s →
      (inProcess s { snapshots := [⟨0, false⟩] }).snapshotGet 0 [0x6B] =
        answer ((MemTable.new.putAll puts).getAt [0x6B] 0) := by
    intro s puts seq ha
    have hsnap : (inProcess s { snapshots := [⟨0, false⟩] }).snapshots[0]? = some ⟨0, false⟩ := rfl
    rw [snapshotGet_open rfl hsnap ha.opened rfl, ha.limits]
    exact getAt_active ha.queue ha.tables ha.active _ _
  rw [hcreated, hlater, hget h1, hget h3]
  refine ⟨by decide +kernel, ?_, by decide +kernel⟩
  exact snapshotOpen_iff.mpr ⟨s3.db, ⟨0, false⟩, rfl, rfl, h3.opened, rfl⟩

/-! ### The counter come round -/

/-- A world with its counter at `seq`. -/
def atSequence (w : World) (seq : UInt64) : World :=
  { w with proc := w.proc.map fun db => { db with nextSeq := seq } }

/-- A process that takes mutations and has room in its memtable. -/
def roomy (w : World) : Bool :=
  match w.proc with
  | none => false
  | some db => !db.closed && db.memTableSize < db.maxMemtableSize

theorem roomy_iff {w : World} : roomy w = true ↔
    ∃ db, w.proc = some db ∧ db.closed = false ∧ db.memTableSize < db.maxMemtableSize := by
  unfold roomy
  cases w.proc with
  | none => simp
  | some db => simp

theorem atSequence_atSequence (w : World) (a b : UInt64) :
    atSequence (atSequence w a) b = atSequence w b := by
  unfold atSequence
  cases w.proc with
  | none => rfl
  | some db => rfl

theorem alike_atSequence {w w' : World} (h : AlikeWorld w w') (seq : UInt64) :
    AlikeWorld (atSequence w seq) (atSequence w' seq) := by
  refine ⟨?_, h.snapshots, h.iterators, fun db hdb => ?_⟩
  · unfold atSequence
    rw [h.proc]
  · obtain ⟨db₀, hdb₀, rfl⟩ := Option.map_eq_some_iff.mp hdb
    exact (h.sys db₀ hdb₀).update rfl rfl

theorem putRecords_nil (db : DB) : db.putRecords [] = db := by
  have hheap : Function.update db.heap db.memtable (db.active.putAll []) = db.heap :=
    Function.update_eq_self _ _
  unfold DB.putRecords
  rw [hheap]
  rfl

/-- One batch without operations. -/
theorem step_emptyCommit {w : World} {db : DB} (hdb : w.proc = some db) (hroom : roomy w = true)
    (hnum : NumberedWorld w) (M : Model Call) :
    AlikeWorld (atSequence w (db.nextSeq + 1)) (step cfg M w (.commit [] false) []).1 := by
  obtain ⟨db', hdb', hopen, hsize⟩ := roomy_iff.mp hroom
  obtain rfl := Option.some.inj (hdb.symm.trans hdb')
  have hdoes : Does (commit cfg [] false) ⟨w.disk, db⟩ () _ := does_emptyCommit hopen hsize
  have hworld : inProcess ⟨w.disk, db⟩ w = w := by
    unfold inProcess
    dsimp only
    rw [← hdb]
  have hstep := runOp_does hdoes M w
  rw [hworld] at hstep
  have hnext : atSequence w (db.nextSeq + 1) =
      { w with proc := some { db with nextSeq := db.nextSeq + 1 } } := by
    unfold atSequence
    rw [hdb]
    rfl
  have hdb₁ : (mutated ⟨w.disk, db⟩ (frames cfg.crc (batchRecords db.nextSeq [])) [] 1).db =
      { db with nextSeq := db.nextSeq + 1 } := by
    show { db.putRecords [] with nextSeq := db.nextSeq + UInt64.ofNat 1 } = _
    rw [putRecords_nil]
    rfl
  show AlikeWorld _ (w.runOp M (commit cfg [] false) []).1
  rw [hstep, hnext]
  refine ⟨congrArg some hdb₁, rfl, rfl, fun db' h => ?_⟩
  obtain rfl := Option.some.inj h
  have hle := (hnum db hdb).wal
  exact ⟨rfl, hle, (AlikeDisk.refl _ _).appendOne (Nat.lt_succ_of_le hle) _⟩

/-- Any number of them: only the counter matters. -/
theorem run_emptyCommits_alike (n : Nat) {s : World × Ledger} {db : DB} (hdb : s.1.proc = some db)
    (hroom : roomy s.1 = true) (hnum : NumberedWorld s.1) (M : Model Call) :
    AlikeWorld (atSequence s.1 (db.nextSeq + UInt64.ofNat n))
      (run cfg M s (List.replicate n (.commit [] false, []))).1 := by
  induction n generalizing s db with
  | zero =>
      have hself : atSequence s.1 (db.nextSeq + UInt64.ofNat 0) = s.1 := by
        unfold atSequence
        rw [hdb, show UInt64.ofNat 0 = 0 from rfl, UInt64.add_zero]
        show { s.1 with proc := some db } = s.1
        rw [← hdb]
      rw [hself]
      exact alikeWorld_refl hnum
  | succ n ih =>
      have hone : AlikeWorld (atSequence s.1 (db.nextSeq + 1))
          (stepLedger cfg M s (.commit [] false, [])).1 := step_emptyCommit hdb hroom hnum M
      have hdb₁ : (stepLedger cfg M s (.commit [] false, [])).1.proc =
          some { db with nextSeq := db.nextSeq + 1 } := by
        rw [hone.proc]
        unfold atSequence
        rw [hdb]
        rfl
      have hroom₁ : roomy (stepLedger cfg M s (.commit [] false, [])).1 = true := by
        obtain ⟨db', hdb', hopen, hsize⟩ := roomy_iff.mp hroom
        obtain rfl := Option.some.inj (hdb.symm.trans hdb')
        exact roomy_iff.mpr ⟨_, hdb₁, hopen, hsize⟩
      have hseq : db.nextSeq + UInt64.ofNat (n + 1) = db.nextSeq + 1 + UInt64.ofNat n := by
        rw [UInt64.add_assoc, show (1 : UInt64) = UInt64.ofNat 1 from rfl, ← UInt64.ofNat_add,
          Nat.add_comm 1 n]
      have hrest := ih hdb₁ hroom₁ (hnum.step (.commit [] false) [])
      have hboth := (alike_atSequence hone (db.nextSeq + 1 + UInt64.ofNat n)).trans hrest
      rw [atSequence_atSequence] at hboth
      rw [hseq, List.replicate_succ]
      exact hboth

/-- The commits in a run: as if its counter had been set by hand. -/
theorem run_comeRound {prep : List Input} {start seq : UInt64} {n : Nat}
    (hroom : roomy (run sample noFaults blank prep).1 = true)
    (hstart : (run sample noFaults blank prep).1.proc.map DB.nextSeq = some start)
    (hseq : start + UInt64.ofNat n = seq) :
    AlikeWorld (atSequence (run sample noFaults blank prep).1 seq)
      (run sample noFaults blank (prep ++ List.replicate n (.commit [] false, []))).1 := by
  obtain ⟨db, hdb, rfl⟩ := Option.map_eq_some_iff.mp hstart
  rw [run_append, ← hseq]
  exact run_emptyCommits_alike n hdb hroom (numbered_run prep fun _ h => by cases h) noFaults

theorem alike_getAt {w w' : World} (h : AlikeWorld w w') {db : DB} (hdb : w.proc = some db)
    (k : Key) (q : UInt64) : getAt ⟨w'.disk, db⟩ k q = getAt ⟨w.disk, db⟩ k q := by
  have htables : w'.disk.tables = w.disk.tables := (h.sys db hdb).disk.tables
  exact getAt_congr (fun _ _ => by rw [htables]) k q

/-- Two versions of a key in two tables. -/
def twoVersions : List Input :=
  [(.openDB { maxEntries := 1 }, []), (.put [0x6B] [1], []), (.put [0x6B] [2], []),
    (.flushReserve, []), (.flushWrite, []), (.flushPublish, []), (.flushRemoveWAL, []),
    (.flushReserve, []), (.flushWrite, []), (.flushPublish, []), (.flushRemoveWAL, [])]

/-- The counter comes round to a place between the two: the compaction keeps the newer version,
which the current sequence does not see. -/
theorem compaction_seen_twoVersions :
    ∃ db db', (run sample noFaults blank
        (twoVersions ++ List.replicate (2 ^ 64 - 1) (.commit [] false, []))).1.proc = some db ∧
      ((run sample noFaults blank
        (twoVersions ++ List.replicate (2 ^ 64 - 1) (.commit [] false, []))).1.runOp noFaults
          (compactLocked sample 1) []).1.proc = some db' ∧
      getAt ⟨(run sample noFaults blank
        (twoVersions ++ List.replicate (2 ^ 64 - 1) (.commit [] false, []))).1.disk, db⟩ [0x6B]
          db.currentSequence = .ok [1] ∧
      getAt ⟨((run sample noFaults blank
        (twoVersions ++ List.replicate (2 ^ 64 - 1) (.commit [] false, []))).1.runOp noFaults
          (compactLocked sample 1) []).1.disk, db'⟩ [0x6B] db.currentSequence =
        .error .notFound := by
  have halike := @run_comeRound twoVersions 3 2 (2 ^ 64 - 1) (by decide +kernel)
    (by decide +kernel) (by decide)
  generalize (run sample noFaults blank
    (twoVersions ++ List.replicate (2 ^ 64 - 1) (.commit [] false, []))).1 = w at halike ⊢
  have hboth : AlikeResult (World.runOp noFaults _ (compactLocked sample 1) [])
      (World.runOp noFaults _ (compactLocked sample 1) []) :=
    halike.runOp fun _ _ h => coupled_compactLocked h 1
  have hafter := hboth.2
  have hold : ((atSequence (run sample noFaults blank twoVersions).1 2).proc.map fun db =>
      (db.currentSequence,
        getAt ⟨(atSequence (run sample noFaults blank twoVersions).1 2).disk, db⟩ [0x6B] 1)) =
      some (1, .ok [1]) := by decide +kernel
  have hnew : ((((atSequence (run sample noFaults blank twoVersions).1 2)).runOp noFaults
      (compactLocked sample 1) []).1.proc.map fun db =>
        getAt ⟨((atSequence (run sample noFaults blank twoVersions).1 2).runOp noFaults
          (compactLocked sample 1) []).1.disk, db⟩ [0x6B] 1) = some (.error .notFound) := by
    decide +kernel
  obtain ⟨db, hdb, heq⟩ := Option.map_eq_some_iff.mp hold
  obtain ⟨hseq, hget⟩ := Prod.mk.inj heq
  obtain ⟨db', hdb', hget'⟩ := Option.map_eq_some_iff.mp hnew
  refine ⟨db, db', halike.proc.trans hdb, hafter.proc.trans hdb', ?_, ?_⟩
  · rw [hseq, alike_getAt halike hdb, hget]
  · rw [hseq, alike_getAt hafter hdb', hget']

/-- A version of a key at level 1. -/
def lowVersion : List Input :=
  (.openDB { maxEntries := 1 }, []) :: (.put [0x6B] [1], []) :: flushOnce ++ [(.compact, [])]

/-- A process at the sequence number of that version puts another one with it. -/
theorem not_leveled_lowVersion {s : World × Ledger}
    (h : AlikeWorld (atSequence (run sample noFaults blank lowVersion).1 1) s.1) :
    ∃ db, (run sample noFaults s [(.put [0x6B] [2], [])]).1.proc = some db ∧
      ¬ Leveled (run sample noFaults s [(.put [0x6B] [2], [])]).1.disk db.sstables
        (memtables db) := by
  have hafter : AlikeWorld _ (step sample noFaults s.1 (.put [0x6B] [2]) []).1 :=
    (step_alike h fun _ h => by cases h).2
  have hsame : ((step sample noFaults (atSequence (run sample noFaults blank lowVersion).1 1)
      (.put [0x6B] [2]) []).1.proc.map fun db =>
        decide (∃ m ∈ memtables db, ∃ t ∈ db.sstables, ∃ a ∈ m, ∃ b ∈ tableRecords
          (step sample noFaults (atSequence (run sample noFaults blank lowVersion).1 1)
            (.put [0x6B] [2]) []).1.disk t, a.key = b.key ∧ b.seq = a.seq)) = some true := by
    decide +kernel
  obtain ⟨db, hdb, hfound⟩ := Option.map_eq_some_iff.mp hsame
  obtain ⟨m, hm, t, ht, a, ha, b, hb, hkey, hseq⟩ := of_decide_eq_true hfound
  refine ⟨db, hafter.proc.trans hdb, fun h => ?_⟩
  have hlt := h.memtables m hm t ht a ha b ?_ hkey
  · rw [hseq] at hlt
    exact lt_irrefl _ hlt
  · show b ∈ tableRecords (step sample noFaults s.1 (.put [0x6B] [2]) []).1.disk t
    unfold tableRecords at hb ⊢
    rw [(hafter.sys db hdb).disk.tables]
    exact hb

/-- The counter comes round to that number. -/
theorem leveled_lowVersion :
    ∃ db, (run sample noFaults blank (lowVersion ++
        List.replicate (2 ^ 64 - 1) (.commit [] false, []) ++ [(.put [0x6B] [2], [])])).1.proc =
          some db ∧
      ¬ Leveled (run sample noFaults blank (lowVersion ++
        List.replicate (2 ^ 64 - 1) (.commit [] false, []) ++ [(.put [0x6B] [2], [])])).1.disk
          db.sstables (memtables db) := by
  have halike := @run_comeRound lowVersion 2 1 (2 ^ 64 - 1) (by decide +kernel)
    (by decide +kernel) (by decide)
  rw [run_append]
  generalize run sample noFaults blank
    (lowVersion ++ List.replicate (2 ^ 64 - 1) (.commit [] false, [])) = s at halike ⊢
  exact not_leveled_lowVersion halike

end HyphaDB.Runs
