import HyphaDB.Runs.Snapshots
import HyphaDB.Store.Remembered

/-!
# HyphaDB.Runs.Sequences

**Sequence numbers over restarts.** `Open` starts the counter behind the largest number it finds
in tables, memtable and segments. A number it does not find is handed out again. Without crashes
and faults there are two ways to lose the latest one: a compaction into the last level drops the
tombstone that has it, and a batch without operations, whose ID is in its segment only, fills the
memtable, so that the segment goes with the next flush. In runs without either the counter never
falls back (`Counted.run`).
-/

namespace HyphaDB.Runs

open Faults Store Wal Refine Compaction

variable {cfg : Config} {M : Model Call} {used : Nat} {w : World} {db : DB} {fates : List Fate}

/-! ### The active segment -/

/-- The world behind a program, by the way it ends. -/
theorem runOp_sat {p : Op Unit} {Q : Post Sys DBError Unit} {J : World → Prop}
    (hdb : w.proc = some db) (hp : wp M p Q ⟨w.disk, db⟩)
    (hret : ∀ t : Sys, Q.ret () t → J { w with disk := t.disk, proc := some t.db })
    (herr : ∀ e, ∀ t : Sys, Q.err e t → J { w with disk := t.disk, proc := some t.db })
    (hkill : ∀ t : Sys, Q.kill t → J (.afterKill t.disk)) : J (w.runOp M p fates).1 := by
  rcases runOp_cases hdb hp fates with ⟨t, ht, heq⟩ | ⟨e, t, ht, heq⟩ | ⟨t, ht, heq⟩
  all_goals rw [heq]
  · exact hret t ht
  · exact herr e t ht
  · exact hkill t ht

/-- A segment that is there, and the process that appends to segment `id`. -/
def Appending (p : Nat × Bytes) (id : Nat) (s : Sys) : Prop := s.db.wal = id ∧ p ∈ s.disk.wals

theorem ignoresQueue_appending (p : Nat × Bytes) (id : Nat) : IgnoresQueue (Appending p id) where
  tables := fun _ _ _ _ h => h
  nextID := fun _ _ _ h => h
  files := fun _ _ _ _ h => h
  flusher := fun _ _ _ h => h
  queue := fun _ _ _ h => h

/-- The removal of another segment. -/
theorem wp_flushRemoveWAL_appending {p : Nat × Bytes} {id : Nat} {s : Sys}
    (hs : Appending p id s) (hother : ∀ walID, s.db.flusher = .removing walID → p.1 ≠ walID) :
    wp M flushRemoveWAL
      ⟨fun _ t => Appending p id t, fun _ t => Appending p id t, Appending p id⟩ s := by
  have hI := ignoresQueue_appending p id
  refine wp_bind (wp_get ?_)
  dsimp only
  split
  · rename_i walID hflusher
    have hremove : ∀ t : Sys, Appending p id t →
        Appending p id { t with disk := t.disk.removeWal walID } := fun t ht =>
      ⟨ht.1, List.mem_filter.mpr ⟨ht.2, by simpa using hother walID hflusher⟩⟩
    have hkeeps : Keeps (Appending p id) (Prog.attempt (removeSegment walID)) :=
      keeps_attempt (keeps_bind (keeps_call fun t fate h => keeps_atomically hremove t fate h)
        fun _ => keeps_call fun _ _ h => h)
    refine wp_bind (wp_mono (hkeeps M s hs) (fun result t ht => ?_) (fun _ _ h => h) fun _ h => h)
    cases result with
    | ok _ => exact keeps_updateDB (fun d db h => hI.flusher _ _ _ h) M t ht
    | error e =>
        exact keeps_bind (keeps_updateDB fun d db h => hI.flusher _ _ _ h)
          (fun _ => keeps_throw _) M t ht
  · exact wp_pure hs

/-- Except for mutations no event touches the active segment, and none switches it. -/
theorem step_active {event : Event} {p : Nat × Bytes} (hdb : w.proc = some db)
    (hevent : event.mutates = false) (hp : p ∈ w.disk.wals)
    (hother : ∀ walID, db.flusher = .removing walID → p.1 ≠ walID) :
    p ∈ (step cfg M w event fates).1.disk.wals ∧
      ∀ db', (step cfg M w event fates).1.proc = some db' → db'.wal = db.wal := by
  have hI := ignoresQueue_appending p db.wal
  have hs : Appending p db.wal ⟨w.disk, db⟩ := ⟨rfl, hp⟩
  have hjob : ∀ {q : Op Unit}, wp M q ⟨fun _ t => Appending p db.wal t,
      fun _ t => Appending p db.wal t, Appending p db.wal⟩ ⟨w.disk, db⟩ →
      p ∈ (w.runOp M q fates).1.disk.wals ∧
        ∀ db', (w.runOp M q fates).1.proc = some db' → db'.wal = db.wal := by
    intro q hq
    refine runOp_sat (J := fun w' => p ∈ w'.disk.wals ∧ ∀ db', w'.proc = some db' →
      db'.wal = db.wal) hdb hq (fun t ht => ?_) (fun e t ht => ?_) fun t ht => ?_
    · exact ⟨ht.2, fun db' h => Option.some.inj h ▸ ht.1⟩
    · exact ⟨ht.2, fun db' h => Option.some.inj h ▸ ht.1⟩
    · exact ⟨ht.2, fun db' h => by cases h⟩
  have hidle : event.idle = true → p ∈ (step cfg M w event fates).1.disk.wals ∧
      ∀ db', (step cfg M w event fates).1.proc = some db' → db'.wal = db.wal := by
    intro hidle
    rcases step_idle hdb hidle with ⟨closed, -, hdisk, readers, hproc⟩ | ⟨-, hgone⟩
    · rw [hdisk, hproc]
      exact ⟨hp, fun db' h => by rw [← Option.some.inj h]⟩
    · rw [hgone]
      exact ⟨hp, fun db' h => by cases h⟩
  cases event with
  | put _ _ | delete _ | commit _ _ => cases hevent
  | flushReserve => exact hjob (keeps_flushReserve hI M _ hs)
  | flushWrite => exact hjob (keeps_flushWrite hI M _ hs)
  | flushPublish => exact hjob (keeps_flushPublish hI M _ hs)
  | flushRemoveWAL => exact hjob (wp_flushRemoveWAL_appending hs hother)
  | flushCleanup => exact hjob (keeps_flushCleanup hI M _ hs)
  | compact => exact hjob (keeps_compact hI.toIgnoresTables M _ hs)
  | compactInBackground => exact hjob (keeps_compactInBackground hI.toIgnoresTables M _ hs)
  | _ => exact hidle rfl

/-! ### The largest number of a segment -/

/-- The largest sequence number or batch ID that a replay finds in a segment. -/
def segmentMax (cfg : Config) (file : Bytes) : UInt64 :=
  match (replayInto cfg.crc file .new).result with
  | .ok stats => stats.maxSequence
  | .error _ => 0

theorem replayInto_clean {file : Bytes} (h : Clean cfg.crc used file) :
    (replayInto cfg.crc file .new).file = file ∧
      ∃ stats, (replayInto cfg.crc file .new).result = .ok stats ∧
        segmentMax cfg file = stats.maxSequence := by
  obtain ⟨recs, hframed⟩ := h
  have hreplay := replayInto_segment cfg.crc hframed.fits (TornTail.nil cfg.crc) .new
  rw [List.append_nil] at hreplay
  unfold segmentMax
  rw [hreplay]
  exact ⟨rfl, _, rfl, rfl⟩

/-- Behind a clean segment every frame counts. -/
theorem le_segmentMax_append {file : Bytes} (h : Clean cfg.crc used file) {recs : List Record}
    (hrecs : Framed used recs) {r : Record} (hr : r ∈ recs) :
    r.batchID ≤ segmentMax cfg (file ++ frames cfg.crc recs) := by
  obtain ⟨old, hold⟩ := h
  have hreplay := replayInto_segment cfg.crc (hold.append hrecs).fits (TornTail.nil cfg.crc) .new
  rw [List.append_nil] at hreplay
  unfold segmentMax
  rw [frames_append_frames, hreplay]
  dsimp only
  rw [run_stats]
  refine le_foldl_max (Or.inr (List.mem_flatMap.mpr ⟨r, List.mem_append_right _ hr, ?_⟩))
  exact List.mem_cons_of_mem _ List.mem_cons_self

/-! ### Mutations -/

/-- No call fails. -/
theorem noFaults_eq (c : Call) (fate : Fate) : ¬ noFaults c fate = true := by
  intro h
  cases h

/-- No fault occurs, and compactions keep the number `top`. -/
def remembering (top : Nat) : Guard :=
  { quiet with compact := fun _ inputs options => KeepsTop top inputs options }

theorem remembering_crashFree (top : Nat) : (remembering top).CrashFree :=
  ⟨id, id, fun h => h.elim⟩

theorem remembering_remembers (top : Nat) : (remembering top).Remembering top :=
  ⟨id, id, id, fun _ _ _ h => h⟩

section Mutations

variable {s : Sys} {l : Ledger} {event : Event}

/-- What a mutation logs, and which numbers it takes. -/
theorem logs_appendOf {g : Guard} (hs : SysSound cfg g M used s) (hopen : s.db.closed = false)
    (hevent : event.mutates = true) (hpos : 0 < costOf s.db event)
    (hroom : used + costOf s.db event + 1 < 2 ^ 64) :
    Logs cfg M (used + costOf s.db event) (batchEntries s.db.nextSeq (opsOf s.db event))
        (appendOf cfg s.db event) ∧
      Mutation s used (costOf s.db event) (batchEntries s.db.nextSeq (opsOf s.db event))
        (opsOf s.db event) := by
  have hseq := hs.proc.seq_le
  have hlen : (opsOf s.db event).length ≤ costOf s.db event := by
    unfold opsOf costOf
    rw [hopen]
    cases event with
    | commit calls sync => exact (length_le_batchCost _).1
    | _ => exact le_refl _
  refine ⟨?_, batchEntries_sequenced hlen (by omega), batchEntries_carries _ _, hroom⟩
  have hops : opsOf s.db event = s.db.admits event := by
    unfold opsOf
    rw [hopen]
    rfl
  cases event with
  | put key value =>
      have hfit : ¬ (s.db.limits.maxKeyBytes < key.length ∨
          s.db.limits.maxValueBytes < value.length) := by
        intro h
        unfold costOf DB.admits at hpos
        rw [hopen] at hpos
        dsimp only at hpos
        rw [if_pos h] at hpos
        cases hpos
      have hadmits : opsOf s.db (.put key value) = [⟨key, { value, deleted := false }⟩] :=
        hops.trans (if_neg hfit)
      have hcost : costOf s.db (.put key value) = 1 := by
        unfold costOf
        rw [hopen]
        exact congrArg List.length (if_neg hfit)
      rw [not_or, not_lt, not_lt] at hfit
      rw [hadmits, hcost, batchEntries_singleton]
      exact logs_writeRecord (framed_entry hs hfit.1 hfit.2) rfl
  | delete key =>
      have hfit : ¬ s.db.limits.maxKeyBytes < key.length := by
        intro h
        unfold costOf DB.admits at hpos
        rw [hopen] at hpos
        dsimp only at hpos
        rw [if_pos h] at hpos
        cases hpos
      have hadmits : opsOf s.db (.delete key) = [⟨key, { value := [], deleted := true }⟩] :=
        hops.trans (if_neg hfit)
      have hcost : costOf s.db (.delete key) = 1 := by
        unfold costOf
        rw [hopen]
        exact congrArg List.length (if_neg hfit)
      rw [not_lt] at hfit
      rw [hadmits, hcost, batchEntries_singleton]
      exact logs_writeRecord (framed_entry hs hfit (Nat.zero_le _)) rfl
  | commit calls sync =>
      have hcost : costOf s.db (.commit calls sync) =
          batchCost (batchOperations s.db.limits calls) := by
        unfold costOf
        rw [hopen]
        rfl
      rw [hcost] at hroom
      rw [hops, hcost]
      exact logs_writeBatch (framed_batch hs (fun op hop => batchOperations_limits hop) hroom)
        batchEntries_plain sync
  | _ => cases hevent

/-- The number of its last record is remembered, in the active memtable or where the rotation
puts it. -/
theorem wp_mutate_remembers {top : Nat} (hs : SysSound cfg (remembering top) noFaults used s)
    (hv : CrashFree (remembering top) (viewSys cfg s, l))
    (hclean : ActiveClean cfg used s.disk s.db) {n : Nat} {recs : List Record}
    {ops : List BatchOperation} (hm : Mutation s used n recs ops) {p : Op Unit}
    (hp : Logs cfg noFaults (used + n) recs p) (htop : ∃ r ∈ recs, top ≤ r.seq.toNat) :
    wp noFaults (mutate p recs n)
      (Returns fun t =>
        t.db.nextSeq = s.db.nextSeq + UInt64.ofNat n ∧ Remembers top (viewSys cfg t)) s := by
  have hle : used ≤ used + n := Nat.le_add_right _ _
  have hclean' : ActiveClean cfg (used + n) s.disk s.db :=
    fun p hp hw => (hclean p hp hw).mono hle
  refine wp_bind (hp s _ ⟨fun {sent} hc => ?_, fun hM _ _ => absurd hM (noFaults_eq _ _),
    fun hM _ => absurd hM (noFaults_eq _ _), fun hM _ => absurd hM (noFaults_eq _ _),
    fun hM _ => absurd hM (noFaults_eq _ _)⟩)
  refine wp_bind (wp_modify ?_)
  have hwritten := runs_written (l := l) (hs.mono hle) hs.proc.seq_le hclean' hm trivial hc
  generalize hmid : ({ appendActive s (frames cfg.crc sent ++ []) with
    db := { s.db.putRecords recs with nextSeq := s.db.nextSeq + UInt64.ofNat n } } : Sys) = mid
    at hwritten
  have hheld : Remembers top (viewSys cfg mid) := by
    obtain ⟨r, hr, hle⟩ := htop
    obtain ⟨x, hx, hseq⟩ : ∃ x ∈ (s.db.active.putAll recs).records, x.seq = r.seq :=
      MemTable.exists_seq_putAll (Or.inr hr)
    refine ⟨x, Or.inl ⟨⟨mid.db.memtable, mid.db.wal⟩,
      List.mem_append_right _ List.mem_cons_self, ?_⟩, hseq ▸ hle⟩
    rw [← hmid]
    show x ∈ (Function.update s.db.heap s.db.memtable (s.db.active.putAll recs)
      s.db.memtable).records
    rwa [Function.update_self]
  have hfree : CrashFree (remembering top) (viewSys cfg mid, l.acknowledge ops) :=
    hv.moves (remembering_crashFree top) hwritten.moves
  have hstart : Runs cfg (remembering top) noFaults (used + n)
      (viewSys cfg mid, l.acknowledge ops) (l.acknowledge ops) mid :=
    ⟨hwritten.sound, Relation.ReflTransGen.refl⟩
  have hseq : IgnoresRotation fun t : Sys => t.db.nextSeq = mid.db.nextSeq :=
    ⟨fun _ _ _ h => h, fun _ _ h => h, fun _ _ h => h⟩
  have hnext : mid.db.nextSeq = s.db.nextSeq + UInt64.ofNat n := by rw [← hmid]
  have hrotate := wp_and (wp_rotateIfFull hstart (allowed_noFaults _))
    (keeps_rotateIfFull hseq noFaults mid rfl)
  show wp noFaults rotateIfFull _ { appendActive s (frames cfg.crc sent ++ []) with
    db := { s.db.putRecords recs with nextSeq := s.db.nextSeq + UInt64.ofNat n } }
  rw [hmid]
  refine wp_mono hrotate (fun _ t ht => ⟨ht.2.trans hnext, ?_⟩) (fun _ _ ht => ht.1.1.1)
    fun _ ht => ht.1.1
  exact hheld.moves (remembering_remembers top) (remembering_crashFree top) ht.1.moves hfree

/-- A batch without operations that leaves the memtable where it is: its ID is in the active
segment. -/
theorem wp_mutate_empty (hclean : ActiveClean cfg used s.disk s.db)
    (hactive : ∃ p ∈ s.disk.wals, p.1 = s.db.wal) (hseq : s.db.nextSeq.toNat ≤ used)
    (hroom : s.db.memTableSize < s.db.maxMemtableSize) (sync : Bool) (n : Nat) :
    wp noFaults (mutate (writeBatch cfg s.db.nextSeq [] sync) [] n)
      (Returns fun t => t.db.nextSeq = s.db.nextSeq + UInt64.ofNat n ∧
        ∃ p ∈ t.disk.wals, p.1 = t.db.wal ∧ s.db.nextSeq ≤ segmentMax cfg p.2) s := by
  have hframed : Framed used (batchRecords s.db.nextSeq []) := by
    have hmem : ∀ r ∈ batchRecords s.db.nextSeq [],
        r = beginRecord s.db.nextSeq ∨ r = commitRecord s.db.nextSeq := fun r hr => by
      simpa [batchRecords] using hr
    refine ⟨fun r hr => ?_, fun r hr => ?_, fun r hr => ?_⟩
    · rcases hmem r hr with rfl | rfl
      · exact ⟨Nat.zero_le _, Nat.zero_le _⟩
      · exact ⟨Nat.zero_le _, Nat.zero_le _⟩
    · rcases hmem r hr with rfl | rfl
      · exact Nat.zero_le _
      · exact Nat.zero_le _
    · rcases hmem r hr with rfl | rfl
      · exact hseq
      · exact hseq
  refine wp_bind (wp_writeBatch_done hframed.fits ?_)
  refine wp_bind (wp_modify (wp_bind (wp_get ?_)))
  show wp noFaults (if s.db.maxMemtableSize ≤ s.db.memTableSize then _ else _) _ _
  rw [if_neg (not_le.mpr hroom)]
  obtain ⟨p, hp, hid⟩ := hactive
  refine wp_pure ⟨rfl, (p.1, p.2 ++ frames cfg.crc (batchRecords s.db.nextSeq [])), ?_, hid, ?_⟩
  · show _ ∈ (s.disk.appendWal s.db.wal _).wals
    rw [appendWal_wals]
    exact List.mem_map.mpr ⟨p, hp, by rw [if_pos hid]⟩
  · have hbegin : beginRecord s.db.nextSeq ∈ batchRecords s.db.nextSeq [] := List.mem_cons_self
    exact le_segmentMax_append (hclean p hp hid) hframed hbegin

end Mutations

/-! ### Opening -/

/-- The process of an `Open` that succeeded. -/
theorem openWorld_sat {opts : Options} {Q : Post Disk DBError DB} (hno : w.proc = none)
    (hp : (openDB cfg opts M w.disk fates).Sat Q) {d : Disk}
    (hopened : (openWorld cfg M w opts fates).1 = { disk := d, proc := some db }) : Q.ret db d := by
  unfold openWorld at hopened
  rw [hno] at hopened
  dsimp only at hopened
  generalize openDB cfg opts M w.disk fates = o at hp hopened
  cases o with
  | ret db' d' rest =>
      obtain rfl : db' = db := Option.some.inj (congrArg World.proc hopened)
      obtain rfl : d' = d := congrArg World.disk hopened
      exact hp
  | err e d' rest => cases congrArg World.proc hopened
  | killed d' => cases congrArg World.proc hopened

/-- A directory with one clean segment: it stays as it is, and the counter starts behind it. -/
theorem wp_openDB_single {d : Disk} (hd : DiskSound cfg quiet used d) {id : Nat} {file : Bytes}
    (hwals : d.wals = [(id, file)]) (hclean : Clean cfg.crc used file) (opts : Options) :
    wp noFaults (openDB cfg opts)
      ⟨fun db d' => d'.wals = d.wals ∧ db.wal = id ∧
          ∃ m, db.nextSeq = m + 1 ∧ segmentMax cfg file ≤ m,
        fun _ _ => True, fun _ => True⟩ d := by
  have hmem : (id, file) ∈ d.wals := hwals ▸ List.mem_cons_self
  obtain ⟨hfile, stats, hresult, hmax⟩ := replayInto_clean hclean
  have hnext : raiseSegmentID (Manifest.read d.manifest) d.wals =
      { Manifest.read d.manifest with nextWALSegmentID := id } := by
    have hle : (Manifest.read d.manifest).nextWALSegmentID ≤ id := by
      rcases hd.next (fun h => h) with hnil | ⟨p, hp, hle⟩
      · rw [hnil] at hmem
        cases hmem
      · rw [hwals] at hp
        rwa [List.mem_singleton.mp hp] at hle
    rw [hwals]
    unfold raiseSegmentID
    dsimp only [List.getLast?_singleton]
    rw [max_eq_right hle]
  refine wp_bind (wp_ofExcept (fun settings _ => ?_) fun _ _ => trivial)
  have hreplay : wp noFaults (replaySegments cfg d.wals .new 0)
      ⟨fun a t => t = d ∧ a.2 = max 0 stats.maxSequence, fun _ _ => True, fun _ => True⟩ d := by
    rw [hwals]
    unfold replaySegments
    dsimp only
    rw [hfile, hresult, if_neg (lt_irrefl _)]
    exact wp_pure ⟨rfl, rfl⟩
  refine wp_bind (wp_get (wp_bind (wp_mono hreplay (fun a t ht => ?_) (fun _ _ h => h)
    fun _ h => h)))
  obtain ⟨mt, walMaxSeq⟩ := a
  obtain ⟨rfl, hwalMax⟩ := ht
  dsimp only at hwalMax ⊢
  rw [hnext]
  refine wp_bind (wp_newSegment_existing (allowed_noFaults quiet) hd.sorted hmem
    (fun _ => hclean.validate) ?_ (fun _ _ _ _ _ => trivial) fun _ _ _ => trivial)
  rw [if_neg hclean.ne_nil]
  refine wp_bind (wp_get (wp_bind (wp_ofExcept (fun tableMax _ => ?_) fun _ _ => trivial)))
  refine wp_pure ⟨rfl, rfl, _, rfl, ?_⟩
  rw [hmax, hwalMax]
  exact (le_max_right _ _).trans (le_max_right _ _)

/-! ### Runs -/

/-- A compaction does not drop the version that has the latest number. -/
def MergeKeepsLatest (cfg : Config) (s : Sys) (threshold : Nat) : Prop :=
  match compactionPlan cfg s threshold with
  | none => True
  | some plan =>
      ∀ t ∈ plan.inputs, ∀ r ∈ tableRecords s.disk t, r.seq = s.db.currentSequence →
        r ∈ mergeRecords (mergeOptions s.db plan) (plan.inputs.map (tableRecords s.disk))

/-- The event loses no trace of the latest number: a compaction keeps it, and a batch without
operations does not rotate the memtable. -/
def KeepsLatest (cfg : Config) (w : World) (event : Event) : Prop :=
  match w.proc with
  | none => True
  | some db =>
      match event with
      | .compact => MergeKeepsLatest cfg ⟨w.disk, db⟩ 1
      | .compactInBackground => MergeKeepsLatest cfg ⟨w.disk, db⟩ db.compactionThreshold
      | .commit calls _ =>
          db.closed = false → batchOperations db.limits calls = [] →
            db.memTableSize < db.maxMemtableSize
      | _ => True

instance (cfg : Config) (s : Sys) (threshold : Nat) :
    Decidable (MergeKeepsLatest cfg s threshold) :=
  match h : compactionPlan cfg s threshold with
  | none => .isTrue (by unfold MergeKeepsLatest; rw [h]; trivial)
  | some plan =>
      decidable_of_iff (∀ t ∈ plan.inputs, ∀ r ∈ tableRecords s.disk t,
        r.seq = s.db.currentSequence →
          r ∈ mergeRecords (mergeOptions s.db plan) (plan.inputs.map (tableRecords s.disk)))
        (by unfold MergeKeepsLatest; rw [h])

instance (cfg : Config) (w : World) (event : Event) : Decidable (KeepsLatest cfg w event) :=
  match hdb : w.proc with
  | none => .isTrue (by unfold KeepsLatest; rw [hdb]; trivial)
  | some db =>
      match event with
      | .compact =>
          decidable_of_iff (MergeKeepsLatest cfg ⟨w.disk, db⟩ 1) (by unfold KeepsLatest; rw [hdb])
      | .compactInBackground =>
          decidable_of_iff (MergeKeepsLatest cfg ⟨w.disk, db⟩ db.compactionThreshold)
            (by unfold KeepsLatest; rw [hdb])
      | .commit calls _ =>
          decidable_of_iff (db.closed = false → batchOperations db.limits calls = [] →
            db.memTableSize < db.maxMemtableSize) (by unfold KeepsLatest; rw [hdb])
      | .openDB _ | .put _ _ | .delete _ | .flushReserve | .flushWrite | .flushPublish
      | .flushRemoveWAL | .flushCleanup | .beginClose | .endClose | .newSnapshot
      | .closeSnapshot _ | .newIterator _ | .snapshotIterator _ _ | .iteratorNext _
      | .closeIterator _ | .kill => .isTrue (by unfold KeepsLatest; rw [hdb]; trivial)

/-- The number `top` is found by the next `Open`. -/
def Recalls (cfg : Config) (top : Nat) (w : World) : Prop :=
  top = 0 ∨ Remembers top (viewWorld cfg w) ∨
    ∃ p ∈ w.disk.wals, (∀ db, w.proc = some db → p.1 = db.wal) ∧ top ≤ (segmentMax cfg p.2).toNat

/-- A world in which every number up to `used` was handed out once. -/
structure Counted (cfg : Config) (used : Nat) (s : World × Ledger) : Prop where
  sound : WorldSound cfg quiet noFaults used s.1
  crashFree : CrashFree quiet (viewWorld cfg s.1, s.2)
  seq : ∀ db, s.1.proc = some db → db.nextSeq.toNat = used + 1
  clean : s.1.proc = none → ∀ p ∈ s.1.disk.wals, Clean cfg.crc used p.2
  recalls : Recalls cfg used s.1

theorem counted_blank : Counted cfg 0 blank where
  sound := WorldSound.empty cfg quiet noFaults
  crashFree := CrashFree.empty quiet
  seq := fun _ h => by cases h
  clean := fun _ _ hp => by cases hp
  recalls := Or.inl rfl

theorem toNat_currentSequence {db : DB} (hseq : db.nextSeq.toNat = used + 1) :
    db.currentSequence.toNat = used := by
  unfold DB.currentSequence
  rw [UInt64.toNat_sub_of_le]
  · show db.nextSeq.toNat - 1 = used
    omega
  · rw [UInt64.le_iff_toNat_le]
    show 1 ≤ db.nextSeq.toNat
    omega

section Step

variable {s : World × Ledger} (hc : Counted cfg used s)

include hc

theorem Counted.active {db : DB} (hdb : s.1.proc = some db) :
    ActiveClean cfg used s.1.disk db :=
  (hc.sound.proc db hdb).clean.resolve_left not_tearsFrames_noFaults

/-- The compactions of an event keep the latest number. -/
theorem Counted.keepsTop {event : Event} (hkeeps : KeepsLatest cfg s.1 event) {db : DB}
    (hdb : s.1.proc = some db) {threshold : Nat}
    (hevent : event = .compact ∧ threshold = 1 ∨
      event = .compactInBackground ∧ threshold = db.compactionThreshold) :
    CompactOk cfg (remembering used) ⟨s.1.disk, db⟩ threshold := by
  intro plan hplan hattains
  have hsys := hc.sound.sys hdb
  have hrecs : ∀ t ∈ plan.inputs, (tabOf s.1.disk t).recs = tableRecords s.1.disk t :=
    fun t ht => (plan_tables hsys hplan t ht).tabOf_recs
  obtain ⟨r, ⟨tab, htab, hr⟩, hle⟩ := hattains
  obtain ⟨t, ht, rfl⟩ := List.mem_map.mp htab
  rw [hrecs t ht] at hr
  have hseq : r.seq = db.currentSequence := by
    have hbound := (plan_tables hsys hplan t ht).seq_le r hr
    refine UInt64.toNat_inj.mp ?_
    rw [toNat_currentSequence (hc.seq db hdb)]
    omega
  refine ⟨r, ?_, hle⟩
  have hmap : (plan.inputs.map (tabOf s.1.disk)).map Tab.recs =
      plan.inputs.map (tableRecords s.1.disk) := by
    rw [List.map_map]
    exact List.map_congr_left hrecs
  show r ∈ mergeRecords _ ((plan.inputs.map (tabOf s.1.disk)).map Tab.recs)
  rw [hmap]
  have hmerge : MergeKeepsLatest cfg ⟨s.1.disk, db⟩ threshold := by
    unfold KeepsLatest at hkeeps
    rw [hdb] at hkeeps
    rcases hevent with ⟨rfl, rfl⟩ | ⟨rfl, rfl⟩
    · exact hkeeps
    · exact hkeeps
  unfold MergeKeepsLatest at hmerge
  rw [hplan] at hmerge
  exact hmerge t ht r hr hseq

/-- What the abstract store makes of an event. -/
theorem Counted.reaches (input : Input) (hkill : input.1 ≠ .kill)
    (hkeeps : KeepsLatest cfg s.1 input.1) (hroom : used + input.1.cost s.1 + 1 < 2 ^ 64) :
    Refine.Reaches cfg (remembering used) noFaults (used + input.1.cost s.1)
      (viewWorld cfg s.1, s.2) (stepLedger cfg noFaults s input).2
      (stepLedger cfg noFaults s input).1 := by
  have hw : WorldSound cfg (remembering used) noFaults used s.1 := hc.sound.guard fun _ => id
  have hready : ∀ db, s.1.proc = some db → Ready (handleOf s.1.disk db) := by
    intro db hdb
    refine ready_of_crashFree ?_ hc.crashFree
    rw [viewWorld_running hdb]
    rfl
  have hok : EventOk cfg (remembering used) used s.1 input.1 :=
    .of (fun db hdb => hw.writeOk not_tearsFrames_noFaults hdb fun _ => trivial)
      (fun _ _ _ _ _ _ => trivial) (fun db hdb threshold h => hc.keepsTop hkeeps hdb h)
      fun h => absurd h hkill
  exact (step_reaches (allowed_noFaults _) hw hready hok hroom input.2).1

/-- The abstract half of the next state, which leaves the counter and the segments to show. -/
theorem Counted.of_reaches {more : Nat} {s' : World × Ledger}
    (hreach :
      Refine.Reaches cfg (remembering used) noFaults more (viewWorld cfg s.1, s.2) s'.2 s'.1)
    (hseq : ∀ db, s'.1.proc = some db → db.nextSeq.toNat = more + 1)
    (hclean : s'.1.proc = none → CrashFree quiet (viewWorld cfg s'.1, s'.2) →
      ∀ p ∈ s'.1.disk.wals, Clean cfg.crc more p.2)
    (hrecalls : Recalls cfg more s'.1) : Counted cfg more s' := by
  have hfree : CrashFree quiet (viewWorld cfg s'.1, s'.2) :=
    ((hc.crashFree.guard fun _ => id).moves (remembering_crashFree used) hreach.moves).guard
      fun _ => id
  exact ⟨hreach.sound.guard fun _ => id, hfree, hseq, fun hno => hclean hno hfree, hrecalls⟩

omit hc in
/-- A closed database has one segment at most. -/
theorem wals_of_closed {w : World} {l : Ledger} (hno : w.proc = none)
    (hfree : CrashFree quiet (viewWorld cfg w, l)) {p : Nat × Bytes} (hp : p ∈ w.disk.wals) :
    w.disk.wals = [p] := by
  have hclosed : Closed (viewWorld cfg w) l := by
    refine (CrashFree.stopped ?_).mp hfree
    rw [viewWorld, viewOf, hno]
    rfl
  have hlen : w.disk.wals.length ≤ 1 := by
    have h := hclosed.single
    rwa [show (viewWorld cfg w).logs.length = w.disk.wals.length from List.length_map _] at h
  cases hwals : w.disk.wals with
  | nil =>
      rw [hwals] at hp
      cases hp
  | cons x xs =>
      rw [hwals] at hp hlen
      obtain rfl : xs = [] := List.length_eq_zero_iff.mp (by simpa using hlen)
      rw [List.mem_singleton.mp hp]

/-- An event that is no mutation, on a running process. -/
theorem Counted.step_silent {input : Input} {db : DB} (hdb : s.1.proc = some db)
    (hevent : input.1.mutates = false) (hkill : input.1 ≠ .kill)
    (hkeeps : KeepsLatest cfg s.1 input.1) (hroom : used + input.1.cost s.1 + 1 < 2 ^ 64) :
    Counted cfg (used + input.1.cost s.1) (stepLedger cfg noFaults s input) := by
  have hcost : input.1.cost s.1 = 0 := by
    refine Silent.cost (.of_admits (fun db => ?_) fun db => ?_)
    · generalize input.1 = event at hevent
      cases event with
      | put _ _ | delete _ | commit _ _ => cases hevent
      | _ => rfl
    · generalize input.1 = event at hevent
      cases event with
      | put _ _ | delete _ | commit _ _ => cases hevent
      | _ => rfl
  have hreach := hc.reaches input hkill hkeeps hroom
  rw [hcost, Nat.add_zero] at hreach ⊢
  have hready : Ready (handleOf s.1.disk db) := by
    refine ready_of_crashFree ?_ hc.crashFree
    rw [viewWorld_running hdb]
    rfl
  -- the active segment is still there, and still the active one
  have hactive : ∀ p ∈ s.1.disk.wals, p.1 = db.wal →
      p ∈ (stepLedger cfg noFaults s input).1.disk.wals ∧
        ∀ db', (stepLedger cfg noFaults s input).1.proc = some db' → db'.wal = db.wal := by
    intro p hp hid
    refine step_active hdb hevent hp fun walID hflusher heq => hready.pending ?_
    show (stageOf s.1.disk db.flusher).pending = some db.wal
    rw [hflusher, ← hid, heq]
    rfl
  refine hc.of_reaches hreach (fun db' hdb' => ?_) (fun hno hfree q hq => ?_) ?_
  · have hseq := (step_proceeds hdb hdb').seq
    rw [hcost] at hseq
    have hsame : db'.nextSeq = db.nextSeq := by
      rcases hseq with h | h
      · exact h
      · rw [h]
        exact UInt64.add_zero _
    rw [hsame]
    exact hc.seq db hdb
  · obtain ⟨p, hp, hid⟩ := (hc.sound.proc db hdb).active
    rw [wals_of_closed hno hfree (hactive p hp hid).1] at hq
    rw [List.mem_singleton.mp hq]
    exact hc.active hdb p hp hid
  · rcases hc.recalls with h0 | hrem | ⟨p, hp, hid, hle⟩
    · exact Or.inl h0
    · exact Or.inr (Or.inl (hrem.moves (remembering_remembers used) (remembering_crashFree used)
        hreach.moves (hc.crashFree.guard fun _ => id)))
    · obtain ⟨hmem, hwal⟩ := hactive p hp (hid db hdb)
      exact Or.inr (Or.inr ⟨p, hmem, fun db' hdb' => (hid db hdb).trans (hwal db' hdb').symm, hle⟩)

omit hc in
theorem exists_seq_batchEntries {seq : UInt64} {ops : List BatchOperation} (hops : ops ≠ [])
    (hroom : seq.toNat + ops.length < 2 ^ 64) :
    ∃ r ∈ batchEntries seq ops, r.seq.toNat + 1 = seq.toNat + ops.length := by
  have hlen : 0 < ops.length := List.length_pos_iff.mpr hops
  have hmem : seq + UInt64.ofNat (ops.length - 1) ∈ (batchEntries seq ops).map Record.seq := by
    rw [batchEntries_seq]
    exact List.mem_map.mpr ⟨_, List.mem_range'_1.mpr ⟨Nat.zero_le _, by omega⟩, rfl⟩
  obtain ⟨r, hr, hseq⟩ := List.mem_map.mp hmem
  refine ⟨r, hr, ?_⟩
  rw [hseq, toNat_add_index hroom (by omega)]
  omega

/-- A mutation with operations: the last one has the latest number. -/
theorem Counted.step_entries {input : Input} {db : DB} (hdb : s.1.proc = some db)
    (hevent : input.1.mutates = true) (hopen : db.closed = false)
    (hcost : costOf db input.1 = (opsOf db input.1).length) (hops : opsOf db input.1 ≠ [])
    (hroom : used + costOf db input.1 + 1 < 2 ^ 64)
    (hstep : step cfg noFaults s.1 input.1 input.2 = s.1.runOp noFaults
      (mutate (appendOf cfg db input.1) (batchEntries db.nextSeq (opsOf db input.1))
        (costOf db input.1)) input.2)
    (hreach : Refine.Reaches cfg (remembering used) noFaults (used + costOf db input.1)
      (viewWorld cfg s.1, s.2) (stepLedger cfg noFaults s input).2
      (stepLedger cfg noFaults s input).1) :
    Counted cfg (used + costOf db input.1) (stepLedger cfg noFaults s input) := by
  have hseq := hc.seq db hdb
  have hpos : 0 < costOf db input.1 := hcost ▸ List.length_pos_iff.mpr hops
  have hsys : SysSound cfg (remembering (used + costOf db input.1)) noFaults used
      ⟨s.1.disk, db⟩ :=
    WorldSound.sys (hc.sound.guard fun _ => id) hdb
  have hfree : CrashFree (remembering (used + costOf db input.1))
      (viewSys cfg ⟨s.1.disk, db⟩, s.2) := by
    rw [← viewWorld_running hdb]
    exact hc.crashFree.guard fun _ => id
  obtain ⟨hlogs, hm⟩ := logs_appendOf hsys hopen hevent hpos hroom
  obtain ⟨r, hr, hlast⟩ : ∃ r ∈ batchEntries db.nextSeq (opsOf db input.1),
      r.seq.toNat + 1 = db.nextSeq.toNat + (opsOf db input.1).length :=
    exists_seq_batchEntries hops (by omega)
  have hwp := wp_mutate_remembers hsys hfree (hc.active hdb) hm hlogs ⟨r, hr, by omega⟩
  obtain ⟨t, ⟨hnext, hrem⟩, hrun⟩ := runOp_returns hdb hwp input.2
  dsimp only at hnext
  have hworld : (stepLedger cfg noFaults s input).1 =
      { s.1 with disk := t.disk, proc := some t.db } := congrArg Prod.fst (hstep.trans hrun)
  refine hc.of_reaches hreach (fun db' hdb' => ?_) (fun hno => ?_) (Or.inr (Or.inl ?_))
  · rw [hworld] at hdb'
    rw [← Option.some.inj hdb', hnext, toNat_add_ofNat (by omega), hseq]
    omega
  · rw [hworld] at hno
    cases hno
  · rw [hworld]
    exact hrem

/-- A batch without operations: its ID is in the active segment. -/
theorem Counted.step_empty {input : Input} {calls : List BatchCall} {sync : Bool} {db : DB}
    (hdb : s.1.proc = some db) (hevent : input.1 = .commit calls sync)
    (hcost : costOf db input.1 = 1) (hops : batchOperations db.limits calls = [])
    (hfits : db.memTableSize < db.maxMemtableSize) (hroom : used + costOf db input.1 + 1 < 2 ^ 64)
    (hstep : step cfg noFaults s.1 input.1 input.2 = s.1.runOp noFaults
      (mutate (appendOf cfg db input.1) [] (costOf db input.1)) input.2)
    (hreach : Refine.Reaches cfg (remembering used) noFaults (used + costOf db input.1)
      (viewWorld cfg s.1, s.2) (stepLedger cfg noFaults s input).2
      (stepLedger cfg noFaults s input).1) :
    Counted cfg (used + costOf db input.1) (stepLedger cfg noFaults s input) := by
  have hseq := hc.seq db hdb
  rw [hcost] at hroom hstep hreach ⊢
  have happend : appendOf cfg db input.1 = writeBatch cfg db.nextSeq [] sync := by
    rw [hevent]
    show writeBatch cfg db.nextSeq (batchEntries db.nextSeq (batchOperations db.limits calls)) sync
      = _
    rw [hops]
    rfl
  have hclean : ActiveClean cfg (used + 1) s.1.disk db :=
    fun p hp hid => (hc.active hdb p hp hid).mono (Nat.le_succ used)
  have hwp := wp_mutate_empty (s := ⟨s.1.disk, db⟩) hclean (hc.sound.proc db hdb).active hseq.le
    hfits sync 1
  obtain ⟨t, ⟨hnext, p, hp, hid, hle⟩, hrun⟩ := runOp_returns hdb hwp input.2
  dsimp only at hnext hle
  rw [happend] at hstep
  have hworld : (stepLedger cfg noFaults s input).1 =
      { s.1 with disk := t.disk, proc := some t.db } := congrArg Prod.fst (hstep.trans hrun)
  refine hc.of_reaches hreach (fun db' hdb' => ?_) (fun hno => ?_) (Or.inr (Or.inr ?_))
  · rw [hworld] at hdb'
    rw [← Option.some.inj hdb', hnext, toNat_add_ofNat (by omega), hseq]
  · rw [hworld] at hno
    cases hno
  · rw [hworld]
    refine ⟨p, hp, fun db' hdb' => ?_, ?_⟩
    · rw [← Option.some.inj hdb']
      exact hid
    · rw [UInt64.le_iff_toNat_le] at hle
      omega

theorem Counted.step_mutation {input : Input} {db : DB} (hdb : s.1.proc = some db)
    (hevent : input.1.mutates = true) (hkeeps : KeepsLatest cfg s.1 input.1)
    (hroom : used + input.1.cost s.1 + 1 < 2 ^ 64) :
    Counted cfg (used + input.1.cost s.1) (stepLedger cfg noFaults s input) := by
  have hkill : input.1 ≠ .kill := fun h => by rw [h] at hevent; cases hevent
  have hreach := hc.reaches input hkill hkeeps hroom
  cases (mutation_cases hdb hevent : MutationCases cfg s.1 db input.1) with
  | refused e he hops hcost hstep =>
      have hsame : stepLedger cfg noFaults s input = s := by
        unfold stepLedger
        rw [hstep]
        dsimp only
        rw [hops, learn_nil]
      rw [hcost, Nat.add_zero, hsame]
      exact hc
  | admitted hopen hpos hstep =>
      have hops : mutations s.1 input.1 = opsOf db input.1 := by
        rw [mutations_open hdb hopen]
        unfold opsOf
        rw [hopen]
        rfl
      rw [cost_running hdb] at hroom hreach hpos hstep ⊢
      rw [hops] at hstep
      -- a batch of no operations takes one number, everything else one an operation
      by_cases hnil : opsOf db input.1 = []
      · have hadmits : db.admits input.1 = [] := by rw [← mutations_open hdb hopen, hops, hnil]
        have hcommit : ∃ calls sync, input.1 = .commit calls sync := by
          by_contra hno
          have hcost := cost_entry hdb hopen fun calls sync h => hno ⟨calls, sync, h⟩
          rw [cost_running hdb, hadmits] at hcost
          exact absurd hpos (by rw [hcost]; exact lt_irrefl 0)
        obtain ⟨calls, sync, hcommit⟩ := hcommit
        have hbatch : batchOperations db.limits calls = [] := by
          rw [hcommit] at hadmits
          exact hadmits
        have hcost : costOf db input.1 = 1 := by
          rw [hcommit]
          unfold costOf
          rw [hopen]
          show batchCost (batchOperations db.limits calls) = 1
          rw [hbatch]
          rfl
        rw [hnil] at hstep
        have hfits : db.memTableSize < db.maxMemtableSize := by
          unfold KeepsLatest at hkeeps
          rw [hdb, hcommit] at hkeeps
          exact hkeeps hopen hbatch
        exact hc.step_empty hdb hcommit hcost hbatch hfits hroom (hstep _ _) hreach
      · have hcost : costOf db input.1 = (opsOf db input.1).length := by
          unfold opsOf at hnil ⊢
          unfold costOf
          rw [hopen] at hnil ⊢
          generalize input.1 = event at hnil ⊢
          cases event with
          | commit calls sync =>
              exact if_neg fun h => hnil (List.length_eq_zero_iff.mp h)
          | _ => rfl
        exact hc.step_entries hdb hevent hopen hcost hnil hroom (hstep _ _) hreach

/-- Opening finds the latest number. -/
theorem Counted.step_open {opts : Options} {fates : List Fate} (hno : s.1.proc = none)
    (hroom : used + 1 < 2 ^ 64) :
    Counted cfg used (stepLedger cfg noFaults s (.openDB opts, fates)) := by
  have hcost : (Event.openDB opts).cost s.1 = 0 := cost_stopped hno _
  have hkeeps : KeepsLatest cfg s.1 (.openDB opts) := by
    unfold KeepsLatest
    rw [hno]
    trivial
  have hreach := hc.reaches (.openDB opts, fates) (fun h => by cases h) hkeeps (by rwa [hcost])
  rw [hcost, Nat.add_zero] at hreach
  have hworld : (stepLedger cfg noFaults s (.openDB opts, fates)).1 =
    (openWorld cfg noFaults s.1 opts fates).1 := rfl
  cases hopts : normalizeOptions opts with
  | error e =>
      -- nothing was touched
      have hsame : (openWorld cfg noFaults s.1 opts fates).1 = .afterKill s.1.disk := by
        unfold openWorld
        rw [hno]
        unfold openDB
        rw [hopts]
        rfl
      have hview : viewWorld cfg (.afterKill s.1.disk) = viewWorld cfg s.1 := by
        unfold viewWorld
        rw [hno]
        rfl
      refine hc.of_reaches hreach (fun db hdb => ?_) (fun _ _ => ?_) ?_
      · rw [hworld, hsame] at hdb
        cases hdb
      · rw [hworld, hsame]
        exact hc.clean hno
      · rw [hworld, hsame]
        rcases hc.recalls with h0 | hrem | ⟨p, hp, -, hle⟩
        · exact Or.inl h0
        · exact Or.inr (Or.inl (hview ▸ hrem))
        · exact Or.inr (Or.inr ⟨p, hp, (fun db hdb => by cases hdb), hle⟩)
  | ok settings =>
      obtain ⟨-, db, d, hopened, -, -, -⟩ := openWorld_ok hc.sound.disk hroom hno hopts fates
      rw [← hworld] at hopened
      have hdb : (stepLedger cfg noFaults s (.openDB opts, fates)).1.proc = some db :=
        congrArg World.proc hopened
      have hproc := hreach.sound.proc db hdb
      have hle := hproc.seq_le
      have hpos : 0 < db.nextSeq.toNat := UInt64.lt_iff_toNat_lt.mp hproc.seq_pos
      have hfree : CrashFree quiet _ :=
        ((hc.crashFree.guard fun _ => id).moves (remembering_crashFree used) hreach.moves).guard
          fun _ => id
      -- in each case the counter is behind what was recalled
      have hfound : db.nextSeq.toNat = used + 1 ∧
          Recalls cfg used (stepLedger cfg noFaults s (.openDB opts, fates)).1 := by
        rcases hc.recalls with h0 | hrem | ⟨p, hp, -, hmax⟩
        · exact ⟨by omega, Or.inl h0⟩
        · have hrem' := hrem.moves (remembering_remembers used) (remembering_crashFree used)
            hreach.moves (hc.crashFree.guard fun _ => id)
          refine ⟨?_, Or.inr (Or.inl hrem')⟩
          dsimp only at hrem'
          rw [viewWorld_running hdb] at hfree hrem'
          obtain ⟨r, hr, hr_le⟩ := hrem'
          have hlt := ((CrashFree.running (h := handleOf _ db) rfl).mp hfree).1.seq_lt r hr
          have hlt' : r.seq.toNat < db.nextSeq.toNat := UInt64.lt_iff_toNat_lt.mp hlt
          omega
        · obtain ⟨id, file⟩ := p
          dsimp only at hmax
          have hwals := wals_of_closed hno hc.crashFree hp
          have hsingle := wp_openDB_single hc.sound.disk hwals (hc.clean hno _ hp) opts fates
          obtain ⟨hsame, hwal, m, hm, hle_m⟩ := openWorld_sat hno hsingle (hworld ▸ hopened)
          rw [UInt64.le_iff_toNat_le] at hle_m
          have hnext : db.nextSeq.toNat = m.toNat + 1 := by
            rw [hm, UInt64.toNat_add] at hpos ⊢
            have := m.toNat_lt
            show (m.toNat + 1) % 2 ^ 64 = _
            have hpos' : 0 < (m.toNat + 1) % 2 ^ 64 := hpos
            omega
          refine ⟨by omega, Or.inr (Or.inr ⟨(id, file), ?_, ?_, hmax⟩)⟩
          · rw [hopened]
            show (id, file) ∈ d.wals
            rw [hsame]
            exact hp
          · intro db' hdb'
            obtain rfl := Option.some.inj (hdb.symm.trans hdb')
            exact hwal.symm
      refine hc.of_reaches hreach (fun db' hdb' => ?_) (fun hgone => ?_) hfound.2
      · obtain rfl := Option.some.inj (hdb.symm.trans hdb')
        exact hfound.1
      · cases hdb.symm.trans hgone

theorem Counted.step {input : Input} (hkill : input.1 ≠ .kill)
    (hkeeps : KeepsLatest cfg s.1 input.1) (hroom : used + input.1.cost s.1 + 1 < 2 ^ 64) :
    Counted cfg (used + input.1.cost s.1) (stepLedger cfg noFaults s input) := by
  cases hdb : s.1.proc with
  | some db =>
      cases hevent : input.1.mutates with
      | true => exact hc.step_mutation hdb hevent hkeeps hroom
      | false => exact hc.step_silent hdb hevent hkill hkeeps hroom
  | none =>
      have hcost : input.1.cost s.1 = 0 := cost_stopped hdb _
      by_cases hopen : ∃ opts, input.1 = .openDB opts
      · obtain ⟨event, fates⟩ := input
        obtain ⟨opts, rfl⟩ := hopen
        rw [hcost] at hroom ⊢
        exact hc.step_open hdb hroom
      · -- nothing happens to a closed directory
        have hreach := hc.reaches input hkill hkeeps hroom
        rw [hcost, Nat.add_zero] at hreach ⊢
        obtain ⟨hno, hdisk⟩ : (stepLedger cfg noFaults s input).1.proc = none ∧
            (stepLedger cfg noFaults s input).1.disk = s.1.disk :=
          step_stopped (fun opts h => hopen ⟨opts, h⟩) hdb input.2
        have hview : viewWorld cfg (stepLedger cfg noFaults s input).1 = viewWorld cfg s.1 := by
          unfold viewWorld
          rw [hno, hdisk, hdb]
        refine hc.of_reaches hreach (fun db' hdb' => ?_) (fun _ _ => ?_) ?_
        · cases hno.symm.trans hdb'
        · rw [hdisk]
          exact hc.clean hdb
        · rcases hc.recalls with h0 | hrem | ⟨p, hp, -, hle⟩
          · exact Or.inl h0
          · exact Or.inr (Or.inl (hview ▸ hrem))
          · refine Or.inr (Or.inr ⟨p, hdisk ▸ hp, fun db' hdb' => ?_, hle⟩)
            cases hno.symm.trans hdb'

end Step

/-- **The counter never falls back** in a run that keeps the latest number. -/
theorem Counted.run {inputs : List Input} {s : World × Ledger} (hc : Counted cfg used s)
    (hkill : ∀ input ∈ inputs, input.1 ≠ .kill)
    (hkeeps : Along cfg noFaults (KeepsLatest cfg) s inputs)
    (hroom : used + sequencesUsed cfg noFaults s inputs + 1 < 2 ^ 64) :
    Counted cfg (used + sequencesUsed cfg noFaults s inputs) (run cfg noFaults s inputs) := by
  induction inputs generalizing s used with
  | nil => exact hc
  | cons input inputs ih =>
      rw [sequencesUsed, ← Nat.add_assoc] at hroom ⊢
      have hone := hc.step (hkill input List.mem_cons_self) hkeeps.1 (by omega)
      exact ih hone (fun i hi => hkill i (List.mem_cons_of_mem _ hi)) hkeeps.2 hroom

theorem along_of_append {P : World → Event → Prop} {xs ys : List Input} {s : World × Ledger}
    (h : Along cfg M P s (xs ++ ys)) : Along cfg M P s xs := by
  induction xs generalizing s with
  | nil => trivial
  | cons x xs ih => exact ⟨h.1, ih h.2⟩

/-- **Sequence numbers are not handed out again.** In a run without crashes and faults whose steps
keep the latest number, a process has its counter behind every sequence number and batch ID that
an earlier mutation got, whether it was opened since or not. -/
theorem sequences_increase (cfg : Config) {pre post : List Input} {input : Input}
    (hkill : ∀ i ∈ pre ++ input :: post, i.1 ≠ .kill)
    (hused : sequencesUsed cfg noFaults blank (pre ++ input :: post) < 2 ^ 64 - 1)
    (hkeeps : Along cfg noFaults (KeepsLatest cfg) blank (pre ++ input :: post)) {db db' : DB}
    (hdb : (run cfg noFaults blank pre).1.proc = some db)
    (hdb' : (run cfg noFaults blank (pre ++ input :: post)).1.proc = some db') :
    (∀ r ∈ batchEntries db.nextSeq (mutations (run cfg noFaults blank pre).1 input.1),
        r.seq < db'.nextSeq) ∧
      (0 < input.1.cost (run cfg noFaults blank pre).1 → db.nextSeq < db'.nextSeq) ∧
      db.currentSequence ≤ db'.currentSequence := by
  have hsum := sequencesUsed_append cfg noFaults blank pre (input :: post)
  rw [sequencesUsed] at hsum
  have hall := counted_blank.run hkill hkeeps (by omega)
  have hpre := counted_blank.run (fun i hi => hkill i (List.mem_append_left _ hi))
    (along_of_append hkeeps) (by omega)
  have hseq := hpre.seq db hdb
  have hseq' := hall.seq db' hdb'
  rw [Nat.zero_add] at hseq hseq'
  generalize (run cfg noFaults blank pre).1 = w at hdb hsum ⊢
  refine ⟨fun r hr => ?_, fun hpos => ?_, ?_⟩
  · obtain ⟨op, hop, i, hi, rfl⟩ := mem_batchEntries hr
    have hlen : (mutations w input.1).length ≤ input.1.cost w := by
      unfold mutations Event.cost
      rw [hdb]
      dsimp only
      split
      · exact le_refl _
      · split
        · exact (length_le_batchCost _).1
        · exact le_refl _
    show db.nextSeq + UInt64.ofNat i < db'.nextSeq
    rw [UInt64.lt_iff_toNat_lt, toNat_add_ofNat (by omega)]
    omega
  · rw [UInt64.lt_iff_toNat_lt]
    omega
  · rw [UInt64.le_iff_toNat_le, toNat_currentSequence hseq, toNat_currentSequence hseq']
    omega

/-- A delete that stays in level 1 while the database is closed and opened. -/
def keptDelete : List Input :=
  flushOnce ++ [(.compact, []), (.beginClose, []), (.endClose, []), (.openDB {}, [])]

/-- The counter starts behind the delete. -/
theorem sequences_increase_keptDelete :
    ∃ db db', (run sample noFaults blank [(.openDB { maxEntries := 1 }, [])]).1.proc = some db ∧
      (run sample noFaults blank
        ([(.openDB { maxEntries := 1 }, [])] ++ (.delete [0x6B], []) :: keptDelete)).1.proc =
          some db' ∧ db.nextSeq < db'.nextSeq := by
  have hnew : (run sample noFaults blank [(.openDB { maxEntries := 1 }, [])]).1.proc.isSome =
    true := by decide +kernel
  have hend : (run sample noFaults blank ([(.openDB { maxEntries := 1 }, [])] ++
    (.delete [0x6B], []) :: keptDelete)).1.proc.isSome = true := by decide +kernel
  obtain ⟨db, hdb⟩ := Option.isSome_iff_exists.mp hnew
  obtain ⟨db', hdb'⟩ := Option.isSome_iff_exists.mp hend
  have hboth := sequences_increase sample (by decide +kernel) (by decide +kernel)
    (by decide +kernel) hdb hdb'
  exact ⟨db, db', hdb, hdb', hboth.2.1 (by decide +kernel)⟩

/-- The same delete, compacted once more: the last level drops it. -/
def droppedDelete : List Input :=
  flushOnce ++ [(.compact, []), (.compact, []), (.beginClose, []), (.endClose, []),
    (.openDB {}, [])]

/-- The delete had the number 1, and the next mutation gets it again. -/
theorem sequence_reused_droppedDelete :
    (run sample noFaults blank [(.openDB { maxEntries := 1 }, [])]).1.proc.map DB.nextSeq =
        some 1 ∧
      (step sample noFaults (run sample noFaults blank [(.openDB { maxEntries := 1 }, [])]).1
        (.delete [0x6B]) []).2 = .ok ∧
      (run sample noFaults blank
        ([(.openDB { maxEntries := 1 }, [])] ++ (.delete [0x6B], []) :: droppedDelete)).1.proc.map
          DB.nextSeq = some 1 := by
  refine ⟨?_, ?_, ?_⟩ <;> decide +kernel

end HyphaDB.Runs
