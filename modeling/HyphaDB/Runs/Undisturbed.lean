import HyphaDB.Engine.Frames
import HyphaDB.Runs.FaultFree
import HyphaDB.Wal.CrashCut

/-!
# HyphaDB.Runs.Undisturbed

**What events without faults do to the directory, byte for byte.** The view of a directory does not
say how the records came into a segment; where a segment may lose its end, this is what matters.

A mutation appends the frames of **one** call to the active segment, and creates at most one segment
behind it (`step_mutates`). A step of the flush worker leaves the segments as they are, publishes a
table, or removes one segment (`step_flushes`).
-/

namespace HyphaDB.Runs

open Faults Store Wal Refine

variable {cfg : Config} {g : Guard} {used : Nat} {s : Sys} {w : World} {db : DB}
  {Q : Post Sys DBError Unit}

/-! ### The log -/

/-- An admitted mutation writes the frames of one call. -/
theorem appendOf_call {event : Event} (hs : SysSound cfg g noFaults used s)
    (hopen : s.db.closed = false) (hevent : event.mutates = true) (hpos : 0 < costOf s.db event)
    (hroom : used + costOf s.db event + 1 < 2 ^ 64) :
    ∃ call : LogCall, (∀ r ∈ call.records, r.Fits) ∧ ∀ Q : Post Sys DBError Unit,
      Q.ret () (appendActive s (frames cfg.crc call.records)) →
        wp noFaults (appendOf cfg s.db event) Q s := by
  -- one frame
  have hentry : ∀ {key : Key} {entry : Entry}, key.length ≤ s.db.limits.maxKeyBytes →
      entry.value.length ≤ s.db.limits.maxValueBytes →
      ∃ call : LogCall, (∀ r ∈ call.records, r.Fits) ∧ ∀ Q : Post Sys DBError Unit,
        Q.ret () (appendActive s (frames cfg.crc call.records)) →
          wp noFaults (writeRecord cfg (entryRecord key s.db.nextSeq entry)) Q s := by
    intro key entry hkey hvalue
    have hfits := (framed_entry hs hkey hvalue).fits
    refine ⟨.record (entryRecord key s.db.nextSeq entry) rfl, hfits, fun Q hret => ?_⟩
    refine wp_writeRecord_done (hfits _ List.mem_cons_self) ?_
    rwa [show (LogCall.record (entryRecord key s.db.nextSeq entry) rfl).records =
      [entryRecord key s.db.nextSeq entry] from rfl, frames_cons, frames_nil, List.append_nil]
      at hret
  cases event with
  | put key value =>
      have hadmits : ¬ (s.db.limits.maxKeyBytes < key.length ∨
          s.db.limits.maxValueBytes < value.length) := by
        intro hbad
        simp [costOf, hopen, DB.admits, hbad] at hpos
      rw [not_or, not_lt, not_lt] at hadmits
      exact hentry hadmits.1 hadmits.2
  | delete key =>
      have hadmits : ¬ s.db.limits.maxKeyBytes < key.length := by
        intro hbad
        simp [costOf, hopen, DB.admits, hbad] at hpos
      exact hentry (not_lt.mp hadmits) (Nat.zero_le _)
  | commit calls sync =>
      have hcost : costOf s.db (.commit calls sync) =
          batchCost (batchOperations s.db.limits calls) := by
        simp [costOf, hopen, DB.admits]
      have hfits := (framed_batch hs (fun op hop => batchOperations_limits hop)
        (hcost ▸ hroom)).fits
      exact ⟨.batch s.db.nextSeq (batchEntries s.db.nextSeq (batchOperations s.db.limits calls)),
        hfits, fun Q hret => wp_writeBatch_done hfits hret⟩
  | _ => cases hevent

/-! ### Mutations -/

/-- At most one segment more, which holds its header only. -/
inductive Grown (d : Disk) : Disk → Prop
  | same : Grown d d
  | segment {id : Nat} (hid : ∀ p ∈ d.wals, p.1 < id) : Grown d (addWal d id walHeader)

theorem wp_rotateIfFull_done (hid : ∀ p ∈ s.disk.wals, p.1 ≤ s.db.manifest.nextWALSegmentID)
    (hret : ∀ t : Sys, Grown s.disk t.disk → t.db.flusher = s.db.flusher → Q.ret () t) :
    wp noFaults rotateIfFull Q s := by
  have hfresh : ∀ p ∈ s.disk.wals, p.1 < s.db.manifest.nextWALSegmentID + 1 :=
    fun p hp => Nat.lt_succ_of_le (hid p hp)
  unfold rotateIfFull
  refine wp_bind (wp_get ?_)
  by_cases hfull : s.db.maxMemtableSize ≤ s.db.memTableSize
  · show wp noFaults (if _ then _ else _) _ _
    rw [if_pos hfull]
    unfold rotateMemtable
    refine wp_bind (wp_modify (wp_bind (wp_get (wp_bind (wp_zoom ?_)))))
    refine wp_newSegment_fresh (allowed_noFaults quiet) hfresh ?_ (fun hg => hg.elim)
      fun hg => hg.elim
    exact wp_bind (wp_modify (wp_done (hret _ (.segment hfresh) rfl)))
  · show wp noFaults (if _ then _ else _) _ _
    rw [if_neg hfull]
    exact wp_pure (hret s .same rfl)

/-- What a mutation leaves: the frames of a call behind the active segment, and a new segment when
the memtable is full. -/
def Wrote (cfg : Config) (s t : Sys) : Prop :=
  t.db.flusher = s.db.flusher ∧ ∃ call : LogCall, (∀ r ∈ call.records, r.Fits) ∧
    Grown (s.disk.appendWal s.db.wal (frames cfg.crc call.records)) t.disk

/-- **A mutation** writes one call, or changes nothing. -/
theorem step_mutates (hw : WorldSound cfg g noFaults used w) (hdb : w.proc = some db)
    {event : Event} (hevent : event.mutates = true)
    (hroom : used + event.cost w + 1 < 2 ^ 64) (fates : List Fate) :
    (∃ t, Wrote cfg ⟨w.disk, db⟩ t ∧
      step cfg noFaults w event fates = ({ w with disk := t.disk, proc := some t.db }, .ok)) ∨
      ∃ e, step cfg noFaults w event fates = (w, .err e) := by
  have hs := hw.sys hdb
  rw [cost_running hdb] at hroom
  have hcases : MutationCases cfg w db event := mutation_cases hdb hevent
  cases hcases with
  | refused e _ _ _ hstep => exact Or.inr ⟨e, hstep noFaults fates⟩
  | admitted hopen hpos hstep =>
      rw [hstep]
      rw [cost_running hdb] at hpos ⊢
      obtain ⟨call, hfit, hcall⟩ := appendOf_call hs hopen hevent hpos hroom
      refine Or.inl (runOp_returns hdb ?_ fates)
      refine wp_bind (hcall _ (wp_bind (wp_modify (wp_rotateIfFull_done ?_ ?_))))
      · intro q hq
        obtain ⟨p, hp, hid, -⟩ := mem_appendWal hq
        rw [hid]
        exact hs.proc.wals_le p hp
      · exact fun t ht hf => ⟨hf, call, hfit, ht⟩

/-! ### The flush worker -/

/-- A step of the flush worker. -/
def flushes : Event → Bool
  | .flushReserve | .flushWrite | .flushPublish | .flushRemoveWAL | .flushCleanup => true
  | _ => false

/-- What a step of the flush worker does to the directory. -/
inductive Flushed (s : Sys) : Disk → Prop
  | stays {d : Disk} (hwals : d.wals = s.disk.wals) (htabs : tabsOf d = tabsOf s.disk) : Flushed s d
  | published {d : Disk} {imm : ImmutableMemTable} {tab : Tab}
      (hstage : (handleOf s.disk s.db).stage = .written imm tab) (hwals : d.wals = s.disk.wals)
      (htabs : tabsOf d = tabsOf s.disk ++ [tab]) : Flushed s d
  | removed {id : Nat} (hstage : (handleOf s.disk s.db).stage = .removing id) :
      Flushed s (s.disk.removeWal id)

section Flush

variable (hs : SysSound cfg g noFaults used s)

theorem returns_self : (Returns fun t => Flushed s t.disk).ret () s := .stays rfl rfl

theorem wp_flushReserve_done :
    wp noFaults flushReserve (Returns fun t => Flushed s t.disk) s := by
  unfold flushReserve
  refine wp_bind (wp_get ?_)
  dsimp only
  split
  · exact wp_modify (.stays rfl rfl)
  · exact wp_modify (.stays rfl rfl)
  · exact wp_pure returns_self

include hs in
theorem wp_flushWrite_done :
    wp noFaults (flushWrite cfg) (Returns fun t => Flushed s t.disk) s := by
  unfold flushWrite
  refine wp_bind (wp_get ?_)
  dsimp only
  split
  · rename_i imm id hflusher
    refine wp_bind (wp_attempt (wp_createTable (allowed_noFaults quiet) (MemTable.inOrder _) ?_
      fun hg => hg.elim))
    have hview := (disk_reserved hs hflusher (s.db.heap imm.memTable).records).2
    exact wp_modify (.stays rfl (congrArg View.tabs hview))
  · exact wp_pure returns_self

include hs in
theorem wp_flushPublish_done :
    wp noFaults flushPublish (Returns fun t => Flushed s t.disk) s := by
  unfold flushPublish
  refine wp_bind (wp_get ?_)
  dsimp only
  split
  · rename_i imm table hflusher
    refine wp_bind (wp_modify (wp_bind (wp_attempt (wp_writeManifest (allowed_noFaults quiet) ?_
      fun hg => hg.elim))))
    have hstage : (handleOf s.disk s.db).stage = .written imm (tabOf s.disk table) := by
      show stageOf s.disk s.db.flusher = _
      rw [hflusher]
      rfl
    refine wp_modify (.published hstage rfl ?_)
    show tabsOf (setManifest s.disk
      { s.db.manifest with sstables := s.db.manifest.sstables ++ [table] }) = _
    rw [tabsOf_setManifest, List.map_append, ← hs.proc.sstables, hs.proc.tabs_eq]
    rfl
  · exact wp_pure returns_self

theorem wp_flushRemoveWAL_done :
    wp noFaults flushRemoveWAL (Returns fun t => Flushed s t.disk) s := by
  unfold flushRemoveWAL
  refine wp_bind (wp_get ?_)
  dsimp only
  split
  · rename_i id hflusher
    have hstage : (handleOf s.disk s.db).stage = .removing id := by
      show stageOf s.disk s.db.flusher = _
      rw [hflusher]
      rfl
    exact wp_bind (wp_attempt (wp_bind (wp_done (wp_done (wp_modify (.removed hstage))))))
  · exact wp_pure returns_self

include hs in
/-- There is nothing to clean up. -/
theorem wp_flushCleanup_done :
    wp noFaults flushCleanup (Returns fun t => Flushed s t.disk) s := by
  have hf := hs.proc.flusher
  unfold FlusherSound at hf
  unfold flushCleanup
  refine wp_bind (wp_get ?_)
  dsimp only
  split
  · rename_i path hflusher
    rw [hflusher] at hf
    exact hf.elim
  · exact wp_pure returns_self

end Flush

/-- **A step of the flush worker.** -/
theorem step_flushes (hw : WorldSound cfg g noFaults used w) (hdb : w.proc = some db)
    {event : Event} (hevent : flushes event = true) (fates : List Fate) :
    ∃ t : Sys, Flushed ⟨w.disk, db⟩ t.disk ∧
      step cfg noFaults w event fates = ({ w with disk := t.disk, proc := some t.db }, .ok) := by
  have hs := hw.sys hdb
  cases event with
  | flushReserve => exact runOp_returns hdb wp_flushReserve_done fates
  | flushWrite => exact runOp_returns hdb (wp_flushWrite_done hs) fates
  | flushPublish => exact runOp_returns hdb (wp_flushPublish_done hs) fates
  | flushRemoveWAL => exact runOp_returns hdb wp_flushRemoveWAL_done fates
  | flushCleanup => exact runOp_returns hdb (wp_flushCleanup_done hs) fates
  | _ => cases hevent

/-! ### Opening -/

/-- The first `Open` creates the first segment, or refuses its options. -/
theorem openWorld_blank (cfg : Config) (hno : w.proc = none) (hdisk : w.disk = {})
    (opts : Options) :
    (∃ db, openWorld cfg noFaults w opts [] =
      ({ disk := { wals := [(0, walHeader)] }, proc := some db }, .ok)) ∨
      ∃ e, openWorld cfg noFaults w opts [] = ({}, .err e) := by
  unfold openWorld openDB
  rw [hno, hdisk]
  cases normalizeOptions opts with
  | error e => exact Or.inr ⟨e, rfl⟩
  | ok settings => exact Or.inl ⟨_, rfl⟩

end HyphaDB.Runs
