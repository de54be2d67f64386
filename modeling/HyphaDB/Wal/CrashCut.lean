import HyphaDB.Lib.Crc32c
import HyphaDB.Wal.Batch
import Mathlib.Order.Bounds.Basic

/-!
# HyphaDB.Wal.CrashCut

**Replay of a crash-cut segment.** A segment is written by a sequence of successful
`WriteRecord` and `WriteBatch` calls; a crash keeps some prefix of its bytes. Replay of
any such prefix succeeds, puts the plain records whose frame is whole and the operations
of the batches whose commit frame is whole, cuts the file back to the last frame
boundary, and reports the largest identifier of the whole frames (`replayInto_cut`).
The repaired file can be appended to and cut again.

The cut is described twice: on the flat list of frames (`completeFrames`), which is what
the loop sees, and on the calls (`replayedBy`), which is what the caller sees. Batches
are written contiguously and a begin frame resets the buffer of its ID, so the two agree
from any buffer state, whatever an earlier unfinished batch left there.
-/

namespace HyphaDB.Wal

variable (crc : Bytes → UInt32)

/-! ### Writing -/

/-- `WAL.WriteRecord`: append one frame. -/
def writeRecord (file : Bytes) (rec : Record) : Except EncodeError Bytes :=
  match encodeRecord rec with
  | .error e => .error e
  | .ok payload => .ok (file ++ encodeFrame crc payload)

/-- Append the frames of a list of records, stopping at the first that is refused. -/
def writeRecords (file : Bytes) : List Record → Except EncodeError Bytes
  | [] => .ok file
  | rec :: recs =>
      match writeRecord crc file rec with
      | .error e => .error e
      | .ok file => writeRecords file recs

/-- One call on a segment: `WriteRecord` with a plain record, or `WriteBatch`. -/
inductive LogCall
  | record (rec : Record) (plain : rec.batchKind = .none)
  | batch (batchID : UInt64) (recs : List Record)

namespace LogCall

/-- The frames the call writes. -/
def records : LogCall → List Record
  | record rec _ => [rec]
  | batch batchID recs => batchRecords batchID recs

/-- The records the call asks to be stored. -/
def operations : LogCall → List Record
  | record rec _ => [rec]
  | batch _ recs => recs.map Record.plain

end LogCall

/-- A sequence of calls on a segment. -/
def writeCalls (file : Bytes) : List LogCall → Except EncodeError Bytes
  | [] => .ok file
  | call :: calls =>
      match writeRecords crc file call.records with
      | .error e => .error e
      | .ok file => writeCalls file calls

/-- The frames of a sequence of calls. -/
def logRecords (calls : List LogCall) : List Record := calls.flatMap LogCall.records

/-- Bytes taken by a list of frames. -/
def framesSize (recs : List Record) : Nat := (recs.map frameSize).sum

@[simp] theorem framesSize_nil : framesSize [] = 0 := rfl
@[simp] theorem framesSize_cons (rec : Record) (recs : List Record) :
    framesSize (rec :: recs) = frameSize rec + framesSize recs := by
  simp [framesSize]
theorem framesSize_append (xs ys : List Record) :
    framesSize (xs ++ ys) = framesSize xs + framesSize ys := by
  simp [framesSize]

@[simp] theorem frames_length (recs : List Record) :
    (frames crc recs).length = framesSize recs := by
  induction recs with
  | nil => rfl
  | cons rec recs ih => simp [ih]

theorem writeRecord_eq_ok {file file' : Bytes} {rec : Record} :
    writeRecord crc file rec = .ok file' ↔ rec.Fits ∧ file' = file ++ frame crc rec := by
  unfold writeRecord
  cases he : encodeRecord rec with
  | error e =>
      constructor
      · intro h; cases h
      · rintro ⟨hfit, -⟩
        rw [encodeRecord_eq_ok.mpr ⟨hfit, rfl⟩] at he
        cases he
  | ok payload =>
      obtain ⟨hfit, rfl⟩ := encodeRecord_eq_ok.mp he
      simp only [Except.ok.injEq, hfit, true_and, frame]
      exact eq_comm

/-- Successful writes append exactly the frames of records within the limits. -/
theorem writeRecords_eq_ok {file file' : Bytes} {recs : List Record} :
    writeRecords crc file recs = .ok file' ↔
      (∀ r ∈ recs, r.Fits) ∧ file' = file ++ frames crc recs := by
  induction recs generalizing file with
  | nil => simp [writeRecords, eq_comm]
  | cons rec recs ih =>
      unfold writeRecords
      cases hw : writeRecord crc file rec with
      | error e =>
          constructor
          · intro h; cases h
          · rintro ⟨hfit, -⟩
            rw [(writeRecord_eq_ok crc).mpr ⟨hfit rec List.mem_cons_self, rfl⟩] at hw
            cases hw
      | ok file1 =>
          obtain ⟨hrec, rfl⟩ := (writeRecord_eq_ok crc).mp hw
          simp only [ih, List.mem_cons, forall_eq_or_imp, hrec, true_and, frames_cons,
            List.append_assoc]

theorem writeCalls_eq_ok {file file' : Bytes} {calls : List LogCall} :
    writeCalls crc file calls = .ok file' ↔
      (∀ r ∈ logRecords calls, r.Fits) ∧ file' = file ++ frames crc (logRecords calls) := by
  induction calls generalizing file with
  | nil => simp [writeCalls, logRecords, eq_comm]
  | cons call calls ih =>
      have hsplit : logRecords (call :: calls) = call.records ++ logRecords calls := rfl
      unfold writeCalls
      rw [hsplit, frames_append]
      cases hw : writeRecords crc file call.records with
      | error e =>
          constructor
          · intro h; cases h
          · rintro ⟨hfit, -⟩
            have hcall : ∀ r ∈ call.records, r.Fits :=
              fun r hr => hfit r (List.mem_append_left _ hr)
            rw [(writeRecords_eq_ok crc).mpr ⟨hcall, rfl⟩] at hw
            cases hw
      | ok file1 =>
          obtain ⟨hcall, rfl⟩ := (writeRecords_eq_ok crc).mp hw
          simp only [ih, List.mem_append, List.append_assoc]
          constructor
          · rintro ⟨hrest, rfl⟩
            exact ⟨fun r hr => hr.elim (hcall r) (hrest r), rfl⟩
          · rintro ⟨hall, rfl⟩
            exact ⟨fun r hr => hall r (Or.inr hr), rfl⟩

/-! ### The cut, on frames -/

/-- The frames, starting at offset `off`, that end at or before byte `n`. -/
def completeFrames (n : Nat) : Nat → List Record → List Record
  | _, [] => []
  | off, rec :: recs =>
      if off + frameSize rec ≤ n then rec :: completeFrames n (off + frameSize rec) recs else []

/-- The offsets at which a frame starts or the last one ends. -/
def frameBoundaries : Nat → List Record → List Nat
  | off, [] => [off]
  | off, rec :: recs => off :: frameBoundaries (off + frameSize rec) recs

/-- The largest sequence or batch ID among frames. -/
def maxIdentifier (recs : List Record) : UInt64 :=
  (recs.flatMap fun r => [r.seq, r.batchID]).foldl max 0

theorem completeFrames_subset {n off : Nat} {recs : List Record} :
    ∀ r ∈ completeFrames n off recs, r ∈ recs := by
  induction recs generalizing off with
  | nil => simp [completeFrames]
  | cons rec recs ih =>
      intro r hr
      unfold completeFrames at hr
      split at hr
      · rcases List.mem_cons.mp hr with rfl | hr
        · exact List.mem_cons_self
        · exact List.mem_cons_of_mem _ (ih r hr)
      · simp at hr

/-- Cutting frames at byte `n` leaves the complete ones and a torn tail. -/
theorem frames_take {n off : Nat} {recs : List Record} (hfit : ∀ r ∈ recs, r.Fits)
    (hoff : off ≤ n) (hn : n ≤ off + framesSize recs) :
    ∃ t, TornTail crc t ∧
      (frames crc recs).take (n - off) = frames crc (completeFrames n off recs) ++ t := by
  induction recs generalizing off with
  | nil => exact ⟨[], TornTail.nil crc, by simp [completeFrames]⟩
  | cons rec recs ih =>
      have hrec := hfit rec List.mem_cons_self
      rw [framesSize_cons] at hn
      unfold completeFrames
      by_cases hle : off + frameSize rec ≤ n
      · obtain ⟨t, ht, hcut⟩ :=
          ih (fun r hr => hfit r (List.mem_cons_of_mem _ hr)) hle (by omega)
        refine ⟨t, ht, ?_⟩
        rw [if_pos hle, frames_cons, frames_cons, List.append_assoc, ← hcut,
          List.take_append, List.take_of_length_le (by rw [frame_length]; omega), frame_length]
        rw [Nat.sub_add_eq]
      · refine ⟨(frame crc rec).take (n - off), ⟨rec, hrec, n - off, by omega, rfl⟩, ?_⟩
        rw [if_neg hle, frames_cons, List.take_append_of_le_length (by rw [frame_length]; omega)]
        simp

/-- The end of the complete frames is the largest boundary within the cut. -/
theorem isGreatest_boundary {n off : Nat} {recs : List Record} (hoff : off ≤ n) :
    IsGreatest {b | b ∈ frameBoundaries off recs ∧ b ≤ n}
      (off + framesSize (completeFrames n off recs)) := by
  induction recs generalizing off with
  | nil => simp [completeFrames, frameBoundaries, IsGreatest, upperBounds, hoff]
  | cons rec recs ih =>
      have hpos := frameSize_pos rec
      unfold completeFrames frameBoundaries
      by_cases hle : off + frameSize rec ≤ n
      · obtain ⟨⟨hmem, hbound⟩, hmax⟩ := ih hle
        rw [if_pos hle, framesSize_cons, ← Nat.add_assoc]
        refine ⟨⟨List.mem_cons_of_mem _ hmem, hbound⟩, ?_⟩
        rintro b ⟨hb, hbn⟩
        rcases List.mem_cons.mp hb with rfl | hb
        · omega
        · exact hmax ⟨hb, hbn⟩
      · rw [if_neg hle, framesSize_nil, Nat.add_zero]
        refine ⟨⟨List.mem_cons_self, hoff⟩, ?_⟩
        rintro b ⟨hb, hbn⟩
        rcases List.mem_cons.mp hb with rfl | hb
        · exact Nat.le_refl _
        · -- every later boundary lies behind the frame that did not fit
          exfalso
          have hlow : ∀ (rs : List Record) (o : Nat), b ∈ frameBoundaries o rs → o ≤ b := by
            intro rs
            induction rs with
            | nil => intro o h; simp [frameBoundaries] at h; omega
            | cons r rs ih' =>
                intro o h
                rcases List.mem_cons.mp h with rfl | h
                · exact Nat.le_refl _
                · have := ih' _ h
                  omega
          have := hlow recs _ hb
          omega

/-! ### The cut, on calls -/

/-- The operations replay puts: those of the calls, starting at offset `off`, whose last
frame ends at or before byte `n`. For a plain record the last frame is its only one, for
a batch it is the commit frame. -/
def replayedBy (n : Nat) : Nat → List LogCall → List Record
  | _, [] => []
  | off, call :: calls =>
      (if off + framesSize call.records ≤ n then call.operations else []) ++
        replayedBy n (off + framesSize call.records) calls

theorem completeFrames_append {n off : Nat} {xs ys : List Record}
    (h : off + framesSize xs ≤ n) :
    completeFrames n off (xs ++ ys) = xs ++ completeFrames n (off + framesSize xs) ys := by
  induction xs generalizing off with
  | nil => simp
  | cons x xs ih =>
      rw [framesSize_cons] at h
      rw [List.cons_append, completeFrames, if_pos (by omega), ih (by omega), framesSize_cons,
        Nat.add_assoc, List.cons_append]

theorem completeFrames_append_of_lt {n off : Nat} {xs ys : List Record}
    (h : n < off + framesSize xs) :
    completeFrames n off (xs ++ ys) = completeFrames n off xs := by
  induction xs generalizing off with
  | nil =>
      cases ys with
      | nil => rfl
      | cons y ys =>
          have := frameSize_pos y
          rw [framesSize_nil] at h
          simp only [List.nil_append, completeFrames]
          rw [if_neg (by omega)]
  | cons x xs ih =>
      rw [framesSize_cons] at h
      simp only [List.cons_append, completeFrames]
      split
      · rw [ih (by omega)]
      · rfl

theorem replayedBy_eq_nil {n off : Nat} {calls : List LogCall} (h : n < off) :
    replayedBy n off calls = [] := by
  induction calls generalizing off with
  | nil => rfl
  | cons call calls ih =>
      rw [replayedBy, if_neg (by omega), ih (by omega), List.nil_append]

theorem run_call_puts (st : ReplayState) (call : LogCall) :
    (st.run call.records).puts = st.puts ++ call.operations := by
  cases call with
  | record rec hplain => simp [LogCall.records, LogCall.operations, ReplayState.apply, hplain]
  | batch id recs => exact run_batchRecords st id recs

/-- A prefix of a call's frames that misses the last one puts nothing. -/
theorem run_partial_puts {n off : Nat} (st : ReplayState) {call : LogCall}
    (h : n < off + framesSize call.records) :
    (st.run (completeFrames n off call.records)).puts = st.puts := by
  cases call with
  | record rec hplain =>
      simp only [LogCall.records, framesSize_cons, framesSize_nil] at h
      simp only [LogCall.records, completeFrames]
      rw [if_neg (by omega), ReplayState.run_nil]
  | batch id recs =>
      have hsplit : (LogCall.batch id recs).records =
          (beginRecord id :: recs.map (operationRecord id)) ++ [commitRecord id] := rfl
      apply run_puts_of_buffered
      intro r hr
      rw [hsplit] at hr h
      -- without the commit frame only begin and operation frames remain
      have hmem : r ∈ beginRecord id :: recs.map (operationRecord id) := by
        by_cases hlt : n < off + framesSize (beginRecord id :: recs.map (operationRecord id))
        · rw [completeFrames_append_of_lt hlt] at hr
          exact completeFrames_subset r hr
        · rw [framesSize_append, framesSize_cons (commitRecord id), framesSize_nil] at h
          rw [completeFrames_append (by omega), completeFrames, if_neg (by omega)] at hr
          simpa using hr
      rcases List.mem_cons.mp hmem with rfl | hmem
      · exact Or.inl rfl
      · obtain ⟨_, -, rfl⟩ := List.mem_map.mp hmem
        exact Or.inr rfl

/-- The two descriptions of the cut agree. -/
theorem run_completeFrames_puts (st : ReplayState) {n off : Nat} (calls : List LogCall) :
    (st.run (completeFrames n off (logRecords calls))).puts =
      st.puts ++ replayedBy n off calls := by
  induction calls generalizing st off with
  | nil => simp [logRecords, completeFrames, replayedBy]
  | cons call calls ih =>
      have hsplit : logRecords (call :: calls) = call.records ++ logRecords calls := rfl
      rw [hsplit, replayedBy]
      by_cases hle : off + framesSize call.records ≤ n
      · rw [completeFrames_append hle, ReplayState.run_append, ih, run_call_puts, if_pos hle,
          List.append_assoc]
      · rw [completeFrames_append_of_lt (by omega), run_partial_puts st (by omega), if_neg hle,
          replayedBy_eq_nil (by omega), List.append_nil, List.append_nil]

/-! ### Replay of the cut file -/

/-- What replay does with the first `n` bytes of `file`, a segment that holds the frames
`seen`, of which it puts `done`, up to byte `off`, and behind them the frames of
`calls`. -/
def ReplaysCut (seen done : List Record) (off : Nat) (calls : List LogCall) (file : Bytes)
    (n : Nat) : Prop :=
  ∀ mt : MemTable,
    (replayInto crc (file.take n) mt).result =
        .ok ⟨maxIdentifier (seen ++ completeFrames n off (logRecords calls))⟩ ∧
    (replayInto crc (file.take n) mt).memtable = mt.putAll (done ++ replayedBy n off calls) ∧
    ∃ m, IsGreatest {b | b ∈ frameBoundaries off (logRecords calls) ∧ b ≤ n} m ∧
      (replayInto crc (file.take n) mt).file = file.take m

theorem replaysCut_of_writeCalls {seen : List Record} (hseen : ∀ r ∈ seen, r.Fits)
    {calls : List LogCall} {file : Bytes}
    (hw : writeCalls crc (walHeader ++ frames crc seen) calls = .ok file) {n : Nat}
    (hlo : (walHeader ++ frames crc seen).length ≤ n) (hn : n ≤ file.length) (mt : MemTable) :
    replayInto crc (file.take n) mt =
      ⟨.ok ⟨maxIdentifier (seen ++ completeFrames n (walHeader ++ frames crc seen).length
          (logRecords calls))⟩,
        mt.putAll ((ReplayState.run {} seen).puts ++
          replayedBy n (walHeader ++ frames crc seen).length calls),
        walHeader ++ frames crc (seen ++
          completeFrames n (walHeader ++ frames crc seen).length (logRecords calls))⟩ := by
  obtain ⟨hfit, rfl⟩ := (writeCalls_eq_ok crc).mp hw
  set off := (walHeader ++ frames crc seen).length with hoff
  rw [List.length_append, ← hoff, frames_length] at hn
  obtain ⟨t, ht, hcut⟩ := frames_take crc hfit hlo hn
  have hfile : (walHeader ++ frames crc seen ++ frames crc (logRecords calls)).take n =
      walHeader ++ frames crc (seen ++ completeFrames n off (logRecords calls)) ++ t := by
    rw [List.take_append, List.take_of_length_le hlo, ← hoff, hcut, frames_append]
    simp [List.append_assoc]
  have hall : ∀ r ∈ seen ++ completeFrames n off (logRecords calls), r.Fits := by
    intro r hr
    rcases List.mem_append.mp hr with hr | hr
    · exact hseen r hr
    · exact hfit r (completeFrames_subset r hr)
  have hstats : (ReplayState.run {} (seen ++ completeFrames n off (logRecords calls))).stats =
      ⟨maxIdentifier (seen ++ completeFrames n off (logRecords calls))⟩ :=
    congrArg ReplayStats.mk (run_stats {} _)
  rw [hfile, replayInto_segment crc hall ht, hstats, ReplayState.run_append,
    run_completeFrames_puts]

theorem ReplaysCut.of_writeCalls {seen : List Record} (hseen : ∀ r ∈ seen, r.Fits)
    {calls : List LogCall} {file : Bytes}
    (hw : writeCalls crc (walHeader ++ frames crc seen) calls = .ok file) {n : Nat}
    (hlo : (walHeader ++ frames crc seen).length ≤ n) (hn : n ≤ file.length) :
    ReplaysCut crc seen (ReplayState.run {} seen).puts (walHeader ++ frames crc seen).length
      calls file n := by
  intro mt
  rw [replaysCut_of_writeCalls crc hseen hw hlo hn mt]
  refine ⟨rfl, rfl, _, isGreatest_boundary hlo, ?_⟩
  obtain ⟨hfit, rfl⟩ := (writeCalls_eq_ok crc).mp hw
  -- the complete frames are a prefix of the file
  have hfront : ∀ (off : Nat) (recs : List Record),
      frames crc (completeFrames n off recs) <+: frames crc recs := by
    intro off recs
    induction recs generalizing off with
    | nil => exact List.prefix_rfl
    | cons rec recs ih =>
        unfold completeFrames
        split
        · rw [frames_cons, frames_cons]
          exact List.prefix_append_right_inj _ |>.mpr (ih _)
        · exact List.nil_prefix
  rw [frames_append, ← List.append_assoc, ← frames_length crc]
  obtain ⟨rest, hrest⟩ := hfront (walHeader ++ frames crc seen).length (logRecords calls)
  rw [← hrest, ← List.append_assoc, ← List.length_append, List.take_left]

/-- **Replay of a crash-cut segment.** Whatever prefix of a segment a crash keeps, from
the synced header on, replay succeeds with the plain records and batches that are whole
in it, repairs the file to a frame boundary, and what is appended to the repaired file
and cut again is replayed the same way behind what was kept. -/
theorem replayInto_cut {calls : List LogCall} {file : Bytes}
    (hw : writeCalls crc walHeader calls = .ok file) {n : Nat} (hlo : walHeaderSize ≤ n)
    (hn : n ≤ file.length) :
    ReplaysCut crc [] [] walHeaderSize calls file n ∧
    ∀ (mt : MemTable) (calls' : List LogCall) (file' : Bytes) (n' : Nat),
      writeCalls crc (replayInto crc (file.take n) mt).file calls' = .ok file' →
      (replayInto crc (file.take n) mt).file.length ≤ n' → n' ≤ file'.length →
      ReplaysCut crc (completeFrames n walHeaderSize (logRecords calls))
        (replayedBy n walHeaderSize calls) (replayInto crc (file.take n) mt).file.length
        calls' file' n' := by
  have hbase : walHeader ++ frames crc [] = walHeader := by simp
  have hnil : ∀ r ∈ ([] : List Record), r.Fits := by simp
  have hw0 := hw
  rw [← hbase] at hw0
  have hcut := ReplaysCut.of_writeCalls crc hnil hw0 (by simpa using hlo) hn
  have hfull := replaysCut_of_writeCalls crc hnil hw0 (by simpa using hlo) hn
  rw [hbase, walHeader_length] at hcut hfull
  refine ⟨hcut, ?_⟩
  intro mt calls' file' n' hw' hlo' hn'
  have hfit := ((writeCalls_eq_ok crc).mp hw).1
  have hkept : ∀ r ∈ completeFrames n walHeaderSize (logRecords calls), r.Fits :=
    fun r hr => hfit r (completeFrames_subset r hr)
  have hfile := congrArg Replay.file (hfull mt)
  simp only [List.nil_append] at hfile
  rw [hfile] at hw' hlo' ⊢
  have hputs : (ReplayState.run {} (completeFrames n walHeaderSize (logRecords calls))).puts =
      [] ++ replayedBy n walHeaderSize calls := run_completeFrames_puts {} calls
  have := ReplaysCut.of_writeCalls crc hkept hw' hlo' hn'
  rwa [hputs, List.nil_append] at this

/-- A plain record and a batch, cut inside the batch's commit frame. -/
theorem replayInto_cut_commit_frame :
    ∃ file, writeCalls crc32c walHeader
        [.record { key := [0x61], value := [1], seq := 1 } rfl,
          .batch 2 [{ key := [0x62], value := [2], seq := 2 }]] = .ok file ∧
      ReplaysCut crc32c [] [] walHeaderSize
        [.record { key := [0x61], value := [1], seq := 1 } rfl,
          .batch 2 [{ key := [0x62], value := [2], seq := 2 }]] file (file.length - 1) :=
  ⟨_, rfl, (replayInto_cut crc32c rfl (by decide +kernel) (by decide +kernel)).1⟩

end HyphaDB.Wal
