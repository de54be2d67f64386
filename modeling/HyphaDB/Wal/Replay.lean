import HyphaDB.Wal.Frame

/-!
# HyphaDB.Wal.Replay

**Replay of one segment** (`ReplayIntoWithStats`) as a function of the file's bytes.

The loop reads frames until the file ends, the file is torn, or a frame is corrupt. A
plain record is put at once; the operations of a batch are buffered under the batch ID
and put when the commit frame arrives, so an unfinished batch leaves no trace in the
memtable, only in the largest identifier seen.

`ReplayState.run` is the loop's bookkeeping on the records alone. `replayInto_segment`
reduces replay of any file that is a header, whole frames and a torn tail to it, which
is all the engine ever writes.
-/

namespace HyphaDB.Wal

/-- An error that wraps `ErrCorruptWAL`. -/
inductive CorruptWAL
  | readHeader
  | invalidMagic
  | unsupportedVersion (version : Nat)
  | frame (offset : Nat) (e : FrameError)
  deriving Repr, DecidableEq

def validateWALHeader (file : Bytes) : Except CorruptWAL Unit :=
  if file.length < walHeaderSize then .error .readHeader
  else if file.take 8 ≠ walMagic then .error .invalidMagic
  else if ofLE ((file.drop 8).take 4) ≠ walVersion then
    .error (.unsupportedVersion (ofLE ((file.drop 8).take 4)))
  else .ok ()

theorem validateWALHeader_walHeader (tail : Bytes) :
    validateWALHeader (walHeader ++ tail) = .ok () := by
  have hlen : ¬ (walHeader ++ tail).length < walHeaderSize := by simp
  have hmagic : (walHeader ++ tail).take 8 = walMagic := rfl
  have hver : ((walHeader ++ tail).drop 8).take 4 = toLE 4 walVersion := rfl
  unfold validateWALHeader
  rw [if_neg hlen, hmagic, hver, if_neg (by simp), if_neg (by decide)]

/-- `ReplayStats`. -/
structure ReplayStats where
  maxSequence : UInt64 := 0
  deriving Repr, DecidableEq

/-- The loop's variables: the offset behind the last good frame, the buffered batches,
the records put so far, and the statistics. -/
structure ReplayState where
  validOffset : Nat := walHeaderSize
  pending : UInt64 → Option (List Record) := fun _ => none
  puts : List Record := []
  stats : ReplayStats := {}

namespace ReplayState

/-- The effect of one decoded frame. -/
def apply (st : ReplayState) (rec : Record) (payloadLen : Nat) : ReplayState :=
  let st := { st with
    validOffset := st.validOffset + frameHeaderSize + payloadLen
    stats := ⟨max (max st.stats.maxSequence rec.seq) rec.batchID⟩ }
  match rec.batchKind with
  | .none => { st with puts := st.puts ++ [rec] }
  | .begin => { st with pending := Function.update st.pending rec.batchID (some []) }
  | .operation =>
      match st.pending rec.batchID with
      | some recs =>
          { st with pending := Function.update st.pending rec.batchID (some (recs ++ [rec])) }
      | none => st
  | .commit =>
      match st.pending rec.batchID with
      | some recs =>
          { st with
            puts := st.puts ++ recs.map Record.plain
            pending := Function.update st.pending rec.batchID none }
      | none => st

/-- The effect of a list of whole frames. -/
def run (st : ReplayState) (recs : List Record) : ReplayState :=
  recs.foldl (fun st rec => st.apply rec (encodePayload rec).length) st

@[simp] theorem run_nil (st : ReplayState) : st.run [] = st := rfl

@[simp] theorem run_cons (st : ReplayState) (rec : Record) (recs : List Record) :
    st.run (rec :: recs) = (st.apply rec (encodePayload rec).length).run recs := rfl

theorem run_append (st : ReplayState) (xs ys : List Record) :
    st.run (xs ++ ys) = (st.run xs).run ys := by
  simp [run]

end ReplayState

/-- How the replay loop ended. -/
inductive ReplayEnd
  | clean
  | torn
  | corrupt (e : FrameError)
  deriving Repr, DecidableEq

variable (crc : Bytes → UInt32)

/-- The frame loop. Every turn consumes a frame header, so the number of bytes left is
fuel enough. -/
def replayLoop : Nat → Bytes → ReplayState → ReplayState × ReplayEnd
  | 0, _, st => (st, .clean)
  | fuel + 1, buf, st =>
      match readFrame crc buf with
      | .eof => (st, .clean)
      | .torn => (st, .torn)
      | .corrupt e => (st, .corrupt e)
      | .record rec payloadLen rest => replayLoop fuel rest (st.apply rec payloadLen)

/-- Run the loop over the bytes behind the file header. -/
def replayFrames (buf : Bytes) : ReplayState × ReplayEnd :=
  replayLoop crc (buf.length + 1) buf {}

/-- What a replay leaves behind: its result, the memtable, and the file. -/
structure Replay where
  result : Except CorruptWAL ReplayStats
  memtable : MemTable
  file : Bytes

/-- `ReplayIntoWithStats` on an existing file. -/
def replayInto (file : Bytes) (mt : MemTable) : Replay :=
  if file.length = 0 then ⟨.ok {}, mt, file⟩
  else
    match validateWALHeader file with
    | .error e => ⟨.error e, mt, file⟩
    | .ok () =>
        let (st, fin) := replayFrames crc (file.drop walHeaderSize)
        let mt := mt.putAll st.puts
        match fin with
        | .clean => ⟨.ok st.stats, mt, file⟩
        | .torn => ⟨.ok st.stats, mt, file.take st.validOffset⟩
        | .corrupt e => ⟨.error (.frame st.validOffset e), mt, file⟩

/-! ### Replay of whole frames -/

/-- The bytes a crash or a failed write may leave behind the last whole frame. -/
def TornTail (t : Bytes) : Prop :=
  ∃ rec : Record, rec.Fits ∧ ∃ n, n < frameSize rec ∧ t = (frame crc rec).take n

theorem TornTail.nil : TornTail crc [] :=
  ⟨{}, by decide, 0, frameSize_pos _, rfl⟩

/-- The loop stops in front of a torn tail. -/
def tailEnd (t : Bytes) : ReplayEnd := if t = [] then .clean else .torn

theorem replayLoop_torn {t : Bytes} (ht : TornTail crc t) {fuel : Nat} (hfuel : 0 < fuel)
    (st : ReplayState) : replayLoop crc fuel t st = (st, tailEnd t) := by
  obtain ⟨rec, hfit, n, hn, rfl⟩ := ht
  obtain ⟨fuel, rfl⟩ : ∃ k, fuel = k + 1 := ⟨fuel - 1, by omega⟩
  unfold replayLoop tailEnd
  rcases Nat.eq_zero_or_pos n with rfl | hpos
  · simp [readFrame]
  · have hne : (frame crc rec).take n ≠ [] := by
      intro h
      have := congrArg List.length h
      rw [List.length_take, frame_length, List.length_nil] at this
      omega
    rw [readFrame_torn crc hfit hpos hn, if_neg hne]

/-- Whole frames in front of a tail are applied one by one. -/
theorem replayLoop_frames {recs : List Record} (hfit : ∀ r ∈ recs, r.Fits) (tail : Bytes)
    {fuel : Nat} (hfuel : recs.length ≤ fuel) (st : ReplayState) :
    replayLoop crc fuel (frames crc recs ++ tail) st =
      replayLoop crc (fuel - recs.length) tail (st.run recs) := by
  induction recs generalizing fuel st with
  | nil => simp
  | cons rec recs ih =>
      obtain ⟨fuel, rfl⟩ : ∃ k, fuel = k + 1 :=
        ⟨fuel - 1, by simp only [List.length_cons] at hfuel; omega⟩
      rw [frames_cons, List.append_assoc, replayLoop,
        readFrame_frame crc (hfit rec List.mem_cons_self)]
      simp only [List.length_cons] at hfuel ⊢
      rw [ih (fun r hr => hfit r (List.mem_cons_of_mem _ hr)) (by omega), ReplayState.run_cons,
        Nat.add_sub_add_right]

theorem length_le_frames (recs : List Record) : recs.length ≤ (frames crc recs).length := by
  induction recs with
  | nil => simp
  | cons rec recs ih =>
      have := frameSize_pos rec
      rw [frames_cons, List.length_append, frame_length, List.length_cons]
      omega

theorem replayFrames_frames {recs : List Record} (hfit : ∀ r ∈ recs, r.Fits) {t : Bytes}
    (ht : TornTail crc t) :
    replayFrames crc (frames crc recs ++ t) = (ReplayState.run {} recs, tailEnd t) := by
  have hle := length_le_frames crc recs
  unfold replayFrames
  rw [replayLoop_frames crc hfit t (by rw [List.length_append]; omega),
    replayLoop_torn crc ht (by rw [List.length_append]; omega)]

theorem ReplayState.apply_validOffset (st : ReplayState) (rec : Record) (n : Nat) :
    (st.apply rec n).validOffset = st.validOffset + frameHeaderSize + n := by
  unfold ReplayState.apply
  cases rec.batchKind with
  | none => rfl
  | begin => rfl
  | operation => dsimp only; split <;> rfl
  | commit => dsimp only; split <;> rfl

/-- The loop's offset is the length of the frames it accepted. -/
theorem ReplayState.run_validOffset (st : ReplayState) (recs : List Record) :
    (st.run recs).validOffset = st.validOffset + (frames crc recs).length := by
  induction recs generalizing st with
  | nil => simp
  | cons rec recs ih =>
      rw [run_cons, ih, apply_validOffset, frames_cons, List.length_append, frame_length, frameSize]
      omega

/-- **Replay of a segment**: a header, whole frames and a torn tail replay to exactly the
whole frames, and the tail is cut off. -/
theorem replayInto_segment {recs : List Record} (hfit : ∀ r ∈ recs, r.Fits) {t : Bytes}
    (ht : TornTail crc t) (mt : MemTable) :
    replayInto crc (walHeader ++ frames crc recs ++ t) mt =
      ⟨.ok (ReplayState.run {} recs).stats, mt.putAll (ReplayState.run {} recs).puts,
        walHeader ++ frames crc recs⟩ := by
  have hlen : (walHeader ++ frames crc recs ++ t).length ≠ 0 := by
    simp [walHeaderSize]
  unfold replayInto
  rw [if_neg hlen, List.append_assoc, validateWALHeader_walHeader]
  dsimp only
  rw [List.drop_left' walHeader_length, replayFrames_frames crc hfit ht]
  unfold tailEnd
  by_cases hnil : t = []
  · simp [hnil]
  · have hoff := ReplayState.run_validOffset crc {} recs
    simp only [hnil, if_false]
    rw [hoff, ← List.append_assoc, List.take_left']
    simp

end HyphaDB.Wal
