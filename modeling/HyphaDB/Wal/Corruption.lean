import HyphaDB.Wal.Replay
import HyphaDB.Lib.Crc32c

/-!
# HyphaDB.Wal.Corruption

**One damaged byte.** Replay reads a frame's length before it can check the checksum
that covers it, so where the damage lies decides what is seen:

* in the payload or the checksum, the checksum does not match;
* in the length, with the new frame still inside the file, the checksum does not match or
  the payload, whose own lengths are intact, does not decode;
* in the length, with the new frame ending behind the file, the frame is taken for a torn
  write, and every frame from there on is cut off.

`reported_iff` is the exact boundary: damage is reported, and the file kept, unless the
damaged length is a legal one that runs past the end of the file.
-/

namespace HyphaDB.Wal

open Record (headerSize)

variable {crc : Bytes → UInt32}

/-! ### Payloads of another length -/

/-- What decodes has the length its own header announces. -/
theorem decodeRecord_length {payload : Bytes} {rec : Record}
    (h : decodeRecord payload = .ok rec) :
    batchMetadataSize + headerSize ≤ payload.length ∧
      payload.length = batchMetadataSize + headerSize +
        (ofLE ((payload.drop 9).take 4) + ofLE ((payload.drop 13).take 4)) := by
  unfold decodeRecord at h
  split at h
  · cases h
  · rename_i hlen
    split at h
    · cases h
    · dsimp only at h
      split at h
      · cases h
      · rename_i rec' rest hdec
        split at h
        · cases h
        · rename_i hrest
          have hbuf := Record.decodeBinary_length hdec
          rw [List.length_drop, List.drop_drop] at hbuf
          simp only [batchMetadataSize] at hbuf hlen ⊢
          simp only [Nat.reduceAdd] at hbuf hlen ⊢
          omega

/-- Bytes that start like a payload but are shorter or longer do not decode. -/
theorem decodeRecord_resized {rec : Record} (hfit : rec.Fits) {tail q : Bytes}
    (hq : q <+: encodePayload rec ++ tail) (hlen : q.length ≠ (encodePayload rec).length) :
    ∃ e, decodeRecord q = .error e := by
  cases hdec : decodeRecord q with
  | error e => exact ⟨e, rfl⟩
  | ok rec' =>
      obtain ⟨hmin, hq_len⟩ := decodeRecord_length hdec
      obtain ⟨hmin', hp_len⟩ := decodeRecord_length (decodeRecord_encodePayload hfit)
      -- both start with the same header, and the header fixes the length
      have hhead : q.take 17 = (encodePayload rec).take 17 := by
        obtain ⟨rest, hrest⟩ := hq
        have := congrArg (List.take 17) hrest
        simp only [batchMetadataSize, headerSize] at hmin hmin'
        rwa [List.take_append_of_le_length (by omega), List.take_append_of_le_length (by omega)]
          at this
      have hkey : (q.drop 9).take 4 = ((encodePayload rec).drop 9).take 4 := by
        have := congrArg (fun l => (l.drop 9).take 4) hhead
        simpa [List.drop_take, List.take_take] using this
      have hval : (q.drop 13).take 4 = ((encodePayload rec).drop 13).take 4 := by
        have := congrArg (fun l => (l.drop 13).take 4) hhead
        simpa [List.drop_take, List.take_take] using this
      rw [hkey, hval, ← hp_len] at hq_len
      exact absurd hq_len hlen

/-! ### Reading a damaged frame -/

/-- The length field is legal and the frame it announces ends behind the file. -/
def RunsPastEnd (damaged tail : Bytes) : Prop :=
  ofLE (damaged.take 4) ≤ maxFramePayload ∧
    damaged.length + tail.length < frameHeaderSize + ofLE (damaged.take 4)

instance (damaged tail : Bytes) : Decidable (RunsPastEnd damaged tail) :=
  inferInstanceAs (Decidable (_ ∧ _))

/-- What is read of bytes that hold a frame's header at least. -/
theorem readFrame_long {buf : Bytes} (h : frameHeaderSize ≤ buf.length) :
    readFrame crc buf =
      if maxFramePayload < ofLE (buf.take 4) then
        .corrupt (.lengthExceedsMaximum (ofLE (buf.take 4)))
      else if (buf.drop frameHeaderSize).length < ofLE (buf.take 4) then .torn
      else if ofLE ((buf.drop 4).take 4) ≠ (frameChecksum crc (buf.take 4)
          ((buf.drop frameHeaderSize).take (ofLE (buf.take 4)))).toNat then
        .corrupt .checksumMismatch
      else
        match decodeRecord ((buf.drop frameHeaderSize).take (ofLE (buf.take 4))) with
        | .error e => .corrupt (.decode e)
        | .ok rec => .record rec (ofLE (buf.take 4))
            ((buf.drop frameHeaderSize).drop (ofLE (buf.take 4))) := by
  have hpos : 0 < frameHeaderSize := by decide
  unfold readFrame
  exact (if_neg (by omega)).trans (if_neg (by omega))

/-- The fields of a frame's bytes. -/
theorem readFrame_fields {length checksum payload tail : Bytes} (hl : length.length = 4)
    (hc : checksum.length = 4) :
    readFrame crc (length ++ checksum ++ payload ++ tail) =
      if maxFramePayload < ofLE length then .corrupt (.lengthExceedsMaximum (ofLE length))
      else if (payload ++ tail).length < ofLE length then .torn
      else if ofLE checksum ≠
          (frameChecksum crc length ((payload ++ tail).take (ofLE length))).toNat then
        .corrupt .checksumMismatch
      else
        match decodeRecord ((payload ++ tail).take (ofLE length)) with
        | .error e => .corrupt (.decode e)
        | .ok rec => .record rec (ofLE length) ((payload ++ tail).drop (ofLE length)) := by
  have hsplit : length ++ checksum ++ payload ++ tail =
      length ++ (checksum ++ (payload ++ tail)) := by simp [List.append_assoc]
  have htake : (length ++ (checksum ++ (payload ++ tail))).take 4 = length :=
    List.take_left' hl
  have hsum : ((length ++ (checksum ++ (payload ++ tail))).drop 4).take 4 = checksum := by
    rw [List.drop_left' hl, List.take_left' hc]
  have hbody : (length ++ (checksum ++ (payload ++ tail))).drop frameHeaderSize =
      payload ++ tail := by
    rw [← List.append_assoc, List.drop_left' (by simp [hl, hc, frameHeaderSize])]
  have hsize : (length ++ (checksum ++ (payload ++ tail))).length =
      frameHeaderSize + (payload ++ tail).length := by
    simp only [List.length_append, hl, hc, frameHeaderSize]
    omega
  have hlong : frameHeaderSize ≤ (length ++ (checksum ++ (payload ++ tail))).length := by omega
  rw [hsplit, readFrame_long hlong, htake, hsum, hbody]

theorem toLE_toNat_injective {a b : UInt32} (h : toLE 4 a.toNat = toLE 4 b.toNat) : a = b := by
  have := congrArg ofLE h
  rw [ofLE_toLE_of_lt a.toNat_lt, ofLE_toLE_of_lt b.toNat_lt] at this
  exact UInt32.toNat_inj.mp this

/-- A damaged length: another frame is cut out of the bytes, and it is not a record. -/
theorem readFrame_damaged_length (tail : Bytes) {rec : Record} (hfit : rec.Fits)
    {length checksum : Bytes} (hl : length.length = 4) (hc : checksum.length = 4)
    (hne : length ≠ toLE 4 (encodePayload rec).length)
    (hin : ofLE length ≤ (encodePayload rec ++ tail).length) :
    ∃ e, readFrame crc (length ++ checksum ++ encodePayload rec ++ tail) = .corrupt e := by
  have hne' : ofLE length ≠ (encodePayload rec).length := by
    intro h
    apply hne
    rw [← h, ← hl, toLE_ofLE]
  have hresized :
      ∃ e, decodeRecord ((encodePayload rec ++ tail).take (ofLE length)) = .error e := by
    apply decodeRecord_resized hfit (List.take_prefix _ _)
    rw [List.length_take]
    omega
  obtain ⟨e, he⟩ := hresized
  rw [readFrame_fields hl hc, he]
  split
  · exact ⟨_, rfl⟩
  · rw [if_neg (by omega)]
    split
    · exact ⟨_, rfl⟩
    · exact ⟨_, rfl⟩

/-- A damaged checksum or payload: the length is intact and the checksum does not match. -/
theorem readFrame_damaged_body (tail : Bytes) {rec : Record} (hfit : rec.Fits)
    {checksum payload : Bytes} (hc : checksum.length = 4)
    (hp : payload.length = (encodePayload rec).length)
    (hne : checksum ≠
      toLE 4 (frameChecksum crc (toLE 4 (encodePayload rec).length) payload).toNat) :
    readFrame crc (toLE 4 (encodePayload rec).length ++ checksum ++ payload ++ tail) =
      .corrupt .checksumMismatch := by
  have hle := encodePayload_le hfit
  have hsum : ofLE checksum ≠
      (frameChecksum crc (toLE 4 (encodePayload rec).length) payload).toNat := by
    intro h
    apply hne
    rw [← h, ← hc, toLE_ofLE]
  rw [readFrame_fields (toLE_length _ _) hc, payload_length_roundtrip hle, if_neg (by omega),
    if_neg (by simp [hp]), ← hp, List.take_left, if_pos (by rw [hp]; exact hsum)]

/-- One damaged byte in a frame: a torn write if the length now runs past the end of the
file, and corruption otherwise. -/
theorem readFrame_damaged (hcrc : Distinguishes crc) (tail : Bytes) {rec : Record}
    (hfit : rec.Fits) {damaged : Bytes} (hd : DifferInOneByte (frame crc rec) damaged) :
    (RunsPastEnd damaged tail → readFrame crc (damaged ++ tail) = .torn) ∧
      (¬ RunsPastEnd damaged tail → ∃ e, readFrame crc (damaged ++ tail) = .corrupt e) := by
  have hle := encodePayload_le hfit
  -- with an intact length field the frame cannot run past the end
  have hintact : ∀ {checksum payload : Bytes}, checksum.length = 4 →
      payload.length = (encodePayload rec).length →
      ¬ RunsPastEnd (toLE 4 (encodePayload rec).length ++ checksum ++ payload) tail := by
    rintro checksum payload hc hp ⟨-, hpast⟩
    rw [List.append_assoc, List.take_left' (toLE_length _ _), payload_length_roundtrip hle] at hpast
    simp only [List.length_append, toLE_length, frameHeaderSize] at hpast
    omega
  unfold frame encodeFrame at hd
  rcases hd.append_cases with ⟨header, hheader, rfl⟩ | ⟨payload, hpayload, rfl⟩
  · rcases hheader.append_cases with ⟨length, hlength, rfl⟩ | ⟨checksum, hchecksum, rfl⟩
    · have hl : length.length = 4 := by rw [← hlength.length_eq, toLE_length]
      have hpast : RunsPastEnd (length ++ toLE 4 (frameChecksum crc
          (toLE 4 (encodePayload rec).length) (encodePayload rec)).toNat ++ encodePayload rec)
          tail ↔ ofLE length ≤ maxFramePayload ∧
            (encodePayload rec ++ tail).length < ofLE length := by
        unfold RunsPastEnd
        rw [List.append_assoc, List.take_left' hl]
        simp only [List.length_append, hl, toLE_length, frameHeaderSize]
        omega
      rw [hpast]
      constructor
      · rintro ⟨hmax, hend⟩
        rw [readFrame_fields hl (toLE_length _ _), if_neg (by omega), if_pos hend]
      · intro hnot
        by_cases hin : ofLE length ≤ (encodePayload rec ++ tail).length
        · exact readFrame_damaged_length tail hfit hl (toLE_length _ _) hlength.ne.symm hin
        · refine ⟨.lengthExceedsMaximum (ofLE length), ?_⟩
          rw [readFrame_fields hl (toLE_length _ _), if_pos (by omega)]
    · have hc : checksum.length = 4 := by rw [← hchecksum.length_eq, toLE_length]
      refine ⟨fun h => absurd h (hintact hc rfl), fun _ => ?_⟩
      exact ⟨_, readFrame_damaged_body tail hfit hc rfl hchecksum.ne.symm⟩
  · refine ⟨fun h => absurd h (hintact (toLE_length _ _) hpayload.length_eq.symm), fun _ => ?_⟩
    refine ⟨_, readFrame_damaged_body tail hfit (toLE_length _ _) hpayload.length_eq.symm ?_⟩
    intro hsame
    obtain ⟨pre, x, y, post, hxy, hp, rfl⟩ := hpayload
    apply hcrc (toLE 4 (encodePayload rec).length ++ encodePayload rec)
      (toLE 4 (encodePayload rec).length ++ (pre ++ y :: post))
    · exact ⟨toLE 4 (encodePayload rec).length ++ pre, x, y, post, hxy, by rw [hp]; simp, by simp⟩
    · exact toLE_toNat_injective hsame

/-! ### Replay of a damaged segment -/

/-- Replay reports corruption and leaves the file as long as it was. -/
def Reported (crc : Bytes → UInt32) (file : Bytes) (mt : MemTable) : Prop :=
  (∃ e, (replayInto crc file mt).result = .error e) ∧
    (replayInto crc file mt).file.length = file.length

/-- Whole frames in front, then something that is not a frame. -/
theorem replayFrames_stop {pre : List Record} (hfit : ∀ r ∈ pre, r.Fits) (rest : Bytes) :
    (readFrame crc rest = .torn →
      replayFrames crc (frames crc pre ++ rest) = (ReplayState.run {} pre, .torn)) ∧
    ∀ e, readFrame crc rest = .corrupt e →
      replayFrames crc (frames crc pre ++ rest) = (ReplayState.run {} pre, .corrupt e) := by
  have hle := length_le_frames crc pre
  obtain ⟨fuel, hfuel⟩ : ∃ k, (frames crc pre ++ rest).length + 1 - pre.length = k + 1 :=
    ⟨(frames crc pre ++ rest).length - pre.length, by rw [List.length_append]; omega⟩
  unfold replayFrames
  rw [replayLoop_frames crc hfit rest (by rw [List.length_append]; omega), hfuel]
  constructor
  · intro h
    rw [replayLoop, h]
  · intro e h
    rw [replayLoop, h]

/-- **Damage is reported exactly when the damaged length does not run past the end.** -/
theorem reported_iff (hcrc : Distinguishes crc) {pre : List Record} {rec : Record}
    {post : List Record} (hfit : ∀ r ∈ pre ++ rec :: post, r.Fits) {damaged : Bytes}
    (hd : DifferInOneByte (frame crc rec) damaged) (mt : MemTable) :
    Reported crc (walHeader ++ frames crc pre ++ damaged ++ frames crc post) mt ↔
      ¬ RunsPastEnd damaged (frames crc post) := by
  have hpre : ∀ r ∈ pre, r.Fits := fun r hr => hfit r (List.mem_append_left _ hr)
  have hrec : rec.Fits := hfit rec (by simp)
  have hsplit : walHeader ++ frames crc pre ++ damaged ++ frames crc post =
      walHeader ++ (frames crc pre ++ (damaged ++ frames crc post)) := by
    simp [List.append_assoc]
  have hne : (walHeader ++ (frames crc pre ++ (damaged ++ frames crc post))).length ≠ 0 := by
    simp [walHeaderSize]
  obtain ⟨htorn, hcorrupt⟩ := readFrame_damaged hcrc (frames crc post) hrec hd
  obtain ⟨hstopT, hstopC⟩ := replayFrames_stop hpre (damaged ++ frames crc post)
  have hdrop : (walHeader ++ (frames crc pre ++ (damaged ++ frames crc post))).drop walHeaderSize =
      frames crc pre ++ (damaged ++ frames crc post) := List.drop_left' walHeader_length
  rw [hsplit]
  unfold Reported replayInto
  rw [if_neg hne, validateWALHeader_walHeader, hdrop]
  by_cases hpast : RunsPastEnd damaged (frames crc post)
  · rw [hstopT (htorn hpast)]
    simp [hpast]
  · obtain ⟨e, he⟩ := hcorrupt hpast
    rw [hstopC e he]
    simp [hpast]

/-- A payload byte damaged in front of another frame. -/
theorem reported_iff_payload_byte :
    ∃ damaged, DifferInOneByte (frame crc32c {}) damaged ∧
      Reported crc32c (walHeader ++ frames crc32c [] ++ damaged ++ frames crc32c [{}]) .new := by
  have hfit : ∀ r ∈ [] ++ ({} : Record) :: [{}], r.Fits := by decide
  have hd : DifferInOneByte (frame crc32c {})
      ((frame crc32c {}).take 8 ++ 1 :: (encodePayload {}).tail) :=
    ⟨(frame crc32c {}).take 8, 0, 1, (encodePayload {}).tail, by decide, rfl, rfl⟩
  exact ⟨_, hd, (reported_iff crc32c_distinguishes hfit hd .new).mpr (by decide +kernel)⟩

/-- One damaged length byte, `26` to `126`, in front of an intact frame: replay succeeds
with an empty log and cuts both frames off. -/
theorem damaged_length_cuts_intact_frame :
    DifferInOneByte (frame crc32c {}) (126 :: (frame crc32c {}).tail) ∧
    (replayInto crc32c (walHeader ++ 126 :: (frame crc32c {}).tail ++ frame crc32c
      { key := [0x6B], value := [0x76], seq := 1 }) .new).result = .ok {} ∧
    (replayInto crc32c (walHeader ++ 126 :: (frame crc32c {}).tail ++ frame crc32c
      { key := [0x6B], value := [0x76], seq := 1 }) .new).file = walHeader := by
  refine ⟨⟨[], 26, 126, (frame crc32c {}).tail, by decide, rfl, rfl⟩, ?_, ?_⟩ <;> decide +kernel

end HyphaDB.Wal
