import HyphaDB.Memtable

/-!
# HyphaDB.Wal.Frame

The **frame format** of a WAL segment (`internal/wal`): a 12-byte file header, then
frames of a 4-byte payload length, a 4-byte checksum over length and payload, and the
payload itself, a batch kind, a batch ID and a record.

The checksum is a parameter `crc`; the source instantiates it with CRC-32C. `readFrame`
is one turn of the replay loop of `ReplayIntoWithStats` up to the decoded record: it
trusts the length before the checksum that covers it, and takes a payload that ends
behind the file for a torn write. The two facts everything else rests on are
`readFrame_frame` (a written frame reads back) and `readFrame_torn` (a proper prefix of
one reads as the end of the log, never as corruption).
-/

namespace HyphaDB.Wal

open Record (headerSize maxKeySize maxValueSize)

def walVersion : Nat := 1
def walHeaderSize : Nat := 8 + 4
def frameHeaderSize : Nat := 4 + 4
def batchMetadataSize : Nat := 1 + 8
def maxFramePayload : Nat := batchMetadataSize + headerSize + maxKeySize + maxValueSize

/-- The ASCII bytes of `HYPHAWAL`. -/
def walMagic : Bytes := [0x48, 0x59, 0x50, 0x48, 0x41, 0x57, 0x41, 0x4C]

/-- What `writeWALHeader` writes. -/
def walHeader : Bytes := walMagic ++ toLE 4 walVersion

@[simp] theorem walHeader_length : walHeader.length = walHeaderSize := rfl

/-! ### Payloads -/

/-- Why `encodeRecord` refuses a record. (The batch kinds it also checks for are the
only ones the type has.) -/
inductive EncodeError
  | keyTooLong (length : Nat)
  | valueTooLong (length : Nat)
  deriving Repr, DecidableEq

/-- The payload bytes of a record. -/
def encodePayload (rec : Record) : Bytes :=
  rec.batchKind.toByte :: (toLE 8 rec.batchID.toNat ++ rec.encodeBinary)

def encodeRecord (rec : Record) : Except EncodeError Bytes :=
  if maxKeySize < rec.key.length then .error (.keyTooLong rec.key.length)
  else if maxValueSize < rec.value.length then .error (.valueTooLong rec.value.length)
  else .ok (encodePayload rec)

/-- Why a payload with a good checksum could not be decoded. -/
inductive PayloadError
  | tooSmall
  | invalidKind (kind : UInt8)
  | record (e : Record.DecodeError)
  | trailingBytes (count : Nat)
  deriving Repr, DecidableEq

def decodeRecord (payload : Bytes) : Except PayloadError Record :=
  if payload.length < batchMetadataSize + headerSize then .error .tooSmall
  else
    match BatchKind.ofByte? (payload.headD 0) with
    | none => .error (.invalidKind (payload.headD 0))
    | some kind =>
        let batchID := ofLE ((payload.drop 1).take 8)
        match Record.decodeBinary (payload.drop batchMetadataSize) with
        | .error e => .error (.record e)
        | .ok (rec, rest) =>
            if rest.length ≠ 0 then .error (.trailingBytes rest.length)
            else .ok { rec with batchID := UInt64.ofNat batchID, batchKind := kind }

theorem encodeRecord_eq_ok {rec : Record} {payload : Bytes} :
    encodeRecord rec = .ok payload ↔ rec.Fits ∧ payload = encodePayload rec := by
  unfold encodeRecord Record.Fits
  split
  · constructor
    · intro h; cases h
    · rintro ⟨⟨hk, -⟩, -⟩; omega
  · split
    · constructor
      · intro h; cases h
      · rintro ⟨⟨-, hv⟩, -⟩; omega
    · constructor
      · intro h; cases h; exact ⟨⟨by omega, by omega⟩, rfl⟩
      · rintro ⟨-, rfl⟩; rfl

@[simp] theorem encodePayload_length (rec : Record) :
    (encodePayload rec).length = batchMetadataSize + rec.encodedSize := by
  simp [encodePayload, batchMetadataSize]
  omega

theorem encodePayload_le {rec : Record} (h : rec.Fits) :
    (encodePayload rec).length ≤ maxFramePayload := by
  obtain ⟨hk, hv⟩ := h
  simp only [encodePayload_length, Record.encodedSize, maxFramePayload]
  omega

theorem encodePayload_body (rec : Record) :
    (encodePayload rec).drop batchMetadataSize = rec.encodeBinary := by
  rw [encodePayload, ← List.cons_append]
  exact List.drop_left' (by simp [batchMetadataSize])

theorem decodeRecord_encodePayload {rec : Record} (h : rec.Fits) :
    decodeRecord (encodePayload rec) = .ok rec := by
  have hlen : ¬ (encodePayload rec).length < batchMetadataSize + headerSize := by
    simp only [encodePayload_length, Record.encodedSize]
    omega
  have hid : ofLE (((encodePayload rec).drop 1).take 8) = rec.batchID.toNat := by
    simp only [encodePayload, List.drop_succ_cons, List.drop_zero]
    rw [List.take_left' (toLE_length _ _)]
    exact ofLE_toLE_of_lt (by have := rec.batchID.toNat_lt; omega)
  have hdec := Record.decodeBinary_encodeBinary h []
  rw [List.append_nil] at hdec
  unfold decodeRecord
  rw [if_neg hlen]
  simp only [hid, encodePayload_body, hdec]
  simp [encodePayload, Record.plain, UInt64.ofNat_toNat]

/-! ### Frames -/

variable (crc : Bytes → UInt32)

def frameChecksum (length payload : Bytes) : UInt32 := crc (length ++ payload)

/-- The frame `WriteRecord` appends for a payload. -/
def encodeFrame (payload : Bytes) : Bytes :=
  let length := toLE 4 payload.length
  length ++ toLE 4 (frameChecksum crc length payload).toNat ++ payload

/-- The frame of a record. -/
def frame (rec : Record) : Bytes := encodeFrame crc (encodePayload rec)

/-- The frames of a list of records, in order. -/
def frames (recs : List Record) : Bytes := recs.flatMap (frame crc)

/-- The number of bytes the frame of `rec` takes. -/
def frameSize (rec : Record) : Nat := frameHeaderSize + (encodePayload rec).length

@[simp] theorem frame_length (rec : Record) : (frame crc rec).length = frameSize rec := by
  simp [frame, encodeFrame, frameSize, frameHeaderSize]
  omega

@[simp] theorem frames_nil : frames crc [] = [] := rfl

@[simp] theorem frames_cons (rec : Record) (recs : List Record) :
    frames crc (rec :: recs) = frame crc rec ++ frames crc recs := rfl

theorem frames_append (xs ys : List Record) :
    frames crc (xs ++ ys) = frames crc xs ++ frames crc ys := by
  simp [frames]

theorem frameHeaderSize_le_frameSize (rec : Record) : frameHeaderSize ≤ frameSize rec := by
  unfold frameSize
  omega

theorem frameSize_pos (rec : Record) : 0 < frameSize rec := by
  unfold frameSize frameHeaderSize
  omega

/-- Why replay calls a frame corrupt. -/
inductive FrameError
  | lengthExceedsMaximum (length : Nat)
  | checksumMismatch
  | decode (e : PayloadError)
  deriving Repr, DecidableEq

/-- What the replay loop finds at the front of the remaining bytes. -/
inductive FrameRead
  /-- The file ends on a frame boundary. -/
  | eof
  /-- The file ends inside a frame header or a payload. -/
  | torn
  | corrupt (e : FrameError)
  | record (rec : Record) (payloadLen : Nat) (rest : Bytes)
  deriving Repr, DecidableEq

/-- Read one frame off the front of `buf`. -/
def readFrame (buf : Bytes) : FrameRead :=
  if buf.length = 0 then .eof
  else if buf.length < frameHeaderSize then .torn
  else
    let payloadLen := ofLE (buf.take 4)
    let body := buf.drop frameHeaderSize
    if maxFramePayload < payloadLen then .corrupt (.lengthExceedsMaximum payloadLen)
    else if body.length < payloadLen then .torn
    else
      let payload := body.take payloadLen
      if ofLE ((buf.drop 4).take 4) ≠ (frameChecksum crc (buf.take 4) payload).toNat then
        .corrupt .checksumMismatch
      else
        match decodeRecord payload with
        | .error e => .corrupt (.decode e)
        | .ok rec => .record rec payloadLen (body.drop payloadLen)

section FrameBytes

variable (payload tail : Bytes)

theorem encodeFrame_append : encodeFrame crc payload ++ tail =
    toLE 4 payload.length ++
      (toLE 4 (frameChecksum crc (toLE 4 payload.length) payload).toNat ++ (payload ++ tail)) := by
  simp [encodeFrame, List.append_assoc]

theorem encodeFrame_take : (encodeFrame crc payload ++ tail).take 4 = toLE 4 payload.length := by
  rw [encodeFrame_append, List.take_left' (toLE_length _ _)]

theorem encodeFrame_checksum : ((encodeFrame crc payload ++ tail).drop 4).take 4 =
    toLE 4 (frameChecksum crc (toLE 4 payload.length) payload).toNat := by
  rw [encodeFrame_append, List.drop_left' (toLE_length _ _), List.take_left' (toLE_length _ _)]

theorem encodeFrame_drop :
    (encodeFrame crc payload ++ tail).drop frameHeaderSize = payload ++ tail := by
  rw [encodeFrame_append, ← List.append_assoc, List.drop_left' (by simp [frameHeaderSize])]

end FrameBytes

theorem payload_length_roundtrip {payload : Bytes} (h : payload.length ≤ maxFramePayload) :
    ofLE (toLE 4 payload.length) = payload.length := by
  apply ofLE_toLE_of_lt
  have : maxFramePayload < 256 ^ 4 := by decide
  omega

/-- A written frame reads back, and leaves the bytes behind it. -/
theorem readFrame_frame {rec : Record} (h : rec.Fits) (tail : Bytes) :
    readFrame crc (frame crc rec ++ tail) = .record rec (encodePayload rec).length tail := by
  have hle := encodePayload_le h
  have hlen : (frame crc rec ++ tail).length = frameSize rec + tail.length := by simp
  have hhdr : frameHeaderSize ≤ frameSize rec := frameHeaderSize_le_frameSize rec
  have hpos : 0 < frameSize rec := frameSize_pos rec
  have hsum : ofLE (toLE 4 (frameChecksum crc (toLE 4 (encodePayload rec).length)
      (encodePayload rec)).toNat) = (frameChecksum crc (toLE 4 (encodePayload rec).length)
      (encodePayload rec)).toNat :=
    ofLE_toLE_of_lt (UInt32.toNat_lt _)
  unfold readFrame
  rw [if_neg (by omega), if_neg (by omega)]
  unfold frame
  rw [encodeFrame_take, encodeFrame_drop, encodeFrame_checksum, payload_length_roundtrip hle, hsum]
  simp only [List.take_left', List.drop_left']
  rw [if_neg (by omega), if_neg (by simp), if_neg (by simp), decodeRecord_encodePayload h]

/-- A proper, non-empty prefix of a frame reads as a torn write. -/
theorem readFrame_torn {rec : Record} (h : rec.Fits) {n : Nat} (hpos : 0 < n)
    (hlt : n < frameSize rec) : readFrame crc ((frame crc rec).take n) = .torn := by
  have hlen : ((frame crc rec).take n).length = n := by
    rw [List.length_take, frame_length]
    omega
  unfold readFrame
  rw [if_neg (by omega)]
  by_cases hhdr : n < frameHeaderSize
  · rw [if_pos (by omega)]
  · -- the header is whole, so the length is the real one and the payload is short
    have htake : ((frame crc rec).take n).take 4 = toLE 4 (encodePayload rec).length := by
      rw [List.take_take, min_eq_left (by unfold frameHeaderSize at hhdr; omega)]
      have := encodeFrame_take crc (encodePayload rec) []
      rwa [List.append_nil] at this
    have hle := encodePayload_le h
    rw [if_neg (by omega), htake, payload_length_roundtrip hle]
    dsimp only
    rw [if_neg (by omega), if_pos]
    rw [List.length_drop, hlen]
    unfold frameSize at hlt
    omega

end HyphaDB.Wal
