import HyphaDB.Table.Bloom
import HyphaDB.Lib.Crc32c
import Mathlib.Data.List.DropRight

/-!
# HyphaDB.Table.Block

The **blocks** of an SSTable file (`internal/sstable/block.go`, `internal/compression`).

A physical block is a codec byte, the length of the logical block, the payload and a checksum
over all of it. A logical block is a record count, the records one after the other and, since
format version 3, the offsets of every `restartInterval`-th record, the interval and the number
of offsets. A `LogicalBlockCursor` walks the records; `seek` moves it by a binary search over the
restarts.

The reading side is written with the checked operations of `HyphaDB.Lib.Checked`: each slice,
each subtraction and each sum of the source that could leave its range is one of them. The
checksum, the hash and LZ4 are parameters (`Env`).
-/

namespace HyphaDB.Table

open Checked
open Record (headerSize maxKeySize maxValueSize flagDeleted)

/-- The block functions of the LZ4 library. -/
structure Lz4 where
  /-- `CompressBlock`; an empty result stands for a source that is not compressible. -/
  compressBlock : Bytes → Option Bytes
  /-- `UncompressBlock` into a destination of the given length; the bytes written. -/
  uncompressBlock : Bytes → Nat → Option Bytes

/-- Decompression inverts compression. -/
def Lz4.Inverts (lz4 : Lz4) : Prop :=
  ∀ src out, lz4.compressBlock src = some out → out ≠ [] →
    lz4.uncompressBlock out src.length = some src

/-- Decompression fails or keeps to its destination. -/
def Lz4.StaysWithin (lz4 : Lz4) : Prop :=
  ∀ src length out, lz4.uncompressBlock src length = some out → out.length ≤ length

/-- The libraries a table file depends on. -/
structure Env where
  crc : Bytes → UInt32
  hash128 : Bloom.Hash128
  lz4 : Lz4

/-- Libraries for examples: the real checksum, one hash for all keys, and an LZ4 that finds
nothing to compress. -/
def storingEnv : Env where
  crc := crc32c
  hash128 := fun _ => (0, 0)
  lz4 := { compressBlock := fun _ => some [], uncompressBlock := fun _ _ => none }

theorem storingEnv_inverts : storingEnv.lz4.Inverts := by
  intro src out hout hne
  cases hout
  exact absurd rfl hne

theorem storingEnv_staysWithin : storingEnv.lz4.StaysWithin := fun _ _ _ h => nomatch h

/-- The same libraries with an LZ4 that cuts off the zero bytes at the end. -/
def trimmingEnv : Env :=
  { storingEnv with
    lz4 :=
      { compressBlock := fun src => some (src.rdropWhile (· = 0))
        uncompressBlock := fun src length =>
          some (src ++ List.replicate (length - src.length) 0) } }

theorem trimmingEnv_inverts : trimmingEnv.lz4.Inverts := by
  intro src out hout _
  obtain rfl := Option.some.inj hout
  have hzeros : src.rtakeWhile (· = 0) = List.replicate (src.rtakeWhile (· = 0)).length 0 :=
    List.eq_replicate_iff.mpr ⟨rfl, fun b hb => by simpa using List.mem_rtakeWhile_imp hb⟩
  have hsplit : src.rdropWhile (· = 0) ++ src.rtakeWhile (· = 0) = src :=
    List.rdropWhile_append_rtakeWhile
  have hlen := congrArg List.length hsplit
  rw [List.length_append] at hlen
  show some (_ ++ List.replicate (src.length - _) 0) = some src
  rw [← hlen, Nat.add_sub_cancel_left, ← hzeros, hsplit]

/-! ### Compression -/

inductive Codec
  | none
  | lz4
  deriving Repr, DecidableEq

namespace Codec

def toByte : Codec → UInt8
  | none => 0
  | lz4 => 1

def ofByte? (b : UInt8) : Option Codec :=
  if b = 0 then some none
  else if b = 1 then some lz4
  else Option.none

@[simp] theorem ofByte?_toByte (codec : Codec) : ofByte? codec.toByte = some codec := by
  cases codec <;> rfl

end Codec

inductive CompressionError
  | lengthMismatch (length rawLen : Nat)
  | lz4Failed
  | lz4Length (length rawLen : Nat)
  | unknownType (code : UInt8)
  deriving Repr, DecidableEq

def compressLZ4 (lz4 : Lz4) (src : Bytes) : Except CompressionError Bytes :=
  if src.length = 0 then .ok src
  else
    match lz4.compressBlock src with
    | none => .error .lz4Failed
    | some dst => if dst.length = 0 then .ok src else .ok dst

def compress (env : Env) (src : Bytes) : Codec → Except CompressionError Bytes
  | .none => .ok src
  | .lz4 => compressLZ4 env.lz4 src

def decompressLZ4 (lz4 : Lz4) (src : Bytes) (rawLen : Nat) : Attempt CompressionError Bytes :=
  match lz4.uncompressBlock src rawLen with
  | none => fail .lz4Failed
  | some dst =>
      -- Bytes written behind the destination.
      if rawLen < dst.length then .error (.fault .outOfRange)
      else if dst.length ≠ rawLen then fail (.lz4Length dst.length rawLen)
      else pure dst

def decompress (env : Env) (src : Bytes) (rawLen : Nat) (code : UInt8) :
    Attempt CompressionError Bytes :=
  match Codec.ofByte? code with
  | some .none => do
      let length ← fits 32 src.length
      if length ≠ rawLen then fail (.lengthMismatch length rawLen) else pure src
  | some .lz4 => decompressLZ4 env.lz4 src rawLen
  | none => fail (.unknownType code)

/-! ### Physical blocks -/

def blockHeaderSize : Nat := 1 + 4
def blockTrailerSize : Nat := 4
/-- 256 MiB. -/
def maxBlockSize : Nat := 256 * 1024 * 1024

inductive BlockError
  | tooLarge (size : Nat)
  | compress (e : CompressionError)
  | tooSmall
  | checksumMismatch
  | rawLength (rawLen : Nat)
  | decompress (e : CompressionError)
  | missingCount
  | restartBlockTooSmall
  | restartMetadata
  | zeroRestartInterval
  | restartCount (restartCount count restartInterval : Nat)
  | restartOutside (offset : Nat)
  | firstRestart (offset : Nat)
  | restartsNotIncreasing
  | unsupportedVersion (version : UInt8)
  | recordCount (count remaining : Nat)
  | restartRecord (e : Record.DecodeError)
  | trailingBytes (count : Nat)
  | record (index : Nat) (e : Record.DecodeError)
  deriving Repr, DecidableEq

/-- A minimum savings rate, as far as the code uses it. -/
structure SavingsRate where
  /-- It lies in `[0, 1)`. -/
  inRange : Bool
  /-- What compressing so many bytes to so many saves reaches the rate. -/
  reached : Nat → Nat → Bool

def shouldCompress (rawSize compressedSize : Nat) (minSavingsRate : SavingsRate) : Bool :=
  if rawSize ≤ 0 ∨ rawSize ≤ compressedSize then false
  else minSavingsRate.reached rawSize compressedSize

/-- Header and payload of a physical block, which the checksum covers. -/
def checkedBytes (codec : Codec) (rawLen : Nat) (storedPayload : Bytes) : Bytes :=
  codec.toByte :: toLE 4 rawLen ++ storedPayload

def encodePhysicalBlock (env : Env) (logical : Bytes) (reqCodec : Codec)
    (minSavingsRate : SavingsRate) : Except BlockError Bytes :=
  if maxBlockSize < logical.length then .error (.tooLarge logical.length)
  else
    let stored : Except BlockError (Codec × Bytes) :=
      match reqCodec with
      | .none => .ok (.none, logical)
      | .lz4 =>
          match compress env logical .lz4 with
          | .error e => .error (.compress e)
          | .ok compressed =>
              if shouldCompress logical.length compressed.length minSavingsRate then
                .ok (.lz4, compressed)
              else .ok (.none, logical)
    match stored with
    | .error e => .error e
    | .ok (codec, storedPayload) =>
        let checked := checkedBytes codec logical.length storedPayload
        .ok (checked ++ toLE 4 (env.crc checked).toNat)

def decodePhysicalBlock (env : Env) (physical : Bytes) : Attempt BlockError Bytes :=
  if physical.length < blockHeaderSize + blockTrailerSize then fail .tooSmall
  else do
    let checksumOffset ← sub physical.length blockTrailerSize
    let wantChecksum ← readLE 4 (← slice physical checksumOffset physical.length)
    let gotChecksum := (env.crc (← slice physical 0 checksumOffset)).toNat
    if wantChecksum ≠ gotChecksum then fail .checksumMismatch
    else do
      let code ← get physical 0
      let rawLen ← readLE 4 (← slice physical 1 5)
      if maxBlockSize < rawLen then fail (.rawLength rawLen)
      else do
        let storedPayload ← slice physical blockHeaderSize checksumOffset
        mapError .decompress (decompress env storedPayload rawLen code)

/-! ### Records in a block -/

/-- `decodeRecordView`: the record at the front of `buf` and the bytes it takes. -/
def decodeRecordView (buf : Bytes) : Attempt Record.DecodeError (Record × Nat) :=
  if buf.length < headerSize then fail .unexpectedEOF
  else do
    let keyLen ← readLE 4 (← slice buf 0 4)
    let valueLen ← readLE 4 (← slice buf 4 8)
    let seq ← readLE 8 (← slice buf 8 16)
    let flags ← get buf 16
    if flags &&& ~~~flagDeleted ≠ 0 then fail (.unknownFlags flags)
    else if maxKeySize < keyLen then fail (.keyTooLong keyLen)
    else if maxValueSize < valueLen then fail (.valueTooLong valueLen)
    else do
      let payloadLen ← fits 64 (keyLen + valueLen)
      let remaining ← sub buf.length headerSize
      if remaining < payloadLen then fail (.payloadShort payloadLen remaining)
      else do
        let keyEnd ← fits 63 (headerSize + keyLen)
        let valueEnd ← fits 63 (keyEnd + valueLen)
        let key ← slice buf headerSize keyEnd
        let value ← (if 0 < valueLen then slice buf keyEnd valueEnd else pure [])
        pure
          ({ key
             seq := UInt64.ofNat seq
             value
             deleted := flags &&& flagDeleted ≠ 0 },
            valueEnd)

/-! ### Logical blocks -/

def legacyFormatVersion : UInt8 := 2
def currentFormatVersion : UInt8 := 3

/-- A place in a logical block. The zero cursor yields nothing. -/
structure LogicalBlockCursor where
  data : Bytes := []
  count : Nat := 0
  index : Nat := 0
  offset : Nat := 0
  recordsEnd : Nat := 0
  restartInterval : Nat := 0
  restartOffsets : Bytes := []
  err : Option BlockError := none
  deriving Repr, DecidableEq

/-- The loop over the restart offsets: inside the records, the first at 4, increasing. -/
def checkRestarts (restartOffsets : Bytes) (recordsEnd : Nat) :
    Nat → Nat → Nat → Attempt BlockError Unit
  | 0, _, _ => pure ()
  | left + 1, i, previous => do
      let start ← fits 32 (i * 4)
      let offset ← readLE 4 (← slice restartOffsets start restartOffsets.length)
      if offset < 4 ∨ recordsEnd ≤ offset then fail (.restartOutside offset)
      else if i = 0 ∧ offset ≠ 4 then fail (.firstRestart offset)
      else if 0 < i ∧ offset ≤ previous then fail .restartsNotIncreasing
      else checkRestarts restartOffsets recordsEnd left (i + 1) offset

/-- What a version 3 block says of its restarts: the end of the records, the interval and the
bytes of the offsets. -/
def readRestarts (buf : Bytes) (count : Nat) : Attempt BlockError (Nat × Nat × Bytes) :=
  if buf.length < 12 then fail .restartBlockTooSmall
  else do
    let restartCount ← readLE 4 (← slice buf (← sub buf.length 4) buf.length)
    let metadataSize ← fits 64 (restartCount * 4 + 8)
    let available ← sub buf.length 4
    if available < metadataSize then fail .restartMetadata
    else do
      let recordsEnd ← sub buf.length metadataSize
      let tail ← sub buf.length 8
      let restartOffsets ← slice buf recordsEnd tail
      let restartInterval ← readLE 4 (← slice buf tail available)
      if restartInterval = 0 then fail .zeroRestartInterval
      else do
        let expectedRestarts ←
          (if 0 < count then do
            let sum ← fits 64 (count + restartInterval)
            let rounded ← sub sum 1
            pure (rounded / restartInterval)
          else pure 0)
        if restartCount ≠ expectedRestarts then
          fail (.restartCount restartCount count restartInterval)
        else do
          checkRestarts restartOffsets recordsEnd restartCount 0 0
          pure (recordsEnd, restartInterval, restartOffsets)

def newLogicalBlockCursorForVersion (buf : Bytes) (formatVersion : UInt8) :
    Attempt BlockError LogicalBlockCursor :=
  if buf.length < 4 then fail .missingCount
  else do
    let count ← readLE 4 (← slice buf 0 4)
    let (recordsEnd, restartInterval, restartOffsets) ←
      (if formatVersion = legacyFormatVersion then pure (buf.length, 0, [])
      else if formatVersion = currentFormatVersion then readRestarts buf count
      else fail (.unsupportedVersion formatVersion))
    let remaining ← sub recordsEnd 4
    if remaining / headerSize < count then fail (.recordCount count remaining)
    else
      pure { data := buf, count, offset := 4, recordsEnd, restartInterval, restartOffsets }

namespace LogicalBlockCursor

def restartOffset {ε : Type} (c : LogicalBlockCursor) (index : Nat) : Attempt ε Nat := do
  let start ← fits 63 (index * 4)
  let stop ← fits 63 (start + 4)
  readLE 4 (← slice c.restartOffsets start stop)

/-- The question the binary search of `seek` asks of a restart. -/
def restartReached (c : LogicalBlockCursor) (key : Key) (i : Nat) :
    Attempt Record.DecodeError Bool := do
  let offset ← c.restartOffset i
  let (rec, _) ← decodeRecordView (← slice c.data offset c.recordsEnd)
  pure (key ≤ rec.key)

/-- Move to the last restart before the first record that reaches `key`. A failure is kept in
the cursor. -/
def seek {ε : Type} (c : LogicalBlockCursor) (key : Key) : Attempt ε LogicalBlockCursor :=
  if c.err.isSome ∨ c.restartOffsets.length = 0 then pure c
  else
    let restartCount := c.restartOffsets.length / 4
    handle (search restartCount (c.restartReached key))
      (fun e => pure { c with err := some (.restartRecord e) })
      fun found => do
        -- Step back by one restart, if there is one.
        let i ← (if found = restartCount then sub restartCount 1 else pure (found - 1))
        let offset ← c.restartOffset i
        let index ← fits 32 ((← fits 32 i) * c.restartInterval)
        pure { c with offset, index }

/-- The next record, if the block has one left. -/
def next {ε : Type} (c : LogicalBlockCursor) : Attempt ε (Option Record × LogicalBlockCursor) :=
  if c.err.isSome then pure (none, c)
  else if c.index = c.count then
    if c.offset ≠ c.recordsEnd then do
      let extra ← sub c.recordsEnd c.offset
      pure (none, { c with err := some (.trailingBytes extra) })
    else pure (none, c)
  else do
    let rest ← slice c.data c.offset c.recordsEnd
    handle (decodeRecordView rest)
      (fun e => pure (none, { c with err := some (.record c.index e) }))
      fun (rec, size) => do
        let offset ← fits 63 (c.offset + size)
        let index ← fits 32 (c.index + 1)
        pure (some rec, { c with offset, index })

/-- The loop of `decodeLogicalBlock`: the records until there are no more. -/
def records {ε : Type} : Nat → LogicalBlockCursor → Attempt ε (List Record × LogicalBlockCursor)
  | 0, _ => .error (.fault .endless)
  | fuel + 1, c => do
      let (rec?, c) ← c.next
      match rec? with
      | none => pure ([], c)
      | some rec => do
          let (recs, last) ← records fuel c
          pure (rec :: recs, last)

end LogicalBlockCursor

/-- `decodeLogicalBlock`. -/
def decodeLogicalBlock (buf : Bytes) : Attempt BlockError (List Record) := do
  let cursor ← newLogicalBlockCursorForVersion buf currentFormatVersion
  let (recs, cursor) ← LogicalBlockCursor.records (cursor.count + 1) cursor
  match cursor.err with
  | some e => fail e
  | none => pure recs

/-! ### Decoding a record -/

/-- The view decoder and the copying decoder of the log are one function: the same record and
the same number of bytes, or the same error. -/
theorem decodeRecordView_eq (buf : Bytes) :
    decodeRecordView buf =
      match Record.decodeBinary buf with
      | .ok (rec, rest) => .ok (rec, buf.length - rest.length)
      | .error e => .error (.failed e) := by
  unfold decodeRecordView Record.decodeBinary
  by_cases hlen : buf.length < headerSize
  · rw [if_pos hlen, if_pos hlen]
    rfl
  have hlen' : 17 ≤ buf.length := by unfold headerSize at hlen; omega
  have hslice : ∀ i j, i ≤ j → j ≤ 17 →
      (slice buf i j : Attempt Record.DecodeError Bytes) = .ok ((buf.drop i).take (j - i)) :=
    fun i j hij hj => slice_eq hij (by omega)
  have hread : ∀ w bs, List.length bs = w →
      (readLE w bs : Attempt Record.DecodeError Nat) = .ok (ofLE bs) := by
    intro w bs h
    rw [readLE_eq (by omega), List.take_of_length_le (by omega)]
  have hflags : buf[16]? = some ((buf.drop 16).headD 0) := by
    rw [List.getElem?_eq_getElem (by omega), List.drop_eq_getElem_cons (by omega)]
    rfl
  have hk : ofLE (buf.take 4) < 256 ^ 4 := by
    have := ofLE_lt (buf.take 4)
    rwa [List.length_take, Nat.min_eq_left (by omega)] at this
  have hv : ofLE ((buf.drop 4).take 4) < 256 ^ 4 := by
    have := ofLE_lt ((buf.drop 4).take 4)
    rwa [List.length_take, List.length_drop, Nat.min_eq_left (by omega)] at this
  have hbody : (buf.drop headerSize).length = buf.length - headerSize := List.length_drop
  rw [if_neg hlen, if_neg hlen, hslice 0 4 (by omega) (by omega), ok_bind, List.drop_zero,
    hread 4 _ (by rw [List.length_take]; omega), ok_bind, hslice 4 8 (by omega) (by omega), ok_bind,
    hread 4 _ (by rw [List.length_take, List.length_drop]; omega), ok_bind,
    hslice 8 16 (by omega) (by omega), ok_bind,
    hread 8 _ (by rw [List.length_take, List.length_drop]; omega), ok_bind, get_eq hflags, ok_bind]
  dsimp only
  rw [hbody]
  generalize ofLE (buf.take 4) = keyLen at hk
  generalize ofLE ((buf.drop 4).take (8 - 4)) = valueLen at hv
  by_cases hf : (buf.drop 16).headD 0 &&& ~~~flagDeleted ≠ 0
  · rw [if_pos hf, if_pos hf]
    rfl
  rw [if_neg hf, if_neg hf]
  by_cases hkey : maxKeySize < keyLen
  · rw [if_pos hkey, if_pos hkey]
    rfl
  rw [if_neg hkey, if_neg hkey]
  by_cases hval : maxValueSize < valueLen
  · rw [if_pos hval, if_pos hval]
    rfl
  rw [if_neg hval, if_neg hval, fits_eq (by omega), ok_bind, sub_eq (by omega), ok_bind]
  by_cases hshort : buf.length - headerSize < keyLen + valueLen
  · rw [if_pos hshort, if_pos hshort]
    rfl
  rw [if_neg hshort, if_neg hshort]
  have hkeyEnd : headerSize + keyLen + valueLen ≤ buf.length := by unfold headerSize at *; omega
  have hkeyBytes : (slice buf headerSize (headerSize + keyLen) : Attempt Record.DecodeError Bytes) =
      .ok ((buf.drop headerSize).take keyLen) := by
    rw [slice_eq (by omega) (by omega), Nat.add_sub_cancel_left]
  have hvalueBytes : (if 0 < valueLen then
        slice buf (headerSize + keyLen) (headerSize + keyLen + valueLen)
      else pure [] : Attempt Record.DecodeError Bytes) =
      .ok (((buf.drop headerSize).drop keyLen).take valueLen) := by
    by_cases hpos : 0 < valueLen
    · rw [if_pos hpos, slice_eq (by omega) hkeyEnd, Nat.add_sub_cancel_left, List.drop_drop]
    · rw [if_neg hpos, show valueLen = 0 by omega, List.take_zero]
      rfl
  have hsize : (buf.drop headerSize).drop (keyLen + valueLen) =
      buf.drop (headerSize + keyLen + valueLen) := by
    rw [List.drop_drop, Nat.add_assoc]
  rw [fits_eq (by unfold headerSize; omega), ok_bind, fits_eq (by unfold headerSize; omega),
    ok_bind, hkeyBytes, ok_bind, hvalueBytes, ok_bind, hsize]
  have hrest : buf.length - (buf.drop (headerSize + keyLen + valueLen)).length =
      headerSize + keyLen + valueLen := by
    rw [List.length_drop]
    omega
  dsimp only
  rw [hrest]
  rfl

/-- A record reads back from the front of what follows it. -/
theorem decodeRecordView_encodeBinary {rec : Record} (h : rec.Fits) (tail : Bytes) :
    decodeRecordView (rec.encodeBinary ++ tail) = .ok (rec.plain, rec.encodedSize) := by
  rw [decodeRecordView_eq, Record.decodeBinary_encodeBinary h]
  simp

/-- **The two record decoders agree**: on any bytes, and whether or not the reader can tell its
length, both fail or both give the same record and consume the same bytes. What `EncodeBinary`
wrote is read back by both, whatever follows it. -/
theorem record_decoders_agree (hasLen : Bool) :
    (∀ buf : Bytes,
      (∃ e e', decodeRecordView buf = .error (.failed e) ∧
        Record.Reader.decodeBinary ⟨buf, hasLen⟩ = .error e') ∨
      ∃ rec n, n ≤ buf.length ∧ decodeRecordView buf = .ok (rec, n) ∧
        Record.Reader.decodeBinary ⟨buf, hasLen⟩ = .ok (rec, ⟨buf.drop n, hasLen⟩)) ∧
      ∀ (rec : Record) (tail : Bytes), rec.key.length ≤ maxKeySize →
        rec.value.length ≤ maxValueSize →
        decodeRecordView (rec.encodeBinary ++ tail) = .ok (rec.plain, rec.encodedSize) ∧
        Record.Reader.decodeBinary ⟨rec.encodeBinary ++ tail, hasLen⟩ =
          .ok (rec.plain, ⟨tail, hasLen⟩) ∧
        (rec.encodeBinary ++ tail).length = rec.encodedSize + tail.length := by
  refine ⟨fun buf => ?_, fun rec tail hkey hvalue => ⟨?_, ?_, ?_⟩⟩
  · have hview := decodeRecordView_eq buf
    have hreader := Record.Reader.decodeBinary_eq ⟨buf, hasLen⟩
    cases h : Record.decodeBinary buf with
    | error e =>
        rw [h] at hview
        dsimp only at hreader
        rw [h] at hreader
        obtain ⟨e', he'⟩ := hreader
        exact .inl ⟨e, e', hview, he'⟩
    | ok p =>
        obtain ⟨rec, rest⟩ := p
        rw [h] at hview
        dsimp only at hreader
        rw [h] at hreader
        obtain ⟨n, -, hle, rfl⟩ := Record.decodeBinary_consumes h
        dsimp only at hview
        rw [List.length_drop, Nat.sub_sub_self hle] at hview
        exact .inr ⟨rec, n, hle, hview, hreader⟩
  · exact decodeRecordView_encodeBinary ⟨hkey, hvalue⟩ tail
  · have hreader := Record.Reader.decodeBinary_eq ⟨rec.encodeBinary ++ tail, hasLen⟩
    dsimp only at hreader
    rwa [Record.decodeBinary_encodeBinary ⟨hkey, hvalue⟩] at hreader
  · rw [List.length_append, Record.encodeBinary_length]

theorem record_decoders_agree_pair :
    decodeRecordView ((Record.encodeBinary { key := [1], value := [2], seq := 7 }) ++ [9]) =
        .ok ({ key := [1], value := [2], seq := 7 }, 19) ∧
      Record.Reader.decodeBinary
          ⟨(Record.encodeBinary { key := [1], value := [2], seq := 7 }) ++ [9], false⟩ =
        .ok ({ key := [1], value := [2], seq := 7 }, ⟨[9], false⟩) :=
  have h := (record_decoders_agree false).2 { key := [1], value := [2], seq := 7 } [9]
    (by decide) (by decide)
  ⟨h.1, h.2.1⟩

/-- Decoding stays in bounds, and a record takes at least its header and at most what there is. -/
theorem gives_decodeRecordView (buf : Bytes) :
    Gives (decodeRecordView buf) fun p => headerSize ≤ p.2 ∧ p.2 ≤ buf.length := by
  rw [decodeRecordView_eq]
  cases h : Record.decodeBinary buf with
  | error e => trivial
  | ok p =>
      obtain ⟨rec, rest⟩ := p
      have hlen := Record.decodeBinary_length h
      show headerSize ≤ buf.length - rest.length ∧ buf.length - rest.length ≤ buf.length
      omega

end HyphaDB.Table
