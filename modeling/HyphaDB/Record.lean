import HyphaDB.Lib.MachineInt
import HyphaDB.Lib.LittleEndian
import Mathlib.Tactic.Ring

/-!
# HyphaDB.Record

The record type of `internal/record` and its **binary codec**.

Keys are Go strings: byte strings in byte order, which is the lexicographic order of
`List UInt8`. A value is a byte slice; Go's `nil` and empty slices hold the same bytes
and are one value here.

`decodeBinary` reads from a `bytes.Reader`, the only reader the WAL gives it: it takes
the bytes that remain and returns the record with the bytes left over. `Reader.decodeBinary` is
the same function over any `io.Reader`, and it makes the same decisions
(`Reader.decodeBinary_eq`).
-/

namespace HyphaDB

abbrev Bytes := List UInt8

/-- A key, ordered bytewise. -/
abbrev Key := Bytes

/-- The role of a WAL frame in a batch (`record.BatchKind`). -/
inductive BatchKind
  | none
  | begin
  | operation
  | commit
  deriving Repr, DecidableEq

namespace BatchKind

def toByte : BatchKind → UInt8
  | none => 0
  | begin => 1
  | operation => 2
  | commit => 3

/-- The kind a stored byte names; bytes above `BatchCommit` name none. -/
def ofByte? (b : UInt8) : Option BatchKind :=
  if b = 0 then some none
  else if b = 1 then some begin
  else if b = 2 then some operation
  else if b = 3 then some commit
  else Option.none

@[simp] theorem ofByte?_toByte (k : BatchKind) : ofByte? k.toByte = some k := by
  cases k <;> rfl

end BatchKind

/-- The payload of a version: its value, or a tombstone. -/
structure Entry where
  value : Bytes := []
  deleted : Bool := false
  deriving Repr, DecidableEq

/-- One version of a key. `batchID` and `batchKind` are set only inside WAL frames. -/
structure Record extends Entry where
  key : Key := []
  seq : UInt64 := 0
  batchID : UInt64 := 0
  batchKind : BatchKind := .none
  deriving Repr, DecidableEq

namespace Record

def flagDeleted : UInt8 := 1

/-- 4 bytes key length, 4 bytes value length, 8 bytes sequence, 1 byte flags. -/
def headerSize : Nat := 4 + 4 + 8 + 1

def maxKeySize : Nat := 64 * 1024
def maxValueSize : Nat := 64 * 1024 * 1024

def encodedSize (rec : Record) : Nat :=
  headerSize + rec.key.length + rec.value.length

def encodeFlags (rec : Record) : UInt8 :=
  if rec.deleted then flagDeleted else 0

/-- The 17 header bytes of a record. -/
def encodeHeader (rec : Record) : Bytes :=
  toLE 4 rec.key.length ++ toLE 4 rec.value.length ++ toLE 8 rec.seq.toNat ++ [rec.encodeFlags]

def encodeBinary (rec : Record) : Bytes :=
  rec.encodeHeader ++ rec.key ++ rec.value

/-- Why a record could not be read. -/
inductive DecodeError
  | unexpectedEOF
  | unknownFlags (flags : UInt8)
  | keyTooLong (length : Nat)
  | valueTooLong (length : Nat)
  | payloadShort (required remaining : Nat)
  deriving Repr, DecidableEq

/-- Read one record off the front of `buf`. -/
def decodeBinary (buf : Bytes) : Except DecodeError (Record × Bytes) :=
  if buf.length < headerSize then .error .unexpectedEOF
  else
    let keyLen := ofLE (buf.take 4)
    let valueLen := ofLE ((buf.drop 4).take 4)
    let seq := ofLE ((buf.drop 8).take 8)
    let flags := (buf.drop 16).headD 0
    let body := buf.drop headerSize
    -- any bit besides the tombstone flag is rejected
    if flags &&& ~~~flagDeleted ≠ 0 then .error (.unknownFlags flags)
    else if maxKeySize < keyLen then .error (.keyTooLong keyLen)
    else if maxValueSize < valueLen then .error (.valueTooLong valueLen)
    else if body.length < keyLen + valueLen then
      .error (.payloadShort (keyLen + valueLen) body.length)
    else
      .ok
        ({ key := body.take keyLen
           seq := UInt64.ofNat seq
           value := (body.drop keyLen).take valueLen
           deleted := flags &&& flagDeleted ≠ 0 },
          body.drop (keyLen + valueLen))

/-- An `io.Reader` over bytes in memory; `hasLen` says that it can tell how many are left
(`remainingReader`). -/
structure Reader where
  bytes : Bytes
  hasLen : Bool
  deriving Repr, DecidableEq

/-- Why `DecodeBinary` failed: `io.EOF` before the first byte, or as above. -/
inductive ReadError
  | eof
  | record (e : DecodeError)
  deriving Repr, DecidableEq

/-- `io.ReadFull` of `n` bytes. -/
def Reader.readFull (n : Nat) (r : Reader) : Except ReadError (Bytes × Reader) :=
  if n ≤ r.bytes.length then .ok (r.bytes.take n, { r with bytes := r.bytes.drop n })
  else if r.bytes = [] then .error .eof
  else .error (.record .unexpectedEOF)

/-- `DecodeBinary` over any reader. The check of the remaining length is only made where the
reader has one; without it a short payload shows when it is read. -/
def Reader.decodeBinary (r : Reader) : Except ReadError (Record × Reader) := do
  let (header, r) ← r.readFull headerSize
  let keyLen := ofLE (header.take 4)
  let valueLen := ofLE ((header.drop 4).take 4)
  let seq := ofLE ((header.drop 8).take 8)
  let flags := (header.drop 16).headD 0
  if flags &&& ~~~flagDeleted ≠ 0 then .error (.record (.unknownFlags flags))
  else if maxKeySize < keyLen then .error (.record (.keyTooLong keyLen))
  else if maxValueSize < valueLen then .error (.record (.valueTooLong valueLen))
  else if r.hasLen = true ∧ r.bytes.length < keyLen + valueLen then
    .error (.record (.payloadShort (keyLen + valueLen) r.bytes.length))
  else do
    let (key, r) ← r.readFull keyLen
    let (value, r) ← r.readFull valueLen
    .ok ({ key, seq := UInt64.ofNat seq, value, deleted := flags &&& flagDeleted ≠ 0 }, r)

/-- A record within the size limits of the format. -/
def Fits (rec : Record) : Prop :=
  rec.key.length ≤ maxKeySize ∧ rec.value.length ≤ maxValueSize

instance (rec : Record) : Decidable rec.Fits := inferInstanceAs (Decidable (_ ∧ _))

/-- The record without its WAL framing, as a memtable holds it. -/
def plain (rec : Record) : Record :=
  { rec with batchID := 0, batchKind := .none }

@[simp] theorem encodeHeader_length (rec : Record) : rec.encodeHeader.length = headerSize := by
  simp [encodeHeader, headerSize]

@[simp] theorem encodeBinary_length (rec : Record) :
    rec.encodeBinary.length = rec.encodedSize := by
  simp [encodeBinary, encodedSize]
  omega

/-! ### The codec is a round trip -/

section Header

variable (rec : Record) (tail : Bytes)

theorem header_append : rec.encodeHeader ++ tail =
    toLE 4 rec.key.length ++ (toLE 4 rec.value.length ++
      (toLE 8 rec.seq.toNat ++ (rec.encodeFlags :: tail))) := by
  simp [encodeHeader, List.append_assoc]

theorem header_keyLen : ((rec.encodeHeader ++ tail).take 4) = toLE 4 rec.key.length := by
  rw [header_append, List.take_left' (toLE_length _ _)]

theorem header_valueLen :
    (((rec.encodeHeader ++ tail).drop 4).take 4) = toLE 4 rec.value.length := by
  rw [header_append, List.drop_left' (toLE_length _ _), List.take_left' (toLE_length _ _)]

theorem header_seq : (((rec.encodeHeader ++ tail).drop 8).take 8) = toLE 8 rec.seq.toNat := by
  rw [header_append, ← List.append_assoc, List.drop_left' (by simp),
    List.take_left' (toLE_length _ _)]

theorem header_flags : ((rec.encodeHeader ++ tail).drop 16).headD 0 = rec.encodeFlags := by
  rw [header_append, ← List.append_assoc, ← List.append_assoc, List.drop_left' (by simp)]
  rfl

theorem header_body : (rec.encodeHeader ++ tail).drop headerSize = tail := by
  rw [← encodeHeader_length rec, List.drop_left]

end Header

theorem encodeFlags_known (rec : Record) : rec.encodeFlags &&& ~~~flagDeleted = 0 := by
  unfold encodeFlags
  cases rec.deleted <;> decide

theorem encodeFlags_deleted (rec : Record) :
    decide (rec.encodeFlags &&& flagDeleted ≠ 0) = rec.deleted := by
  unfold encodeFlags
  cases rec.deleted <;> decide

/-- Decoding what `encodeBinary` wrote gives the record back, without its WAL framing,
and leaves exactly the bytes after it. -/
theorem decodeBinary_encodeBinary {rec : Record} (h : rec.Fits) (tail : Bytes) :
    decodeBinary (rec.encodeBinary ++ tail) = .ok (rec.plain, tail) := by
  obtain ⟨hk, hv⟩ := h
  have hk32 : ofLE (toLE 4 rec.key.length) = rec.key.length :=
    ofLE_toLE_of_lt (by unfold maxKeySize at hk; omega)
  have hv32 : ofLE (toLE 4 rec.value.length) = rec.value.length :=
    ofLE_toLE_of_lt (by unfold maxValueSize at hv; omega)
  have hs64 : ofLE (toLE 8 rec.seq.toNat) = rec.seq.toNat :=
    ofLE_toLE_of_lt (by have := rec.seq.toNat_lt; omega)
  have hlen : ¬ (rec.encodeBinary ++ tail).length < headerSize := by
    simp only [List.length_append, encodeBinary_length, encodedSize]
    omega
  have hsplit :
      rec.encodeBinary ++ tail = rec.encodeHeader ++ (rec.key ++ (rec.value ++ tail)) := by
    simp [encodeBinary, List.append_assoc]
  unfold decodeBinary
  rw [if_neg hlen, hsplit, header_keyLen, header_valueLen, header_seq, header_flags, header_body,
    hk32, hv32, hs64]
  simp only [encodeFlags_known, encodeFlags_deleted]
  rw [if_neg (by simp), if_neg (by omega), if_neg (by omega), if_neg (by simp)]
  simp [plain, List.drop_append, UInt64.ofNat_toNat]

/-- Whatever decodes starts with a complete header whose lengths account for what is consumed;
the bytes left over are the end of the buffer. -/
theorem decodeBinary_consumes {buf : Bytes} {rec : Record} {rest : Bytes}
    (h : decodeBinary buf = .ok (rec, rest)) :
    ∃ n, n = headerSize + (ofLE (buf.take 4) + ofLE ((buf.drop 4).take 4)) ∧ n ≤ buf.length ∧
      rest = buf.drop n := by
  unfold decodeBinary at h
  split at h
  · cases h
  · rename_i hlen
    dsimp only at h
    split at h
    · cases h
    split at h
    · cases h
    split at h
    · cases h
    split at h
    · cases h
    · rename_i hbody
      cases h
      rw [List.length_drop] at hbody
      exact ⟨_, rfl, by omega, List.drop_drop⟩

theorem decodeBinary_length {buf : Bytes} {rec : Record} {rest : Bytes}
    (h : decodeBinary buf = .ok (rec, rest)) :
    buf.length = headerSize + (ofLE (buf.take 4) + ofLE ((buf.drop 4).take 4)) + rest.length := by
  obtain ⟨n, hn, hle, rfl⟩ := decodeBinary_consumes h
  rw [List.length_drop]
  omega

/-! ### Other readers -/

theorem Reader.readFull_eq {n : Nat} {r : Reader} (h : n ≤ r.bytes.length) :
    r.readFull n = .ok (r.bytes.take n, { r with bytes := r.bytes.drop n }) :=
  if_pos h

theorem Reader.readFull_short {n : Nat} {r : Reader} (h : r.bytes.length < n) :
    ∃ e, r.readFull n = .error e := by
  unfold Reader.readFull
  rw [if_neg (by omega)]
  split
  · exact ⟨_, rfl⟩
  · exact ⟨_, rfl⟩

/-- Key and value read one after the other: the reader runs out in one of them when the payload
is short. -/
theorem Reader.readPayload_short {α : Type} {r : Reader} {keyLen valueLen : Nat}
    (h : r.bytes.length < keyLen + valueLen) (k : Bytes × Reader → Bytes × Reader → α) :
    ∃ e, (do
      let key ← r.readFull keyLen
      let value ← key.2.readFull valueLen
      .ok (k key value) : Except ReadError α) = .error e := by
  by_cases hkey : r.bytes.length < keyLen
  · obtain ⟨e, he⟩ := readFull_short hkey
    exact ⟨e, by rw [he]; rfl⟩
  · have hvalue : (r.bytes.drop keyLen).length < valueLen := by
      rw [List.length_drop]
      omega
    obtain ⟨e, he⟩ := readFull_short (r := { r with bytes := r.bytes.drop keyLen }) hvalue
    refine ⟨e, ?_⟩
    rw [readFull_eq (by omega)]
    show (do
      let value ← Reader.readFull valueLen { r with bytes := r.bytes.drop keyLen }
      .ok (k _ value) : Except ReadError α) = _
    rw [he]
    rfl

/-- The reader that cannot tell its length makes the same decisions: `DecodeBinary` gives the
same record and leaves the same bytes, or fails as well. -/
theorem Reader.decodeBinary_eq (r : Reader) :
    match Record.decodeBinary r.bytes with
    | .ok (rec, rest) => r.decodeBinary = .ok (rec, { r with bytes := rest })
    | .error _ => ∃ e, r.decodeBinary = .error e := by
  obtain ⟨buf, hasLen⟩ := r
  by_cases hlen : buf.length < headerSize
  · obtain ⟨e, he⟩ := readFull_short (r := ⟨buf, hasLen⟩) hlen
    have hbuf : Record.decodeBinary buf = .error .unexpectedEOF := if_pos hlen
    rw [hbuf]
    refine ⟨e, ?_⟩
    unfold Reader.decodeBinary
    rw [he]
    rfl
  have hfour : (buf.take headerSize).take 4 = buf.take 4 := by
    rw [List.take_take]
    rfl
  have hfield : ∀ i n, i + n ≤ headerSize →
      ((buf.take headerSize).drop i).take n = (buf.drop i).take n := by
    intro i n h
    rw [List.drop_take, List.take_take, Nat.min_eq_left (by omega)]
  have hflags : ((buf.take headerSize).drop 16).headD 0 = (buf.drop 16).headD 0 := by
    have hone := hfield 16 1 (by decide)
    have hfront : ∀ bs : Bytes, (bs.take 1).headD 0 = bs.headD 0 := fun bs => by cases bs <;> rfl
    rw [← hfront, hone, hfront]
  unfold Reader.decodeBinary Record.decodeBinary
  rw [if_neg hlen, readFull_eq (show headerSize ≤ buf.length by omega)]
  dsimp only [bind, Except.bind]
  rw [hfour, hfield 4 4 (by decide), hfield 8 8 (by decide), hflags]
  generalize ofLE (buf.take 4) = keyLen
  generalize ofLE ((buf.drop 4).take 4) = valueLen
  by_cases hf : (buf.drop 16).headD 0 &&& ~~~flagDeleted ≠ 0
  · rw [if_pos hf, if_pos hf]
    exact ⟨_, rfl⟩
  rw [if_neg hf, if_neg hf]
  by_cases hkey : maxKeySize < keyLen
  · rw [if_pos hkey, if_pos hkey]
    exact ⟨_, rfl⟩
  rw [if_neg hkey, if_neg hkey]
  by_cases hval : maxValueSize < valueLen
  · rw [if_pos hval, if_pos hval]
    exact ⟨_, rfl⟩
  rw [if_neg hval, if_neg hval]
  by_cases hshort : (buf.drop headerSize).length < keyLen + valueLen
  · rw [if_pos hshort]
    show ∃ e, _
    split
    · exact ⟨_, rfl⟩
    · exact readPayload_short (r := ⟨buf.drop headerSize, hasLen⟩) hshort _
  · rw [if_neg hshort, if_neg (fun h => hshort h.2), readFull_eq (show keyLen ≤ _ by
      show keyLen ≤ (buf.drop headerSize).length
      omega)]
    dsimp only
    rw [readFull_eq (show valueLen ≤ _ by
      show valueLen ≤ ((buf.drop headerSize).drop keyLen).length
      rw [List.length_drop]
      omega)]
    have hrest : ((buf.drop headerSize).drop keyLen).drop valueLen =
        (buf.drop headerSize).drop (keyLen + valueLen) := List.drop_drop
    dsimp only
    rw [hrest]

end Record

end HyphaDB
