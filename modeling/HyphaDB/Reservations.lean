import HyphaDB.Lib.Reserving
import HyphaDB.ManifestFile
import HyphaDB.Table.Bounds

/-!
# HyphaDB.Reservations

**Memory that is reserved for a count read from disk.** The three decoders of counted lists make
room for as many entries as the count says before they read the first one. Here each of them is
written once more, with the reservation as a step of its own; the outcome is the one of the
decoder (`outcome_decode`, `outcome_decodeLogicalBlock`, `outcome_decodeIndex`).

`manifest.decode` and the block cursor check the count against the bytes behind it first.
`decodeIndex` does not: the loop after the reservation finds out that the bytes are missing, so
the reservation is justified on the inputs it accepts (`index_accepted`) and on no more than
those that are long enough.
-/

namespace HyphaDB.Reservations

open Reserving Checked Table

/-! ### The decoders -/

/-- `decodeIndex`. -/
def decodeIndex (buf : Bytes) : Reserving (Stop IndexError) (List IndexEntry) := do
  let (countBuf, r) ← lift (readFull 4 buf)
  let count ← lift (readLE 4 countBuf)
  reserve count
  lift (decodeEntries count r)

theorem outcome_decodeIndex (buf : Bytes) :
    (decodeIndex buf).outcome = Table.decodeIndex buf := by
  unfold decodeIndex Table.decodeIndex
  simp only [outcome_bind, outcome_lift, outcome_reserve]
  rfl

/-- `decodeLogicalBlock`. -/
def decodeLogicalBlock (buf : Bytes) : Reserving (Stop BlockError) (List Record) := do
  let cursor ← lift (newLogicalBlockCursorForVersion buf currentFormatVersion)
  reserve cursor.count
  lift do
    let (recs, cursor) ← LogicalBlockCursor.records (cursor.count + 1) cursor
    match cursor.err with
    | some e => Checked.fail e
    | none => pure recs

theorem outcome_decodeLogicalBlock (buf : Bytes) :
    (decodeLogicalBlock buf).outcome = Table.decodeLogicalBlock buf := by
  unfold decodeLogicalBlock Table.decodeLogicalBlock
  simp only [outcome_bind, outcome_lift, outcome_reserve]
  rfl

namespace Manifest

open Codec ManifestFile

/-- `manifest.decode` on the payload, up to the checks of the table count. -/
def decodeCounts : Reader DecodeError (UInt64 × UInt64 × UInt32) := do
  let left ← remaining
  if left < manifestPayloadHeaderSize then fail .payloadTooSmall
  else do
    let nextSSTableID ← readUint64 fun bs => .read .nextSSTableID (shortRead bs)
    let nextWALSegmentID ← readUint64 fun bs => .read .nextWALSegmentID (shortRead bs)
    let tableCount ← readUint32 fun bs => .read .tableCount (shortRead bs)
    if maxSSTableCount < tableCount.toNat then fail (.tableCount tableCount.toNat)
    else do
      let left ← remaining
      if left < tableCount.toNat * sstableFixedSize then fail (.entriesFit tableCount.toNat left)
      else pure (nextSSTableID, nextWALSegmentID, tableCount)

/-- The rest of `manifest.decode`. -/
def decodeTables (counts : UInt64 × UInt64 × UInt32) :
    Reader DecodeError ManifestFile.Manifest := do
  let sstables ← many (fun i => mapError (.table i) decodeSSTableMetadata) 0 counts.2.2.toNat
  pure { nextSSTableID := counts.1, nextWALSegmentID := counts.2.1, sstables }

/-- `manifest.decode`. -/
def decode (checksum : Bytes → UInt32) (data : Bytes) :
    Reserving DecodeError ManifestFile.Manifest := do
  let payload ← lift (decodeHeader checksum data)
  let (counts, r) ← lift (decodeCounts payload)
  reserve counts.2.2.toNat
  lift (readAll .trailingBytes (decodeTables counts) r)

theorem decodePayload_eq : decodePayload = decodeCounts >>= decodeTables := by
  unfold decodePayload decodeCounts
  simp only [bind_assoc, fail_or_bind, pure_bind]
  rfl

theorem outcome_decode (checksum : Bytes → UInt32) (data : Bytes) :
    (decode checksum data).outcome = ManifestFile.decode checksum data := by
  unfold decode ManifestFile.decode
  simp only [outcome_bind, outcome_lift, outcome_reserve]
  cases decodeHeader checksum data with
  | error e => rfl
  | ok payload =>
      show decodeCounts payload >>= (fun p => readAll .trailingBytes (decodeTables p.1) p.2) =
        readAll .trailingBytes decodePayload payload
      rw [decodePayload_eq, readAll_bind]

/-- The check of the table count: what it accepts fits into the bytes that follow. -/
theorem decodeCounts_eq_ok {payload rest : Bytes} {counts : UInt64 × UInt64 × UInt32}
    (h : decodeCounts payload = .ok (counts, rest)) :
    manifestPayloadHeaderSize + counts.2.2.toNat * sstableFixedSize ≤ payload.length := by
  unfold decodeCounts at h
  rw [run_bind_of (show remaining payload = .ok (_, _) from rfl)] at h
  split at h
  · cases h
  obtain ⟨nextSSTableID, r₁, hid, h⟩ := Codec.bind_eq_ok h
  obtain ⟨nextWALSegmentID, r₂, hsegment, h⟩ := Codec.bind_eq_ok h
  obtain ⟨tableCount, r₃, hcount, h⟩ := Codec.bind_eq_ok h
  have hlen₁ := congrArg List.length ((exact_readUint64 _).canonical hid).2
  have hlen₂ := congrArg List.length ((exact_readUint64 _).canonical hsegment).2
  have hlen₃ := congrArg List.length ((exact_readUint32 _).canonical hcount).2
  rw [List.length_append, toLE_length] at hlen₁ hlen₂ hlen₃
  split at h
  · cases h
  rw [run_bind_of (show remaining r₃ = .ok (_, _) from rfl)] at h
  split at h
  · cases h
  rename_i hroom
  cases h
  show manifestPayloadHeaderSize + tableCount.toNat * sstableFixedSize ≤ payload.length
  unfold manifestPayloadHeaderSize
  omega

end Manifest

/-! ### What they reserve -/

/-- An entry takes 32 bytes of the manifest at least, which follow the 40 up to the count. -/
theorem within_decode (checksum : Bytes → UInt32) (data : Bytes) :
    (Manifest.decode checksum data).Within fun n => 40 + n * 32 ≤ data.length := by
  unfold Manifest.decode
  refine within_bind (within_lift _) fun payload hpayload => ?_
  refine within_bind (within_lift _) fun p hp => ?_
  obtain ⟨counts, r⟩ := p
  refine within_bind (within_reserve.mpr ?_) fun _ _ => within_lift _
  have hcounts := Manifest.decodeCounts_eq_ok hp
  have hdata := congrArg List.length (ManifestFile.decodeHeader_eq_ok_iff.mp hpayload).2
  rw [ManifestFile.fileBytes_length] at hdata
  unfold ManifestFile.manifestPayloadHeaderSize ManifestFile.sstableFixedSize at hcounts
  unfold ManifestFile.manifestHeaderSize at hdata
  show 40 + counts.2.2.toNat * 32 ≤ data.length
  omega

theorem readRestarts_recordsEnd {buf : Bytes} {count : Nat} {p : Nat × Nat × Bytes}
    (h : readRestarts buf count = .ok p) : p.1 ≤ buf.length := by
  unfold readRestarts at h
  split at h
  · cases h
  obtain ⟨last, -, h⟩ := Checked.bind_eq_ok h
  obtain ⟨field, -, h⟩ := Checked.bind_eq_ok h
  obtain ⟨restartCount, -, h⟩ := Checked.bind_eq_ok h
  obtain ⟨metadataSize, -, h⟩ := Checked.bind_eq_ok h
  obtain ⟨available, -, h⟩ := Checked.bind_eq_ok h
  split at h
  · cases h
  obtain ⟨recordsEnd, hend, h⟩ := Checked.bind_eq_ok h
  obtain ⟨tail, -, h⟩ := Checked.bind_eq_ok h
  obtain ⟨restartOffsets, -, h⟩ := Checked.bind_eq_ok h
  obtain ⟨field', -, h⟩ := Checked.bind_eq_ok h
  obtain ⟨restartInterval, -, h⟩ := Checked.bind_eq_ok h
  split at h
  · cases h
  obtain ⟨expectedRestarts, -, h⟩ := Checked.bind_eq_ok h
  split at h
  · cases h
  obtain ⟨-, -, h⟩ := Checked.bind_eq_ok h
  cases h
  have := sub_eq_ok hend
  show recordsEnd ≤ buf.length
  omega

/-- A block whose cursor opens has room for a header for each of its records. -/
theorem newLogicalBlockCursor_count {buf : Bytes} {formatVersion : UInt8}
    {cursor : LogicalBlockCursor}
    (h : newLogicalBlockCursorForVersion buf formatVersion = .ok cursor) :
    4 + cursor.count * 17 ≤ buf.length := by
  unfold newLogicalBlockCursorForVersion at h
  split at h
  · cases h
  obtain ⟨field, -, h⟩ := Checked.bind_eq_ok h
  obtain ⟨count, -, h⟩ := Checked.bind_eq_ok h
  obtain ⟨p, hp, h⟩ := Checked.bind_eq_ok h
  obtain ⟨recordsEnd, restartInterval, restartOffsets⟩ := p
  have hend : recordsEnd ≤ buf.length := by
    split at hp
    · cases hp
      exact le_rfl
    split at hp
    · exact readRestarts_recordsEnd hp
    · cases hp
  obtain ⟨remaining, hremaining, h⟩ := Checked.bind_eq_ok h
  split at h
  · cases h
  rename_i hcount
  cases h
  have hsub := sub_eq_ok hremaining
  have hle : count ≤ remaining / 17 := not_lt.mp hcount
  have hmul := (Nat.le_div_iff_mul_le (by decide)).mp hle
  show 4 + count * 17 ≤ buf.length
  omega

theorem within_decodeLogicalBlock (buf : Bytes) :
    (decodeLogicalBlock buf).Within fun n => 4 + n * 17 ≤ buf.length := by
  unfold decodeLogicalBlock
  refine within_bind (within_lift _) fun cursor hcursor => ?_
  exact within_bind (within_reserve.mpr (newLogicalBlockCursor_count hcursor)) fun _ _ =>
    within_lift _

/-- The one reservation of `decodeIndex` is for the number in the first four bytes. -/
theorem reserved_decodeIndex (buf : Bytes) :
    (decodeIndex buf).reserved = if buf.length < 4 then [] else [ofLE (buf.take 4)] := by
  unfold decodeIndex
  by_cases hlen : buf.length < 4
  · have hshort : ∃ e, readFull 4 buf = .error e := by
      unfold readFull
      rw [if_neg (by omega)]
      split
      · exact ⟨_, rfl⟩
      · exact ⟨_, rfl⟩
    obtain ⟨e, he⟩ := hshort
    rw [if_pos hlen, reserved_lift_bind_error he]
  · have hfull : readFull 4 buf = .ok (buf.take 4, buf.drop 4) := if_pos (by omega)
    have htake : (buf.take 4).length = 4 := by
      rw [List.length_take]
      omega
    have hread : (readLE 4 (buf.take 4) : Attempt IndexError Nat) = .ok (ofLE (buf.take 4)) := by
      rw [readLE_eq htake.ge, List.take_of_length_le htake.le]
    rw [if_neg hlen, reserved_lift_bind hfull]
    dsimp only
    rw [reserved_lift_bind hread, reserved_reserve_bind]
    rfl

theorem readFull_length {n : Nat} {r bytes rest : Bytes} (h : readFull n r = .ok (bytes, rest)) :
    n + rest.length = r.length := by
  unfold readFull at h
  split at h
  · cases h
    rw [List.length_drop]
    omega
  · split at h
    · cases h
    · cases h

/-- Every entry `decodeIndex` reads takes 16 bytes at least. -/
theorem decodeEntries_length {n : Nat} {r : Bytes} {entries : List IndexEntry}
    (h : decodeEntries n r = .ok entries) : n * 16 ≤ r.length := by
  induction n generalizing r entries with
  | zero => omega
  | succ n ih =>
      unfold decodeEntries at h
      obtain ⟨⟨header, r'⟩, hheader, h⟩ := Checked.bind_eq_ok h
      obtain ⟨field₁, -, h⟩ := Checked.bind_eq_ok h
      obtain ⟨keyLen, -, h⟩ := Checked.bind_eq_ok h
      obtain ⟨field₂, -, h⟩ := Checked.bind_eq_ok h
      obtain ⟨offset, -, h⟩ := Checked.bind_eq_ok h
      obtain ⟨field₃, -, h⟩ := Checked.bind_eq_ok h
      obtain ⟨length, -, h⟩ := Checked.bind_eq_ok h
      split at h
      · cases h
      obtain ⟨⟨key, r''⟩, hkey, h⟩ := Checked.bind_eq_ok h
      obtain ⟨index, hindex, h⟩ := Checked.bind_eq_ok h
      have hlen := readFull_length hheader
      have hlen' := readFull_length hkey
      have := ih hindex
      omega

/-- What `decodeIndex` accepts was worth the reservation. -/
theorem index_accepted {buf : Bytes} {entries : List IndexEntry}
    (h : Table.decodeIndex buf = .ok entries) :
    (decodeIndex buf).Within fun n => 4 + n * 16 ≤ buf.length := by
  unfold decodeIndex
  refine within_bind (within_lift _) fun p hp => ?_
  obtain ⟨countBuf, r⟩ := p
  refine within_bind (within_lift _) fun count hcount => ?_
  refine within_bind (within_reserve.mpr ?_) fun _ _ => within_lift _
  rw [outcome_lift] at hp hcount
  have hentries : decodeEntries count r = .ok entries := by
    unfold Table.decodeIndex at h
    rw [hp, ok_bind] at h
    dsimp only at h
    rwa [hcount, ok_bind] at h
  have := readFull_length hp
  have := decodeEntries_length hentries
  omega

/-- **When a reservation is justified.** The manifest decoder and the block decoder reserve no
more entries than the bytes behind the count can hold, on any input. `decodeIndex` does so exactly
on the inputs that are too short to have a count and on those with room for the entries; those it
accepts are among them. -/
theorem reservations_justified (checksum : Bytes → UInt32) :
    (∀ data, (Manifest.decode checksum data).Within fun n => 40 + n * 32 ≤ data.length) ∧
      (∀ buf, (decodeLogicalBlock buf).Within fun n => 4 + n * 17 ≤ buf.length) ∧
      (∀ buf formatVersion cursor,
        newLogicalBlockCursorForVersion buf formatVersion = .ok cursor →
          4 + cursor.count * 17 ≤ buf.length) ∧
      (∀ buf, ((decodeIndex buf).Within fun n => 4 + n * 16 ≤ buf.length) ↔
        buf.length < 4 ∨ 4 + ofLE (buf.take 4) * 16 ≤ buf.length) ∧
      ∀ buf entries, Table.decodeIndex buf = .ok entries →
        (decodeIndex buf).Within fun n => 4 + n * 16 ≤ buf.length := by
  refine ⟨within_decode checksum, within_decodeLogicalBlock,
    fun buf formatVersion cursor h => newLogicalBlockCursor_count h, fun buf => ?_,
    fun buf entries h => index_accepted h⟩
  unfold Within
  rw [reserved_decodeIndex]
  by_cases hlen : buf.length < 4
  · rw [if_pos hlen]
    exact ⟨fun _ => .inl hlen, fun _ n hn => (nomatch hn)⟩
  · rw [if_neg hlen]
    refine ⟨fun h => .inr (h _ List.mem_cons_self), fun h n hn => ?_⟩
    rw [List.mem_singleton.mp hn]
    exact h.resolve_left hlen

/-- One entry with an empty key. -/
theorem reservations_justified_entry :
    (decodeIndex ([1, 0, 0, 0] ++ List.replicate 16 0)).Within fun n => 4 + n * 16 ≤ 20 :=
  (reservations_justified fun _ => 0).2.2.2.2 _ [{ firstKey := [], offset := 0, length := 0 }]
    (by decide +kernel)

/-- Four bytes make `decodeIndex` reserve room for 4294967295 entries. -/
theorem index_reserves_unchecked :
    ¬ (decodeIndex [0xff, 0xff, 0xff, 0xff]).Within fun n =>
      4 + n * 16 ≤ ([0xff, 0xff, 0xff, 0xff] : Bytes).length := by
  intro h
  have hbound := h 4294967295 (by decide +kernel)
  exact absurd hbound (by decide)

end HyphaDB.Reservations
