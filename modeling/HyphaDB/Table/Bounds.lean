import HyphaDB.Table.Writer

/-!
# HyphaDB.Table.Bounds

**Reading an arbitrary file stays in bounds and ends.**

Each function of the reading side gets one lemma: it does not fault, and what it gives satisfies
an invariant that the functions after it rely on. For a cursor the invariant is
`LogicalBlockCursor.Sound`: the offset is inside the records, the index does not pass the count,
and every restart, wherever it points to, leads to such a place again. For an iterator it is
`Iterator.Sound`, with `Iterator.remaining` as a bound on the records still to come.
-/

namespace HyphaDB.Table

open Checked
open Record (headerSize)

/-! ### Physical blocks -/

theorem gives_decompress {env : Env} (h : env.lz4.StaysWithin) {src : Bytes}
    (hsrc : src.length < 2 ^ 32) (rawLen : Nat) (code : UInt8) :
    Gives (decompress env src rawLen code) fun dst => dst.length = rawLen := by
  unfold decompress
  split
  · refine gives_bind (gives_fits hsrc) fun length hlength => ?_
    refine gives_ite (fun _ => trivial) fun heq => gives_pure ?_
    omega
  · unfold decompressLZ4
    split
    · trivial
    · rename_i dst hdst
      rw [if_neg (by have := h _ _ _ hdst; omega)]
      exact gives_ite (fun _ => trivial) fun heq => gives_pure (not_not.mp heq)
  · trivial

theorem gives_decodePhysicalBlock {env : Env} (h : env.lz4.StaysWithin) {physical : Bytes}
    (hlen : physical.length ≤ maxStoredBlockSize) :
    Gives (decodePhysicalBlock env physical) fun logical => logical.length ≤ maxBlockSize := by
  unfold decodePhysicalBlock
  unfold maxStoredBlockSize maxBlockSize blockHeaderSize blockTrailerSize at *
  refine gives_ite (fun _ => trivial) fun hsmall => ?_
  refine gives_bind (gives_sub (by omega)) fun checksumOffset hoffset => ?_
  refine gives_bind (gives_slice_length (by omega) le_rfl) fun trailer htrailer => ?_
  refine gives_bind (gives_readLE (by omega)) fun wantChecksum _ => ?_
  refine gives_bind (gives_slice_length (by omega) (by omega)) fun body _ => ?_
  refine gives_ite (fun _ => trivial) fun _ => ?_
  refine gives_bind (gives_get (by omega)) fun code _ => ?_
  refine gives_bind (gives_slice_length (by omega) (by omega)) fun field hfield => ?_
  refine gives_bind (gives_readLE (by omega)) fun rawLen _ => ?_
  refine gives_ite (fun _ => trivial) fun hraw => ?_
  refine gives_bind (gives_slice_length (by omega) (by omega)) fun storedPayload hstored => ?_
  refine gives_mapError (gives_mono (gives_decompress h (by omega) rawLen code) ?_)
  intro dst hdst
  omega

/-! ### Cursors -/

/-- The restart offset at place `i`. -/
def restartAt (restartOffsets : Bytes) (i : Nat) : Nat :=
  ofLE ((restartOffsets.drop (i * 4)).take 4)

/-- A cursor that stays in its block, also after a jump to any of its restarts. -/
structure LogicalBlockCursor.Sound (c : LogicalBlockCursor) : Prop where
  data_le : c.data.length ≤ maxBlockSize
  end_le : c.recordsEnd ≤ c.data.length
  offset_le : c.offset ≤ c.recordsEnd
  index_le : c.index ≤ c.count
  count_lt : c.count < 2 ^ 32
  restarts_le : c.restartOffsets.length ≤ c.data.length
  restarts_whole : c.restartOffsets.length % 4 = 0
  restart_offset : ∀ i, i * 4 < c.restartOffsets.length →
    restartAt c.restartOffsets i ≤ c.recordsEnd
  restart_index : ∀ i, i * 4 < c.restartOffsets.length → i * c.restartInterval ≤ c.count

/-- The zero cursor of a new iterator. -/
theorem sound_zero : ({} : LogicalBlockCursor).Sound where
  data_le := by decide
  end_le := le_rfl
  offset_le := le_rfl
  index_le := le_rfl
  count_lt := by decide
  restarts_le := le_rfl
  restarts_whole := rfl
  restart_offset := fun i hi => absurd hi (Nat.not_lt_zero _)
  restart_index := fun i hi => absurd hi (Nat.not_lt_zero _)

theorem gives_checkRestarts {restartOffsets : Bytes} {recordsEnd left i previous : Nat}
    (hwhole : (i + left) * 4 = restartOffsets.length) (hsmall : restartOffsets.length < 2 ^ 32) :
    Gives (checkRestarts restartOffsets recordsEnd left i previous) fun _ =>
      ∀ j, i ≤ j → j * 4 < restartOffsets.length → restartAt restartOffsets j ≤ recordsEnd := by
  induction left generalizing i previous with
  | zero => exact fun j hij hj => absurd hj (by omega)
  | succ left ih =>
      unfold checkRestarts
      refine gives_bind (gives_fits (by omega)) fun start hstart => ?_
      refine gives_bind (gives_slice (by omega) le_rfl) fun field hfield => ?_
      have hlength : field.length = restartOffsets.length - start := by
        rw [hfield, List.length_take, List.length_drop]
        omega
      refine gives_bind (gives_readLE (by omega)) fun offset hoffset => ?_
      refine gives_ite (fun _ => trivial) fun hinside => gives_ite (fun _ => trivial) fun _ =>
        gives_ite (fun _ => trivial) fun _ => ?_
      refine gives_mono (ih (by omega)) fun _ hrest j hij hj => ?_
      rcases Nat.lt_or_eq_of_le hij with hlt | rfl
      · exact hrest j hlt hj
      · have hat : restartAt restartOffsets i = offset := by
          rw [hoffset.1, hfield, hstart, List.take_take, Nat.min_eq_left (by omega)]
          rfl
        omega

/-- What a version 3 block says of its restarts is inside of the block. -/
structure RestartsInside (buf : Bytes) (count : Nat) (p : Nat × Nat × Bytes) : Prop where
  low : 4 ≤ p.1
  high : p.1 ≤ buf.length
  length : p.2.2.length ≤ buf.length
  whole : p.2.2.length % 4 = 0
  offset : ∀ i, i * 4 < p.2.2.length → restartAt p.2.2 i ≤ p.1
  index : ∀ i, i * 4 < p.2.2.length → i * p.2.1 ≤ count

/-- The legacy format has no restarts. -/
theorem restartsInside_legacy {buf : Bytes} (h : 4 ≤ buf.length) (count : Nat) :
    RestartsInside buf count (buf.length, 0, []) where
  low := h
  high := le_rfl
  length := Nat.zero_le _
  whole := rfl
  offset := fun _ hi => absurd hi (Nat.not_lt_zero _)
  index := fun _ hi => absurd hi (Nat.not_lt_zero _)

/-- A restart before the last one expected is a record before the last. -/
theorem mul_interval_le {i count interval : Nat} (hpos : 0 < interval)
    (hi : i < (count + interval - 1) / interval) : i * interval ≤ count := by
  have hle : (i + 1) * interval ≤ count + interval - 1 :=
    (Nat.mul_le_mul_right interval hi).trans (Nat.div_mul_le_self _ _)
  rw [Nat.add_mul, Nat.one_mul] at hle
  omega

theorem gives_expectedRestarts {count interval : Nat} (hcount : count < 2 ^ 32)
    (hinterval : interval < 2 ^ 32) (hpos : 0 < interval) :
    Gives (if 0 < count then do
        let sum ← fits 64 (count + interval)
        let rounded ← sub sum 1
        pure (rounded / interval)
      else pure 0 : Attempt BlockError Nat) fun n => ∀ i, i < n → i * interval ≤ count := by
  refine gives_ite (fun h => ?_) fun _ => gives_pure fun i hi => absurd hi (Nat.not_lt_zero _)
  refine gives_bind (gives_fits (by omega)) fun sum hsum => ?_
  refine gives_bind (gives_sub (by omega)) fun rounded hrounded => gives_pure fun i hi => ?_
  rw [hrounded, hsum] at hi
  exact mul_interval_le hpos hi

theorem gives_readRestarts {buf : Bytes} {count : Nat} (hbuf : buf.length ≤ maxBlockSize)
    (hcount : count < 2 ^ 32) :
    Gives (readRestarts buf count) (RestartsInside buf count) := by
  unfold readRestarts
  unfold maxBlockSize at hbuf
  refine gives_ite (fun _ => trivial) fun hsmall => ?_
  refine gives_bind (gives_sub (by omega)) fun last hlast => ?_
  refine gives_bind (gives_slice_length (by omega) le_rfl) fun field hfield => ?_
  refine gives_bind (gives_readLE (by omega)) fun restartCount hrestarts => ?_
  refine gives_bind (gives_fits (by omega)) fun metadataSize hmetadata => ?_
  refine gives_bind (gives_sub (by omega)) fun available havailable => ?_
  refine gives_ite (fun _ => trivial) fun hfits => ?_
  refine gives_bind (gives_sub (by omega)) fun recordsEnd hend => ?_
  refine gives_bind (gives_sub (by omega)) fun tail htail => ?_
  refine gives_bind (gives_slice_length (by omega) (by omega)) fun restartOffsets hoffsets => ?_
  refine gives_bind (gives_slice_length (by omega) (by omega)) fun field' hfield' => ?_
  refine gives_bind (gives_readLE (by omega)) fun restartInterval hinterval => ?_
  refine gives_ite (fun _ => trivial) fun hpos => ?_
  refine gives_bind (gives_expectedRestarts hcount (by omega) (by omega)) fun expected hexp => ?_
  refine gives_ite (fun _ => trivial) fun hequal => ?_
  refine gives_bind (gives_checkRestarts (by omega) (by omega)) fun _ hinside => ?_
  refine gives_pure ⟨?_, ?_, ?_, ?_, fun i hi => hinside i (Nat.zero_le i) hi, fun i hi => ?_⟩
  · show 4 ≤ recordsEnd
    omega
  · show recordsEnd ≤ buf.length
    omega
  · show restartOffsets.length ≤ buf.length
    omega
  · show restartOffsets.length % 4 = 0
    omega
  · refine hexp i ?_
    have : i * 4 < restartOffsets.length := hi
    omega

/-- A new cursor is sound, and it is at the first of the records its count field announces. -/
theorem gives_newLogicalBlockCursor {buf : Bytes} (hbuf : buf.length ≤ maxBlockSize)
    (formatVersion : UInt8) :
    Gives (newLogicalBlockCursorForVersion buf formatVersion) fun c =>
      c.Sound ∧ c.index = 0 ∧ c.count = ofLE (buf.take 4) := by
  unfold newLogicalBlockCursorForVersion
  refine gives_ite (fun _ => trivial) fun hsmall => ?_
  refine gives_bind (gives_slice (by omega) (by omega)) fun field hfield => ?_
  have hlength : field.length = 4 := by
    rw [hfield, List.length_take, List.length_drop]
    omega
  refine gives_bind (gives_readLE (by omega)) fun count hcount => ?_
  have hcount' : count = ofLE (buf.take 4) := by
    rw [hcount.1, hfield, List.take_take]
    rfl
  have hrestarts : Gives (if formatVersion = legacyFormatVersion then pure (buf.length, 0, [])
      else if formatVersion = currentFormatVersion then readRestarts buf count
      else fail (.unsupportedVersion formatVersion) : Attempt BlockError (Nat × Nat × Bytes))
      (RestartsInside buf count) :=
    gives_ite (fun _ => gives_pure (restartsInside_legacy (by omega) count)) fun _ =>
      gives_ite (fun _ => gives_readRestarts hbuf (by omega)) fun _ => trivial
  refine gives_bind hrestarts fun p hp => ?_
  obtain ⟨recordsEnd, restartInterval, restartOffsets⟩ := p
  refine gives_bind (gives_sub hp.low) fun remaining hremaining => ?_
  refine gives_ite (fun _ => trivial) fun _ => gives_pure ⟨?_, rfl, hcount'⟩
  exact
    { data_le := hbuf
      end_le := hp.high
      offset_le := hp.low
      index_le := Nat.zero_le _
      count_lt := by show count < 2 ^ 32; omega
      restarts_le := hp.length
      restarts_whole := hp.whole
      restart_offset := hp.offset
      restart_index := hp.index }

namespace LogicalBlockCursor

variable {ε : Type} {c : LogicalBlockCursor}

theorem gives_restartOffset (h : c.Sound) {i : Nat} (hi : i * 4 < c.restartOffsets.length) :
    Gives (c.restartOffset i : Attempt ε Nat) fun offset => offset ≤ c.recordsEnd := by
  have hdata := h.data_le
  have hle := h.restarts_le
  have hwhole := h.restarts_whole
  unfold maxBlockSize at hdata
  unfold restartOffset
  refine gives_bind (gives_fits (by omega)) fun start hstart => ?_
  refine gives_bind (gives_fits (by omega)) fun stop hstop => ?_
  refine gives_bind (gives_slice (by omega) (by omega)) fun field hfield => ?_
  have hlength : field.length = 4 := by
    rw [hfield, List.length_take, List.length_drop]
    omega
  refine gives_mono (gives_readLE (by omega)) fun offset hoffset => ?_
  have hat : restartAt c.restartOffsets i = offset := by
    rw [hoffset.1, hfield, hstart, show stop - i * 4 = 4 by omega, List.take_take]
    rfl
  have := h.restart_offset i hi
  omega

theorem safe_restartReached (h : c.Sound) (key : Key) {i : Nat}
    (hi : i * 4 < c.restartOffsets.length) : Safe (c.restartReached key i) := by
  unfold restartReached
  refine gives_bind (gives_restartOffset h hi) fun offset hoffset => ?_
  refine gives_bind (gives_slice_length hoffset h.end_le) fun rest _ => ?_
  exact gives_bind (gives_decodeRecordView rest) fun p _ => trivial

/-- An error in a sound cursor changes nothing about where it is. -/
theorem Sound.setErr (h : c.Sound) (err : Option BlockError) : { c with err }.Sound :=
  ⟨h.data_le, h.end_le, h.offset_le, h.index_le, h.count_lt, h.restarts_le, h.restarts_whole,
    h.restart_offset, h.restart_index⟩

/-- A sound cursor can be put at any place in the records. -/
theorem Sound.move (h : c.Sound) {offset index : Nat} (hoffset : offset ≤ c.recordsEnd)
    (hindex : index ≤ c.count) : { c with offset, index }.Sound :=
  ⟨h.data_le, h.end_le, hoffset, hindex, h.count_lt, h.restarts_le, h.restarts_whole,
    h.restart_offset, h.restart_index⟩

theorem gives_seek (h : c.Sound) (key : Key) :
    Gives (c.seek key : Attempt ε LogicalBlockCursor) fun c' =>
      c'.Sound ∧ c'.count = c.count := by
  have hwhole := h.restarts_whole
  unfold seek
  refine gives_ite (fun _ => gives_pure ⟨h, rfl⟩) fun hsome => ?_
  have hne : c.restartOffsets.length ≠ 0 := fun h0 => hsome (Or.inr h0)
  have hsearch := delivers_search fun i (hi : i < c.restartOffsets.length / 4) =>
    safe_restartReached h key (i := i) (by omega)
  refine gives_handle hsearch (fun found hfound => ?_) fun e => gives_pure ⟨h.setErr _, rfl⟩
  have hi : Gives (if found = c.restartOffsets.length / 4 then sub (c.restartOffsets.length / 4) 1
      else pure (found - 1) : Attempt ε Nat) fun i => i * 4 < c.restartOffsets.length :=
    gives_ite (fun _ => gives_mono (gives_sub (by omega)) fun i hi => by omega)
      fun hne' => gives_pure (by omega)
  refine gives_bind hi fun i hi => ?_
  refine gives_bind (gives_restartOffset h hi) fun offset hoffset => ?_
  have hindex := h.restart_index i hi
  have hcount := h.count_lt
  have hdata := h.data_le
  have hle := h.restarts_le
  unfold maxBlockSize at hdata
  refine gives_bind (gives_fits (by omega)) fun i' hi' => ?_
  subst hi'
  refine gives_bind (gives_fits (by omega)) fun index hindex' => ?_
  subst hindex'
  exact gives_pure ⟨h.move hoffset hindex, rfl⟩

/-- One step keeps the cursor sound, and a record moves it on by one. -/
theorem gives_next (h : c.Sound) :
    Gives (c.next : Attempt ε (Option Record × LogicalBlockCursor)) fun p =>
      p.2.Sound ∧ p.2.count = c.count ∧
        p.2.index = if p.1.isSome then c.index + 1 else c.index := by
  have hdata := h.data_le
  have hend := h.end_le
  have hoffset := h.offset_le
  have hindex := h.index_le
  have hcount := h.count_lt
  unfold maxBlockSize at hdata
  unfold next
  refine gives_ite (fun _ => gives_pure ⟨h, rfl, rfl⟩) fun _ => ?_
  refine gives_ite (fun _ => ?_) fun hmore => ?_
  · refine gives_ite (fun _ => ?_) fun _ => gives_pure ⟨h, rfl, rfl⟩
    refine gives_bind (gives_sub hoffset) fun extra _ => ?_
    exact gives_pure ⟨h.setErr _, rfl, rfl⟩
  · refine gives_bind (gives_slice_length hoffset hend) fun rest hrest => ?_
    refine gives_handle (gives_decodeRecordView rest) (fun p hp => ?_) fun e =>
      gives_pure ⟨h.setErr _, rfl, rfl⟩
    obtain ⟨rec, size⟩ := p
    have hsize : size ≤ rest.length := hp.2
    show Gives (fits 63 (c.offset + size) >>= fun offset =>
      fits 32 (c.index + 1) >>= fun index => pure (some rec, { c with offset, index })) _
    refine gives_bind (gives_fits (by omega)) fun offset hoffset' => ?_
    refine gives_bind (gives_fits (by omega)) fun index hindex' => ?_
    refine gives_pure ⟨h.move (by omega) (by omega), rfl, ?_⟩
    exact hindex'

/-- **A block yields at most the records its count announces**, less those before the cursor. -/
theorem gives_records {fuel : Nat} (h : c.Sound) (hfuel : c.count - c.index < fuel) :
    Gives (records fuel c : Attempt ε (List Record × LogicalBlockCursor)) fun p =>
      p.2.Sound ∧ p.1.length ≤ c.count - c.index := by
  induction fuel generalizing c with
  | zero => omega
  | succ fuel ih =>
      unfold records
      refine gives_bind (gives_next h) fun p hp => ?_
      obtain ⟨rec?, c'⟩ := p
      obtain ⟨hsound, hcount, hindex⟩ := hp
      have hle := hsound.index_le
      cases rec? with
      | none => exact gives_pure ⟨hsound, Nat.zero_le _⟩
      | some rec =>
          simp only [Option.isSome_some, if_true] at hcount hindex hle
          refine gives_bind (ih hsound (by omega)) fun q hq => ?_
          obtain ⟨recs, last⟩ := q
          refine gives_pure ⟨hq.1, ?_⟩
          have hlen : recs.length ≤ c'.count - c'.index := hq.2
          simp only [List.length_cons]
          omega

end LogicalBlockCursor

/-! ### Footer, index and filter -/

/-- Index and filter lie in the file. -/
structure FooterMetadata.Inside (footer : FooterMetadata) (file : TableFile) : Prop where
  index : footer.indexOffset + footer.indexLength ≤ file.size
  filter : footer.filterOffset + footer.filterLength ≤ file.size

/-- Index and filter fill the file from the index on to `dataEnd`; without a filter its offset is
zero. -/
def FooterMetadata.Tiles (footer : FooterMetadata) (dataEnd : Nat) : Prop :=
  if footer.filterLength = 0 then
    footer.filterOffset = 0 ∧ footer.indexOffset + footer.indexLength = dataEnd
  else footer.filterOffset = footer.indexOffset + footer.indexLength ∧
    footer.filterOffset + footer.filterLength = dataEnd

theorem gives_checkFooter {dataEnd : Nat} (hend : dataEnd < 2 ^ 63) (footer : FooterMetadata) :
    Gives (checkFooter dataEnd footer) fun f => f = footer ∧ footer.Tiles dataEnd := by
  unfold checkFooter
  refine gives_ite (fun _ => trivial) fun hoffset => ?_
  refine gives_bind (gives_sub (by omega)) fun room hroom => ?_
  refine gives_ite (fun _ => trivial) fun hlength => ?_
  refine gives_bind (gives_fits (by omega)) fun indexEnd hindexEnd => ?_
  refine gives_ite (fun hnone => ?_) fun hsome => ?_
  · refine gives_ite (fun _ => trivial) fun hzero => gives_ite (fun _ => trivial) fun hindex => ?_
    refine gives_pure ⟨rfl, ?_⟩
    rw [FooterMetadata.Tiles, if_pos hnone]
    omega
  · refine gives_ite (fun _ => trivial) fun hstart => gives_ite (fun _ => trivial) fun hfilter => ?_
    refine gives_bind (gives_sub (by omega)) fun room' hroom' => ?_
    refine gives_ite (fun _ => trivial) fun hfilterLength => ?_
    refine gives_bind (gives_fits (by omega)) fun filterEnd hfilterEnd => ?_
    refine gives_ite (fun _ => trivial) fun hlast => gives_pure ⟨rfl, ?_⟩
    rw [FooterMetadata.Tiles, if_neg hsome]
    omega

theorem gives_decodeFooter {file : TableFile} (hsize : footerSize ≤ file.size) {footer : Bytes}
    (hlen : footer.length = footerSize) :
    Gives (decodeFooter file.size footer) fun f => f.Inside file := by
  have hlt : file.size < 2 ^ 63 := file.size_lt
  unfold footerSize at *
  unfold decodeFooter
  refine gives_bind (gives_slice_length (by omega) (by omega)) fun magic _ => ?_
  refine gives_ite (fun _ => trivial) fun _ => ?_
  refine gives_bind (gives_get (by omega)) fun version _ => ?_
  refine gives_ite (fun _ => trivial) fun _ => ?_
  refine gives_bind (gives_get (by omega)) fun flags _ => ?_
  refine gives_ite (fun _ => trivial) fun _ => ?_
  refine gives_bind (gives_slice_length (by omega) (by omega)) fun f1 h1 => ?_
  refine gives_bind (gives_readLE (by omega)) fun indexOffset _ => ?_
  refine gives_bind (gives_slice_length (by omega) (by omega)) fun f2 h2 => ?_
  refine gives_bind (gives_readLE (by omega)) fun indexLength _ => ?_
  refine gives_bind (gives_slice_length (by omega) (by omega)) fun f3 h3 => ?_
  refine gives_bind (gives_readLE (by omega)) fun filterOffset _ => ?_
  refine gives_bind (gives_slice_length (by omega) (by omega)) fun f4 h4 => ?_
  refine gives_bind (gives_readLE (by omega)) fun filterLength _ => ?_
  refine gives_bind (gives_sub (by unfold footerSize; omega)) fun dataEnd hdataEnd => ?_
  refine gives_mono (gives_checkFooter (by omega) _) fun f hf => ?_
  obtain ⟨rfl, htiles⟩ := hf
  unfold FooterMetadata.Tiles at htiles
  split at htiles
  · exact ⟨by omega, by omega⟩
  · exact ⟨by omega, by omega⟩

theorem readAt_length {file : TableFile} {length offset : Nat} {buf : Bytes}
    (h : file.readAt length offset = some buf) : buf.length = length := by
  unfold TableFile.readAt at h
  split at h
  · rename_i hle
    cases h
    unfold TableFile.size at hle
    rw [List.length_take, List.length_drop]
    omega
  · cases h

theorem gives_readFooter (file : TableFile) :
    Gives (readFooter file) fun f => f.Inside file := by
  unfold readFooter
  refine gives_ite (fun _ => trivial) fun hsize => ?_
  refine gives_bind (gives_sub (by omega)) fun footerOffset _ => ?_
  split
  · trivial
  · rename_i footer hread
    exact gives_decodeFooter (by omega) (readAt_length hread)

theorem gives_readFull (length : Nat) (r : Bytes) :
    Gives (readFull length r) fun p => p.1.length = length := by
  unfold readFull
  refine gives_ite (fun h => gives_pure ?_) fun _ => gives_ite (fun _ => trivial) fun _ => trivial
  rw [List.length_take]
  omega

theorem safe_decodeEntries (left : Nat) (r : Bytes) : Safe (decodeEntries left r) := by
  induction left generalizing r with
  | zero => trivial
  | succ left ih =>
      unfold decodeEntries
      refine gives_bind (gives_readFull 16 r) fun p hp => ?_
      obtain ⟨header, rest⟩ := p
      have hlen : header.length = 16 := hp
      refine gives_bind (gives_slice_length (by omega) (by omega)) fun f1 h1 => ?_
      refine gives_bind (gives_readLE (by omega)) fun keyLen _ => ?_
      refine gives_bind (gives_slice_length (by omega) (by omega)) fun f2 h2 => ?_
      refine gives_bind (gives_readLE (by omega)) fun offset _ => ?_
      refine gives_bind (gives_slice_length (by omega) (by omega)) fun f3 h3 => ?_
      refine gives_bind (gives_readLE (by omega)) fun length _ => ?_
      refine gives_ite (fun _ => trivial) fun _ => ?_
      refine gives_bind (gives_readFull keyLen rest) fun p _ => ?_
      obtain ⟨key, rest'⟩ := p
      exact gives_bind (ih rest') fun index _ => trivial

theorem safe_decodeIndex (buf : Bytes) : Safe (decodeIndex buf) := by
  unfold decodeIndex
  refine gives_bind (gives_readFull 4 buf) fun p hp => ?_
  obtain ⟨countBuf, rest⟩ := p
  exact gives_bind (gives_readLE (le_of_eq hp.symm)) fun count _ => safe_decodeEntries count rest

theorem gives_checkedBufferLength (length maxLength : Nat) (part : Part) :
    Gives (checkedBufferLength length maxLength part) fun n => n = length := by
  unfold checkedBufferLength
  exact gives_ite (fun _ => trivial) fun _ => gives_ite (fun _ => trivial) fun _ => gives_pure rfl

theorem safe_loadIndex {file : TableFile} {footer : FooterMetadata} (h : footer.Inside file) :
    Safe (loadIndex file footer) := by
  have hlt : file.size < 2 ^ 63 := file.size_lt
  have hindex := h.index
  unfold loadIndex
  refine gives_bind (gives_checkedBufferLength _ _ _) fun indexLength _ => ?_
  refine gives_bind (gives_fits (by omega)) fun indexOffset _ => ?_
  split
  · trivial
  · exact gives_mapError (safe_decodeIndex _)

theorem gives_loadFilter {file : TableFile} {footer : FooterMetadata} (h : footer.Inside file) :
    Gives (loadFilter file footer) fun filter => ∀ f, filter = some f → f.Valid := by
  have hlt : file.size < 2 ^ 63 := file.size_lt
  have hfilter := h.filter
  unfold loadFilter
  refine gives_bind (gives_checkedBufferLength _ _ _) fun filterLength _ => ?_
  refine gives_ite (fun _ => ?_) fun _ => gives_pure fun f hf => nomatch hf
  refine gives_bind (gives_fits (by omega)) fun filterOffset _ => ?_
  split
  · trivial
  · refine gives_bind (gives_mapError (Bloom.gives_decode _)) fun f hf => gives_pure ?_
    intro f' hf'
    cases hf'
    exact hf

theorem gives_loadMetadata (file : TableFile) :
    Gives (loadMetadata file) fun md => ∀ f, md.filter = some f → f.Valid := by
  unfold loadMetadata
  refine gives_bind (gives_readFooter file) fun footer hfooter => ?_
  refine gives_bind (safe_loadIndex hfooter) fun index _ => ?_
  exact gives_bind (gives_loadFilter hfooter) fun filter hfilter => gives_pure hfilter

/-- A filter that was loaded answers. -/
theorem mayContain_total (env : Env) {file : TableFile} {md : Metadata}
    (hmd : loadMetadata file = .ok md) (key : Key) :
    ∃ b, (md.mayContain env key : Attempt TableError Bool) = .ok b := by
  have hvalid := (gives_loadMetadata file).of_ok hmd
  unfold Metadata.mayContain
  cases hfilter : md.filter with
  | none => exact ⟨true, rfl⟩
  | some f => exact Bloom.mayContain_total (hvalid f hfilter) _ _

/-! ### Blocks and point reads -/

theorem gives_readLogicalBlock {env : Env} (h : env.lz4.StaysWithin) (file : TableFile)
    (entry : IndexEntry) :
    Gives (readLogicalBlock env file entry) fun logical => logical.length ≤ maxBlockSize := by
  unfold readLogicalBlock
  have hread : Gives (readBlockFrom file entry) fun buf => buf.length ≤ maxStoredBlockSize := by
    unfold readBlockFrom
    refine gives_ite (fun _ => trivial) fun _ => gives_ite (fun _ => trivial) fun hlength =>
      gives_ite (fun _ => trivial) fun _ => ?_
    split
    · trivial
    · rename_i buf hbuf
      refine gives_pure ?_
      rw [readAt_length hbuf]
      omega
  exact gives_bind hread fun physical hphysical =>
    gives_mapError (gives_decodePhysicalBlock h hphysical)

theorem gives_openBlock {env : Env} (h : env.lz4.StaysWithin) (file : TableFile)
    (formatVersion : UInt8) (entry : IndexEntry) :
    Gives (openBlock env file formatVersion entry) fun c => c.Sound ∧ c.index = 0 := by
  unfold openBlock
  refine gives_bind (gives_readLogicalBlock h file entry) fun logical hlogical => ?_
  refine gives_mapError (gives_mono (gives_newLogicalBlockCursor hlogical formatVersion) ?_)
  exact fun c hc => ⟨hc.1, hc.2.1⟩

theorem delivers_firstPossibleBlock {ε : Type} {damaged : Prop} {index : List IndexEntry}
    (hne : index.length ≠ 0) (key : Key) :
    Delivers damaged (firstPossibleBlock index key : Attempt ε Int) fun i =>
      0 ≤ i ∧ i < index.length := by
  unfold firstPossibleBlock
  rw [if_neg hne]
  refine delivers_bind (delivers_search fun i hi => ?_) fun i hi => ?_
  · rw [get_eq (List.getElem?_eq_getElem hi)]
    trivial
  · split
    · exact ⟨by omega, by omega⟩
    · split
      · exact ⟨by omega, by omega⟩
      · exact ⟨le_rfl, by omega⟩

theorem gives_scanBlock {ε : Type} (key : Key) (maxSeq : UInt64) {fuel : Nat}
    {c : LogicalBlockCursor} (h : c.Sound) (hfuel : c.count - c.index < fuel) :
    Safe (scanBlock key maxSeq fuel c : Attempt ε (Scan × LogicalBlockCursor)) := by
  induction fuel generalizing c with
  | zero => omega
  | succ fuel ih =>
      unfold scanBlock
      refine gives_bind (LogicalBlockCursor.gives_next h) fun p hp => ?_
      obtain ⟨rec?, c'⟩ := p
      obtain ⟨hsound, hcount, hindex⟩ := hp
      have hle := hsound.index_le
      cases rec? with
      | none => trivial
      | some rec =>
          simp only [Option.isSome_some, if_true] at hcount hindex hle
          exact gives_ite (fun _ => trivial) fun _ => gives_ite (fun _ => trivial) fun _ =>
            ih hsound (by omega)

theorem safe_searchBlocks {env : Env} (h : env.lz4.StaysWithin) (file : TableFile) (md : Metadata)
    (key : Key) (maxSeq : UInt64) {left i : Nat} (hleft : i + left ≤ md.index.length) :
    Safe (searchBlocks env file md key maxSeq left i) := by
  induction left generalizing i with
  | zero => trivial
  | succ left ih =>
      unfold searchBlocks
      refine gives_bind (gives_get (by omega)) fun entry _ => ?_
      refine gives_bind (gives_openBlock h file md.formatVersion entry) fun c hc => ?_
      refine gives_bind (LogicalBlockCursor.gives_seek hc.1 key) fun c' hc' => ?_
      dsimp only
      split
      · trivial
      · refine gives_bind (gives_scanBlock key maxSeq hc'.1 (by omega)) fun p _ => ?_
        obtain ⟨scan, c''⟩ := p
        cases scan with
        | found rec => trivial
        | passed => trivial
        | ended =>
            dsimp only
            split
            · trivial
            · exact ih (by omega)

theorem safe_getRecordAt {env : Env} (h : env.lz4.StaysWithin) (file : TableFile) (key : Key)
    (maxSeq : UInt64) : Safe (getRecordAt env file key maxSeq) := by
  unfold getRecordAt
  rcases (gives_loadMetadata file).fails_or_ok with ⟨-, e, hfail⟩ | ⟨md, hmd, -⟩
  · rw [hfail]
    trivial
  obtain ⟨possible, hpossible⟩ := mayContain_total env hmd key
  rw [hmd, ok_bind, hpossible, ok_bind]
  refine gives_ite (fun _ => trivial) fun _ => gives_ite (fun _ => trivial) fun hne => ?_
  refine gives_bind (delivers_firstPossibleBlock hne key) fun i hi => ?_
  exact gives_ite (fun _ => trivial) fun _ => safe_searchBlocks h file md key maxSeq (by omega)

/-! ### Iterators -/

namespace Iterator

variable {ε : Type} {env : Env} {file : TableFile} {it : Iterator}

/-- An iterator whose cursor stays in its block, and whose block is one of the table or just
outside of it. -/
structure Sound (it : Iterator) : Prop where
  cursor : it.blockCursor.Sound
  block_ge : -1 ≤ it.blockIndex

/-- A bound on the records an iterator has still to give. -/
def remaining (it : Iterator) : Nat :=
  it.pending.toList.length + (it.blockCursor.count - it.blockCursor.index) +
    2 ^ 32 * (it.index.length - 1 - it.blockIndex).toNat

/-- Loading a block keeps an error or goes to the start of the block. -/
theorem gives_loadBlock (h : env.lz4.StaysWithin) {blockIndex : Int} (hlow : 0 ≤ blockIndex)
    (hhigh : blockIndex < it.index.length) :
    Gives (it.loadBlock env file blockIndex : Attempt ε Iterator) fun it' =>
      (∃ e, it' = { it with err := some e }) ∨
        ∃ c : LogicalBlockCursor, c.Sound ∧ c.index = 0 ∧
          it' = { it with blockIndex, blockCursor := c } := by
  unfold loadBlock
  have hopen : Gives (do
      let entry ← getInt it.index blockIndex
      openBlock env file it.formatVersion entry) fun c => c.Sound ∧ c.index = 0 :=
    gives_bind (gives_getInt hlow hhigh) fun entry _ => gives_openBlock h file _ entry
  refine gives_handle hopen (fun c hc => ?_) fun e => ?_
  · exact gives_pure (Or.inr ⟨c, hc.1, hc.2, rfl⟩)
  · exact gives_pure (Or.inl ⟨e, rfl⟩)

theorem gives_seekLoop (key : Key) {fuel : Nat} (hit : it.Sound)
    (hfuel : it.blockCursor.count - it.blockCursor.index < fuel) :
    Gives (seekLoop key fuel it : Attempt ε Iterator) Sound := by
  induction fuel generalizing it with
  | zero => omega
  | succ fuel ih =>
      unfold seekLoop
      refine gives_bind (LogicalBlockCursor.gives_next hit.cursor) fun p hp => ?_
      obtain ⟨rec?, c⟩ := p
      obtain ⟨hsound, hcount, hindex⟩ := hp
      have hle := hsound.index_le
      cases rec? with
      | none =>
          dsimp only
          split
          · exact gives_pure ⟨hsound, hit.block_ge⟩
          · exact gives_pure ⟨hsound, hit.block_ge⟩
      | some rec =>
          simp only [Option.isSome_some, if_true] at hcount hindex hle
          refine gives_ite (fun _ => gives_pure ⟨hsound, hit.block_ge⟩) fun _ => ?_
          refine @ih { it with blockCursor := c } ⟨hsound, hit.block_ge⟩ ?_
          show c.count - c.index < fuel
          omega

theorem gives_seek (h : env.lz4.StaysWithin) (hit : it.Sound) (key : Key) :
    Gives (it.seek env file key : Attempt ε Iterator) Sound := by
  unfold seek
  refine gives_ite (fun _ => gives_pure hit) fun _ => ?_
  refine gives_ite (fun _ => ?_) fun hne => ?_
  · refine gives_pure ⟨sound_zero, ?_⟩
    show (-1 : Int) ≤ 0
    omega
  · refine gives_bind (delivers_firstPossibleBlock hne key) fun blockIndex hblock => ?_
    refine gives_bind (gives_loadBlock h hblock.1 hblock.2) fun it' hit' => ?_
    have hsound : it'.Sound := by
      rcases hit' with ⟨e, rfl⟩ | ⟨c, hc, -, rfl⟩
      · exact ⟨sound_zero, hit.block_ge⟩
      · exact ⟨hc, (by omega : (-1 : Int) ≤ blockIndex)⟩
    refine gives_ite (fun _ => gives_pure hsound) fun _ => ?_
    refine gives_bind (LogicalBlockCursor.gives_seek hsound.cursor key) fun c hc => ?_
    split
    · exact gives_pure ⟨hc.1, hsound.block_ge⟩
    · refine gives_seekLoop key ⟨hc.1, hsound.block_ge⟩ ?_
      show c.count - c.index < c.count + 1
      omega

/-- The loop of `Next` ends, and a record it stops at was still to come. -/
theorem gives_nextLoop (h : env.lz4.StaysWithin) {fuel : Nat} (hit : it.Sound)
    (hfuel : (it.index.length - it.blockIndex).toNat < fuel) :
    Gives (it.nextLoop env file fuel : Attempt ε (Bool × Iterator)) fun p =>
      p.2.Sound ∧ (p.1 = true → p.2.remaining < it.remaining) := by
  induction fuel generalizing it with
  | zero => omega
  | succ fuel ih =>
      have hge := hit.block_ge
      unfold nextLoop
      refine gives_bind (LogicalBlockCursor.gives_next hit.cursor) fun p hp => ?_
      obtain ⟨rec?, c⟩ := p
      obtain ⟨hsound, hcount, hindex⟩ := hp
      have hle := hsound.index_le
      cases rec? with
      | some rec =>
          simp only [Option.isSome_some, if_true] at hcount hindex hle
          refine gives_pure ⟨⟨hsound, hge⟩, fun _ => ?_⟩
          simp only [remaining]
          omega
      | none =>
          dsimp only
          split
          · exact gives_pure ⟨⟨hsound, hge⟩, fun hfalse => nomatch hfalse⟩
          · refine gives_ite (fun _ => ?_) fun hlast => ?_
            · refine gives_pure ⟨⟨hsound, ?_⟩, fun hfalse => nomatch hfalse⟩
              show -1 ≤ it.blockIndex + 1
              omega
            · have hlow : 0 ≤ it.blockIndex + 1 := by omega
              have hhigh : it.blockIndex + 1 < it.index.length := by omega
              refine gives_bind (gives_loadBlock h hlow hhigh) fun it' hit' => ?_
              rcases hit' with ⟨e, rfl⟩ | ⟨c', hc', hzero, rfl⟩
              · refine gives_pure ⟨⟨hsound, ?_⟩, fun hfalse => nomatch hfalse⟩
                show -1 ≤ it.blockIndex + 1
                omega
              · refine gives_ite (fun _ => ?_) fun _ => ?_
                · refine gives_pure ⟨⟨hc', ?_⟩, fun hfalse => nomatch hfalse⟩
                  show -1 ≤ it.blockIndex + 1
                  omega
                · have hnext := @ih { it with
                      blockCursor := c', blockIndex := it.blockIndex + 1 }
                    ⟨hc', (by omega : -1 ≤ it.blockIndex + 1)⟩
                    (by show (it.index.length - (it.blockIndex + 1)).toNat < fuel; omega)
                  refine gives_mono hnext fun p hp => ⟨hp.1, fun htrue => ?_⟩
                  have hlt := hp.2 htrue
                  have hcount' := hc'.count_lt
                  -- The block that is entered has fewer records than the step in blocks counts.
                  have hblocks : (it.index.length - 1 - it.blockIndex).toNat =
                      (it.index.length - 1 - (it.blockIndex + 1)).toNat + 1 := by omega
                  simp only [remaining, hzero] at hlt ⊢
                  rw [hblocks]
                  omega

theorem gives_next (h : env.lz4.StaysWithin) (hit : it.Sound) :
    Gives (it.next env file : Attempt ε (Bool × Iterator)) fun p =>
      p.2.Sound ∧ (p.1 = true → p.2.remaining < it.remaining) := by
  have hge := hit.block_ge
  unfold next
  refine gives_ite (fun _ => gives_pure ⟨hit, fun hfalse => nomatch hfalse⟩) fun _ => ?_
  split
  · rename_i rec hrec
    refine gives_pure ⟨⟨hit.cursor, hge⟩, fun _ => ?_⟩
    simp only [remaining, hrec, Option.toList_some, List.length_singleton, Option.toList_none,
      List.length_nil]
    omega
  · exact gives_nextLoop h hit (by omega)

/-- `Next` returns false before the bound is reached. -/
theorem safe_drain (h : env.lz4.StaysWithin) {fuel : Nat} (hit : it.Sound)
    (hfuel : it.remaining < fuel) :
    Safe (it.drain env file fuel : Attempt ε (List Record × Iterator)) := by
  induction fuel generalizing it with
  | zero => omega
  | succ fuel ih =>
      unfold drain
      refine gives_bind (gives_next h hit) fun p hp => ?_
      obtain ⟨more, it'⟩ := p
      refine gives_ite (fun hmore => ?_) fun _ => trivial
      have hlt : it'.remaining < it.remaining := hp.2 hmore
      exact gives_bind (ih hp.1 (by omega)) fun q _ => trivial

end Iterator

theorem gives_newIterator (file : TableFile) :
    Gives (newIterator file) fun it => it.Sound := by
  unfold newIterator
  exact gives_bind (gives_loadMetadata file) fun md _ => gives_pure ⟨sound_zero, le_rfl⟩

/-- `Seek`, then `Next` until it returns false. -/
def seekAndDrain (env : Env) (file : TableFile) (key : Key) (fuel : Nat) :
    Attempt TableError (List Record × Iterator) := do
  let it ← newIterator file
  let it ← it.seek env file key
  it.drain env file fuel

theorem exists_safe_seekAndDrain {env : Env} (h : env.lz4.StaysWithin) (file : TableFile)
    (key : Key) : ∃ fuel, Safe (seekAndDrain env file key fuel) := by
  unfold seekAndDrain
  rcases (gives_newIterator file).fails_or_ok with ⟨-, e, hfail⟩ | ⟨it, hit, hsound⟩
  · rw [hfail]
    exact ⟨0, trivial⟩
  simp only [hit, ok_bind]
  have hseek : Gives (it.seek env file key : Attempt TableError Iterator) Iterator.Sound :=
    Iterator.gives_seek h hsound key
  rcases hseek.fails_or_ok with ⟨-, e, hfail⟩ | ⟨it', hit', hsound'⟩
  · rw [hfail]
    exact ⟨0, trivial⟩
  · rw [hit']
    exact ⟨it'.remaining + 1, Iterator.safe_drain h hsound' (Nat.lt_succ_self _)⟩

/-- What a block yields from its start or from where a `seek` leads: at most as many records as
its first four bytes say. -/
theorem records_le_count {env : Env} (h : env.lz4.StaysWithin) {file : TableFile}
    {entry : IndexEntry} {logical : Bytes} (hread : readLogicalBlock env file entry = .ok logical)
    {formatVersion : UInt8} {c : LogicalBlockCursor}
    (hnew : newLogicalBlockCursorForVersion logical formatVersion = .ok c) {c' : LogicalBlockCursor}
    (hc' : c' = c ∨ ∃ key, (c.seek key : Attempt Empty LogicalBlockCursor) = .ok c') :
    ∃ recs last, (LogicalBlockCursor.records (c'.count + 1) c' : Attempt Empty _) =
        .ok (recs, last) ∧ recs.length ≤ ofLE (logical.take 4) := by
  have hlogical := (gives_readLogicalBlock h file entry).of_ok hread
  obtain ⟨hsound, -, hcount⟩ := (gives_newLogicalBlockCursor hlogical formatVersion).of_ok hnew
  have hsound' : c'.Sound ∧ c'.count = c.count := by
    rcases hc' with rfl | ⟨key, hseek⟩
    · exact ⟨hsound, rfl⟩
    · exact (LogicalBlockCursor.gives_seek hsound key).of_ok hseek
  obtain ⟨p, hp, -, hlen⟩ := (LogicalBlockCursor.gives_records (ε := Empty) hsound'.1
    (by omega : c'.count - c'.index < c'.count + 1)).exists_ok
  exact ⟨p.1, p.2, hp, by omega⟩

/-- **Reading an arbitrary file stays in bounds and ends.** Whatever the bytes of the file, the
footer, the metadata, every point read and every scan from a key end with an error or a result:
no slice or index out of range, no wrapped offset or length, no endless loop. A block of either
version yields at most the records its count field announces. -/
theorem arbitrary_file_reads {env : Env} (h : env.lz4.StaysWithin) (file : TableFile) :
    Safe (readFooter file) ∧ Safe (loadMetadata file) ∧
      (∀ key maxSeq, Safe (getRecordAt env file key maxSeq)) ∧
      (∀ key, ∃ fuel, Safe (seekAndDrain env file key fuel)) ∧
      ∀ entry logical, readLogicalBlock env file entry = .ok logical →
        ∀ formatVersion c, newLogicalBlockCursorForVersion logical formatVersion = .ok c →
          ∀ c', (c' = c ∨ ∃ key, (c.seek key : Attempt Empty LogicalBlockCursor) = .ok c') →
            ∃ recs last, (LogicalBlockCursor.records (c'.count + 1) c' : Attempt Empty _) =
              .ok (recs, last) ∧ recs.length ≤ ofLE (logical.take 4) := by
  refine ⟨(gives_readFooter file).safe, (gives_loadMetadata file).safe, ?_, ?_, ?_⟩
  · exact fun key maxSeq => safe_getRecordAt h file key maxSeq
  · exact fun key => exists_safe_seekAndDrain h file key
  · exact fun entry logical hread version c hnew c' hc' => records_le_count h hread hnew hc'

/-- The small table, as it is and with a count of three in its index of two entries. -/
theorem arbitrary_file_reads_sample : storingEnv.lz4.StaysWithin ∧
    (loadMetadata sampleTable.file).isOk = true ∧
    (loadMetadata (sampleTable.file.set 106 3)).isOk = false ∧
    ∀ file ∈ [sampleTable.file, sampleTable.file.set 106 3],
      Safe (loadMetadata file) ∧ Safe (getRecordAt storingEnv file [2] 4) ∧
        ∃ fuel, Safe (seekAndDrain storingEnv file [1] fuel) := by
  refine ⟨storingEnv_staysWithin, by decide +kernel, by decide +kernel, fun file _ => ?_⟩
  obtain ⟨-, hmd, hget, hscan, -⟩ := arbitrary_file_reads storingEnv_staysWithin file
  exact ⟨hmd, hget [2] 4, hscan [1]⟩

end HyphaDB.Table
