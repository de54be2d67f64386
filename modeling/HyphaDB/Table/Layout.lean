import HyphaDB.Table.Cursor
import HyphaDB.Table.Writer

/-!
# HyphaDB.Table.Layout

What a **written file** consists of, and that it reads back.

`Writes` is the invariant of the writer's loop: the file holds the physical blocks of the records
so far except for those of the block being built, and the index has one entry a block with the
offset the block is at. A finished file is blocks, index, filter and footer (`Written`).

On the reading side each part is the inverse of what wrote it: `decodePhysicalBlock_encode`,
`decodeIndex_indexBytes`, `readFooter_eq`, and together `loadMetadata_eq` and `openBlock_eq`.
-/

namespace HyphaDB.Table

open Checked
open Record (headerSize)

/-! ### Physical blocks -/

/-- How a logical block is stored: as it is, or compressed to something shorter. -/
inductive StoredAs (env : Env) (logical : Bytes) : Codec → Bytes → Prop
  | plain : StoredAs env logical .none logical
  | compressed {payload : Bytes} (hc : env.lz4.compressBlock logical = some payload)
      (hne : payload ≠ []) (hlt : payload.length < logical.length) :
      StoredAs env logical .lz4 payload

/-- Header, payload and checksum. -/
def physicalBlock (env : Env) (codec : Codec) (rawLen : Nat) (storedPayload : Bytes) : Bytes :=
  checkedBytes codec rawLen storedPayload ++
    toLE 4 (env.crc (checkedBytes codec rawLen storedPayload)).toNat

@[simp] theorem checkedBytes_length (codec : Codec) (rawLen : Nat) (storedPayload : Bytes) :
    (checkedBytes codec rawLen storedPayload).length = blockHeaderSize + storedPayload.length := by
  simp [checkedBytes, blockHeaderSize]
  omega

theorem physicalBlock_length (env : Env) (codec : Codec) (rawLen : Nat) (storedPayload : Bytes) :
    (physicalBlock env codec rawLen storedPayload).length =
      blockHeaderSize + storedPayload.length + blockTrailerSize := by
  simp [physicalBlock, blockTrailerSize]

theorem storedAs_compress {env : Env} {logical compressed : Bytes} {rate : SavingsRate}
    (hc : compress env logical .lz4 = .ok compressed)
    (hshould : shouldCompress logical.length compressed.length rate = true) :
    StoredAs env logical .lz4 compressed := by
  have hlt : compressed.length < logical.length := by
    by_contra hle
    unfold shouldCompress at hshould
    rw [if_pos (Or.inr (not_lt.mp hle))] at hshould
    cases hshould
  change compressLZ4 env.lz4 logical = .ok compressed at hc
  unfold compressLZ4 at hc
  rw [if_neg (by omega)] at hc
  split at hc
  · cases hc
  · rename_i dst hdst
    split at hc
    · cases hc
      exact absurd hlt (lt_irrefl _)
    · rename_i hne
      cases hc
      exact .compressed hdst (fun h => hne (h ▸ rfl)) hlt

/-- What `encodePhysicalBlock` writes. -/
theorem encodePhysicalBlock_eq_ok {env : Env} {logical physical : Bytes} {codec : Codec}
    {rate : SavingsRate} (h : encodePhysicalBlock env logical codec rate = .ok physical) :
    logical.length ≤ maxBlockSize ∧ ∃ codec' payload, StoredAs env logical codec' payload ∧
      physical = physicalBlock env codec' logical.length payload := by
  unfold encodePhysicalBlock at h
  split at h
  · cases h
  rename_i hsize
  refine ⟨by omega, ?_⟩
  cases codec with
  | none =>
      cases h
      exact ⟨.none, logical, .plain, rfl⟩
  | lz4 =>
      dsimp only at h
      cases hc : compress env logical .lz4 with
      | error e =>
          rw [hc] at h
          cases h
      | ok compressed =>
          rw [hc] at h
          dsimp only at h
          split at h
          · rename_i hsplit
            split at hsplit
            · cases hsplit
            · cases hsplit
          · rename_i codec' payload hsplit
            cases h
            split at hsplit
            · rename_i hshould
              cases hsplit
              exact ⟨.lz4, compressed, storedAs_compress hc hshould, rfl⟩
            · cases hsplit
              exact ⟨.none, logical, .plain, rfl⟩

theorem StoredAs.length_le {env : Env} {logical payload : Bytes} {codec : Codec}
    (h : StoredAs env logical codec payload) : payload.length ≤ logical.length := by
  cases h with
  | plain => exact le_rfl
  | compressed _ _ hlt => exact hlt.le

theorem StoredAs.decompress_eq {env : Env} (hlz4 : env.lz4.Inverts) {logical payload : Bytes}
    {codec : Codec} (h : StoredAs env logical codec payload) (hlen : logical.length < 2 ^ 32) :
    decompress env payload logical.length codec.toByte = .ok logical := by
  unfold decompress
  rw [Codec.ofByte?_toByte]
  cases h with
  | plain =>
      show (fits 32 logical.length >>= fun length =>
        if length ≠ logical.length then fail _ else pure logical) = _
      rw [fits_eq hlen, ok_bind, if_neg (not_not.mpr rfl)]
      rfl
  | compressed hc hne _ =>
      show decompressLZ4 env.lz4 payload logical.length = _
      unfold decompressLZ4
      rw [hlz4 _ _ hc hne]
      dsimp only
      rw [if_neg (lt_irrefl _), if_neg (not_not.mpr rfl)]
      rfl

/-- Decoding a block of good shape comes down to decompressing its payload. -/
theorem decodePhysicalBlock_physicalBlock (env : Env) (codec : Codec) {rawLen : Nat}
    (hraw : rawLen ≤ maxBlockSize) (payload : Bytes) :
    decodePhysicalBlock env (physicalBlock env codec rawLen payload) =
      mapError .decompress (decompress env payload rawLen codec.toByte) := by
  have hlen := physicalBlock_length env codec rawLen payload
  have hcheck := checkedBytes_length codec rawLen payload
  have hread : ∀ n, n < 2 ^ 32 → (readLE 4 (toLE 4 n) : Attempt BlockError Nat) = .ok n :=
    fun n hn => readLE_toLE_self (by omega)
  have hcrc := (env.crc (checkedBytes codec rawLen payload)).toNat_lt
  have hoffset : (physicalBlock env codec rawLen payload).length - blockTrailerSize =
      (checkedBytes codec rawLen payload).length := by
    rw [hlen, hcheck]
    omega
  have htrailer : (slice (physicalBlock env codec rawLen payload)
      (checkedBytes codec rawLen payload).length (physicalBlock env codec rawLen payload).length :
        Attempt BlockError Bytes) =
      .ok (toLE 4 (env.crc (checkedBytes codec rawLen payload)).toNat) := by
    rw [slice_to_end (by rw [hlen, hcheck]; omega), physicalBlock, List.drop_left]
  have hbody : (slice (physicalBlock env codec rawLen payload) 0
      (checkedBytes codec rawLen payload).length : Attempt BlockError Bytes) =
      .ok (checkedBytes codec rawLen payload) :=
    slice_append [] (checkedBytes codec rawLen payload) _ rfl (by simp)
  have hcode : (physicalBlock env codec rawLen payload)[0]? = some codec.toByte := rfl
  have hfield : (slice (physicalBlock env codec rawLen payload) 1 5 : Attempt BlockError Bytes) =
      .ok (toLE 4 rawLen) := by
    unfold physicalBlock checkedBytes
    rw [List.append_assoc]
    exact slice_append [codec.toByte] (toLE 4 rawLen) _ rfl (by simp)
  have hpayload : (slice (physicalBlock env codec rawLen payload) blockHeaderSize
      (checkedBytes codec rawLen payload).length : Attempt BlockError Bytes) = .ok payload := by
    refine slice_append (codec.toByte :: toLE 4 rawLen) payload _ ?_ ?_
    · simp [blockHeaderSize]
    · rw [hcheck]
      simp [blockHeaderSize]
  unfold decodePhysicalBlock
  unfold maxBlockSize at hraw
  rw [if_neg (by rw [hlen]; omega), sub_eq (by rw [hlen]; omega), ok_bind, hoffset, htrailer,
    ok_bind, hread _ (by omega), ok_bind, hbody, ok_bind]
  dsimp only
  rw [if_neg (not_not.mpr rfl), get_eq hcode, ok_bind, hfield, ok_bind, hread _ (by omega), ok_bind,
    if_neg (by unfold maxBlockSize; omega), hpayload, ok_bind]

/-- **A written block reads back.** -/
theorem decodePhysicalBlock_encode {env : Env} (hlz4 : env.lz4.Inverts) {logical physical : Bytes}
    {codec : Codec} {rate : SavingsRate}
    (h : encodePhysicalBlock env logical codec rate = .ok physical) :
    decodePhysicalBlock env physical = .ok logical := by
  obtain ⟨hsize, codec', payload, hstored, rfl⟩ := encodePhysicalBlock_eq_ok h
  rw [decodePhysicalBlock_physicalBlock env codec' hsize, hstored.decompress_eq hlz4 (by
    unfold maxBlockSize at hsize
    omega)]
  rfl

theorem encodePhysicalBlock_length {env : Env} {logical physical : Bytes}
    {codec : Codec} {rate : SavingsRate}
    (h : encodePhysicalBlock env logical codec rate = .ok physical) :
    0 < physical.length ∧ physical.length ≤ maxStoredBlockSize := by
  obtain ⟨hsize, codec', payload, hstored, rfl⟩ := encodePhysicalBlock_eq_ok h
  have hle := hstored.length_le
  rw [physicalBlock_length]
  unfold maxStoredBlockSize blockHeaderSize blockTrailerSize
  omega

/-! ### Blocks in a row -/

/-- The records make a block within the block size; only a single record may be larger. -/
def Sized (opts : WriteOptions) (recs : List Record) : Prop :=
  recs.length ≤ 1 ∨ ((logicalBlock opts.restartInterval.toNat recs).length : Int) ≤ opts.blockSize

/-- A block of the file: its records and its bytes. -/
structure StoredBlock (env : Env) (opts : WriteOptions) where
  recs : List Record
  physical : Bytes
  nonempty : recs ≠ []
  sized : Sized opts recs
  encoded : encodePhysicalBlock env (logicalBlock opts.restartInterval.toNat recs)
    opts.compression opts.minCompressionSavingsRate = .ok physical

section Blocks

variable {env : Env} {opts : WriteOptions}

def dataBytes (blocks : List (StoredBlock env opts)) : Bytes := blocks.flatMap (·.physical)

def blockRecords (blocks : List (StoredBlock env opts)) : List Record := blocks.flatMap (·.recs)

/-- The index of blocks that start at `offset`. -/
def entriesFrom (offset : Nat) : List (StoredBlock env opts) → List IndexEntry
  | [] => []
  | b :: blocks =>
      { firstKey := SSTable.smallestKey b.recs, offset, length := b.physical.length } ::
        entriesFrom (offset + b.physical.length) blocks

@[simp] theorem entriesFrom_length (offset : Nat) (blocks : List (StoredBlock env opts)) :
    (entriesFrom offset blocks).length = blocks.length := by
  induction blocks generalizing offset with
  | nil => rfl
  | cons b blocks ih => simp [entriesFrom, ih]

theorem entriesFrom_keys (offset : Nat) (blocks : List (StoredBlock env opts)) :
    (entriesFrom offset blocks).map (·.firstKey) =
      blocks.map fun b => SSTable.smallestKey b.recs := by
  induction blocks generalizing offset with
  | nil => rfl
  | cons b blocks ih => rw [entriesFrom, List.map_cons, List.map_cons, ih]

theorem dataBytes_append (bs cs : List (StoredBlock env opts)) :
    dataBytes (bs ++ cs) = dataBytes bs ++ dataBytes cs := List.flatMap_append

theorem dataBytes_cons (b : StoredBlock env opts) (blocks : List (StoredBlock env opts)) :
    dataBytes (b :: blocks) = b.physical ++ dataBytes blocks := rfl

theorem blockRecords_append (bs cs : List (StoredBlock env opts)) :
    blockRecords (bs ++ cs) = blockRecords bs ++ blockRecords cs := List.flatMap_append

/-- Entries count their offsets from what stands before them. -/
theorem entriesFrom_append (offset : Nat) (bs cs : List (StoredBlock env opts)) :
    entriesFrom offset (bs ++ cs) =
      entriesFrom offset bs ++ entriesFrom (offset + (dataBytes bs).length) cs := by
  induction bs generalizing offset with
  | nil => rfl
  | cons b bs ih =>
      rw [List.cons_append, entriesFrom, ih, dataBytes_cons, List.length_append, ← Nat.add_assoc]
      rfl

/-- The entry of a block says where the block is. -/
theorem entriesFrom_getElem? {blocks : List (StoredBlock env opts)} {i : Nat}
    {b : StoredBlock env opts} (h : blocks[i]? = some b) :
    (entriesFrom 0 blocks)[i]? = some
      { firstKey := SSTable.smallestKey b.recs
        offset := (dataBytes (blocks.take i)).length
        length := b.physical.length } := by
  obtain ⟨hi, rfl⟩ := List.getElem?_eq_some_iff.mp h
  have hsplit : blocks = blocks.take i ++ blocks[i] :: blocks.drop (i + 1) := by
    rw [← List.drop_eq_getElem_cons hi, List.take_append_drop]
  have hlen : (entriesFrom 0 (blocks.take i)).length = i := by
    rw [entriesFrom_length, List.length_take]
    omega
  conv_lhs => rw [hsplit, entriesFrom_append]
  rw [List.getElem?_append_right (by omega), hlen, Nat.sub_self, entriesFrom, Nat.zero_add]
  rfl

/-- Each entry is the entry of a block. -/
theorem mem_entriesFrom {blocks : List (StoredBlock env opts)} {e : IndexEntry}
    (h : e ∈ entriesFrom 0 blocks) :
    ∃ (i : Nat) (b : StoredBlock env opts), blocks[i]? = some b ∧
      e = { firstKey := SSTable.smallestKey b.recs
            offset := (dataBytes (blocks.take i)).length
            length := b.physical.length } := by
  obtain ⟨i, hi⟩ := List.getElem?_of_mem h
  have hlt : i < blocks.length := by
    obtain ⟨hlt, -⟩ := List.getElem?_eq_some_iff.mp hi
    rwa [entriesFrom_length] at hlt
  have hb := List.getElem?_eq_getElem hlt
  rw [entriesFrom_getElem? hb] at hi
  exact ⟨i, _, hb, (Option.some.inj hi).symm⟩

end Blocks

/-! ### The block being built -/

/-- The builder holds the records of the block so far. -/
structure BuilderAt (interval : Nat) (b : BlockBuilder) (current : List Record) : Prop where
  count : b.recordCount = current.length
  logical : current ≠ [] → b.logical = [0, 0, 0, 0] ++ recordsBytes current
  restarts : current ≠ [] → b.restartOffsets = restarts interval current
  firstKey : current ≠ [] → b.firstKey = SSTable.smallestKey current

theorem builderAt_empty (interval : Nat) : BuilderAt interval {} [] where
  count := rfl
  logical := fun h => absurd rfl h
  restarts := fun h => absurd rfl h
  firstKey := fun h => absurd rfl h

theorem BuilderAt.finish_eq {interval : Nat} {b : BlockBuilder} {current : List Record}
    (h : BuilderAt interval b current) (hne : current ≠ []) :
    b.finish interval = logicalBlock interval current := by
  unfold BlockBuilder.finish logicalBlock
  rw [h.count, h.logical hne, h.restarts hne]
  rfl

/-- The first record of a block. -/
theorem builderAt_start {interval : Nat} (hpos : 0 < interval) (rec : Record) :
    BuilderAt interval ((startBlock rec.key).append rec true) [rec] where
  count := rfl
  logical := fun _ => by
    show [0, 0, 0, 0] ++ rec.encodeBinary = [0, 0, 0, 0] ++ ([rec].flatMap Record.encodeBinary)
    rw [List.flatMap_singleton]
  restarts := fun _ => by
    have h := restarts_concat hpos [] rec
    rw [List.nil_append, if_pos (by simp)] at h
    rw [h]
    have hzero : restartCount interval 0 = 0 := by
      unfold restartCount
      exact Nat.div_eq_of_lt (by omega)
    simp [restarts, hzero, BlockBuilder.append, startBlock, recordsBytes]
  firstKey := fun _ => rfl

/-- One more record in a block that has some. -/
theorem BuilderAt.append {interval : Nat} (hpos : 0 < interval) {b : BlockBuilder}
    {current : List Record} (h : BuilderAt interval b current) (hne : current ≠ [])
    (rec : Record) :
    BuilderAt interval (b.append rec (b.recordCount % interval = 0)) (current ++ [rec]) where
  count := by
    show b.recordCount + 1 = _
    rw [h.count, List.length_append]
    rfl
  logical := fun _ => by
    show b.logical ++ rec.encodeBinary = _
    rw [h.logical hne, recordsBytes_append, List.append_assoc]
    simp [recordsBytes]
  restarts := fun _ => by
    show (if decide (b.recordCount % interval = 0) = true then
      b.restartOffsets ++ [b.logical.length] else b.restartOffsets) = _
    rw [restarts_concat hpos, h.restarts hne, h.logical hne, h.count]
    by_cases hmod : current.length % interval = 0
    · rw [if_pos (by simpa using hmod), if_pos hmod]
      simp
      omega
    · rw [if_neg (by simpa using hmod), if_neg hmod, List.append_nil]
  firstKey := fun _ => by
    show b.firstKey = _
    rw [h.firstKey hne]
    cases current with
    | nil => exact absurd rfl hne
    | cons r current => rfl

/-- The projected size is the size the block then has. -/
theorem BuilderAt.projectedSize_eq {interval : Nat} (hpos : 0 < interval) {b : BlockBuilder}
    {current : List Record} (h : BuilderAt interval b current) (hne : current ≠ [])
    (rec : Record) :
    b.projectedSize rec (b.recordCount % interval = 0) =
      (logicalBlock interval (current ++ [rec])).length := by
  have hrestarts := congrArg List.length (restarts_concat hpos current rec)
  rw [List.length_append, restarts_length, restarts_length] at hrestarts
  rw [logicalBlock_length, offsetOf_length, recordsBytes_append, hrestarts]
  unfold BlockBuilder.projectedSize
  rw [h.logical hne, h.restarts hne, h.count, restarts_length]
  by_cases hmod : current.length % interval = 0
  · simp [hmod, recordsBytes]
    omega
  · simp [hmod, recordsBytes]
    omega

/-! ### The loop of the writer -/

/-- Options as `normalizeWriteOptions` leaves them. -/
structure WriteOptions.Normal (opts : WriteOptions) : Prop where
  interval_pos : 0 < opts.restartInterval.toNat
  interval_lt : opts.restartInterval.toNat < 2 ^ 32

theorem normalizeWriteOptions_eq_ok {opts opts' : WriteOptions}
    (h : normalizeWriteOptions opts = .ok opts') : opts'.Normal := by
  have hpos : (0 : Int) <
      if opts.restartInterval ≤ 0 then defaultRestartInterval else opts.restartInterval := by
    unfold defaultRestartInterval
    split <;> omega
  unfold normalizeWriteOptions at h
  dsimp only at h
  generalize (if opts.restartInterval ≤ 0 then defaultRestartInterval
    else opts.restartInterval) = interval at h hpos
  by_cases hmax : 2 ^ 32 - 1 < interval
  · rw [if_pos hmax] at h
    cases h
  rw [if_neg hmax] at h
  split at h
  · cases h
  split at h
  · cases h
  cases h
  refine ⟨?_, ?_⟩
  · show 0 < interval.toNat
    omega
  · show interval.toNat < 2 ^ 32
    omega

/-- The bytes: the blocks that are closed are in the file and in the index, and the last records
are in the block being built. -/
structure Holds (env : Env) (opts : WriteOptions) (w : Writer)
    (blocks : List (StoredBlock env opts)) (current recs : List Record) : Prop where
  records : recs = blockRecords blocks ++ current
  file : w.file.bytes = dataBytes blocks
  index : w.index = entriesFrom 0 blocks
  block : BuilderAt opts.restartInterval.toNat w.block current
  sized : Sized opts current

/-- The filter with the keys of the records. -/
def addKeys (env : Env) (recs : List Record) (f : Bloom.Filter) : Bloom.Filter :=
  recs.foldl (fun f r => f.add env.hash128 r.key) f

/-- What the writer notes of the records: the last one, the bounds and the filter. -/
structure Notes (env : Env) (filter : Option Bloom.Filter) (w : Writer) (recs : List Record) :
    Prop where
  previous : w.previous = recs.getLast?.map fun r => (r.key, r.seq)
  smallest : w.smallestKey = SSTable.smallestKey recs
  largest : w.largestKey = SSTable.largestKey recs
  ordered : SSTable.writable recs = true
  filter : w.filter = filter.map (addKeys env recs)

theorem write_eq_ok {file file' : TableFile} {bytes : Bytes} (h : file.write bytes = .ok file') :
    file'.bytes = file.bytes ++ bytes := by
  unfold TableFile.write at h
  split at h
  · cases h
    rfl
  · cases h

section Loop

variable {env : Env} {opts : WriteOptions} {filter : Option Bloom.Filter} {w w' : Writer}
  {blocks : List (StoredBlock env opts)} {current recs : List Record}

/-- Closing the block being built, if it has records, touches nothing else. -/
theorem Holds.flushBlock (h : Holds env opts w blocks current recs)
    (hw : w.flushBlock env opts = .ok w') :
    (∃ blocks', Holds env opts w' blocks' [] recs) ∧
      w' = { w with file := w'.file, index := w'.index, block := w'.block } := by
  unfold Writer.flushBlock at hw
  by_cases hne : current = []
  · rw [if_pos (by rw [h.block.count, hne]; rfl)] at hw
    cases hw
    subst hne
    exact ⟨⟨blocks, h⟩, rfl⟩
  rw [if_neg (by
    rw [h.block.count]
    exact fun hz => hne (List.eq_nil_of_length_eq_zero hz)), h.block.finish_eq hne] at hw
  split at hw
  · cases hw
  rename_i physical hphysical
  split at hw
  · cases hw
  rename_i file hfile
  cases hw
  let b : StoredBlock env opts := ⟨current, physical, hne, h.sized, hphysical⟩
  refine ⟨⟨blocks ++ [b], ?_⟩, rfl⟩
  exact
    { records := by
        rw [h.records, blockRecords_append, List.append_nil]
        simp [blockRecords, b]
      file := by
        show file.bytes = _
        rw [write_eq_ok hfile, h.file, dataBytes_append]
        simp [dataBytes, b]
      index := by
        show w.index ++ [_] = _
        rw [h.index, entriesFrom_append, h.block.firstKey hne, TableFile.size, h.file, Nat.zero_add]
        rfl
      block := builderAt_empty _
      sized := Or.inl (Nat.zero_le 1) }

theorem writable_concat (rec : Record) :
    SSTable.writable (recs ++ [rec]) = true ↔ SSTable.writable recs = true ∧
      ∀ r, recs.getLast? = some r → less rec r = false := by
  induction recs with
  | nil => simp [SSTable.writable]
  | cons a recs ih =>
      cases recs with
      | nil =>
          show SSTable.writable (a :: rec :: []) = true ↔ _
          rw [SSTable.writable_cons]
          simp [SSTable.writable]
      | cons b recs =>
          show SSTable.writable (a :: b :: (recs ++ [rec])) = true ↔ _
          rw [SSTable.writable_cons, SSTable.writable_cons]
          rw [List.cons_append] at ih
          rw [ih, and_assoc, List.getLast?_cons_cons]

/-- The order check is the order of the records. -/
theorem checkOrder_eq_ok {rec : Record}
    (h : Writer.checkOrder (recs.getLast?.map fun r => (r.key, r.seq)) rec = .ok ()) :
    ∀ r, recs.getLast? = some r → less rec r = false := by
  intro r hr
  rw [hr] at h
  unfold Writer.checkOrder at h
  simp only [Option.map_some] at h
  rw [less_eq_false]
  split at h
  · cases h
  rename_i hkey
  split at h
  · cases h
  rename_i hseq
  rcases (not_lt.mp hkey).lt_or_eq with hlt | heq
  · exact Or.inl hlt
  · exact Or.inr ⟨heq, not_lt.mp fun hs => hseq ⟨heq, hs⟩⟩

theorem smallestKey_concat (rec : Record) :
    SSTable.smallestKey (recs ++ [rec]) =
      if (recs.getLast?.map fun r => (r.key, r.seq)).isNone then rec.key
      else SSTable.smallestKey recs := by
  cases recs with
  | nil => rfl
  | cons a recs =>
      rw [List.getLast?_cons]
      rfl

theorem largestKey_concat (rec : Record) : SSTable.largestKey (recs ++ [rec]) = rec.key := by
  simp [SSTable.largestKey]

theorem Notes.note (h : Notes env filter w recs) {rec : Record}
    (hcheck : Writer.checkOrder w.previous rec = .ok ()) :
    Notes env filter (w.note env rec) (recs ++ [rec]) where
  previous := by
    rw [List.getLast?_concat]
    rfl
  smallest := by
    show (if w.previous.isNone then rec.key else w.smallestKey) = _
    rw [smallestKey_concat, h.previous, h.smallest]
  largest := (largestKey_concat rec).symm
  ordered := by
    rw [h.previous] at hcheck
    exact (writable_concat rec).mpr ⟨h.ordered, checkOrder_eq_ok hcheck⟩
  filter := by
    show w.filter.map _ = _
    rw [h.filter, Option.map_map]
    congr 1
    funext f
    simp [addKeys]

/-- The notes do not depend on file, index and block. -/
theorem Notes.congr (h : Notes env filter w recs)
    (hw : w' = { w with file := w'.file, index := w'.index, block := w'.block }) :
    Notes env filter w' recs := by
  rw [hw]
  exact ⟨h.previous, h.smallest, h.largest, h.ordered, h.filter⟩

/-- The record goes behind those of its block, or into a new block. -/
theorem Holds.append (h : Holds env opts w blocks current recs) {rec : Record} {b : BlockBuilder}
    (hb : BuilderAt opts.restartInterval.toNat b (current ++ [rec]))
    (hsized : Sized opts (current ++ [rec])) :
    Holds env opts { w with block := b } blocks (current ++ [rec]) (recs ++ [rec]) where
  records := by rw [h.records, List.append_assoc]
  file := h.file
  index := h.index
  block := hb
  sized := hsized

/-- Making room and appending puts the record behind the others. -/
theorem Holds.makeRoom (hopts : opts.Normal) (h : Holds env opts w blocks current recs)
    {rec : Record} {addsRestart : Bool}
    (hw : (w.note env rec).makeRoom env opts rec
      ((w.note env rec).block.recordCount % opts.restartInterval.toNat = 0) =
        .ok (w', addsRestart)) :
    (∃ blocks' current', Holds env opts { w' with block := w'.block.append rec addsRestart } blocks'
        current' (recs ++ [rec])) ∧
      w' = { w.note env rec with file := w'.file, index := w'.index, block := w'.block } := by
  have hpos := hopts.interval_pos
  have hnoted : Holds env opts { w.note env rec with block := w.block } blocks current recs :=
    ⟨h.records, h.file, h.index, h.block, h.sized⟩
  unfold Writer.makeRoom at hw
  by_cases hne : current = []
  · -- A new block, which is never full.
    have hblock : (w.note env rec).block = startBlock rec.key :=
      if_pos (by rw [h.block.count, hne]; rfl)
    rw [if_neg (by rw [hblock]; exact fun hfull => absurd hfull.1 (lt_irrefl 0))] at hw
    cases hw
    refine ⟨⟨blocks, [rec], ?_⟩, rfl⟩
    subst hne
    refine hnoted.append ?_ (Or.inl le_rfl)
    rw [hblock]
    exact builderAt_start hpos rec
  · have hblock : (w.note env rec).block = w.block := by
      refine if_neg ?_
      rw [h.block.count]
      exact fun hz => hne (List.eq_nil_of_length_eq_zero hz)
    split at hw
    · split at hw
      · cases hw
      rename_i w₁ hflush
      cases hw
      have hsame : ({ w.note env rec with block := w.block } : Writer) = w.note env rec := by
        rw [← hblock]
      obtain ⟨⟨blocks', hclosed⟩, heq⟩ := (hsame ▸ hnoted).flushBlock hflush
      refine ⟨⟨blocks', [rec], ?_⟩, ?_⟩
      · exact hclosed.append (builderAt_start hpos rec) (Or.inl le_rfl)
      · rw [heq]
    · rename_i hroom
      cases hw
      refine ⟨⟨blocks, current ++ [rec], ?_⟩, rfl⟩
      rw [hblock] at hroom ⊢
      refine hnoted.append (h.block.append hpos hne rec) (Or.inr ?_)
      rw [← h.block.projectedSize_eq hpos hne rec]
      exact not_lt.mp fun hfull => hroom ⟨by
        rw [h.block.count]
        exact List.length_pos_of_ne_nil hne, hfull⟩

/-- **One record more.** -/
theorem writeRecord_eq_ok (hopts : opts.Normal) (h : Holds env opts w blocks current recs)
    (hnotes : Notes env filter w recs) {rec : Record}
    (hw : w.writeRecord env opts rec = .ok w') :
    (∃ blocks' current', Holds env opts w' blocks' current' (recs ++ [rec])) ∧
      Notes env filter w' (recs ++ [rec]) := by
  unfold Writer.writeRecord at hw
  split at hw
  · cases hw
  rename_i hcheck
  dsimp only at hw
  split at hw
  · cases hw
  rename_i w₁ addsRestart hroom
  cases hw
  obtain ⟨hholds, heq⟩ := h.makeRoom hopts hroom
  refine ⟨hholds, (hnotes.note hcheck).congr ?_⟩
  rw [heq]

/-- The whole loop. -/
theorem writeRecords_eq_ok (hopts : opts.Normal) {more : List Record}
    (h : Holds env opts w blocks current recs) (hnotes : Notes env filter w recs)
    (hw : w.writeRecords env opts more = .ok w') :
    (∃ blocks' current', Holds env opts w' blocks' current' (recs ++ more)) ∧
      Notes env filter w' (recs ++ more) := by
  induction more generalizing w blocks current recs with
  | nil =>
      cases hw
      rw [List.append_nil]
      exact ⟨⟨blocks, current, h⟩, hnotes⟩
  | cons rec more ih =>
      unfold Writer.writeRecords at hw
      split at hw
      · cases hw
      rename_i w₁ hrec
      obtain ⟨⟨blocks', current', hholds⟩, hnotes'⟩ := writeRecord_eq_ok hopts h hnotes hrec
      have hall := ih hholds hnotes' hw
      rwa [List.append_assoc] at hall

end Loop

/-! ### A finished file -/

/-- A written file: blocks, index, filter and footer. -/
structure Written (env : Env) (opts : WriteOptions) (filter : Option Bloom.Filter)
    (recs : List Record) (created : Created) where
  blocks : List (StoredBlock env opts)
  filterBytes : Bytes
  options : opts.Normal
  records : recs = blockRecords blocks
  ordered : SSTable.writable recs = true
  smallest : created.smallestKey = SSTable.smallestKey recs
  largest : created.largestKey = SSTable.largestKey recs
  size : created.sizeBytes = created.file.size
  /-- A filter has no more hash functions than its format allows. -/
  hashes : ∀ f, filter = some f → f.hashCount ≤ 30
  /-- The filter holds the keys of all records. -/
  encoded : encodeFilter (filter.map (addKeys env recs)) = .ok filterBytes
  bytes : created.file.bytes =
    dataBytes blocks ++ indexBytes (entriesFrom 0 blocks) ++ filterBytes ++
      footerBytes (dataBytes blocks).length (indexBytes (entriesFrom 0 blocks)).length
        (if filter.isSome then (dataBytes blocks ++ indexBytes (entriesFrom 0 blocks)).length
          else 0) filterBytes.length

theorem newFilter_hashCount {opts : WriteOptions} {hint : Int} {filter : Option Bloom.Filter}
    (h : newFilter opts hint = .ok filter) {f : Bloom.Filter} (hf : filter = some f) :
    f.hashCount ≤ 30 := by
  unfold newFilter at h
  split at h
  · split at h
    · cases h
    · rename_i f' hnew
      cases h
      cases hf
      exact Bloom.new_hashCount hnew
  · cases h
    cases hf

/-- **What the writer makes of a list of records.** -/
theorem created_written {env : Env} {it : RecordIterator} {hint : Int} {opts : WriteOptions}
    {created : Created} (h : createFromIteratorWithOptions env it hint opts = .ok created) :
    ∃ opts' filter, normalizeWriteOptions opts = .ok opts' ∧ newFilter opts' hint = .ok filter ∧
      Nonempty (Written env opts' filter it.records created) := by
  unfold createFromIteratorWithOptions at h
  obtain ⟨opts', hopts, h⟩ := bind_eq_ok h
  obtain ⟨filter, hfilter, h⟩ := bind_eq_ok h
  obtain ⟨w, hw, h⟩ := bind_eq_ok h
  have hnormal := normalizeWriteOptions_eq_ok hopts
  have hstart : Holds env opts' { filter } [] [] [] :=
    ⟨rfl, rfl, rfl, builderAt_empty _, Or.inl (Nat.zero_le 1)⟩
  have hnotes : Notes env filter { filter } [] :=
    ⟨rfl, rfl, rfl, rfl, by cases filter <;> rfl⟩
  obtain ⟨⟨blocks, current, hholds⟩, hnotes'⟩ := writeRecords_eq_ok hnormal hstart hnotes hw
  rw [List.nil_append] at hholds hnotes'
  split at h
  · cases h
  obtain ⟨w₁, hflush, h⟩ := bind_eq_ok h
  obtain ⟨⟨blocks', hclosed⟩, heq⟩ := hholds.flushBlock hflush
  have hnotes₁ := hnotes'.congr heq
  unfold Writer.finish at h
  obtain ⟨file₁, hfile₁, h⟩ := bind_eq_ok h
  obtain ⟨filterBytes, hencode, h⟩ := bind_eq_ok h
  obtain ⟨file₂, hfile₂, h⟩ := bind_eq_ok h
  obtain ⟨file₃, hfile₃, h⟩ := bind_eq_ok h
  cases h
  have hbytes₁ := write_eq_ok hfile₁
  have hbytes₂ := write_eq_ok hfile₂
  have hbytes₃ := write_eq_ok hfile₃
  rw [hclosed.file, hclosed.index] at hbytes₁
  refine ⟨opts', filter, hopts, hfilter, ⟨?_⟩⟩
  exact
    { blocks := blocks'
      filterBytes
      options := hnormal
      records := by rw [hclosed.records, List.append_nil]
      ordered := hnotes₁.ordered
      smallest := hnotes₁.smallest
      largest := hnotes₁.largest
      size := rfl
      hashes := fun f hf => newFilter_hashCount hfilter hf
      encoded := by
        rw [← hnotes₁.filter]
        exact hencode
      bytes := by
        show file₃.bytes = _
        have hsome : w₁.filter.isSome = filter.isSome := by
          rw [hnotes₁.filter, Option.isSome_map]
        rw [hbytes₃, hbytes₂, hbytes₁, TableFile.size, TableFile.size, hclosed.file, hbytes₁,
          hsome, List.length_append, Nat.add_sub_cancel_left] }

end HyphaDB.Table
