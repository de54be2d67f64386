import HyphaDB.Table.Reads

/-!
# HyphaDB.Table.Limits

What the writer publishes and the **limits of the reader**.

The writer bounds a block, and nothing else: a sorted list of records that fit makes a file
(`create_ok`), however long its index gets. The reader refuses an index or a filter of more than
256 MiB. A file is therefore readable exactly when both are within the limits
(`published_readable_iff`), and the index passes its limit with 4096 records of the longest key:
each of them is larger than a block and gets one of its own.
-/

namespace HyphaDB.Table

open Checked
open Record (headerSize maxKeySize maxValueSize)

/-! ### The writer does not fail -/

/-- LZ4 compresses every source. -/
def Lz4.Total (lz4 : Lz4) : Prop := ∀ src, ∃ dst, lz4.compressBlock src = some dst

theorem storingEnv_total : storingEnv.lz4.Total := fun _ => ⟨[], rfl⟩

theorem encodePhysicalBlock_ok {env : Env} (htotal : env.lz4.Total) {logical : Bytes}
    (hlen : logical.length ≤ maxBlockSize) (codec : Codec) (rate : SavingsRate) :
    ∃ physical, encodePhysicalBlock env logical codec rate = .ok physical := by
  unfold encodePhysicalBlock
  rw [if_neg (by omega)]
  cases codec with
  | none => exact ⟨_, rfl⟩
  | lz4 =>
      have hcompress : ∃ compressed, compress env logical .lz4 = .ok compressed := by
        show ∃ compressed, compressLZ4 env.lz4 logical = .ok compressed
        unfold compressLZ4
        obtain ⟨dst, hdst⟩ := htotal logical
        rw [hdst]
        split
        · exact ⟨_, rfl⟩
        · dsimp only
          split
          · exact ⟨_, rfl⟩
          · exact ⟨_, rfl⟩
      obtain ⟨compressed, hcompressed⟩ := hcompress
      dsimp only
      rw [hcompressed]
      dsimp only
      split
      · rename_i hsplit
        split at hsplit
        · cases hsplit
        · cases hsplit
      · exact ⟨_, rfl⟩

theorem write_ok {file : TableFile} {bytes : Bytes}
    (h : file.bytes.length + bytes.length < 2 ^ 63) : ∃ file', file.write bytes = .ok file' := by
  unfold TableFile.write
  rw [dif_pos (by rw [List.length_append]; exact h)]
  exact ⟨_, rfl⟩

section Sizes

variable {env : Env} {opts : WriteOptions}

theorem blocks_length_le (blocks : List (StoredBlock env opts)) :
    blocks.length ≤ (blockRecords blocks).length := by
  induction blocks with
  | nil => exact le_rfl
  | cons b blocks ih =>
      have hpos := List.length_pos_of_ne_nil b.nonempty
      show blocks.length + 1 ≤ (b.recs ++ blockRecords blocks).length
      rw [List.length_append]
      omega

theorem dataBytes_length_le (blocks : List (StoredBlock env opts)) :
    (dataBytes blocks).length ≤ maxStoredBlockSize * blocks.length := by
  induction blocks with
  | nil => exact le_rfl
  | cons b blocks ih =>
      have hle := (encodePhysicalBlock_length b.encoded).2
      rw [dataBytes_cons, List.length_append, List.length_cons, Nat.mul_succ]
      omega

theorem indexBytes_length_le {entries : List IndexEntry}
    (h : ∀ e ∈ entries, e.firstKey.length ≤ maxKeySize) :
    (indexBytes entries).length ≤ 4 + (16 + maxKeySize) * entries.length := by
  unfold indexBytes
  rw [List.length_append, toLE_length]
  refine Nat.add_le_add_left ?_ 4
  induction entries with
  | nil => simp
  | cons e entries ih =>
      have he := h e List.mem_cons_self
      have hrest := ih fun e' he' => h e' (List.mem_cons_of_mem e he')
      rw [List.flatMap_cons, List.length_append, List.length_cons, Nat.mul_succ]
      simp only [entryBytes, List.length_append, toLE_length]
      omega

/-- A single record makes a block within the limit. -/
theorem logicalBlock_singleton_le {interval : Nat} (hpos : 0 < interval) {r : Record}
    (hr : r.Fits) : (logicalBlock interval [r]).length ≤ maxBlockSize := by
  obtain ⟨hk, hv⟩ := hr
  have hone : restartCount interval 1 = 1 := by
    unfold restartCount
    rw [show 1 + interval - 1 = interval by omega]
    exact Nat.div_self hpos
  rw [logicalBlock_length, offsetOf_length, List.length_singleton, hone]
  simp only [recordsBytes, List.flatMap_singleton, Record.encodeBinary_length, Record.encodedSize]
  unfold maxBlockSize headerSize at *
  unfold maxKeySize at hk
  unfold maxValueSize at hv
  omega

/-- What the writer closes is within the limit of a block. -/
theorem Sized.length_le {recs : List Record} (h : Sized opts recs) (hopts : opts.Normal)
    (hsize : opts.blockSize ≤ maxBlockSize) (hne : recs ≠ []) (hfits : ∀ r ∈ recs, r.Fits) :
    (logicalBlock opts.restartInterval.toNat recs).length ≤ maxBlockSize := by
  rcases h with hone | hle
  · obtain ⟨r, rfl⟩ : ∃ r, recs = [r] := by
      refine List.length_eq_one_iff.mp ?_
      have := List.length_pos_of_ne_nil hne
      omega
    exact logicalBlock_singleton_le hopts.interval_pos (hfits r List.mem_cons_self)
  · omega

variable {filter : Option Bloom.Filter} {w : Writer} {blocks : List (StoredBlock env opts)}
  {current recs : List Record}

/-- The file of a writer within bounds that leave room for the rest. -/
theorem Holds.file_lt (h : Holds env opts w blocks current recs) (hlen : recs.length < 2 ^ 32) :
    w.file.bytes.length < 2 ^ 61 := by
  have hblocks := blocks_length_le blocks
  have hrecs : (blockRecords blocks).length ≤ recs.length := by
    rw [h.records, List.length_append]
    omega
  have hdata := dataBytes_length_le blocks
  have hmul : maxStoredBlockSize * blocks.length ≤ maxStoredBlockSize * 2 ^ 32 :=
    Nat.mul_le_mul_left _ (by omega)
  rw [h.file]
  refine lt_of_le_of_lt (hdata.trans hmul) ?_
  decide

theorem Holds.flushBlock_ok (htotal : env.lz4.Total) (hopts : opts.Normal)
    (hsize : opts.blockSize ≤ maxBlockSize) (h : Holds env opts w blocks current recs)
    (hfits : ∀ r ∈ recs, r.Fits) (hlen : recs.length < 2 ^ 32) :
    ∃ w', w.flushBlock env opts = .ok w' := by
  unfold Writer.flushBlock
  split
  · exact ⟨_, rfl⟩
  · rename_i hcount
    have hne : current ≠ [] := by
      rintro rfl
      exact hcount h.block.count
    have hcurrent : ∀ r ∈ current, r.Fits := by
      intro r hr
      refine hfits r ?_
      rw [h.records]
      exact List.mem_append_right _ hr
    have hblock := h.sized.length_le hopts hsize hne hcurrent
    rw [h.block.finish_eq hne]
    obtain ⟨physical, hphysical⟩ := encodePhysicalBlock_ok htotal hblock opts.compression
      opts.minCompressionSavingsRate
    have hplen := (encodePhysicalBlock_length hphysical).2
    have hfile := h.file_lt hlen
    obtain ⟨file', hfile'⟩ := @write_ok w.file physical (by
      unfold maxStoredBlockSize maxBlockSize blockHeaderSize blockTrailerSize at hplen
      omega)
    rw [hphysical]
    dsimp only
    rw [hfile']
    exact ⟨_, rfl⟩

theorem checkOrder_ok {rec : Record} (h : ∀ r, recs.getLast? = some r → less rec r = false) :
    Writer.checkOrder (recs.getLast?.map fun r => (r.key, r.seq)) rec = .ok () := by
  unfold Writer.checkOrder
  cases hlast : recs.getLast? with
  | none => rfl
  | some r =>
      rcases less_eq_false.mp (h r hlast) with hlt | ⟨heq, hseq⟩
      · simp only [Option.map_some]
        rw [if_neg (not_lt.mpr hlt.le), if_neg (fun hs => absurd hs.1 hlt.ne)]
      · simp only [Option.map_some]
        rw [if_neg (by rw [heq]; exact lt_irrefl _),
          if_neg (fun hs => absurd hs.2 (not_lt.mpr hseq))]

theorem Holds.writeRecord_ok (htotal : env.lz4.Total) (hopts : opts.Normal)
    (hsize : opts.blockSize ≤ maxBlockSize) (h : Holds env opts w blocks current recs)
    (hnotes : Notes env filter w recs) (hfits : ∀ r ∈ recs, r.Fits) {rec : Record}
    (horder : SSTable.writable (recs ++ [rec]) = true) (hlen : recs.length < 2 ^ 32) :
    ∃ w', w.writeRecord env opts rec = .ok w' := by
  have hcheck := checkOrder_ok ((writable_concat rec).mp horder).2
  unfold Writer.writeRecord
  rw [hnotes.previous, hcheck]
  dsimp only
  have hroom : ∀ adds, ∃ p, (w.note env rec).makeRoom env opts rec adds = .ok p := by
    intro adds
    unfold Writer.makeRoom
    split
    · rename_i hfull
      -- A block that is full has records, so it is the one the writer had.
      have hne : current ≠ [] := by
        rintro rfl
        have hblock : (w.note env rec).block = startBlock rec.key := if_pos h.block.count
        rw [hblock] at hfull
        exact absurd hfull.1 (lt_irrefl 0)
      have hblock : (w.note env rec).block = w.block := by
        refine if_neg ?_
        rw [h.block.count]
        exact fun hz => hne (List.eq_nil_of_length_eq_zero hz)
      have hnoted : Holds env opts (w.note env rec) blocks current recs :=
        ⟨h.records, h.file, h.index, hblock ▸ h.block, h.sized⟩
      obtain ⟨w', hw'⟩ := hnoted.flushBlock_ok htotal hopts hsize hfits hlen
      rw [hw']
      exact ⟨_, rfl⟩
    · exact ⟨_, rfl⟩
  obtain ⟨p, hp⟩ := hroom ((w.note env rec).block.recordCount % opts.restartInterval.toNat = 0)
  rw [hp]
  exact ⟨_, rfl⟩

theorem Holds.writeRecords_ok (htotal : env.lz4.Total) (hopts : opts.Normal)
    (hsize : opts.blockSize ≤ maxBlockSize) {more : List Record}
    (h : Holds env opts w blocks current recs) (hnotes : Notes env filter w recs)
    (hfits : ∀ r ∈ recs ++ more, r.Fits) (horder : SSTable.writable (recs ++ more) = true)
    (hlen : (recs ++ more).length < 2 ^ 32) :
    ∃ w', w.writeRecords env opts more = .ok w' := by
  induction more generalizing w blocks current recs with
  | nil => exact ⟨w, rfl⟩
  | cons rec more ih =>
      have hsplit : recs ++ rec :: more = recs ++ [rec] ++ more := by simp
      rw [hsplit] at hfits horder hlen
      have horder' : SSTable.writable (recs ++ [rec]) = true := by
        rw [SSTable.writable_iff] at horder ⊢
        exact (List.pairwise_append.mp horder).1
      obtain ⟨w', hw'⟩ := h.writeRecord_ok htotal hopts hsize hnotes
        (fun r hr => hfits r (by simp [hr])) horder' (by
          simp only [List.length_append] at hlen
          omega)
      obtain ⟨⟨blocks', current', hholds⟩, hnotes'⟩ := writeRecord_eq_ok hopts h hnotes hw'
      obtain ⟨w'', hw''⟩ := ih hholds hnotes' hfits horder hlen
      refine ⟨w'', ?_⟩
      unfold Writer.writeRecords
      rw [hw']
      exact hw''

end Sizes

/-- **Every sorted list of records that fit makes a file.** -/
theorem create_ok {env : Env} (htotal : env.lz4.Total) {recs : List Record}
    (horder : SSTable.writable recs = true) (hfits : ∀ r ∈ recs, r.Fits)
    (hlen : recs.length < 2 ^ 32) {opts opts' : WriteOptions} {hint : Int}
    {filter : Option Bloom.Filter} {encodedFilter : Bytes}
    (hnormal : normalizeWriteOptions opts = .ok opts') (hsize : opts'.blockSize ≤ maxBlockSize)
    (hfilter : newFilter opts' hint = .ok filter)
    (hencode : encodeFilter (filter.map (addKeys env recs)) = .ok encodedFilter)
    (hencoded : encodedFilter.length < 2 ^ 62) :
    ∃ created, createFromIteratorWithOptions env { records := recs } hint opts = .ok created := by
  have hopts := normalizeWriteOptions_eq_ok hnormal
  have hstart : Holds env opts' { filter } [] [] [] :=
    ⟨rfl, rfl, rfl, builderAt_empty _, Or.inl (Nat.zero_le 1)⟩
  have hnotes : Notes env filter { filter } [] :=
    ⟨rfl, rfl, rfl, rfl, by cases filter <;> rfl⟩
  obtain ⟨w, hw⟩ := hstart.writeRecords_ok htotal hopts hsize hnotes hfits horder hlen
  obtain ⟨⟨blocks, current, hholds⟩, hnotes'⟩ := writeRecords_eq_ok hopts hstart hnotes hw
  rw [List.nil_append] at hholds hnotes'
  obtain ⟨w', hflush⟩ := hholds.flushBlock_ok htotal hopts hsize hfits hlen
  obtain ⟨⟨blocks', hclosed⟩, heq⟩ := hholds.flushBlock hflush
  have hnotes'' := hnotes'.congr heq
  have hfile := hclosed.file_lt hlen
  have hkeys : ∀ e ∈ w'.index, e.firstKey.length ≤ maxKeySize := by
    intro e he
    rw [hclosed.index] at he
    obtain ⟨i, b, hb, rfl⟩ := mem_entriesFrom he
    obtain ⟨r, hr, hkey⟩ := SSTable.smallestKey_mem b.nonempty
    show (SSTable.smallestKey b.recs).length ≤ maxKeySize
    rw [← hkey]
    refine (hfits r ?_).1
    rw [hclosed.records, List.append_nil]
    exact List.mem_flatMap.mpr ⟨_, List.mem_of_getElem? hb, hr⟩
  have hindex := indexBytes_length_le hkeys
  have hcount : w'.index.length < 2 ^ 32 := by
    have hle := blocks_length_le blocks'
    rw [hclosed.records, List.append_nil] at hlen
    rw [hclosed.index, entriesFrom_length]
    omega
  unfold maxKeySize at hindex
  obtain ⟨file₁, hfile₁⟩ := @write_ok w'.file (indexBytes w'.index) (by omega)
  have hbytes₁ := write_eq_ok hfile₁
  have hlen₁ : file₁.bytes.length = w'.file.bytes.length + (indexBytes w'.index).length := by
    rw [hbytes₁, List.length_append]
  obtain ⟨file₂, hfile₂⟩ := @write_ok file₁ encodedFilter (by omega)
  have hbytes₂ := write_eq_ok hfile₂
  have hlen₂ : file₂.bytes.length = file₁.bytes.length + encodedFilter.length := by
    rw [hbytes₂, List.length_append]
  obtain ⟨file₃, hfile₃⟩ := @write_ok file₂
    (footerBytes w'.file.size (file₁.size - w'.file.size)
      (if w'.filter.isSome then file₁.size else 0) encodedFilter.length)
    (by rw [footerBytes_length]; unfold footerSize; omega)
  refine ⟨⟨file₃, file₃.size, w'.smallestKey, w'.largestKey⟩, ?_⟩
  unfold createFromIteratorWithOptions
  rw [hnormal]
  show (newFilter opts' hint >>= _) = _
  rw [hfilter]
  show (Writer.writeRecords env opts' { filter } recs >>= _) = _
  rw [hw]
  show (w.flushBlock env opts' >>= _) = _
  rw [hflush]
  show w'.finish = _
  unfold Writer.finish
  rw [hfile₁]
  show (encodeFilter w'.filter >>= _) = _
  rw [hnotes''.filter, hencode]
  show (file₁.write encodedFilter >>= _) = _
  rw [hfile₂]
  show (file₂.write _ >>= _) = _
  rw [← hnotes''.filter, hfile₃]
  rfl

/-! ### Readable files -/

/-- The file loads, and every block its index names can be read. -/
def Readable (env : Env) (file : TableFile) : Prop :=
  ∃ md, loadMetadata file = .ok md ∧
    ∀ e ∈ md.index, ∃ logical, readLogicalBlock env file e = .ok logical

/-- A footer that names too much does not load. -/
theorem loadMetadata_within {file : TableFile} {footer : FooterMetadata} {md : Metadata}
    (hfooter : readFooter file = .ok footer) (h : loadMetadata file = .ok md) :
    footer.indexLength ≤ maxIndexSize ∧ footer.filterLength ≤ maxFilterSize := by
  unfold loadMetadata at h
  rw [hfooter, ok_bind] at h
  constructor
  · by_contra hlarge
    unfold loadIndex checkedBufferLength at h
    rw [if_pos (not_le.mp hlarge)] at h
    cases h
  · by_contra hlarge
    cases hindex : loadIndex file footer with
    | error e =>
        rw [hindex] at h
        cases h
    | ok index =>
        rw [hindex, ok_bind] at h
        unfold loadFilter checkedBufferLength at h
        rw [if_pos (not_le.mp hlarge)] at h
        cases h

/-- **The reader accepts what the writer publishes exactly within its limits**: index and filter
of at most 256 MiB each. -/
theorem published_readable_iff {env : Env} (hlz4 : env.lz4.Inverts) {it : RecordIterator}
    {hint : Int} {opts : WriteOptions} {created : Created}
    (hcreate : createFromIteratorWithOptions env it hint opts = .ok created)
    (hfits : ∀ r ∈ it.records, r.Fits) :
    Readable env created.file ↔ WithinLimits created.file := by
  obtain ⟨opts', filter, -, -, ⟨W⟩⟩ := created_written hcreate
  constructor
  · rintro ⟨md, hmd, -⟩
    exact ⟨W.footer, W.readFooter_eq, loadMetadata_within W.readFooter_eq hmd⟩
  · rintro ⟨footer, hfooter, hindex, hfilter⟩
    rw [W.readFooter_eq] at hfooter
    cases hfooter
    have hW : W.Within := ⟨hfits, hindex, hfilter⟩
    refine ⟨W.metadata, W.loadMetadata_eq hW, fun e he => ?_⟩
    obtain ⟨i, b, hb, rfl⟩ := mem_entriesFrom (show e ∈ entriesFrom 0 W.blocks from he)
    exact ⟨_, W.readLogicalBlock_eq hlz4 W.bytes_blocks hb⟩

theorem published_readable_iff_trimmed : Readable trimmingEnv trimmedTable.file :=
  (published_readable_iff trimmingEnv_inverts trimmedTable_created (by decide)).mpr
    trimmedTable_within

/-! ### An index that is too long -/

/-- A filter that `New` makes can be encoded, whatever is added to it. -/
theorem newFilter_encodes (env : Env) {opts : WriteOptions} {hint : Int} (recs : List Record)
    (henabled : opts.bloomEnabled = true) (hrate : opts.falsePositiveRate.inRange = true)
    (hhint : 0 < hint) (hpos : 0 < (opts.falsePositiveRate.bitCount hint.toNat).toNat)
    (hlt : (opts.falsePositiveRate.bitCount hint.toNat).toNat + 7 < 2 ^ 64) :
    ∃ f encodedFilter, newFilter opts hint = .ok (some f) ∧
      encodeFilter ((some f).map (addKeys env recs)) = .ok encodedFilter ∧
      encodedFilter.length < 2 ^ 62 := by
  generalize hn : opts.falsePositiveRate.bitCount hint.toNat = bitCount at hpos hlt
  have hbytes : ((bitCount + 7) / 8).toNat = (bitCount.toNat + 7) / 8 := by
    rw [UInt64.toNat_div, UInt64.toNat_add, show (7 : UInt64).toNat = 7 from rfl,
      show (8 : UInt64).toNat = 8 from rfl, Nat.mod_eq_of_lt hlt]
  have hbits : ((bitCount + 7) / 8 * 8).toNat = (bitCount.toNat + 7) / 8 * 8 := by
    rw [UInt64.toNat_mul, hbytes, show (8 : UInt64).toNat = 8 from rfl]
    exact Nat.mod_eq_of_lt (by omega)
  generalize hk : min (max (opts.falsePositiveRate.hashCount hint.toNat bitCount) 1) 30 = hashCount
  have hk' : 1 ≤ hashCount ∧ hashCount ≤ 30 := by omega
  let f : Bloom.Filter :=
    { bits := List.replicate ((bitCount + 7) / 8).toNat 0
      bitCount := (bitCount + 7) / 8 * 8
      hashCount := UInt8.ofNat hashCount.toNat }
  have hnew : newFilter opts hint = .ok (some f) := by
    unfold newFilter Bloom.new
    rw [if_pos ⟨henabled, hhint⟩, if_neg (by omega), hrate]
    dsimp only [Bool.not_true]
    rw [if_neg (by decide), hn, hk]
  have hhash : (addKeys env recs f).hashCount ≠ 0 := by
    rw [addKeys_hashCount]
    intro hzero
    have hnat := congrArg UInt8.toNat hzero
    rw [UInt8.toNat_ofNat', show (0 : UInt8).toNat = 0 from rfl] at hnat
    omega
  have hcount : (addKeys env recs f).bitCount = (bitCount + 7) / 8 * 8 :=
    addKeys_bitCount env recs f
  have hlen : (addKeys env recs f).bits.length = (bitCount.toNat + 7) / 8 := by
    rw [addKeys_bits_length, List.length_replicate, hbytes]
  have hencode : ∃ buf, (addKeys env recs f).encode = .ok buf := by
    unfold Bloom.Filter.encode
    rw [if_neg hhash, hcount, if_neg, if_neg]
    · exact ⟨_, rfl⟩
    · rw [hlen, UInt64.toNat_div, hbits, show (8 : UInt64).toNat = 8 from rfl]
      omega
    · rintro (hzero | hmod)
      · have hnat := congrArg UInt64.toNat hzero
        rw [hbits, show (0 : UInt64).toNat = 0 from rfl] at hnat
        omega
      · apply hmod
        apply UInt64.toNat_inj.mp
        rw [UInt64.toNat_mod, hbits, show (8 : UInt64).toNat = 8 from rfl,
          show (0 : UInt64).toNat = 0 from rfl]
        omega
  obtain ⟨buf, hbuf⟩ := hencode
  refine ⟨f, buf, hnew, ?_, ?_⟩
  · simp only [Option.map_some, encodeFilter, hbuf]
  · rw [Bloom.encode_length hbuf, hlen]
    unfold Bloom.encodedHeaderSize
    omega

/-- Records that each exceed the block size have a block each. -/
theorem Written.blocks_length {env : Env} {opts : WriteOptions} {filter : Option Bloom.Filter}
    {recs : List Record} {created : Created} (W : Written env opts filter recs created)
    (hlarge : ∀ r ∈ recs, opts.blockSize < r.encodedSize) : W.blocks.length = recs.length := by
  have hone : ∀ b ∈ W.blocks, b.recs.length = 1 := by
    intro b hb
    have hpos := List.length_pos_of_ne_nil b.nonempty
    rcases b.sized with hle | hle
    · omega
    · cases hrecs : b.recs with
      | nil => exact absurd hrecs b.nonempty
      | cons r rest =>
          have hr : r ∈ recs := by
            rw [W.records]
            exact List.mem_flatMap.mpr ⟨b, hb, by rw [hrecs]; exact List.mem_cons_self⟩
          have hsize := hlarge r hr
          rw [logicalBlock_length, offsetOf_length, hrecs, recordsBytes_cons, List.length_append,
            Record.encodeBinary_length] at hle
          omega
  have hlen : (blockRecords W.blocks).length = W.blocks.length := by
    unfold blockRecords
    rw [List.length_flatMap, List.map_congr_left hone]
    simp
  exact hlen.symm.trans (congrArg List.length W.records).symm

theorem indexBytes_length_eq {entries : List IndexEntry} {k : Nat}
    (h : ∀ e ∈ entries, e.firstKey.length = k) :
    (indexBytes entries).length = 4 + (16 + k) * entries.length := by
  unfold indexBytes
  rw [List.length_append, toLE_length, List.length_flatMap]
  have hmap : entries.map (fun e => (entryBytes e).length) = entries.map fun _ => 16 + k := by
    refine List.map_congr_left fun e he => ?_
    simp only [entryBytes, List.length_append, toLE_length, h e he]
  rw [hmap]
  simp [Nat.mul_comm]

/-- `n` versions of a key, the newest first. -/
def versionsOf (key : Key) (n : Nat) : List Record :=
  (List.range n).map fun i => { key, seq := UInt64.ofNat (n - i) }

theorem versionsOf_length (key : Key) (n : Nat) : (versionsOf key n).length = n := by
  rw [versionsOf, List.length_map, List.length_range]

theorem mem_versionsOf {key : Key} {n : Nat} {r : Record} (h : r ∈ versionsOf key n) :
    r.key = key ∧ r.value = [] := by
  obtain ⟨i, -, rfl⟩ := List.mem_map.mp h
  exact ⟨rfl, rfl⟩

theorem versionsOf_writable (key : Key) {n : Nat} (hn : n < 2 ^ 64) :
    SSTable.writable (versionsOf key n) = true := by
  rw [SSTable.writable_iff]
  unfold InOrder versionsOf
  rw [List.pairwise_map]
  refine List.pairwise_lt_range.imp fun {i j} hij => ?_
  rw [less_eq_false]
  refine Or.inr ⟨rfl, ?_⟩
  show UInt64.ofNat (n - j) ≤ UInt64.ofNat (n - i)
  rw [UInt64.le_iff_toNat_le, UInt64.toNat_ofNat', UInt64.toNat_ofNat',
    Nat.mod_eq_of_lt (a := n - j) (by omega), Nat.mod_eq_of_lt (a := n - i) (by omega)]
  omega

/-- Versions of the longest key make an index that grows by the key with each of them. -/
theorem longKey_index {n : Nat} {filter : Option Bloom.Filter}
    {created : Created} (W : Written storingEnv defaultWriteOptions filter
      (versionsOf (List.replicate maxKeySize 0) n) created) :
    W.footer.indexLength = 4 + (16 + maxKeySize) * n := by
  have hlarge : ∀ r ∈ versionsOf (List.replicate maxKeySize 0) n,
      defaultWriteOptions.blockSize < r.encodedSize := by
    intro r hr
    unfold Record.encodedSize
    rw [(mem_versionsOf hr).1, List.length_replicate]
    show (64 * 1024 : Int) < _
    unfold headerSize maxKeySize
    omega
  have hblocks : W.blocks.length = n := (W.blocks_length hlarge).trans (versionsOf_length _ n)
  have hkeys : ∀ e ∈ entriesFrom 0 W.blocks, e.firstKey.length = maxKeySize := by
    intro e he
    obtain ⟨i, b, hb, rfl⟩ := mem_entriesFrom he
    obtain ⟨r, hr, hkey⟩ := SSTable.smallestKey_mem b.nonempty
    have hmem : r ∈ versionsOf (List.replicate maxKeySize 0) n := by
      rw [W.records]
      exact List.mem_flatMap.mpr ⟨_, List.mem_of_getElem? hb, hr⟩
    show (SSTable.smallestKey b.recs).length = maxKeySize
    rw [← hkey, (mem_versionsOf hmem).1, List.length_replicate]
  show (indexBytes (entriesFrom 0 W.blocks)).length = _
  rw [indexBytes_length_eq hkeys, entriesFrom_length, hblocks]

/-- The default options make a table of every number of versions of the longest key. -/
theorem longKey_created {n : Nat} (hpos : 0 < n) (hn : n < 2 ^ 32) :
    ∃ created, createFromIteratorWithOptions storingEnv
      { records := versionsOf (List.replicate maxKeySize 0) n } n defaultWriteOptions =
        .ok created := by
  have hfits : ∀ r ∈ versionsOf (List.replicate maxKeySize 0) n, r.Fits := by
    intro r hr
    obtain ⟨hkey, hvalue⟩ := mem_versionsOf hr
    refine ⟨?_, ?_⟩
    · rw [hkey, List.length_replicate]
    · rw [hvalue]
      exact Nat.zero_le _
  have hbits : (defaultFalsePositiveRate.bitCount n).toNat =
      (n * 9585058377367439 + (10 ^ 15 - 1)) / 10 ^ 15 := by
    show (UInt64.ofNat _).toNat = _
    rw [UInt64.toNat_ofNat']
    omega
  have hnormal : normalizeWriteOptions defaultWriteOptions = .ok defaultWriteOptions := rfl
  have henabled : defaultWriteOptions.bloomEnabled = true := rfl
  obtain ⟨f, encodedFilter, hnew, hencode, hencoded⟩ := newFilter_encodes storingEnv
    (versionsOf (List.replicate maxKeySize 0) n) henabled rfl (by omega : (0 : Int) < n)
    (by
      show 0 < (defaultFalsePositiveRate.bitCount (n : Int).toNat).toNat
      rw [Int.toNat_natCast, hbits]
      omega)
    (by
      show (defaultFalsePositiveRate.bitCount (n : Int).toNat).toNat + 7 < 2 ^ 64
      rw [Int.toNat_natCast, hbits]
      omega)
  exact create_ok storingEnv_total (versionsOf_writable _ (by omega)) hfits
    (by rwa [versionsOf_length]) hnormal (by decide) hnew hencode hencoded

/-- From 4096 versions of the longest key on, what is published does not load. -/
theorem longKey_unreadable {n : Nat} (hlow : 4096 ≤ n) (hn : n < 2 ^ 32) :
    ∃ created, createFromIteratorWithOptions storingEnv
        { records := versionsOf (List.replicate maxKeySize 0) n } n defaultWriteOptions =
          .ok created ∧
      loadMetadata created.file =
        fail (.partLength .index (4 + (16 + maxKeySize) * n) maxIndexSize) := by
  obtain ⟨created, hcreated⟩ := longKey_created (by omega) hn
  refine ⟨created, hcreated, ?_⟩
  obtain ⟨opts', filter, hnormal, -, ⟨W⟩⟩ := created_written hcreated
  have hdefault : normalizeWriteOptions defaultWriteOptions = .ok defaultWriteOptions := rfl
  cases hdefault.symm.trans hnormal
  have hindex : W.footer.indexLength = 4 + (16 + maxKeySize) * n := longKey_index W
  unfold loadMetadata
  rw [W.readFooter_eq, ok_bind]
  unfold loadIndex checkedBufferLength
  rw [hindex, if_pos (by unfold maxIndexSize maxKeySize; omega)]
  rfl

/-- **A table that is published and cannot be read**: with the default options, 4096 versions of
the longest key make an index of 268500996 bytes. -/
theorem published_unreadable :
    ∃ created, createFromIteratorWithOptions storingEnv
        { records := versionsOf (List.replicate maxKeySize 0) 4096 } (4096 : Nat)
          defaultWriteOptions = .ok created ∧
      loadMetadata created.file = fail (.partLength .index 268500996 268435456) :=
  longKey_unreadable (by decide) (by decide)

end HyphaDB.Table
