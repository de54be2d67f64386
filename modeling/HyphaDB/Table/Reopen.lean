import HyphaDB.Table.Layout

/-!
# HyphaDB.Table.Reopen

A **reopened file**: index, filter and footer of a written file decode to what was encoded, and
each entry of the index opens its block.

The reads need two things of a file: entry `i` of its index opens a cursor at the start of chunk
`i` (`Opens`), and the filter turns no key of the table away (`Passes`). What entries open depends
on the bytes of the blocks only, so `Written.opens_take` is about any file that has them.
-/

namespace HyphaDB.Table

open Checked
open Record (headerSize maxKeySize)

/-! ### The index -/

/-- An entry whose numbers fit their fields. -/
structure IndexEntry.Fits (entry : IndexEntry) : Prop where
  key : entry.firstKey.length < 2 ^ 32
  offset : entry.offset < 2 ^ 64
  length : entry.length < 2 ^ 32

theorem readFull_append (a b : Bytes) {n : Nat} (hn : n = a.length) :
    readFull n (a ++ b) = .ok (a, b) := by
  subst hn
  unfold readFull
  rw [if_pos (by simp), List.take_left, List.drop_left]
  rfl

/-- Entries decode one after the other, and then those behind them. -/
theorem decodeEntries_append {entries : List IndexEntry} (h : ∀ e ∈ entries, e.Fits) (left : Nat)
    (rest : Bytes) :
    decodeEntries (entries.length + left) (entries.flatMap entryBytes ++ rest) =
      (decodeEntries left rest >>= fun more => pure (entries ++ more)) := by
  induction entries with
  | nil =>
      rw [List.length_nil, Nat.zero_add]
      exact (bind_pure _).symm
  | cons e entries ih =>
      have he := h e List.mem_cons_self
      have hkey := he.key
      have hoffset := he.offset
      have hlength := he.length
      have hread : ∀ w n, n < 256 ^ w → (readLE w (toLE w n) : Attempt IndexError Nat) = .ok n :=
        fun w n hn => readLE_toLE_self hn
      have hsplit : (e :: entries).flatMap entryBytes ++ rest =
          (toLE 4 e.firstKey.length ++ toLE 8 e.offset ++ toLE 4 e.length) ++
            (e.firstKey ++ (entries.flatMap entryBytes ++ rest)) := by
        rw [List.flatMap_cons, entryBytes]
        simp only [List.append_assoc]
      have h1 : (slice (toLE 4 e.firstKey.length ++ toLE 8 e.offset ++ toLE 4 e.length) 0 4 :
          Attempt IndexError Bytes) = .ok (toLE 4 e.firstKey.length) := by
        rw [List.append_assoc]
        exact slice_append [] _ _ rfl (by simp)
      have h2 : (slice (toLE 4 e.firstKey.length ++ toLE 8 e.offset ++ toLE 4 e.length) 4 12 :
          Attempt IndexError Bytes) = .ok (toLE 8 e.offset) :=
        slice_append _ _ _ (by simp) (by simp)
      have h3 : (slice (toLE 4 e.firstKey.length ++ toLE 8 e.offset ++ toLE 4 e.length) 12 16 :
          Attempt IndexError Bytes) = .ok (toLE 4 e.length) := by
        have := slice_append (ε := IndexError) (toLE 4 e.firstKey.length ++ toLE 8 e.offset)
          (toLE 4 e.length) [] (i := 12) (j := 16) (by simp) (by simp)
        rwa [List.append_nil] at this
      rw [List.length_cons, hsplit, Nat.add_right_comm]
      conv_lhs => unfold decodeEntries
      rw [readFull_append _ _ (by simp), ok_bind]
      dsimp only
      rw [h1, ok_bind, hread 4 _ (by omega), ok_bind, h2, ok_bind, hread 8 _ (by omega), ok_bind,
        h3, ok_bind, hread 4 _ (by omega), ok_bind, if_neg (by simp), readFull_append _ _ rfl,
        ok_bind]
      dsimp only
      rw [ih fun e' he' => h e' (List.mem_cons_of_mem e he'), bind_assoc]
      rfl

/-- The count in front of the entries says how many are read. -/
theorem decodeIndex_append {n : Nat} (hn : n < 2 ^ 32) (rest : Bytes) :
    decodeIndex (toLE 4 n ++ rest) = decodeEntries n rest := by
  unfold decodeIndex
  rw [readFull_append _ _ (by simp), ok_bind]
  dsimp only
  rw [readLE_toLE_self (by omega), ok_bind]

/-- **A written index reads back.** -/
theorem decodeIndex_indexBytes {entries : List IndexEntry} (h : ∀ e ∈ entries, e.Fits)
    (hlen : entries.length < 2 ^ 32) : decodeIndex (indexBytes entries) = .ok entries := by
  have hall := decodeEntries_append h 0 []
  rw [List.append_nil, Nat.add_zero] at hall
  rw [indexBytes, decodeIndex_append hlen, hall]
  exact congrArg Except.ok (List.append_nil entries)

theorem indexBytes_length_ge (entries : List IndexEntry) :
    4 + 16 * entries.length ≤ (indexBytes entries).length := by
  unfold indexBytes
  rw [List.length_append, toLE_length]
  induction entries with
  | nil => simp
  | cons e entries ih =>
      rw [List.flatMap_cons, List.length_append, List.length_cons]
      have he : 16 ≤ (entryBytes e).length := by
        simp [entryBytes]
        omega
      omega

/-! ### The footer -/

@[simp] theorem footerBytes_length (a b c d : Nat) : (footerBytes a b c d).length = footerSize := by
  simp [footerBytes, footerSize, tableMagic]

/-- What `decodeFooter` makes of the fields of a footer, whatever they hold. -/
theorem decodeFooter_fields {fileSize : Nat} (hsize : footerSize ≤ fileSize)
    {f1 f2 f3 f4 magic : Bytes} (h1 : f1.length = 8) (h2 : f2.length = 8) (h3 : f3.length = 8)
    (h4 : f4.length = 8) (hmagic : magic.length = 6) (version flags : UInt8) :
    decodeFooter fileSize (f1 ++ f2 ++ f3 ++ f4 ++ magic ++ [version, flags]) =
      if magic ≠ tableMagic then fail .magic
      else if version ≠ legacyFormatVersion ∧ version ≠ currentFormatVersion then
        fail (.version version)
      else if flags ≠ 0 then fail (.flags flags)
      else checkFooter (fileSize - footerSize)
        { formatVersion := version, indexOffset := ofLE f1, indexLength := ofLE f2,
          filterOffset := ofLE f3, filterLength := ofLE f4 } := by
  have hread : ∀ f : Bytes, f.length = 8 →
      (readLE 8 f : Attempt TableError Nat) = .ok (ofLE f) := by
    intro f hf
    rw [readLE_eq hf.ge, List.take_of_length_le hf.le]
  generalize hfooter : f1 ++ f2 ++ f3 ++ f4 ++ magic ++ [version, flags] = footer
  have hslice : ∀ (pre mid post : Bytes) (i j : Nat), footer = pre ++ mid ++ post →
      i = pre.length → j = pre.length + mid.length →
        (slice footer i j : Attempt TableError Bytes) = .ok mid := by
    rintro pre mid post i j rfl hi hj
    exact slice_append pre mid post hi hj
  have hs1 := hslice [] f1 (f2 ++ f3 ++ f4 ++ magic ++ [version, flags]) 0 8
    (by rw [← hfooter]; simp only [List.append_assoc, List.nil_append]) rfl (by simp [h1])
  have hs2 := hslice f1 f2 (f3 ++ f4 ++ magic ++ [version, flags]) 8 16
    (by rw [← hfooter]; simp only [List.append_assoc]) h1.symm (by omega)
  have hs3 := hslice (f1 ++ f2) f3 (f4 ++ magic ++ [version, flags]) 16 24
    (by rw [← hfooter]; simp only [List.append_assoc]) (by simp [h1, h2]) (by simp [h1, h2, h3])
  have hs4 := hslice (f1 ++ f2 ++ f3) f4 (magic ++ [version, flags]) 24 32
    (by rw [← hfooter]; simp only [List.append_assoc]) (by simp [h1, h2, h3])
    (by simp [h1, h2, h3, h4])
  have hs5 := hslice (f1 ++ f2 ++ f3 ++ f4) magic [version, flags] 32 38 hfooter.symm
    (by simp [h1, h2, h3, h4]) (by simp [h1, h2, h3, h4, hmagic])
  have hlen : (f1 ++ f2 ++ f3 ++ f4 ++ magic).length = 38 := by simp [h1, h2, h3, h4, hmagic]
  have hversion : footer[38]? = some version := by
    rw [← hfooter, List.getElem?_append_right (by omega), hlen]
    rfl
  have hflags : footer[39]? = some flags := by
    rw [← hfooter, List.getElem?_append_right (by omega), hlen]
    rfl
  unfold decodeFooter
  rw [hs5, ok_bind]
  split
  · rfl
  rw [get_eq hversion, ok_bind]
  split
  · rfl
  rw [get_eq hflags, ok_bind]
  split
  · rfl
  rw [hs1, ok_bind, hread _ h1, ok_bind, hs2, ok_bind, hread _ h2, ok_bind, hs3, ok_bind,
    hread _ h3, ok_bind, hs4, ok_bind, hread _ h4, ok_bind, sub_eq hsize, ok_bind]

/-- A footer comes down to the checks on its numbers. -/
theorem decodeFooter_footerBytes {fileSize indexOffset indexLength filterOffset filterLength : Nat}
    (hsize : footerSize ≤ fileSize) (h1 : indexOffset < 2 ^ 64) (h2 : indexLength < 2 ^ 64)
    (h3 : filterOffset < 2 ^ 64) (h4 : filterLength < 2 ^ 64) :
    decodeFooter fileSize (footerBytes indexOffset indexLength filterOffset filterLength) =
      checkFooter (fileSize - footerSize)
        { formatVersion := currentFormatVersion, indexOffset, indexLength, filterOffset,
          filterLength } := by
  have hfields := decodeFooter_fields hsize (toLE_length 8 indexOffset) (toLE_length 8 indexLength)
    (toLE_length 8 filterOffset) (toLE_length 8 filterLength) (rfl : tableMagic.length = 6)
    currentFormatVersion 0
  rw [if_neg (not_not.mpr rfl), if_neg (by decide), if_neg (not_not.mpr rfl),
    ofLE_toLE_of_lt (by omega), ofLE_toLE_of_lt (by omega), ofLE_toLE_of_lt (by omega),
    ofLE_toLE_of_lt (by omega)] at hfields
  exact hfields

theorem readAt_append {file : TableFile} {pre mid post : Bytes}
    (h : file.bytes = pre ++ mid ++ post) {length offset : Nat} (hl : length = mid.length)
    (ho : offset = pre.length) : file.readAt length offset = some mid := by
  subst hl ho
  unfold TableFile.readAt TableFile.size
  rw [h, if_pos (by simp), List.append_assoc, List.drop_left, List.take_left]

/-- A block is read from where it stands. -/
theorem readBlockFrom_append {file : TableFile} {pre mid post : Bytes}
    (h : file.bytes = pre ++ mid ++ post) (hpos : 0 < mid.length)
    (hmax : mid.length ≤ maxStoredBlockSize) (key : Key) :
    readBlockFrom file ⟨key, pre.length, mid.length⟩ = .ok mid := by
  have hlt : file.bytes.length < 2 ^ 63 := file.size_lt
  rw [h] at hlt
  simp only [List.length_append] at hlt
  unfold readBlockFrom
  dsimp only
  rw [if_neg (by omega), if_neg (by omega), if_neg (by omega), readAt_append h rfl rfl]
  rfl

/-- The last bytes of a file are its footer. -/
theorem readFooter_eq {file : TableFile} {body footer : Bytes} (h : file.bytes = body ++ footer)
    (hlen : footer.length = footerSize) :
    readFooter file = decodeFooter file.size footer := by
  have hsize : file.size = body.length + footerSize := by
    rw [TableFile.size, h, List.length_append, hlen]
  have hread : file.readAt footerSize (file.size - footerSize) = some footer := by
    rw [← List.append_nil (body ++ footer)] at h
    exact readAt_append h hlen.symm (by omega)
  unfold readFooter
  rw [if_neg (by omega), sub_eq (by omega), ok_bind, hread]

/-- The footer of a file without a filter. -/
theorem checkFooter_plain {dataEnd : Nat} (hend : dataEnd < 2 ^ 64) {footer : FooterMetadata}
    (hindex : footer.indexOffset + footer.indexLength = dataEnd) (hlen : footer.filterLength = 0)
    (hoffset : footer.filterOffset = 0) : checkFooter dataEnd footer = .ok footer := by
  unfold checkFooter
  rw [if_neg (by omega), sub_eq (by omega), ok_bind, if_neg (by omega), fits_eq (by omega), ok_bind,
    if_pos hlen, if_neg (by omega), if_neg (by omega)]
  rfl

/-- The footer of a file with a filter. -/
theorem checkFooter_filter {dataEnd : Nat} (hend : dataEnd < 2 ^ 64) {footer : FooterMetadata}
    (hoffset : footer.filterOffset = footer.indexOffset + footer.indexLength)
    (hpos : 0 < footer.filterLength)
    (hfilter : footer.filterOffset + footer.filterLength = dataEnd) :
    checkFooter dataEnd footer = .ok footer := by
  unfold checkFooter
  rw [if_neg (by omega), sub_eq (by omega), ok_bind, if_neg (by omega), fits_eq (by omega), ok_bind,
    if_neg (by omega), if_neg (by omega), if_neg (by omega), sub_eq (by omega), ok_bind,
    if_neg (by omega), fits_eq (by omega), ok_bind, if_neg (by omega)]
  rfl

/-! ### The filter -/

section Filter

variable (env : Env)

theorem addKeys_eq (recs : List Record) (f : Bloom.Filter) :
    addKeys env recs f = f.addAll env.hash128 (recs.map (·.key)) := by
  unfold addKeys Bloom.Filter.addAll
  rw [List.foldl_map]

@[simp] theorem addKeys_bitCount (recs : List Record) (f : Bloom.Filter) :
    (addKeys env recs f).bitCount = f.bitCount := by
  rw [addKeys_eq, Bloom.addAll_bitCount]

@[simp] theorem addKeys_hashCount (recs : List Record) (f : Bloom.Filter) :
    (addKeys env recs f).hashCount = f.hashCount := by
  rw [addKeys_eq, Bloom.addAll_hashCount]

@[simp] theorem addKeys_bits_length (recs : List Record) (f : Bloom.Filter) :
    (addKeys env recs f).bits.length = f.bits.length := by
  rw [addKeys_eq, Bloom.addAll_bits_length]

/-- The filter of a table holds each key of the table. -/
theorem addKeys_holds {recs : List Record} {f : Bloom.Filter} (hf : f.Valid) {r : Record}
    (hr : r ∈ recs) : (addKeys env recs f).Holds env.hash128 r.key := by
  rw [addKeys_eq]
  exact Bloom.holds_addAll hf env.hash128 (List.mem_map_of_mem hr)

end Filter

/-! ### Metadata and blocks -/

theorem checkedBufferLength_eq {length maxLength : Nat} (hle : length ≤ maxLength)
    (hmax : maxLength < 2 ^ 63) (part : Part) :
    checkedBufferLength length maxLength part = .ok length := by
  unfold checkedBufferLength
  rw [if_neg (by omega), if_neg (by omega)]
  rfl

section Written

variable {env : Env} {opts : WriteOptions} {filter : Option Bloom.Filter} {recs : List Record}
  {created : Created} (W : Written env opts filter recs created)

/-- The bytes before the footer. -/
def Written.body : Bytes :=
  dataBytes W.blocks ++ indexBytes (entriesFrom 0 W.blocks) ++ W.filterBytes

/-- The footer a written file ends with. -/
def Written.footer : FooterMetadata :=
  { formatVersion := currentFormatVersion
    indexOffset := (dataBytes W.blocks).length
    indexLength := (indexBytes (entriesFrom 0 W.blocks)).length
    filterOffset :=
      if filter.isSome then
        (dataBytes W.blocks ++ indexBytes (entriesFrom 0 W.blocks)).length
      else 0
    filterLength := W.filterBytes.length }

/-- What a reader makes of a written file. -/
def Written.metadata : Metadata :=
  { index := entriesFrom 0 W.blocks
    filter := filter.map (addKeys env recs)
    formatVersion := currentFormatVersion }

/-- The sizes the reader insists on. -/
structure Written.Within : Prop where
  records : ∀ r ∈ recs, r.Fits
  index : (indexBytes (entriesFrom 0 W.blocks)).length ≤ maxIndexSize
  filter : W.filterBytes.length ≤ maxFilterSize

namespace Written

theorem file_size : created.file.size = W.body.length + footerSize := by
  rw [TableFile.size, W.bytes, List.length_append, footerBytes_length]
  rfl

/-- The footer's bytes. -/
def footerPart : Bytes :=
  footerBytes W.footer.indexOffset W.footer.indexLength W.footer.filterOffset
    W.footer.filterLength

theorem bytes_index : created.file.bytes =
    dataBytes W.blocks ++ indexBytes (entriesFrom 0 W.blocks) ++
      (W.filterBytes ++ W.footerPart) := by
  rw [W.bytes, List.append_assoc (dataBytes W.blocks ++ indexBytes (entriesFrom 0 W.blocks))]
  rfl

theorem bytes_blocks : created.file.bytes =
    dataBytes W.blocks ++
      (indexBytes (entriesFrom 0 W.blocks) ++ (W.filterBytes ++ W.footerPart)) := by
  rw [W.bytes_index, List.append_assoc]

theorem body_length : W.body.length = (dataBytes W.blocks).length +
    (indexBytes (entriesFrom 0 W.blocks)).length + W.filterBytes.length := by
  rw [body, List.length_append, List.length_append]

/-- The encoded filter, and that it is empty without one. -/
theorem filterBytes_cases :
    (filter = none ∧ W.filterBytes = []) ∨
      ∃ f, filter = some f ∧ (addKeys env recs f).encode = .ok W.filterBytes ∧
        0 < W.filterBytes.length := by
  have hencoded := W.encoded
  cases filter with
  | none =>
      left
      simp only [Option.map_none, encodeFilter, Except.ok.injEq] at hencoded
      exact ⟨rfl, hencoded.symm⟩
  | some f =>
      right
      simp only [Option.map_some, encodeFilter] at hencoded
      split at hencoded
      · cases hencoded
      · rename_i buf hbuf
        cases hencoded
        refine ⟨f, rfl, hbuf, ?_⟩
        rw [Bloom.encode_length hbuf]
        unfold Bloom.encodedHeaderSize
        omega

theorem readFooter_eq : readFooter created.file = .ok W.footer := by
  have hsize := W.file_size
  have hlt : created.file.size < 2 ^ 63 := created.file.size_lt
  have hbody := W.body_length
  have hfilter : (if filter.isSome = true then
      (dataBytes W.blocks ++ indexBytes (entriesFrom 0 W.blocks)).length else 0) < 2 ^ 64 := by
    split
    · rw [List.length_append]
      omega
    · omega
  rw [Table.readFooter_eq W.bytes (footerBytes_length _ _ _ _),
    decodeFooter_footerBytes (by omega) (by omega) (by omega) hfilter (by omega), hsize,
    Nat.add_sub_cancel]
  rcases W.filterBytes_cases with ⟨rfl, hnone⟩ | ⟨f, rfl, -, hpos⟩
  · refine checkFooter_plain (by omega) ?_ ?_ rfl
    · show _ + _ = W.body.length
      rw [hbody, hnone]
      rfl
    · rw [hnone]
      rfl
  · refine checkFooter_filter (by omega) ?_ hpos ?_
    · exact List.length_append
    · show (dataBytes W.blocks ++ indexBytes (entriesFrom 0 W.blocks)).length + _ = _
      rw [List.length_append, hbody]

theorem entry_fits (hW : W.Within) {e : IndexEntry} (he : e ∈ entriesFrom 0 W.blocks) :
    e.Fits := by
  obtain ⟨i, b, hb, rfl⟩ := mem_entriesFrom he
  have hmem := List.mem_of_getElem? hb
  have hlen := encodePhysicalBlock_length b.encoded
  have hlt : created.file.size < 2 ^ 63 := created.file.size_lt
  have hsize := W.file_size
  have hbody := W.body_length
  have hbefore : (dataBytes (W.blocks.take i)).length ≤ (dataBytes W.blocks).length := by
    conv_rhs => rw [← List.take_append_drop i W.blocks, dataBytes_append, List.length_append]
    omega
  refine ⟨?_, ?_, ?_⟩
  · obtain ⟨r, hr, hkey⟩ := SSTable.smallestKey_mem b.nonempty
    have hmem' : r ∈ recs := by
      rw [W.records]
      exact List.mem_flatMap.mpr ⟨_, hmem, hr⟩
    have hfit := (hW.records r hmem').1
    unfold maxKeySize at hfit
    show (SSTable.smallestKey b.recs).length < 2 ^ 32
    rw [← hkey]
    omega
  · show (dataBytes (W.blocks.take i)).length < 2 ^ 64
    omega
  · show b.physical.length < 2 ^ 32
    unfold maxStoredBlockSize maxBlockSize blockHeaderSize blockTrailerSize at hlen
    omega

theorem loadIndex_eq (hW : W.Within) :
    loadIndex created.file W.footer = .ok (entriesFrom 0 W.blocks) := by
  have hindex := hW.index
  have hge := indexBytes_length_ge (entriesFrom 0 W.blocks)
  have hlt : created.file.size < 2 ^ 63 := created.file.size_lt
  have hsize := W.file_size
  have hbody := W.body_length
  have hread : created.file.readAt (indexBytes (entriesFrom 0 W.blocks)).length
      (dataBytes W.blocks).length = some (indexBytes (entriesFrom 0 W.blocks)) :=
    readAt_append W.bytes_index rfl rfl
  unfold loadIndex
  simp only [footer]
  rw [checkedBufferLength_eq hindex (by decide), ok_bind, fits_eq (by omega), ok_bind, hread]
  dsimp only
  rw [decodeIndex_indexBytes (fun e he => W.entry_fits hW he) (by
    unfold maxIndexSize at hindex
    omega)]
  rfl

theorem loadFilter_eq (hW : W.Within) :
    loadFilter created.file W.footer = .ok (filter.map (addKeys env recs)) := by
  have hfilter := hW.filter
  have hlt : created.file.size < 2 ^ 63 := created.file.size_lt
  have hsize := W.file_size
  have hbody := W.body_length
  have hashes := W.hashes
  unfold loadFilter
  simp only [footer]
  rw [checkedBufferLength_eq hfilter (by decide), ok_bind]
  rcases W.filterBytes_cases with ⟨rfl, hempty⟩ | ⟨f, rfl, hencode, hpos⟩
  · rw [if_neg (by rw [hempty]; exact lt_irrefl 0)]
    rfl
  · have hread : created.file.readAt W.filterBytes.length
        (dataBytes W.blocks ++ indexBytes (entriesFrom 0 W.blocks)).length =
        some W.filterBytes :=
      readAt_append W.bytes rfl rfl
    obtain ⟨-, hvalid, -⟩ := Bloom.encode_eq_ok hencode
    have hlen := Bloom.encode_length hencode
    have hbytes := hvalid.bytes
    have hdecode : Bloom.decode W.filterBytes = .ok (addKeys env recs f) := by
      refine Bloom.decode_encode hencode ?_ ?_
      · rw [addKeys_hashCount]
        exact hashes f rfl
      · unfold Bloom.maxEncodedBitCount
        unfold maxFilterSize at hfilter
        omega
    rw [if_pos hpos, Option.isSome_some, if_pos rfl, fits_eq (by rw [List.length_append]; omega),
      ok_bind, hread]
    dsimp only
    rw [hdecode]
    rfl

/-- **A written file loads**, if index and filter are within the limits. -/
theorem loadMetadata_eq (hW : W.Within) : loadMetadata created.file = .ok W.metadata := by
  unfold loadMetadata
  rw [W.readFooter_eq, ok_bind, W.loadIndex_eq hW, ok_bind, W.loadFilter_eq hW, ok_bind]
  rfl

theorem blockFits (hrecs : ∀ r ∈ recs, r.Fits) {b : StoredBlock env opts} (hb : b ∈ W.blocks) :
    BlockFits opts.restartInterval.toNat b.recs where
  nonempty := b.nonempty
  interval_pos := W.options.interval_pos
  interval_lt := W.options.interval_lt
  size_le := (encodePhysicalBlock_eq_ok b.encoded).1
  records_fit := fun r hr => by
    refine hrecs r ?_
    rw [W.records]
    exact List.mem_flatMap.mpr ⟨b, hb, hr⟩

/-- The data before a block, the block and the data behind it. -/
theorem dataBytes_split {i : Nat} {b : StoredBlock env opts} (hb : W.blocks[i]? = some b) :
    dataBytes W.blocks = dataBytes (W.blocks.take i) ++ b.physical ++
      dataBytes (W.blocks.drop (i + 1)) := by
  obtain ⟨hi, rfl⟩ := List.getElem?_eq_some_iff.mp hb
  conv_lhs => rw [← List.take_append_drop i W.blocks, dataBytes_append,
    List.drop_eq_getElem_cons hi, dataBytes_cons]
  rw [List.append_assoc]

/-- A block is in the file where its entry says. -/
theorem readBlockFrom_eq {file : TableFile} {rest : Bytes}
    (hfile : file.bytes = dataBytes W.blocks ++ rest) {i : Nat} {b : StoredBlock env opts}
    (hb : W.blocks[i]? = some b) {key : Key} :
    readBlockFrom file ⟨key, (dataBytes (W.blocks.take i)).length, b.physical.length⟩ =
      .ok b.physical := by
  have hlen := encodePhysicalBlock_length b.encoded
  rw [W.dataBytes_split hb, List.append_assoc] at hfile
  exact readBlockFrom_append hfile hlen.1 hlen.2 key

theorem readLogicalBlock_eq (hlz4 : env.lz4.Inverts) {file : TableFile} {rest : Bytes}
    (hfile : file.bytes = dataBytes W.blocks ++ rest) {i : Nat} {b : StoredBlock env opts}
    (hb : W.blocks[i]? = some b) {key : Key} :
    readLogicalBlock env file ⟨key, (dataBytes (W.blocks.take i)).length, b.physical.length⟩ =
      .ok (logicalBlock opts.restartInterval.toNat b.recs) := by
  unfold readLogicalBlock
  rw [W.readBlockFrom_eq hfile hb, ok_bind, decodePhysicalBlock_encode hlz4 b.encoded]
  rfl

end Written

end Written

/-! ### What the reads need -/

/-- The entries of the index open these chunks of records. In a damaged file a block may be refused
instead, or be read in the legacy format. -/
structure Opens (env : Env) (damaged : Prop) (file : TableFile) (md : Metadata) (interval : Nat)
    (chunks : List (List Record)) : Prop where
  length : md.index.length = chunks.length
  fits : ∀ chunk ∈ chunks, BlockFits interval chunk
  opens : ∀ {i : Nat} {e : IndexEntry} {chunk : List Record}, md.index[i]? = some e →
    chunks[i]? = some chunk →
      Delivers damaged (openBlock env file md.formatVersion e) fun c =>
        ∃ legacy, c = cursorIn legacy interval chunk 0 ∧ (legacy = true → damaged)

/-- The filter turns no key of the records away. -/
def Passes (env : Env) (md : Metadata) (recs : List Record) : Prop :=
  ∀ r ∈ recs, (md.mayContain env r.key : Attempt TableError Bool) = .ok true

/-- Each entry of `index'` names the bytes that the entry of `index` at its place names. -/
def InPlace (index' index : List IndexEntry) : Prop :=
  ∀ {i : Nat} {e' : IndexEntry}, index'[i]? = some e' →
    ∃ e, index[i]? = some e ∧ e'.offset = e.offset ∧ e'.length = e.length

theorem InPlace.refl (index : List IndexEntry) : InPlace index index :=
  fun he => ⟨_, he, rfl, rfl⟩

theorem InPlace.length_le {index' index : List IndexEntry} (h : InPlace index' index) :
    index'.length ≤ index.length := by
  by_contra hlt
  obtain ⟨e, he, -⟩ := h (List.getElem?_eq_getElem (not_le.mp hlt))
  rw [List.getElem?_eq_none le_rfl] at he
  cases he

/-- What holds of a sound file holds of a damaged one. -/
theorem Opens.weaken {env : Env} {file : TableFile} {md : Metadata} {interval : Nat}
    {chunks : List (List Record)} (h : Opens env False file md interval chunks) (damaged : Prop) :
    Opens env damaged file md interval chunks where
  length := h.length
  fits := h.fits
  opens := fun he hchunk => (h.opens he hchunk).mono False.elim fun _ ⟨legacy, hc, hlegacy⟩ =>
    ⟨legacy, hc, fun hl => (hlegacy hl).elim⟩

namespace Written

variable {env : Env} {opts : WriteOptions} {filter : Option Bloom.Filter} {recs : List Record}
  {created : Created} (W : Written env opts filter recs created)

/-- The records of each block. -/
def chunks : List (List Record) := W.blocks.map (·.recs)

theorem chunks_flatten : W.chunks.flatten = recs := by
  rw [chunks, ← List.flatMap_def]
  exact W.records.symm

theorem index_length : W.metadata.index.length = W.chunks.length := by
  show (entriesFrom 0 W.blocks).length = _
  rw [entriesFrom_length, chunks, List.length_map]

/-- Entries in place open the first blocks of any file that begins with the bytes of the blocks, in
either format. -/
theorem opens_take (hlz4 : env.lz4.Inverts) (hW : W.Within) {file : TableFile} {rest : Bytes}
    (hfile : file.bytes = dataBytes W.blocks ++ rest) {md' : Metadata}
    (hplace : InPlace md'.index W.metadata.index) (legacy : Bool)
    (hversion : md'.formatVersion = if legacy then legacyFormatVersion else currentFormatVersion)
    {damaged : Prop} (hlegacy : legacy = true → damaged) :
    Opens env damaged file md' opts.restartInterval.toNat (W.chunks.take md'.index.length) where
  length := by
    have hle := hplace.length_le
    rw [W.index_length] at hle
    rw [List.length_take, Nat.min_eq_left hle]
  fits := fun chunk hchunk => by
    obtain ⟨b, hb, rfl⟩ := List.mem_map.mp (List.mem_of_mem_take hchunk)
    exact W.blockFits hW.records hb
  opens := fun {i e' chunk} he' hchunk => by
    obtain ⟨hi, -⟩ := List.getElem?_eq_some_iff.mp he'
    rw [List.getElem?_take, if_pos hi] at hchunk
    obtain ⟨b, hb, rfl⟩ := Option.map_eq_some_iff.mp (List.getElem?_map ▸ hchunk)
    obtain ⟨e, he, hoffset, hlength⟩ := hplace he'
    rw [show W.metadata.index = entriesFrom 0 W.blocks from rfl, entriesFrom_getElem? hb] at he
    cases he
    have hfits := W.blockFits hW.records (List.mem_of_getElem? hb)
    obtain ⟨key, offset, length⟩ := e'
    dsimp only at hoffset hlength
    subst hoffset hlength
    unfold openBlock
    rw [W.readLogicalBlock_eq hlz4 hfile hb, ok_bind, hversion]
    cases legacy with
    | false =>
        rw [if_neg (by decide), hfits.newLogicalBlockCursor_eq]
        exact ⟨false, rfl, hlegacy⟩
    | true =>
        rw [if_pos rfl, hfits.newLegacyCursor_eq]
        exact ⟨true, rfl, hlegacy⟩

/-- With the index that was written they are all there. -/
theorem opens_all (hlz4 : env.lz4.Inverts) (hW : W.Within) {file : TableFile} {rest : Bytes}
    (hfile : file.bytes = dataBytes W.blocks ++ rest) {md' : Metadata}
    (hindex : md'.index = W.metadata.index) (legacy : Bool)
    (hversion : md'.formatVersion = if legacy then legacyFormatVersion else currentFormatVersion)
    {damaged : Prop} (hlegacy : legacy = true → damaged) :
    Opens env damaged file md' opts.restartInterval.toNat W.chunks := by
  have hopens := W.opens_take hlz4 hW hfile (hindex ▸ InPlace.refl _) legacy hversion hlegacy
  rwa [hindex, W.index_length, List.take_length] at hopens

/-- **A written file opens its chunks.** -/
theorem opens (hlz4 : env.lz4.Inverts) (hW : W.Within) :
    Opens env False created.file W.metadata opts.restartInterval.toNat W.chunks :=
  W.opens_all hlz4 hW W.bytes_blocks rfl false rfl fun h => nomatch h

/-- The index has the first key of each chunk. -/
theorem index_keys : W.metadata.index.map (·.firstKey) = W.chunks.map SSTable.smallestKey := by
  rw [chunks, List.map_map]
  exact entriesFrom_keys 0 W.blocks

theorem passes : Passes env W.metadata recs := by
  intro r hr
  unfold Metadata.mayContain
  rcases W.filterBytes_cases with ⟨hnone, -⟩ | ⟨f, hsome, hencode, -⟩
  · rw [show W.metadata.filter = filter.map (addKeys env recs) from rfl, hnone]
    rfl
  · rw [show W.metadata.filter = filter.map (addKeys env recs) from rfl, hsome]
    obtain ⟨-, hvalid, -⟩ := Bloom.encode_eq_ok hencode
    have hpos := hvalid.positive
    have hbytes := hvalid.bytes
    rw [addKeys_bitCount] at hpos hbytes
    rw [addKeys_bits_length] at hbytes
    exact Bloom.mayContain_eq (addKeys_holds env ⟨hpos, hbytes⟩ hr)

end Written

end HyphaDB.Table
