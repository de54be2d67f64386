import HyphaDB.Table.Limits

/-!
# HyphaDB.Table.Tampered

A file in which **one byte was changed** after it was written.

Blocks carry a checksum, and the numbers of the footer have to fit together exactly, so a change
there is reported or makes no difference; the one footer byte that may change is the version, and
a block read in the legacy format gives the same records before it fails. Both are cases of
`harmless_of_opens`, which asks only that the file still opens the chunks it was written with.
-/

namespace HyphaDB.Table

open Checked

/-- The parts of a file. -/
inductive Region
  | blocks
  | index
  | filter
  | footer
  deriving Repr, DecidableEq

/-- The part a place lies in, in a file of so many bytes. -/
def regionAt (footer : FooterMetadata) (size place : Nat) : Region :=
  if place < footer.indexOffset then .blocks
  else if place < footer.indexOffset + footer.indexLength then .index
  else if place < size - footerSize then .filter
  else .footer

/-- `file'` is `file` with one byte of the region changed. -/
def TamperedIn (region : Region) (file file' : TableFile) : Prop :=
  ∃ footer place, readFooter file = .ok footer ∧ ChangedAt place file.bytes file'.bytes ∧
    regionAt footer file.size place = region

theorem TableFile.set_changed {file : TableFile} {place : Nat} {x y : UInt8}
    (h : file.bytes[place]? = some x) (hne : x ≠ y) :
    ChangedAt place file.bytes (file.set place y).bytes := changedAt_set h hne

/-- Each read of `file'` reports an error or gives what the read of `file` gives. -/
structure Harmless (env : Env) (file file' : TableFile) : Prop where
  point : ∀ key maxSeq, (∃ e, getRecordAt env file' key maxSeq = fail e) ∨
    getRecordAt env file' key maxSeq = getRecordAt env file key maxSeq
  calls : ∀ cs, (∃ e, iterate env file' cs = fail e) ∨ iterate env file' cs = iterate env file cs

section Harmless

variable {env : Env} {file file' : TableFile}

/-- A file that does not load reports so in every read. -/
theorem harmless_of_fail {e : TableError} (h : loadMetadata file' = fail e) :
    Harmless env file file' where
  point := fun key maxSeq => by
    left
    unfold getRecordAt
    rw [h]
    exact ⟨e, rfl⟩
  calls := fun cs => by
    left
    unfold iterate newIterator
    rw [h]
    exact ⟨e, rfl⟩

/-- Loading never faults, so only what loads can do harm. -/
theorem harmless_of_loads (h : ∀ md, loadMetadata file' = .ok md → Harmless env file file') :
    Harmless env file file' := by
  have hgives := gives_loadMetadata file'
  cases hmd : loadMetadata file' with
  | ok md => exact h md hmd
  | error s =>
      cases s with
      | failed e => exact harmless_of_fail hmd
      | fault f =>
          rw [hmd] at hgives
          exact hgives.elim

/-- **A file that still opens the chunks is harmless**: each entry opens its block or is refused,
the filter turns no key away, and the index leads to every key. -/
theorem harmless_of_opens {md' md : Metadata} {interval : Nat} {chunks : List (List Record)}
    (h' : Opens env True file' md' interval chunks) (hpasses' : Passes env md' chunks.flatten)
    (hleads' : ∀ key, LeadsTo TableError md'.index chunks key)
    (hmd' : loadMetadata file' = .ok md') (h : Opens env False file md interval chunks)
    (hpasses : Passes env md chunks.flatten)
    (hleads : ∀ key, LeadsTo TableError md.index chunks key) (hmd : loadMetadata file = .ok md)
    (horder : InOrder chunks.flatten) : Harmless env file file' where
  point := fun key maxSeq => by
    obtain ⟨found, hget, rfl⟩ :=
      (delivers_getRecordAt h hpasses (hleads key) hmd horder maxSeq).exists_ok id
    rw [hget]
    rcases (delivers_getRecordAt h' hpasses' (hleads' key) hmd' horder maxSeq).fails_or_ok with
      ⟨-, hfail⟩ | ⟨found', hget', rfl⟩
    · exact Or.inl hfail
    · exact Or.inr hget'
  calls := fun cs => by
    have hasc := keysAscend_of_inOrder horder
    obtain ⟨given, hiterate, rfl⟩ :=
      (delivers_iterate h hasc hmd cs fun key _ => hleads key).exists_ok id
    rw [hiterate]
    rcases (delivers_iterate h' hasc hmd' cs fun key _ => hleads' key).fails_or_ok with
      ⟨-, hfail⟩ | ⟨given', hiterate', rfl⟩
    · exact Or.inl hfail
    · exact Or.inr hiterate'

end Harmless

/-! ### Blocks -/

/-- A block whose checksum does not fit what it covers. -/
theorem decodePhysicalBlock_mismatch {env : Env} {checked trailer : Bytes}
    (hchecked : blockHeaderSize ≤ checked.length) (htrailer : trailer.length = blockTrailerSize)
    (hne : ofLE trailer ≠ (env.crc checked).toNat) :
    decodePhysicalBlock env (checked ++ trailer) = fail .checksumMismatch := by
  have hlen : (checked ++ trailer).length = checked.length + blockTrailerSize := by
    rw [List.length_append, htrailer]
  have hbody : (slice (checked ++ trailer) 0 checked.length : Attempt BlockError Bytes) =
      .ok checked := slice_append [] checked trailer rfl (by simp)
  unfold blockTrailerSize at htrailer hlen
  unfold decodePhysicalBlock
  rw [if_neg (by unfold blockTrailerSize; omega), sub_eq (by unfold blockTrailerSize; omega),
    ok_bind, show (checked ++ trailer).length - blockTrailerSize = checked.length by
      unfold blockTrailerSize; omega, slice_to_end (by omega), ok_bind, List.drop_left,
    readLE_eq htrailer.ge, ok_bind, List.take_of_length_le htrailer.le, hbody, ok_bind]
  exact if_pos hne

/-- **One changed byte of a block is noticed**, in what the checksum covers or in the checksum. -/
theorem decodePhysicalBlock_changed {env : Env} (hcrc : Distinguishes env.crc)
    {logical physical physical' : Bytes} {codec : Codec} {rate : SavingsRate}
    (h : encodePhysicalBlock env logical codec rate = .ok physical)
    (hchanged : DifferInOneByte physical physical') :
    decodePhysicalBlock env physical' = fail .checksumMismatch := by
  obtain ⟨-, codec', payload, -, rfl⟩ := encodePhysicalBlock_eq_ok h
  have hcheck := checkedBytes_length codec' logical.length payload
  rcases hchanged.append_cases with ⟨checked, hchecked, rfl⟩ | ⟨trailer, htrailer, rfl⟩
  · have hlen := hchecked.length_eq
    have hlt := (env.crc (checkedBytes codec' logical.length payload)).toNat_lt
    refine decodePhysicalBlock_mismatch (by omega) (toLE_length _ _) ?_
    rw [ofLE_toLE_of_lt (by omega)]
    intro heq
    exact hcrc _ _ hchecked (UInt32.toNat_inj.mp heq)
  · have hlen := htrailer.length_eq
    rw [toLE_length] at hlen
    have hlt := (env.crc (checkedBytes codec' logical.length payload)).toNat_lt
    refine decodePhysicalBlock_mismatch (by omega) hlen.symm fun heq => htrailer.ne ?_
    refine ofLE_inj (by rw [toLE_length, hlen]) ?_
    rw [ofLE_toLE_of_lt (by omega), heq]

/-! ### The parts of a written file -/

/-- Reads behind a change. -/
theorem readAt_tail {file file' : TableFile} {front front' tail : Bytes}
    (h : file.bytes = front ++ tail) (h' : file'.bytes = front' ++ tail)
    (hlen : front'.length = front.length) {length offset : Nat} (hle : front.length ≤ offset) :
    file'.readAt length offset = file.readAt length offset := by
  unfold TableFile.readAt TableFile.size
  rw [h, h', List.length_append, List.length_append, hlen, List.drop_append, List.drop_append,
    List.drop_of_length_le hle, List.drop_of_length_le (hlen ▸ hle), hlen]

/-- Reads before a change. -/
theorem readAt_front {file file' : TableFile} {front tail tail' : Bytes}
    (h : file.bytes = front ++ tail) (h' : file'.bytes = front ++ tail')
    (hlen : tail'.length = tail.length) {length offset : Nat}
    (hle : offset + length ≤ front.length) :
    file'.readAt length offset = file.readAt length offset := by
  unfold TableFile.readAt TableFile.size
  rw [h, h', List.length_append, List.length_append, hlen,
    List.drop_append_of_le_length (by omega), List.drop_append_of_le_length (by omega),
    List.take_append_of_le_length (by rw [List.length_drop]; omega),
    List.take_append_of_le_length (by rw [List.length_drop]; omega)]

/-- What is loaded of the index depends on its bytes only. -/
theorem loadIndex_congr {file file' : TableFile} {footer footer' : FooterMetadata}
    (hoffset : footer'.indexOffset = footer.indexOffset)
    (hlength : footer'.indexLength = footer.indexLength)
    (h : file'.readAt footer.indexLength footer.indexOffset =
      file.readAt footer.indexLength footer.indexOffset) :
    loadIndex file' footer' = loadIndex file footer := by
  unfold loadIndex checkedBufferLength fits
  rw [hoffset, hlength]
  split
  · rfl
  split
  · rfl
  rw [pure_bind, pure_bind]
  split
  · rw [ok_bind, ok_bind, h]
  · rfl

theorem loadFilter_congr {file file' : TableFile} {footer footer' : FooterMetadata}
    (hoffset : footer'.filterOffset = footer.filterOffset)
    (hlength : footer'.filterLength = footer.filterLength)
    (h : 0 < footer.filterLength → file'.readAt footer.filterLength footer.filterOffset =
      file.readAt footer.filterLength footer.filterOffset) :
    loadFilter file' footer' = loadFilter file footer := by
  unfold loadFilter checkedBufferLength fits
  rw [hoffset, hlength]
  split
  · rfl
  split
  · rfl
  rw [pure_bind, pure_bind]
  split
  · rename_i hpos
    split
    · rw [ok_bind, ok_bind, h hpos]
    · rfl
  · rfl

namespace Written

variable {env : Env} {opts : WriteOptions} {filter : Option Bloom.Filter} {recs : List Record}
  {created : Created} (W : Written env opts filter recs created)

def part : Region → Bytes
  | .blocks => dataBytes W.blocks
  | .index => indexBytes (entriesFrom 0 W.blocks)
  | .filter => W.filterBytes
  | .footer => W.footerPart

/-- What stands before a part. -/
def before : Region → Bytes
  | .blocks => []
  | .index => dataBytes W.blocks
  | .filter => dataBytes W.blocks ++ indexBytes (entriesFrom 0 W.blocks)
  | .footer => W.body

/-- What stands behind it. -/
def after : Region → Bytes
  | .blocks => indexBytes (entriesFrom 0 W.blocks) ++ (W.filterBytes ++ W.footerPart)
  | .index => W.filterBytes ++ W.footerPart
  | .filter => W.footerPart
  | .footer => []

theorem bytes_part (region : Region) :
    created.file.bytes = W.before region ++ W.part region ++ W.after region := by
  cases region with
  | blocks => exact W.bytes_blocks
  | index => exact W.bytes_index
  | filter => exact W.bytes
  | footer =>
      rw [W.bytes]
      exact (List.append_nil _).symm

theorem regionAt_iff {place : Nat} (hplace : place < created.file.size) (region : Region) :
    regionAt W.footer created.file.size place = region ↔
      (W.before region).length ≤ place ∧
        place < (W.before region).length + (W.part region).length := by
  have hsize := W.file_size
  have hbody := W.body_length
  have hfooter : W.footerPart.length = footerSize := footerBytes_length _ _ _ _
  have hoffset : W.footer.indexOffset = (dataBytes W.blocks).length := rfl
  have hlength : W.footer.indexLength = (indexBytes (entriesFrom 0 W.blocks)).length := rfl
  unfold regionAt
  rw [hoffset, hlength]
  cases region with
  | blocks =>
      simp only [before, part, List.length_nil]
      split_ifs <;> simp <;> omega
  | index =>
      simp only [before, part]
      split_ifs <;> simp <;> omega
  | filter =>
      simp only [before, part, List.length_append]
      split_ifs <;> simp <;> omega
  | footer =>
      simp only [before, part]
      split_ifs <;> simp <;> omega

/-- A changed byte is a changed byte of the part it lies in. -/
theorem changed_part {place : Nat} {file' : TableFile} {region : Region}
    (hchanged : ChangedAt place created.file.bytes file'.bytes)
    (hregion : regionAt W.footer created.file.size place = region) :
    ∃ part', (W.before region).length ≤ place ∧
      ChangedAt (place - (W.before region).length) (W.part region) part' ∧
      file'.bytes = W.before region ++ part' ++ W.after region := by
  obtain ⟨hle, hlt⟩ := (W.regionAt_iff hchanged.place_lt region).mp hregion
  rw [W.bytes_part region, List.append_assoc] at hchanged
  obtain ⟨rest, hrest, hfile'⟩ := hchanged.right hle
  obtain ⟨part', hpart, rfl⟩ := hrest.left (by omega)
  exact ⟨part', hle, hpart, by rw [hfile', List.append_assoc]⟩

theorem tampered_part {region : Region} {file' : TableFile}
    (h : TamperedIn region created.file file') :
    ∃ part', DifferInOneByte (W.part region) part' ∧
      file'.bytes = W.before region ++ part' ++ W.after region := by
  obtain ⟨footer, place, hfooter, hchanged, hregion⟩ := h
  rw [W.readFooter_eq] at hfooter
  cases hfooter
  obtain ⟨part', -, hpart, hfile'⟩ := W.changed_part hchanged hregion
  exact ⟨part', hpart.differ, hfile'⟩

/-! ### Changes before the footer -/

/-- As long as the footer is what it was, it is read as it was. -/
theorem readFooter_of_tail {file' : TableFile} (front : Bytes)
    (hfile' : file'.bytes = front ++ W.footerPart) (hlen : front.length = W.body.length) :
    readFooter file' = .ok W.footer := by
  have hfooter : W.footerPart.length = footerSize := footerBytes_length _ _ _ _
  have hsize : file'.size = created.file.size := by
    rw [W.file_size, TableFile.size, hfile', List.length_append, hlen, hfooter]
  have hread := W.readFooter_eq
  rw [Table.readFooter_eq W.bytes hfooter] at hread
  rw [Table.readFooter_eq hfile' hfooter, hsize]
  exact hread

/-- A change before the footer leaves the footer. -/
theorem readFooter_tampered {region : Region} (hregion : region ≠ .footer) {file' : TableFile}
    {part' : Bytes} (hlen : part'.length = (W.part region).length)
    (hfile' : file'.bytes = W.before region ++ part' ++ W.after region) :
    readFooter file' = .ok W.footer := by
  obtain ⟨rest, hrest⟩ : ∃ rest, W.after region = rest ++ W.footerPart := by
    cases region with
    | blocks => exact ⟨_, (List.append_assoc _ _ _).symm⟩
    | index => exact ⟨_, rfl⟩
    | filter => exact ⟨[], rfl⟩
    | footer => exact absurd rfl hregion
  have hbytes := W.bytes_part region
  rw [W.bytes, hrest, ← List.append_assoc] at hbytes
  have hbody := congrArg List.length (List.append_cancel_right hbytes)
  refine W.readFooter_of_tail (W.before region ++ part' ++ rest) ?_ ?_
  · rw [hfile', hrest]
    exact (List.append_assoc _ _ _).symm
  · simp only [body, List.length_append] at hbody ⊢
    omega

/-- Where the filter is, if there is one. -/
theorem filterOffset_eq (hpos : 0 < W.footer.filterLength) :
    W.footer.filterOffset = (W.before .filter).length := by
  rcases W.filterBytes_cases with ⟨-, hnone⟩ | ⟨f, rfl, -, -⟩
  · have hzero : W.footer.filterLength = 0 := by
      show W.filterBytes.length = 0
      rw [hnone]
      rfl
    omega
  · rfl

/-! ### A changed block -/

theorem loadMetadata_blocks {file' : TableFile} {data' : Bytes}
    (hlen : data'.length = (dataBytes W.blocks).length)
    (hfile' : file'.bytes = W.before .blocks ++ data' ++ W.after .blocks) :
    loadMetadata file' = loadMetadata created.file := by
  have hfooter := W.readFooter_tampered (by decide : Region.blocks ≠ .footer) hlen hfile'
  have hread : ∀ {length offset : Nat}, (dataBytes W.blocks).length ≤ offset →
      file'.readAt length offset = created.file.readAt length offset := fun hle =>
    readAt_tail W.bytes_blocks hfile' hlen hle
  unfold loadMetadata
  rw [hfooter, W.readFooter_eq, ok_bind, ok_bind, loadIndex_congr rfl rfl (hread le_rfl),
    loadFilter_congr rfl rfl fun hpos => hread ?_]
  rw [W.filterOffset_eq hpos]
  simp [before]

/-- Where a block was there is the block, or the block with one byte changed. -/
theorem block_tampered {file' : TableFile} {data' : Bytes}
    (hdata : DifferInOneByte (dataBytes W.blocks) data') {rest : Bytes}
    (hfile' : file'.bytes = data' ++ rest) {i : Nat} {b : StoredBlock env opts}
    (hb : W.blocks[i]? = some b) :
    ∃ pre mid post, file'.bytes = pre ++ mid ++ post ∧
      pre.length = (dataBytes (W.blocks.take i)).length ∧ mid.length = b.physical.length ∧
      (mid = b.physical ∨ DifferInOneByte b.physical mid) := by
  rw [W.dataBytes_split hb] at hdata
  rcases hdata.append_cases with ⟨front, hfront, rfl⟩ | ⟨post, -, rfl⟩
  · rcases hfront.append_cases with ⟨pre, hpre, rfl⟩ | ⟨mid, hmid, rfl⟩
    · refine ⟨pre, b.physical, dataBytes (W.blocks.drop (i + 1)) ++ rest, ?_, hpre.length_eq.symm,
        rfl, Or.inl rfl⟩
      rw [hfile', List.append_assoc]
    · refine ⟨_, mid, dataBytes (W.blocks.drop (i + 1)) ++ rest, ?_, rfl, hmid.length_eq.symm,
        Or.inr hmid⟩
      rw [hfile', List.append_assoc]
  · refine ⟨_, b.physical, post ++ rest, ?_, rfl, rfl, Or.inl rfl⟩
    rw [hfile', List.append_assoc]

theorem opens_blocks (hcrc : Distinguishes env.crc) (hlz4 : env.lz4.Inverts) (hW : W.Within)
    {file' : TableFile} {data' : Bytes} (hdata : DifferInOneByte (dataBytes W.blocks) data')
    {rest : Bytes} (hfile' : file'.bytes = data' ++ rest) {damaged : Prop} (hdamaged : damaged) :
    Opens env damaged file' W.metadata opts.restartInterval.toNat W.chunks where
  length := W.index_length
  fits := (W.opens hlz4 hW).fits
  opens := fun {i e chunk} he hchunk => by
    obtain ⟨b, hb, rfl⟩ := Option.map_eq_some_iff.mp (List.getElem?_map ▸ hchunk)
    rw [show W.metadata.index = entriesFrom 0 W.blocks from rfl, entriesFrom_getElem? hb] at he
    cases he
    obtain ⟨pre, mid, post, hbytes, hpre, hmid, hcases⟩ := W.block_tampered hdata hfile' hb
    have hlen := encodePhysicalBlock_length b.encoded
    unfold openBlock readLogicalBlock
    rw [← hpre, ← hmid, readBlockFrom_append hbytes (by omega) (by omega), ok_bind]
    rcases hcases with rfl | hchanged
    · have hfits := W.blockFits hW.records (List.mem_of_getElem? hb)
      rw [decodePhysicalBlock_encode hlz4 b.encoded, mapError_ok, ok_bind]
      show Delivers damaged
        (mapError _ (newLogicalBlockCursorForVersion _ currentFormatVersion)) _
      rw [hfits.newLogicalBlockCursor_eq]
      exact ⟨false, rfl, fun _ => hdamaged⟩
    · rw [decodePhysicalBlock_changed hcrc b.encoded hchanged]
      exact hdamaged

/-- A file that loads is within the limits. -/
theorem within_of_loads (hfits : ∀ r ∈ recs, r.Fits) {file' : TableFile} {md : Metadata}
    {footer : FooterMetadata} (hfooter : readFooter file' = .ok footer)
    (hindex : footer.indexLength = W.footer.indexLength)
    (hfilter : footer.filterLength = W.footer.filterLength) (hmd : loadMetadata file' = .ok md) :
    W.Within := by
  obtain ⟨h1, h2⟩ := loadMetadata_within hfooter hmd
  exact ⟨hfits, hindex.symm.trans_le h1, hfilter.symm.trans_le h2⟩

theorem inOrder_chunks : InOrder W.chunks.flatten := by
  rw [W.chunks_flatten]
  exact SSTable.writable_iff.mp W.ordered

theorem passes_chunks : Passes env W.metadata W.chunks.flatten := by
  rw [W.chunks_flatten]
  exact W.passes

/-- Every index with the keys that were written leads to every key. -/
theorem leadsTo {index : List IndexEntry}
    (hkeys : index.map (·.firstKey) = W.metadata.index.map (·.firstKey)) (ε : Type) (key : Key) :
    LeadsTo ε index W.chunks key := by
  refine leadsTo_of_keys (hkeys.trans W.index_keys) (fun chunk hchunk => ?_)
    (keysAscend_of_inOrder W.inOrder_chunks) key
  obtain ⟨b, hb, rfl⟩ := List.mem_map.mp hchunk
  exact b.nonempty

/-- What makes a change of a written file harmless. -/
theorem harmless_of_opens (hlz4 : env.lz4.Inverts) (hW : W.Within) {file' : TableFile}
    {md' : Metadata} (hmd' : loadMetadata file' = .ok md')
    (h : Opens env True file' md' opts.restartInterval.toNat W.chunks)
    (hpasses : Passes env md' W.chunks.flatten)
    (hleads : ∀ key, LeadsTo TableError md'.index W.chunks key) :
    Harmless env created.file file' :=
  Table.harmless_of_opens h hpasses hleads hmd' (W.opens hlz4 hW) W.passes_chunks
    (W.leadsTo rfl TableError) (W.loadMetadata_eq hW) W.inOrder_chunks

include W in
/-- **A changed block is harmless.** -/
theorem harmless_blocks (hcrc : Distinguishes env.crc) (hlz4 : env.lz4.Inverts)
    (hfits : ∀ r ∈ recs, r.Fits) {file' : TableFile}
    (h : TamperedIn .blocks created.file file') : Harmless env created.file file' := by
  obtain ⟨data', hdata, hfile'⟩ := W.tampered_part h
  have hload := W.loadMetadata_blocks hdata.length_eq.symm hfile'
  refine harmless_of_loads fun md hmd => ?_
  have hW := W.within_of_loads hfits W.readFooter_eq rfl rfl (hload ▸ hmd)
  exact W.harmless_of_opens hlz4 hW (hload.trans (W.loadMetadata_eq hW))
    (W.opens_blocks hcrc hlz4 hW hdata hfile' trivial) W.passes_chunks (W.leadsTo rfl TableError)

/-! ### A changed footer -/

theorem footer_tiles : W.footer.Tiles W.body.length := by
  have hbody := W.body_length
  unfold FooterMetadata.Tiles
  rcases W.filterBytes_cases with ⟨rfl, hnone⟩ | ⟨f, rfl, -, hpos⟩
  · have hzero : W.footer.filterLength = 0 := congrArg List.length hnone
    rw [if_pos hzero]
    refine ⟨rfl, ?_⟩
    rw [hbody, hnone]
    rfl
  · have hne : W.footer.filterLength ≠ 0 := hpos.ne'
    rw [if_neg hne]
    refine ⟨List.length_append, ?_⟩
    show (dataBytes W.blocks ++ indexBytes (entriesFrom 0 W.blocks)).length + _ = _
    rw [List.length_append, hbody]
    rfl

end Written

/-- A footer whose numbers do not fit together is refused. -/
theorem checkFooter_fails {dataEnd : Nat} (hend : dataEnd < 2 ^ 63) {footer : FooterMetadata}
    (h : ¬ footer.Tiles dataEnd) : ∃ e, checkFooter dataEnd footer = fail e := by
  have hgives := gives_checkFooter hend footer
  cases hcheck : checkFooter dataEnd footer with
  | ok f =>
      rw [hcheck] at hgives
      exact absurd hgives.2 h
  | error s =>
      cases s with
      | failed e => exact ⟨e, rfl⟩
      | fault f =>
          rw [hcheck] at hgives
          exact hgives.elim

/-- Numbers that fit together do so no longer after one of them is changed. -/
theorem not_tiles_of_changed {dataEnd : Nat} {footer : FooterMetadata}
    (h : footer.Tiles dataEnd) (hindex : 0 < footer.indexLength) {n : Nat} :
    (n ≠ footer.indexOffset → ¬ { footer with indexOffset := n }.Tiles dataEnd) ∧
    (n ≠ footer.indexLength → ¬ { footer with indexLength := n }.Tiles dataEnd) ∧
    (n ≠ footer.filterOffset → ¬ { footer with filterOffset := n }.Tiles dataEnd) ∧
    (n ≠ footer.filterLength → ¬ { footer with filterLength := n }.Tiles dataEnd) := by
  unfold FooterMetadata.Tiles at *
  refine ⟨fun hne htiles => ?_, fun hne htiles => ?_, fun hne htiles => ?_, fun hne htiles => ?_⟩
  all_goals
    dsimp only at htiles
    split at h
    · split at htiles <;> omega
    · split at htiles <;> omega

theorem ofLE_ne_of_changed {w n : Nat} (hn : n < 256 ^ w) {field : Bytes}
    (h : DifferInOneByte (toLE w n) field) : ofLE field ≠ n := by
  intro heq
  refine h.ne (ofLE_inj h.length_eq ?_)
  rw [ofLE_toLE_of_lt hn, heq]

theorem differ_singleton {a : UInt8} {bs : Bytes} (h : DifferInOneByte [a] bs) :
    ∃ b, b ≠ a ∧ bs = [b] := by
  obtain ⟨pre, x, y, post, hne, heq, rfl⟩ := h
  cases pre with
  | nil =>
      obtain ⟨rfl, rfl⟩ := List.cons.inj heq
      exact ⟨y, hne.symm, rfl⟩
  | cons c pre =>
      have hnil := (List.cons.inj heq).2
      simp at hnil

namespace Written

variable {env : Env} {opts : WriteOptions} {filter : Option Bloom.Filter} {recs : List Record}
  {created : Created} (W : Written env opts filter recs created)

/-- **Any changed byte of the footer is noticed**, unless it turns the version into the legacy
one. -/
theorem decodeFooter_changed {footer' : Bytes} (h : DifferInOneByte W.footerPart footer') :
    (∃ e, decodeFooter created.file.size footer' = fail e) ∨
      decodeFooter created.file.size footer' =
        .ok { W.footer with formatVersion := legacyFormatVersion } := by
  have hlt : created.file.size < 2 ^ 63 := created.file.size_lt
  have hsize := W.file_size
  have hend : created.file.size - footerSize = W.body.length := by omega
  have hlimit : W.body.length < 2 ^ 63 := by omega
  have htiles := W.footer_tiles
  have hindex : 0 < W.footer.indexLength := by
    have := indexBytes_length_ge (entriesFrom 0 W.blocks)
    show 0 < (indexBytes (entriesFrom 0 W.blocks)).length
    omega
  obtain ⟨hio, hil, hfo, hfl⟩ : W.footer.indexOffset < 256 ^ 8 ∧ W.footer.indexLength < 256 ^ 8 ∧
      W.footer.filterOffset < 256 ^ 8 ∧ W.footer.filterLength < 256 ^ 8 := by
    unfold FooterMetadata.Tiles at htiles
    split at htiles
    · refine ⟨?_, ?_, ?_, ?_⟩ <;> omega
    · refine ⟨?_, ?_, ?_, ?_⟩ <;> omega
  have hle : footerSize ≤ created.file.size := by omega
  have h8 := toLE_length 8
  -- With the rest as it was, a changed number does not fit the others.
  have hnumbers : ∀ f1 f2 f3 f4 : Bytes, f1.length = 8 → f2.length = 8 → f3.length = 8 →
      f4.length = 8 → decodeFooter created.file.size
        (f1 ++ f2 ++ f3 ++ f4 ++ tableMagic ++ [currentFormatVersion, 0]) =
      checkFooter W.body.length
        { formatVersion := currentFormatVersion, indexOffset := ofLE f1, indexLength := ofLE f2,
          filterOffset := ofLE f3, filterLength := ofLE f4 } := by
    intro f1 f2 f3 f4 h1 h2 h3 h4
    rw [decodeFooter_fields hle h1 h2 h3 h4 rfl, if_neg (not_not.mpr rfl), if_neg (by decide),
      if_neg (not_not.mpr rfl), hend]
  rcases h.append_cases with ⟨front, hfront, rfl⟩ | ⟨last, hlast, rfl⟩
  · left
    rcases hfront.append_cases with ⟨four, hfour, rfl⟩ | ⟨magic, hmagic, rfl⟩
    · rcases hfour.append_cases with ⟨three, hthree, rfl⟩ | ⟨field, hfield, rfl⟩
      · rcases hthree.append_cases with ⟨two, htwo, rfl⟩ | ⟨field, hfield, rfl⟩
        · rcases htwo.append_cases with ⟨field, hfield, rfl⟩ | ⟨field, hfield, rfl⟩
          · rw [hnumbers _ _ _ _ (hfield.length_eq.symm.trans (h8 _)) (h8 _) (h8 _) (h8 _),
              ofLE_toLE_of_lt hil, ofLE_toLE_of_lt hfo, ofLE_toLE_of_lt hfl]
            exact checkFooter_fails hlimit ((not_tiles_of_changed htiles hindex).1
              (ofLE_ne_of_changed hio hfield))
          · rw [hnumbers _ _ _ _ (h8 _) (hfield.length_eq.symm.trans (h8 _)) (h8 _) (h8 _),
              ofLE_toLE_of_lt hio, ofLE_toLE_of_lt hfo, ofLE_toLE_of_lt hfl]
            exact checkFooter_fails hlimit ((not_tiles_of_changed htiles hindex).2.1
              (ofLE_ne_of_changed hil hfield))
        · rw [hnumbers _ _ _ _ (h8 _) (h8 _) (hfield.length_eq.symm.trans (h8 _)) (h8 _),
            ofLE_toLE_of_lt hio, ofLE_toLE_of_lt hil, ofLE_toLE_of_lt hfl]
          exact checkFooter_fails hlimit ((not_tiles_of_changed htiles hindex).2.2.1
            (ofLE_ne_of_changed hfo hfield))
      · rw [hnumbers _ _ _ _ (h8 _) (h8 _) (h8 _) (hfield.length_eq.symm.trans (h8 _)),
          ofLE_toLE_of_lt hio, ofLE_toLE_of_lt hil, ofLE_toLE_of_lt hfo]
        exact checkFooter_fails hlimit ((not_tiles_of_changed htiles hindex).2.2.2
          (ofLE_ne_of_changed hfl hfield))
    · rw [decodeFooter_fields hle (h8 _) (h8 _) (h8 _) (h8 _) hmagic.length_eq.symm,
        if_pos hmagic.ne.symm]
      exact ⟨_, rfl⟩
  · have hsplit : ([currentFormatVersion, 0] : Bytes) = [currentFormatVersion] ++ [0] := rfl
    rw [hsplit] at hlast
    rcases hlast.append_cases with ⟨vs, hvs, rfl⟩ | ⟨gs, hgs, rfl⟩
    · obtain ⟨version, hversion, rfl⟩ := differ_singleton hvs
      show (∃ e, decodeFooter _ (_ ++ [version, 0]) = _) ∨ decodeFooter _ (_ ++ [version, 0]) = _
      rw [decodeFooter_fields hle (h8 _) (h8 _) (h8 _) (h8 _) rfl, if_neg (not_not.mpr rfl)]
      by_cases hlegacy : version = legacyFormatVersion
      · right
        subst hlegacy
        rw [if_neg (by decide), if_neg (not_not.mpr rfl), hend, ofLE_toLE_of_lt hio,
          ofLE_toLE_of_lt hil, ofLE_toLE_of_lt hfo, ofLE_toLE_of_lt hfl]
        unfold FooterMetadata.Tiles at htiles
        split at htiles
        · rename_i hzero
          exact checkFooter_plain (by omega) htiles.2 hzero htiles.1
        · exact checkFooter_filter (by omega) htiles.1 (by
            show 0 < W.footer.filterLength
            omega) htiles.2
      · left
        rw [if_pos ⟨hlegacy, hversion⟩]
        exact ⟨_, rfl⟩
    · obtain ⟨flags, hflags, rfl⟩ := differ_singleton hgs
      left
      show ∃ e, decodeFooter _ (_ ++ [currentFormatVersion, flags]) = _
      rw [decodeFooter_fields hle (h8 _) (h8 _) (h8 _) (h8 _) rfl, if_neg (not_not.mpr rfl),
        if_neg (by decide), if_pos hflags]
      exact ⟨_, rfl⟩

/-- The metadata of a file that claims to be of the legacy format. -/
theorem loadMetadata_legacy (hW : W.Within) {file' : TableFile} {footer' : Bytes}
    (hlen : footer'.length = footerSize) (hfile' : file'.bytes = W.body ++ footer')
    (hfooter : readFooter file' = .ok { W.footer with formatVersion := legacyFormatVersion }) :
    loadMetadata file' = .ok { W.metadata with formatVersion := legacyFormatVersion } := by
  have hbody := W.body_length
  have htail : footer'.length = W.footerPart.length := hlen.trans (footerBytes_length _ _ _ _).symm
  have hread : ∀ {length offset : Nat}, offset + length ≤ W.body.length →
      file'.readAt length offset = created.file.readAt length offset := fun hle =>
    readAt_front W.bytes hfile' htail hle
  have hindex : loadIndex file' { W.footer with formatVersion := legacyFormatVersion } =
      loadIndex created.file W.footer := by
    refine loadIndex_congr rfl rfl (hread ?_)
    show (dataBytes W.blocks).length + (indexBytes (entriesFrom 0 W.blocks)).length ≤ _
    omega
  have hfilter : loadFilter file' { W.footer with formatVersion := legacyFormatVersion } =
      loadFilter created.file W.footer := by
    refine loadFilter_congr rfl rfl fun hpos => hread ?_
    rw [W.filterOffset_eq hpos]
    simp only [before, List.length_append]
    show _ + W.filterBytes.length ≤ _
    omega
  unfold loadMetadata
  rw [hfooter, ok_bind, hindex, W.loadIndex_eq hW, ok_bind, hfilter, W.loadFilter_eq hW, ok_bind]
  rfl

include W in
/-- **A changed footer is harmless.** -/
theorem harmless_footer (hlz4 : env.lz4.Inverts) (hfits : ∀ r ∈ recs, r.Fits) {file' : TableFile}
    (h : TamperedIn .footer created.file file') : Harmless env created.file file' := by
  obtain ⟨footer', hfooter', hfile'⟩ := W.tampered_part h
  have hlen : footer'.length = footerSize :=
    hfooter'.length_eq.symm.trans (footerBytes_length _ _ _ _)
  rw [show W.after .footer = [] from rfl, List.append_nil,
    show W.before .footer = W.body from rfl] at hfile'
  have hsize : file'.size = created.file.size := by
    rw [W.file_size, TableFile.size, hfile', List.length_append, hlen]
  have hread : readFooter file' = decodeFooter created.file.size footer' := by
    rw [Table.readFooter_eq hfile' hlen, hsize]
  rcases W.decodeFooter_changed hfooter' with ⟨e, hfail⟩ | hlegacy
  · refine harmless_of_fail (e := e) ?_
    unfold loadMetadata
    rw [hread, hfail]
    rfl
  · rw [hlegacy] at hread
    refine harmless_of_loads fun md hmd => ?_
    have hW := W.within_of_loads hfits hread rfl rfl hmd
    have hdata : file'.bytes = dataBytes W.blocks ++
        (indexBytes (entriesFrom 0 W.blocks) ++ (W.filterBytes ++ footer')) := by
      rw [hfile', body]
      simp only [List.append_assoc]
    refine W.harmless_of_opens hlz4 hW (W.loadMetadata_legacy hW hlen hfile' hread) ?_
      W.passes_chunks (W.leadsTo rfl TableError)
    exact W.opens_all hlz4 hW hdata (by rfl) true (by rfl) fun _ => trivial

end Written

end HyphaDB.Table
