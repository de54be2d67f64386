import HyphaDB.Table.Tampered

/-!
# HyphaDB.Table.Unnoticed

**Which changes of one byte go unnoticed**: index and filter have no checksum.

A changed filter does harm exactly if it turns a key of the table away. A changed index does none
if each entry opens its block or is refused and a search for any key begins in the right block;
where each entry still names the bytes of its block (`InPlace`) this is exact, as calls of `Next`
show the number of blocks and a `Seek` shows where its search began. The count at the front of the
index is believed: a smaller one makes the last blocks disappear, a greater one is refused.
-/

namespace HyphaDB.Table

open Checked

/-! ### What the calls show -/

/-- Calls of `Next` give the records one by one, then nothing. -/
theorem answers_nexts (recs rest : List Record) (n : Nat) :
    answers recs rest (List.replicate n .next) = (List.range n).map (rest[·]?) := by
  induction n generalizing rest with
  | zero => rfl
  | succ n ih =>
      rw [List.replicate_succ, answers, ih, List.range_succ_eq_map, List.map_cons, List.map_map]
      cases rest with
      | nil => rfl
      | cons r rest => rfl

/-- So they tell the records apart. -/
theorem eq_of_nexts {recs recs' a b : List Record}
    (h : ∀ n, answers recs a (List.replicate n .next) = answers recs' b (List.replicate n .next)) :
    a = b := by
  refine List.ext_getElem? fun i => ?_
  have hi := h (i + 1)
  rw [answers_nexts, answers_nexts] at hi
  exact List.map_inj_left.mp hi i (List.mem_range.mpr (Nat.lt_succ_self i))

section Harmless

variable {env : Env} {file file' : TableFile} {md md' : Metadata} {interval : Nat}
  {chunks : List (List Record)}

theorem iterate_nexts (h : Opens env False file md interval chunks)
    (hasc : KeysAscend chunks.flatten) (hmd : loadMetadata file = .ok md) (n : Nat) :
    iterate env file (List.replicate n .next) =
      .ok (answers chunks.flatten (chunks.flatten.map Record.plain) (List.replicate n .next)) := by
  obtain ⟨_, hiterate, rfl⟩ := (delivers_iterate h hasc hmd (List.replicate n .next)
    fun key hmem => nomatch List.eq_of_mem_replicate hmem).exists_ok id
  exact hiterate

/-- After a `Seek` they show where its search began. -/
theorem iterate_sought (h : Opens env False file md interval chunks)
    (hasc : KeysAscend chunks.flatten) (hmd : loadMetadata file = .ok md) {key : Key} {i : Nat}
    (hfirst : (firstPossibleBlock md.index key : Attempt TableError Int) = .ok (i : Int))
    (hi : i < md.index.length) (n : Nat) :
    iterate env file (.seek key :: List.replicate n .next) = .ok (answers chunks.flatten
      ((Iterator.sought chunks i key).map Record.plain) (List.replicate n .next)) := by
  obtain ⟨it, hnew, hit⟩ := newIterator_eq False interval chunks hmd
  obtain ⟨a, hseek, hlost | hat⟩ := Iterator.seek_block h hasc hit hfirst hi
  · exact hlost.1.elim
  obtain ⟨p, htrace, hlost | ⟨hgiven, rest, hlast⟩⟩ := Iterator.trace_answers (ε := TableError) h
    hasc (List.replicate n .next) (fun key hmem => nomatch List.eq_of_mem_replicate hmem) hat
  · exact hlost.1.elim
  unfold iterate
  rw [hnew, ok_bind, Iterator.trace, hseek, ok_bind, htrace, ok_bind]
  dsimp only
  rw [hlast.err, hgiven]
  rfl

/-- What the changed file gives without an error the file gives. -/
theorem Harmless.iterate_eq (h : Harmless env file file') {cs : List IteratorCall}
    {given : List (Option Record)} (hgiven : iterate env file' cs = .ok given) :
    iterate env file cs = .ok given := by
  rcases h.calls cs with ⟨e, hfail⟩ | heq
  · rw [hgiven] at hfail
    cases hfail
  · exact heq ▸ hgiven

/-- Fewer blocks give fewer records. -/
theorem Harmless.index_length (hharmless : Harmless env file file')
    (h : Opens env False file md interval chunks) (hasc : KeysAscend chunks.flatten)
    (hmd : loadMetadata file = .ok md) (hmd' : loadMetadata file' = .ok md')
    (h' : Opens env False file' md' interval (chunks.take md'.index.length)) :
    md'.index.length = chunks.length := by
  have hlength := h'.length
  rw [List.length_take] at hlength
  by_contra hne
  have hlt : md'.index.length < chunks.length := by omega
  have hasc' : KeysAscend (chunks.take md'.index.length).flatten :=
    List.Pairwise.sublist (List.take_sublist _ _).flatten hasc
  have hsame : (chunks.take md'.index.length).flatten.map Record.plain =
      chunks.flatten.map Record.plain := eq_of_nexts fun n => by
    have hgiven := hharmless.iterate_eq (iterate_nexts h' hasc' hmd' n)
    rw [iterate_nexts h hasc hmd n] at hgiven
    exact (Except.ok.inj hgiven).symm
  have hlen := congrArg List.length hsame
  have hpos := List.length_pos_of_ne_nil (h.fits _ (List.getElem_mem hlt)).nonempty
  have hsplit := congrArg List.length (flatten_split (List.getElem?_eq_getElem hlt))
  simp only [List.length_map, List.length_append] at hlen hsplit
  omega

/-- A search that begins in the wrong block shows. -/
theorem Harmless.leadsTo (hharmless : Harmless env file file')
    (h : Opens env False file md interval chunks) (hasc : KeysAscend chunks.flatten)
    (hleads : ∀ key, LeadsTo TableError md.index chunks key) (hmd : loadMetadata file = .ok md)
    (hmd' : loadMetadata file' = .ok md') (h' : Opens env False file' md' interval chunks)
    (key : Key) : LeadsTo TableError md'.index chunks key := by
  intro hne
  obtain ⟨i, hfirst, hlow, hi⟩ := (delivers_firstPossibleBlock hne key).exists_ok id
  obtain ⟨i, rfl⟩ := Int.eq_ofNat_of_zero_le hlow
  have hi : i < md'.index.length := by omega
  have hchunk := List.getElem?_eq_getElem (h'.length ▸ hi : i < chunks.length)
  have hsame : (Iterator.sought chunks i key).map Record.plain =
      (chunks.flatten.filter fun r => key ≤ r.key).map Record.plain := eq_of_nexts fun n => by
    have hgiven := hharmless.iterate_eq (iterate_sought h' hasc hmd' hfirst hi n)
    obtain ⟨_, hiterate, rfl⟩ :=
      (delivers_iterate h hasc hmd _ fun key _ => hleads key).exists_ok id
    rw [hiterate] at hgiven
    exact (Except.ok.inj hgiven).symm
  have hbehind : ∀ r ∈ (chunks.drop (i + 1)).flatten, key ≤ r.key := by
    intro r hr
    have hmem : r.plain ∈ (Iterator.sought chunks i key).map Record.plain :=
      List.mem_map_of_mem (List.mem_append_right _ hr)
    rw [hsame] at hmem
    obtain ⟨r', hr', hplain⟩ := List.mem_map.mp hmem
    have hkey : r'.key = r.key := congrArg (·.key) hplain
    simpa [hkey] using (List.mem_filter.mp hr').2
  refine ⟨i, hfirst, hi, fun r hr => ?_, hbehind⟩
  -- The records behind the block are all there, so none before it can count.
  have hlen := congrArg List.length hsame
  have hall : (chunks.drop (i + 1)).flatten.filter (fun r => key ≤ r.key) =
      (chunks.drop (i + 1)).flatten := List.filter_eq_self.mpr fun r hr => by
    simpa using hbehind r hr
  rw [Iterator.sought, hchunk, Option.getD_some, flatten_split hchunk] at hlen
  simp only [List.length_map, List.filter_append, hall, List.length_append] at hlen
  have hnil : (chunks.take i).flatten.filter (fun r => key ≤ r.key) = [] :=
    List.eq_nil_of_length_eq_zero (by omega)
  simpa using List.filter_eq_nil_iff.mp hnil r hr

/-- A key that is turned away shows. -/
theorem Harmless.passes (hharmless : Harmless env file file')
    (hmd' : loadMetadata file' = .ok md') {r : Record}
    (hfound : getRecordAt env file r.key r.seq ≠ .ok none) :
    (md'.mayContain env r.key : Attempt TableError Bool) = .ok true := by
  obtain ⟨possible, hpossible⟩ := mayContain_total env hmd' r.key
  cases possible with
  | true => exact hpossible
  | false =>
      have hmissing : getRecordAt env file' r.key r.seq = .ok none := by
        unfold getRecordAt
        rw [hmd', ok_bind, hpossible, ok_bind]
        rfl
      rcases hharmless.point r.key r.seq with ⟨e, hfail⟩ | heq
      · rw [hmissing] at hfail
        cases hfail
      · exact absurd (heq ▸ hmissing) hfound

end Harmless

/-! ### The header of a filter -/

/-- The header takes no change but of the hash count. -/
theorem decodeFilter_changed {buf buf' : Bytes} {f f' : Bloom.Filter} (h : Bloom.decode buf = .ok f)
    (h' : Bloom.decode buf' = .ok f') {place : Nat} (hchanged : ChangedAt place buf buf') :
    place = 3 ∨ Bloom.encodedHeaderSize ≤ place := by
  obtain ⟨-, hcodes, hbits⟩ := Bloom.decode_header h
  obtain ⟨-, hcodes', hbits'⟩ := Bloom.decode_header h'
  have hlen := hchanged.differ.length_eq
  have hne := hchanged.getElem?_ne
  have hlen' : Bloom.encodedHeaderSize = 12 := rfl
  by_contra hplace
  rcases Nat.lt_or_gt_of_ne (not_or.mp hplace).1 with hlt | hgt
  · have hsame := congrArg (·[place]?) (hcodes.trans hcodes'.symm)
    simp only [List.getElem?_take, if_pos hlt] at hsame
    exact hne hsame
  · have hsame : (buf.drop 4).take 8 = (buf'.drop 4).take 8 := by
      refine ofLE_inj (by simp [hlen]) ?_
      rw [hbits, hbits', hlen]
    have hplace' := congrArg (·[place - 4]?) hsame
    simp only [List.getElem?_take, List.getElem?_drop, if_pos (by omega : place - 4 < 8),
      show 4 + (place - 4) = place by omega] at hplace'
    exact hne hplace'

/-- The count in front of the index. -/
def indexCount (footer : FooterMetadata) (file : TableFile) : Nat :=
  ofLE ((file.bytes.drop footer.indexOffset).take 4)

namespace Written

variable {env : Env} {opts : WriteOptions} {filter : Option Bloom.Filter} {recs : List Record}
  {created : Created} (W : Written env opts filter recs created)

include W in
/-- A file beyond the limits of the reader does not load, whatever becomes of index and filter. -/
theorem within_of_tampered (hfits : ∀ r ∈ recs, r.Fits) {region : Region}
    (hregion : region ≠ .footer) {file' : TableFile} (h : TamperedIn region created.file file')
    {md' : Metadata} (hmd' : loadMetadata file' = .ok md') : W.Within := by
  obtain ⟨part', hpart, hfile'⟩ := W.tampered_part h
  exact W.within_of_loads hfits (W.readFooter_tampered hregion hpart.length_eq.symm hfile') rfl rfl
    hmd'

/-! ### The filter -/

/-- What is loaded of a file whose filter was changed. -/
theorem loadMetadata_filter (hW : W.Within) {file' : TableFile} {part' : Bytes}
    (hlen : part'.length = (W.part .filter).length) (hpos : 0 < W.footer.filterLength)
    (hfile' : file'.bytes = W.before .filter ++ part' ++ W.after .filter) :
    loadMetadata file' = (do
      let f ← mapError (.decodeFilter W.footer.filterOffset) (Bloom.decode part')
      pure { W.metadata with filter := some f }) := by
  have hfooter := W.readFooter_tampered (by decide : Region.filter ≠ .footer) hlen hfile'
  have hlt : created.file.size < 2 ^ 63 := created.file.size_lt
  have hsize := W.file_size
  have hbody := W.body_length
  have hoffset := W.filterOffset_eq hpos
  have hlength : W.footer.filterLength = W.filterBytes.length := rfl
  have hmax : W.footer.filterLength ≤ maxFilterSize := hW.filter
  have hbefore : (W.before .filter).length ≤ W.body.length := by
    simp only [before, List.length_append]
    omega
  have hread : file'.readAt W.footer.filterLength W.footer.filterOffset = some part' :=
    readAt_append hfile' (hlength.trans hlen.symm) hoffset
  have hindex : loadIndex file' W.footer = loadIndex created.file W.footer := by
    have hbytes := W.bytes_part .filter
    rw [List.append_assoc] at hfile' hbytes
    refine loadIndex_congr rfl rfl (readAt_front hbytes hfile' ?_ ?_)
    · rw [List.length_append, List.length_append, hlen]
    · show (dataBytes W.blocks).length + (indexBytes (entriesFrom 0 W.blocks)).length ≤ _
      simp only [before, List.length_append, le_refl]
  unfold loadMetadata loadFilter
  rw [hfooter, ok_bind, hindex, W.loadIndex_eq hW, ok_bind, checkedBufferLength_eq hmax (by decide),
    ok_bind, if_pos hpos, fits_eq (by omega), ok_bind, hread]
  dsimp only
  rw [bind_assoc]
  rfl

theorem filterLength_pos {part' : Bytes} (h : DifferInOneByte (W.part .filter) part') :
    0 < W.footer.filterLength := by
  obtain ⟨place, hplace, -⟩ := h.changedAt
  exact Nat.zero_lt_of_lt hplace

/-- **A change in the header of the filter is refused**, apart from the hash count. -/
theorem filter_refused (hfits : ∀ r ∈ recs, r.Fits) {file' : TableFile} {place : Nat}
    (hchanged : ChangedAt place created.file.bytes file'.bytes)
    (hregion : regionAt W.footer created.file.size place = .filter)
    (hlt : place < W.footer.filterOffset + Bloom.encodedHeaderSize)
    (hne : place ≠ W.footer.filterOffset + 3) (md' : Metadata) : loadMetadata file' ≠ .ok md' := by
  intro hmd'
  have hW := W.within_of_tampered hfits (by decide) ⟨_, _, W.readFooter_eq, hchanged, hregion⟩ hmd'
  obtain ⟨part', hle, hpart, hfile'⟩ := W.changed_part hchanged hregion
  have hpos := W.filterLength_pos hpart.differ
  have hoffset := W.filterOffset_eq hpos
  have hmd := W.loadMetadata_eq hW
  rw [W.loadMetadata_filter hW hpart.differ.length_eq.symm hpos hfile'] at hmd'
  rw [W.loadMetadata_filter hW rfl hpos (W.bytes_part .filter)] at hmd
  obtain ⟨f', hf', -⟩ := bind_eq_ok hmd'
  obtain ⟨f, hf, -⟩ := bind_eq_ok hmd
  rcases decodeFilter_changed (mapError_eq_ok hf) (mapError_eq_ok hf') hpart with h3 | hbits
  · omega
  · omega

/-- A record of the table is found. -/
theorem getRecordAt_ne_none (hlz4 : env.lz4.Inverts) (hW : W.Within) {r : Record} (hr : r ∈ recs) :
    getRecordAt env created.file r.key r.seq ≠ .ok none := by
  obtain ⟨found, hget, rfl⟩ := (delivers_getRecordAt (W.opens hlz4 hW) W.passes_chunks
    (W.leadsTo rfl TableError r.key) (W.loadMetadata_eq hW) W.inOrder_chunks r.seq).exists_ok id
  rw [hget, SSTable.getRecordAt_eq_find W.inOrder_chunks, W.chunks_flatten]
  intro hnone
  have hfind := Option.map_eq_none_iff.mp (Except.ok.inj hnone)
  exact List.find?_eq_none.mp hfind r hr (visible_iff.mpr ⟨rfl, le_rfl⟩)

include W in
/-- **A changed filter does harm if it turns a key away**, and only then. -/
theorem harmless_filter_iff (hlz4 : env.lz4.Inverts) (hfits : ∀ r ∈ recs, r.Fits)
    {file' : TableFile} (h : TamperedIn .filter created.file file') :
    Harmless env created.file file' ↔
      ∀ md', loadMetadata file' = .ok md' → Passes env md' recs := by
  constructor
  · intro hharmless md' hmd' r hr
    have hW := W.within_of_tampered hfits (by decide) h hmd'
    exact hharmless.passes hmd' (W.getRecordAt_ne_none hlz4 hW hr)
  · intro hpasses
    refine harmless_of_loads fun md' hmd' => ?_
    have hW := W.within_of_tampered hfits (by decide) h hmd'
    obtain ⟨part', hpart, hfile'⟩ := W.tampered_part h
    have hload := hmd'
    rw [W.loadMetadata_filter hW hpart.length_eq.symm (W.filterLength_pos hpart) hfile'] at hload
    obtain ⟨f, -, hf⟩ := bind_eq_ok hload
    cases hf
    simp only [before, List.append_assoc] at hfile'
    refine W.harmless_of_opens hlz4 hW hmd' ?_ ?_ (W.leadsTo rfl TableError)
    · exact W.opens_all hlz4 hW hfile' (by rfl) false (by rfl) fun _ => trivial
    · rw [W.chunks_flatten]
      exact hpasses _ hmd'

/-! ### The index -/

/-- What is loaded of a file whose index was changed. -/
theorem loadMetadata_index (hW : W.Within) {file' : TableFile} {part' : Bytes}
    (hlen : part'.length = (W.part .index).length)
    (hfile' : file'.bytes = W.before .index ++ part' ++ W.after .index) :
    loadMetadata file' = (do
      let index ← mapError (.decodeIndex W.footer.indexOffset) (decodeIndex part')
      pure { W.metadata with index }) := by
  have hfooter := W.readFooter_tampered (by decide : Region.index ≠ .footer) hlen hfile'
  have hlt : created.file.size < 2 ^ 63 := created.file.size_lt
  have hsize := W.file_size
  have hbody := W.body_length
  have hread : file'.readAt (indexBytes (entriesFrom 0 W.blocks)).length
      (dataBytes W.blocks).length = some part' := readAt_append hfile' hlen.symm rfl
  have hindex : loadIndex file' W.footer =
      mapError (.decodeIndex W.footer.indexOffset) (decodeIndex part') := by
    unfold loadIndex
    simp only [footer]
    rw [checkedBufferLength_eq hW.index (by decide), ok_bind, fits_eq (by omega), ok_bind, hread]
  have hfilter : loadFilter file' W.footer = loadFilter created.file W.footer := by
    refine loadFilter_congr rfl rfl fun hpos =>
      readAt_tail W.bytes_index hfile' (by simp only [part] at hlen; simp [before, hlen]) ?_
    rw [W.filterOffset_eq hpos]
    exact le_rfl
  unfold loadMetadata
  rw [hfooter, ok_bind, hindex, hfilter, W.loadFilter_eq hW]
  rfl

/-- **With each entry in its place** a changed index does no harm exactly if no entry is missing and
a search for any key begins in the right block. -/
theorem harmless_in_place_iff (hlz4 : env.lz4.Inverts) (hW : W.Within) {file' : TableFile}
    {rest : Bytes} (hfile' : file'.bytes = dataBytes W.blocks ++ rest) {index : List IndexEntry}
    (hmd' : loadMetadata file' = .ok { W.metadata with index })
    (hplace : InPlace index W.metadata.index) :
    Harmless env created.file file' ↔ index.length = W.metadata.index.length ∧
      ∀ key, LeadsTo TableError index W.chunks key := by
  have hopens : Opens env False file' { W.metadata with index } opts.restartInterval.toNat
      (W.chunks.take index.length) :=
    W.opens_take hlz4 hW hfile' hplace false rfl fun h => nomatch h
  have hasc := keysAscend_of_inOrder W.inOrder_chunks
  have hall : index.length = W.chunks.length →
      Opens env False file' { W.metadata with index } opts.restartInterval.toNat W.chunks := by
    intro hlength
    rwa [hlength, List.take_length] at hopens
  rw [W.index_length]
  constructor
  · intro hharmless
    have hlength := hharmless.index_length (W.opens hlz4 hW) hasc (W.loadMetadata_eq hW) hmd' hopens
    exact ⟨hlength, hharmless.leadsTo (W.opens hlz4 hW) hasc (W.leadsTo rfl TableError)
      (W.loadMetadata_eq hW) hmd' (hall hlength)⟩
  · rintro ⟨hlength, hleads⟩
    exact W.harmless_of_opens hlz4 hW hmd' ((hall hlength).weaken True) W.passes_chunks hleads

theorem blocks_length_lt (hW : W.Within) : W.blocks.length < 2 ^ 32 := by
  have hindex := hW.index
  have hge := indexBytes_length_ge (entriesFrom 0 W.blocks)
  rw [entriesFrom_length] at hge
  unfold maxIndexSize at hindex
  omega

theorem index_part : W.part .index =
    toLE 4 W.blocks.length ++ (entriesFrom 0 W.blocks).flatMap entryBytes := by
  simp only [part, indexBytes, entriesFrom_length]

/-- A change of the count leaves the entries behind it. -/
theorem changed_count {file' : TableFile} {place : Nat}
    (hchanged : ChangedAt place created.file.bytes file'.bytes)
    (hregion : regionAt W.footer created.file.size place = .index)
    (hlt : place < W.footer.indexOffset + 4) :
    ∃ count : Bytes, DifferInOneByte (toLE 4 W.blocks.length) count ∧
      file'.bytes = W.before .index ++
        (count ++ (entriesFrom 0 W.blocks).flatMap entryBytes) ++ W.after .index := by
  obtain ⟨part', hle, hpart, hfile'⟩ := W.changed_part hchanged hregion
  have hoffset : W.footer.indexOffset = (W.before .index).length := rfl
  rw [W.index_part] at hpart
  obtain ⟨count, hcount, rfl⟩ := hpart.left (by rw [toLE_length]; omega)
  exact ⟨count, hcount.differ, hfile'⟩

section Count

variable {file' : TableFile} {count : Bytes} (hfour : count.length = 4)
  (hfile' : file'.bytes = W.before .index ++
    (count ++ (entriesFrom 0 W.blocks).flatMap entryBytes) ++ W.after .index)

include hfour hfile'

theorem indexCount_eq : indexCount W.footer file' = ofLE count := by
  show ofLE ((file'.bytes.drop (W.before .index).length).take 4) = _
  rw [hfile', List.append_assoc, List.append_assoc, List.drop_left, List.take_left' hfour]

theorem loadMetadata_count (hW : W.Within) :
    loadMetadata file' = (do
      let index ← mapError (.decodeIndex W.footer.indexOffset)
        (decodeEntries (ofLE count) ((entriesFrom 0 W.blocks).flatMap entryBytes))
      pure { W.metadata with index }) := by
  have hcodes := toLE_ofLE count
  have hbound := ofLE_lt count
  rw [hfour] at hcodes hbound
  rw [W.loadMetadata_index hW (by simp [W.index_part, hfour]) hfile',
    ← decodeIndex_append (by omega), hcodes]

/-- With a greater count the entries come to an end too early. -/
theorem count_raised (hW : W.Within) (hmore : W.blocks.length < ofLE count) (md' : Metadata) :
    loadMetadata file' ≠ .ok md' := by
  obtain ⟨left, hleft⟩ : ∃ left, ofLE count = W.blocks.length + (left + 1) :=
    ⟨ofLE count - W.blocks.length - 1, by omega⟩
  have hentries := decodeEntries_append (fun e he => W.entry_fits hW he) (left + 1) []
  rw [List.append_nil, entriesFrom_length] at hentries
  rw [W.loadMetadata_count hfour hfile' hW, hleft, hentries]
  intro hok
  cases hok

/-- With a smaller count the entries that are still read are in their places, and the others are
missing. -/
theorem count_lowered (hlz4 : env.lz4.Inverts) (hW : W.Within)
    (hless : ofLE count < W.blocks.length) : ¬ Harmless env created.file file' := by
  intro hharmless
  have htake : ((entriesFrom 0 W.blocks).take (ofLE count)).length = ofLE count := by
    rw [List.length_take, entriesFrom_length]
    omega
  have hentries := @decodeEntries_append ((entriesFrom 0 W.blocks).take (ofLE count))
    (fun e he => W.entry_fits hW (List.mem_of_mem_take he)) 0
    (((entriesFrom 0 W.blocks).drop (ofLE count)).flatMap entryBytes)
  rw [htake, ← List.flatMap_append, List.take_append_drop, Nat.add_zero] at hentries
  have hmd' := W.loadMetadata_count hfour hfile' hW
  rw [hentries] at hmd'
  have hplace : InPlace ((entriesFrom 0 W.blocks).take (ofLE count) ++ []) W.metadata.index := by
    intro i e he
    rw [List.append_nil, List.getElem?_take] at he
    split at he
    · exact ⟨e, he, rfl, rfl⟩
    · cases he
  have hlength := ((W.harmless_in_place_iff hlz4 hW (hfile'.trans (List.append_assoc _ _ _)) hmd'
    hplace).mp hharmless).1
  rw [List.append_nil, htake, W.index_length, chunks, List.length_map] at hlength
  omega

end Count

/-- **The count of the index** may be raised, which is refused, and not lowered. -/
theorem harmless_count_iff (hlz4 : env.lz4.Inverts) (hfits : ∀ r ∈ recs, r.Fits)
    {file' : TableFile} {place : Nat}
    (hchanged : ChangedAt place created.file.bytes file'.bytes)
    (hregion : regionAt W.footer created.file.size place = .index)
    (hlt : place < W.footer.indexOffset + 4) :
    Harmless env created.file file' ↔
      (WithinLimits created.file →
        indexCount W.footer created.file < indexCount W.footer file') := by
  obtain ⟨count, hcount, hfile'⟩ := W.changed_count hchanged hregion hlt
  have hfour : count.length = 4 := hcount.length_eq.symm.trans (toLE_length 4 _)
  have hold : created.file.bytes = W.before .index ++ (toLE 4 W.blocks.length ++
      (entriesFrom 0 W.blocks).flatMap entryBytes) ++ W.after .index := by
    rw [W.bytes_part .index, W.index_part]
  rw [W.indexCount_eq (toLE_length 4 _) hold, W.indexCount_eq hfour hfile']
  constructor
  · rintro hharmless ⟨footer, hfooter, hindex, hfilter⟩
    rw [W.readFooter_eq] at hfooter
    cases hfooter
    have hW : W.Within := ⟨hfits, hindex, hfilter⟩
    have hblocks := W.blocks_length_lt hW
    have hne := ofLE_ne_of_changed (w := 4) (by omega) hcount
    rw [ofLE_toLE_of_lt (by omega)]
    by_contra hnot
    exact W.count_lowered hfour hfile' hlz4 hW (by omega) hharmless
  · intro hraised
    refine harmless_of_loads fun md' hmd' => ?_
    have hW := W.within_of_tampered hfits (by decide)
      ⟨_, _, W.readFooter_eq, hchanged, hregion⟩ hmd'
    have hblocks := W.blocks_length_lt hW
    have hmore := hraised ⟨W.footer, W.readFooter_eq, hW.index, hW.filter⟩
    rw [ofLE_toLE_of_lt (by omega)] at hmore
    exact absurd hmd' (W.count_raised hfour hfile' hW hmore md')

end Written

/-! ### The condition -/

section Created

variable {env : Env} {it : RecordIterator} {hint : Int} {opts : WriteOptions} {created : Created}

/-- **When a changed byte does no harm**: every read, by a point read or by calls on an iterator,
reports an error or gives what it gave. In a block or in the footer this is always so, and in a file
that does not load any more. In the filter it is so exactly if no key of the table is turned away;
changes of its header, apart from the hash count, are refused. In the count of the index it is so
exactly if the count is raised. In the rest of the index it is so if each entry opens its block or
is refused and the keys are as they were or lead to the right blocks, and exactly so where each
entry still names the bytes of its block. -/
theorem tampering_harmless (hcrc : Distinguishes env.crc) (hlz4 : env.lz4.Inverts)
    (hcreate : createFromIteratorWithOptions env it hint opts = .ok created)
    (hfits : ∀ r ∈ it.records, r.Fits) {footer : FooterMetadata}
    (hfooter : readFooter created.file = .ok footer) {place : Nat} {file' : TableFile}
    (hchanged : ChangedAt place created.file.bytes file'.bytes) :
    (regionAt footer created.file.size place = .blocks ∨
        regionAt footer created.file.size place = .footer ∨
        (∀ md', loadMetadata file' ≠ .ok md') → Harmless env created.file file') ∧
      (regionAt footer created.file.size place = .filter →
        (Harmless env created.file file' ↔
          ∀ md', loadMetadata file' = .ok md' → Passes env md' it.records) ∧
        (place < footer.filterOffset + Bloom.encodedHeaderSize →
          place ≠ footer.filterOffset + 3 → ∀ md', loadMetadata file' ≠ .ok md')) ∧
      (regionAt footer created.file.size place = .index →
        (place < footer.indexOffset + 4 → (Harmless env created.file file' ↔
          (WithinLimits created.file →
            indexCount footer created.file < indexCount footer file'))) ∧
        ∀ md md', loadMetadata created.file = .ok md → loadMetadata file' = .ok md' →
          ∃ interval chunks, Opens env False created.file md interval chunks ∧
            chunks.flatten = it.records ∧
            (Opens env True file' md' interval chunks →
              (md'.index.map (·.firstKey) = md.index.map (·.firstKey) ∨
                ∀ key, LeadsTo TableError md'.index chunks key) →
              Harmless env created.file file') ∧
            (InPlace md'.index md.index → (Harmless env created.file file' ↔
              md'.index.length = md.index.length ∧
                ∀ key, LeadsTo TableError md'.index chunks key))) := by
  obtain ⟨opts', filter, -, -, ⟨W⟩⟩ := created_written hcreate
  rw [W.readFooter_eq] at hfooter
  cases hfooter
  have htampered : ∀ {region}, regionAt W.footer created.file.size place = region →
      TamperedIn region created.file file' := fun hregion =>
    ⟨_, _, W.readFooter_eq, hchanged, hregion⟩
  refine ⟨?_, fun hregion => ⟨?_, ?_⟩, fun hregion => ⟨?_, ?_⟩⟩
  · rintro (hregion | hregion | hrefused)
    · exact W.harmless_blocks hcrc hlz4 hfits (htampered hregion)
    · exact W.harmless_footer hlz4 hfits (htampered hregion)
    · exact harmless_of_loads fun md' hmd' => absurd hmd' (hrefused md')
  · exact W.harmless_filter_iff hlz4 hfits (htampered hregion)
  · exact fun hlt hne => W.filter_refused hfits hchanged hregion hlt hne
  · exact fun hlt => W.harmless_count_iff hlz4 hfits hchanged hregion hlt
  · intro md md' hmd hmd'
    have hW := W.within_of_tampered hfits (by decide) (htampered hregion) hmd'
    rw [W.loadMetadata_eq hW] at hmd
    cases hmd
    obtain ⟨part', hpart, hfile'⟩ := W.tampered_part (htampered hregion)
    have hload := hmd'
    rw [W.loadMetadata_index hW hpart.length_eq.symm hfile'] at hload
    obtain ⟨index, -, hindex⟩ := bind_eq_ok hload
    cases hindex
    refine ⟨_, W.chunks, W.opens hlz4 hW, W.chunks_flatten, fun hopens hleads => ?_, ?_⟩
    · exact W.harmless_of_opens hlz4 hW hmd' hopens W.passes_chunks
        (hleads.elim (fun hkeys => W.leadsTo hkeys TableError) id)
    · exact W.harmless_in_place_iff hlz4 hW (hfile'.trans (List.append_assoc _ _ _)) hmd'

end Created

/-- The count of blocks in the small table. -/
theorem sampleTable_count : sampleTable.file.bytes[106]? = some 2 := by decide +kernel

/-- A count of 3 in the small table, which is refused. -/
theorem tampering_harmless_raised :
    Harmless storingEnv sampleTable.file (sampleTable.file.set 106 3) :=
  (((tampering_harmless crc32c_distinguishes storingEnv_inverts sampleTable_created (by decide)
    sampleTable_footer (TableFile.set_changed sampleTable_count (by decide))).2.2
    (by decide +kernel)).1 (by decide)).mpr fun _ => by decide +kernel

/-- **Corruption that is served as data**: with a count of 1 in its index the small table has lost
its last record, and the read reports no error. -/
theorem corruption_served :
    TamperedIn .index sampleTable.file (sampleTable.file.set 106 1) ∧
      getRecordAt storingEnv sampleTable.file [2] 4 =
        .ok (some { key := [2], seq := 4, value := [7] }) ∧
      getRecordAt storingEnv (sampleTable.file.set 106 1) [2] 4 = .ok none :=
  ⟨⟨_, 106, sampleTable_footer, TableFile.set_changed sampleTable_count (by decide),
    by decide +kernel⟩, by decide +kernel, by decide +kernel⟩

end HyphaDB.Table
