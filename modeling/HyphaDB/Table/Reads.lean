import HyphaDB.Table.Bounds
import HyphaDB.Table.Reopen

/-!
# HyphaDB.Table.Reads

**Point reads and scans of a file**, sound or damaged. A file that `Opens` chunks of records in
order answers as the list of the records does, or it is damaged and reports an error.

A point read skips blocks by the index and records by the restarts; both skip records of smaller
keys only, so what is left gives the same answer (`delivers_getRecordAt`, which compares with the
record-level `SSTable.getRecordAt`). An iterator is described by the records it has still to give
(`Iterator.At`): `Next` takes the first of them, and `Seek`, from wherever it is called, leaves
those that reach the key (`delivers_iterate`). A legacy block gives the same records before it
reports what is left over, so it makes no other difference.
-/

namespace HyphaDB.Table

open Checked

/-! ### Records in order -/

theorem keysAscend_of_inOrder {recs : List Record} (h : InOrder recs) : KeysAscend recs := by
  refine h.imp fun {a b} hab => ?_
  rcases less_eq_false.mp hab with hlt | ⟨heq, -⟩
  · exact hlt.le
  · exact heq.le

section Chunks

variable {chunks : List (List Record)}

theorem flatten_split {i : Nat} {chunk : List Record} (h : chunks[i]? = some chunk) :
    chunks.flatten = (chunks.take i).flatten ++ (chunk ++ (chunks.drop (i + 1)).flatten) := by
  obtain ⟨hi, rfl⟩ := List.getElem?_eq_some_iff.mp h
  conv_lhs => rw [← List.take_append_drop i chunks, List.drop_eq_getElem_cons hi]
  rw [List.flatten_append, List.flatten_cons]

theorem KeysAscend.chunk (h : KeysAscend chunks.flatten) {chunk : List Record}
    (hchunk : chunk ∈ chunks) : KeysAscend chunk := (List.pairwise_flatten.mp h).1 chunk hchunk

theorem smallestKey_of_mem_head {chunk : List Record} (hne : chunk ≠ []) :
    ∃ r ∈ chunk, SSTable.smallestKey chunk = r.key := by
  obtain ⟨r, hr, hkey⟩ := SSTable.smallestKey_mem hne
  exact ⟨r, hr, hkey.symm⟩

/-- The first key of a chunk is an upper bound of what comes before it. -/
theorem le_smallestKey (h : KeysAscend chunks.flatten) {i : Nat} {chunk : List Record}
    (hchunk : chunks[i]? = some chunk) (hne : chunk ≠ []) {r : Record}
    (hr : r ∈ (chunks.take i).flatten) : r.key ≤ SSTable.smallestKey chunk := by
  rw [flatten_split hchunk] at h
  obtain ⟨r', hr', hkey⟩ := smallestKey_of_mem_head hne
  rw [hkey]
  exact (List.pairwise_append.mp h).2.2 r hr r' (List.mem_append_left _ hr')

/-- It is a lower bound of the chunk and what comes after it. -/
theorem smallestKey_le (h : KeysAscend chunks.flatten) {i : Nat} {chunk : List Record}
    (hchunk : chunks[i]? = some chunk) (hne : chunk ≠ []) {r : Record}
    (hr : r ∈ chunk ++ (chunks.drop (i + 1)).flatten) : SSTable.smallestKey chunk ≤ r.key := by
  rw [flatten_split hchunk] at h
  have htail := (List.pairwise_append.mp h).2.1
  cases chunk with
  | nil => exact absurd rfl hne
  | cons a chunk =>
      rcases List.mem_cons.mp hr with rfl | hr
      · exact le_rfl
      · exact (List.pairwise_cons.mp htail).1 r hr

end Chunks

/-! ### The index -/

section Opens

variable {ε : Type} {env : Env} {damaged : Prop} {file : TableFile} {md : Metadata}
  {interval : Nat} {chunks : List (List Record)}

/-- The search for a key begins in a block with only smaller keys before it and none behind it. -/
def LeadsTo (ε : Type) (index : List IndexEntry) (chunks : List (List Record)) (key : Key) : Prop :=
  index.length ≠ 0 → ∃ i : Nat, (firstPossibleBlock index key : Attempt ε Int) = .ok (i : Int) ∧
    i < index.length ∧ (∀ r ∈ (chunks.take i).flatten, r.key < key) ∧
    ∀ r ∈ (chunks.drop (i + 1)).flatten, key ≤ r.key

/-- The chunk at this place begins at the key or behind it. -/
def beginsAt (chunks : List (List Record)) (key : Key) (j : Nat) : Bool :=
  key ≤ SSTable.smallestKey (chunks.getD j [])

theorem beginsAt_eq {j : Nat} (hj : j < chunks.length) (key : Key) :
    beginsAt chunks key j = decide (key ≤ SSTable.smallestKey chunks[j]) := by
  rw [beginsAt, List.getD_eq_getElem?_getD, List.getElem?_eq_getElem hj, Option.getD_some]

section Search

variable {index : List IndexEntry}
  (hkeys : index.map (·.firstKey) = chunks.map SSTable.smallestKey)
  (hnonempty : ∀ chunk ∈ chunks, chunk ≠ []) (hasc : KeysAscend chunks.flatten) (key : Key)

include hnonempty hasc in
theorem beginsAt_mono {a b : Nat} (hab : a ≤ b) (hb : b < chunks.length)
    (ha : beginsAt chunks key a = true) : beginsAt chunks key b = true := by
  rcases Nat.lt_or_eq_of_le hab with hlt | rfl
  · rw [beginsAt_eq (by omega), decide_eq_true_iff] at ha ⊢
    obtain ⟨r, hr, hrkey⟩ := smallestKey_of_mem_head (hnonempty chunks[a] (List.getElem_mem _))
    rw [hrkey] at ha
    refine ha.trans (le_smallestKey hasc (List.getElem?_eq_getElem hb)
      (hnonempty _ (List.getElem_mem hb)) ?_)
    exact List.mem_flatten.mpr ⟨_, List.mem_take_iff_getElem.mpr ⟨a, by omega, rfl⟩, hr⟩
  · exact ha

include hkeys hnonempty hasc

/-- The search takes the chunk before the first one that begins at the key or behind it, or the
first of all. -/
theorem firstPossibleBlock_eq (hne : index.length ≠ 0) :
    ∃ k : Nat, (firstPossibleBlock index key : Attempt ε Int) = .ok ((k - 1 : Nat) : Int) ∧
      k ≤ chunks.length ∧ (∀ j, j < k → beginsAt chunks key j = false) ∧
      ∀ j, k ≤ j → j < chunks.length → beginsAt chunks key j = true := by
  have hlength : index.length = chunks.length := by simpa using congrArg List.length hkeys
  have hprobe : ∀ j, j < index.length →
      (get index j >>= fun e => pure (decide (key ≤ e.firstKey)) : Attempt ε Bool) =
        .ok (beginsAt chunks key j) := by
    intro j hj
    have hkey := congrArg (·[j]?) hkeys
    simp only [List.getElem?_map, List.getElem?_eq_getElem hj,
      List.getElem?_eq_getElem (hlength ▸ hj), Option.map_some, Option.some.injEq] at hkey
    rw [get_eq (List.getElem?_eq_getElem hj), ok_bind, hkey, beginsAt_eq (hlength ▸ hj)]
    rfl
  obtain ⟨k, hsearch, hk, hbelow, habove⟩ := search_eq hprobe fun a b hab hb =>
    beginsAt_mono hnonempty hasc key hab (hlength ▸ hb)
  refine ⟨k, ?_, hlength ▸ hk, hbelow, fun j hle hlt => habove j hle (hlength ▸ hlt)⟩
  unfold firstPossibleBlock
  rw [if_neg hne, hsearch, ok_bind]
  split_ifs <;> exact congrArg Except.ok (by omega)

/-- **An index with the first key of each chunk leads to every key.** -/
theorem leadsTo_of_keys : LeadsTo ε index chunks key := by
  intro hne
  have hlength : index.length = chunks.length := by simpa using congrArg List.length hkeys
  obtain ⟨k, hfirst, hk, hbelow, habove⟩ :=
    firstPossibleBlock_eq (ε := ε) hkeys hnonempty hasc key hne
  refine ⟨k - 1, hfirst, by omega, fun r hr => ?_, fun r hr => ?_⟩
  · by_cases hzero : k = 0
    · rw [hzero] at hr
      cases hr
    · have hlt : k - 1 < chunks.length := by omega
      have hfalse := hbelow (k - 1) (by omega)
      rw [beginsAt_eq hlt, decide_eq_false_iff_not, not_le] at hfalse
      exact lt_of_le_of_lt (le_smallestKey hasc (List.getElem?_eq_getElem hlt)
        (hnonempty _ (List.getElem_mem hlt)) hr) hfalse
  · by_cases hlast : k = chunks.length
    · rw [List.drop_of_length_le (by omega)] at hr
      cases hr
    · have hlt : k < chunks.length := by omega
      have htrue := habove k le_rfl hlt
      rw [beginsAt_eq hlt, decide_eq_true_iff] at htrue
      refine htrue.trans (smallestKey_le hasc (List.getElem?_eq_getElem hlt)
        (hnonempty _ (List.getElem_mem hlt)) ?_)
      by_cases hzero : k = 0
      · subst hzero
        exact List.mem_append_right _ hr
      · rwa [show k - 1 + 1 = k by omega, List.drop_eq_getElem_cons hlt, List.flatten_cons] at hr

end Search

/-! ### Blocks -/

/-- The chunk at a place of the index, and the cursor its entry opens. -/
theorem Opens.chunk_at (h : Opens env damaged file md interval chunks) {i : Nat}
    (hi : i < md.index.length) :
    ∃ e chunk, md.index[i]? = some e ∧ chunks[i]? = some chunk ∧ BlockFits interval chunk ∧
      Delivers damaged (openBlock env file md.formatVersion e) fun c =>
        ∃ legacy, c = cursorIn legacy interval chunk 0 ∧ (legacy = true → damaged) := by
  have hi' : i < chunks.length := h.length ▸ hi
  have he := List.getElem?_eq_getElem hi
  have hc := List.getElem?_eq_getElem hi'
  exact ⟨_, _, he, hc, h.fits _ (List.getElem_mem hi'), h.opens he hc⟩

/-- `seek` in either format. A legacy block has no restarts, and the cursor stays at its front. -/
theorem seek_cursorIn {recs : List Record} (h : BlockFits interval recs) (hasc : KeysAscend recs)
    (legacy : Bool) (key : Key) :
    ∃ m, m ≤ recs.length ∧ ((cursorIn legacy interval recs 0).seek key : Attempt ε _) =
      .ok (cursorIn legacy interval recs m) ∧ ∀ r ∈ recs.take m, r.key < key := by
  cases legacy with
  | false => exact seek_cursorAt h hasc 0 key
  | true => exact ⟨0, Nat.zero_le _, if_pos (Or.inr rfl), fun r hr => nomatch hr⟩

/-- At the end of a block the cursor stops; in the legacy format it finds the restarts left over. -/
theorem next_cursorIn_length (interval : Nat) (recs : List Record) (legacy : Bool) :
    ∃ c, ((cursorIn legacy interval recs recs.length).next : Attempt ε _) = .ok (none, c) ∧
      (legacy = true ∧ c.err.isSome = true ∨
        legacy = false ∧ c = cursorIn false interval recs recs.length) := by
  cases legacy with
  | false => exact ⟨_, next_cursorAt_length, Or.inr ⟨rfl, rfl⟩⟩
  | true =>
      obtain ⟨c, hnext, herr⟩ := @next_legacy_length ε interval recs
      exact ⟨c, hnext, Or.inl ⟨rfl, herr⟩⟩

/-! ### Point reads -/

/-- The walk through a block, on records. -/
def scanRecords (key : Key) (maxSeq : UInt64) : List Record → Scan
  | [] => .ended
  | r :: recs =>
      if r.key = key ∧ r.seq ≤ maxSeq then .found r.plain
      else if key < r.key then .passed
      else scanRecords key maxSeq recs

/-- A walk in either format; only a legacy walk that comes to the end of the block finds something
wrong there. -/
theorem scanBlock_cursorIn {recs : List Record} (h : BlockFits interval recs) (legacy : Bool)
    (key : Key) (maxSeq : UInt64) {fuel n : Nat} (hn : n ≤ recs.length)
    (hfuel : recs.length - n < fuel) :
    ∃ c, (scanBlock key maxSeq fuel (cursorIn legacy interval recs n) : Attempt ε _) =
        .ok (scanRecords key maxSeq (recs.drop n), c) ∧
      (scanRecords key maxSeq (recs.drop n) = .ended →
        legacy = true ∧ c.err.isSome = true ∨ c.err = none) := by
  induction fuel generalizing n with
  | zero => omega
  | succ fuel ih =>
      unfold scanBlock
      rcases Nat.lt_or_eq_of_le hn with hlt | rfl
      · rw [next_cursorIn h legacy (List.getElem?_eq_getElem hlt), ok_bind,
          List.drop_eq_getElem_cons hlt]
        show ∃ c, (if (recs[n]).key = key ∧ (recs[n]).seq ≤ maxSeq then
            pure (.found (recs[n]).plain, cursorIn legacy interval recs (n + 1))
          else if key < (recs[n]).key then pure (.passed, cursorIn legacy interval recs (n + 1))
          else scanBlock key maxSeq fuel (cursorIn legacy interval recs (n + 1)) : Attempt ε _) =
            _ ∧ _
        rw [scanRecords]
        by_cases hmatch : (recs[n]).key = key ∧ (recs[n]).seq ≤ maxSeq
        · rw [if_pos hmatch, if_pos hmatch]
          exact ⟨cursorIn legacy interval recs (n + 1), rfl, fun hended => by cases hended⟩
        · rw [if_neg hmatch, if_neg hmatch]
          by_cases hpassed : key < (recs[n]).key
          · rw [if_pos hpassed, if_pos hpassed]
            exact ⟨cursorIn legacy interval recs (n + 1), rfl, fun hended => by cases hended⟩
          · rw [if_neg hpassed, if_neg hpassed]
            exact ih hlt (by omega)
      · obtain ⟨c, hnext, hc⟩ := next_cursorIn_length (ε := ε) interval recs legacy
        rw [List.drop_length, hnext, ok_bind]
        refine ⟨c, rfl, fun _ => ?_⟩
        rcases hc with hlegacy | ⟨-, rfl⟩
        · exact Or.inl hlegacy
        · exact Or.inr (cursorIn_err _ _ _ _)

/-- Records of smaller keys do not change where a walk ends. -/
theorem scanRecords_append {key : Key} {maxSeq : UInt64} {front : List Record}
    (hfront : ∀ r ∈ front, r.key < key) (recs : List Record) :
    scanRecords key maxSeq (front ++ recs) = scanRecords key maxSeq recs := by
  induction front with
  | nil => rfl
  | cons r front ih =>
      have hr := hfront r List.mem_cons_self
      rw [List.cons_append, scanRecords, if_neg (fun hmatch => absurd hmatch.1 hr.ne),
        if_neg (not_lt.mpr hr.le)]
      exact ih fun r' hr' => hfront r' (List.mem_cons_of_mem r hr')

/-- A point read of records goes chunk by chunk. -/
theorem getRecordAt_append (key : Key) (maxSeq : UInt64) (recs more : List Record) :
    (SSTable.getRecordAt (recs ++ more) key maxSeq).map Record.plain =
      match scanRecords key maxSeq recs with
      | .found rec => some rec
      | .passed => none
      | .ended => (SSTable.getRecordAt more key maxSeq).map Record.plain := by
  induction recs with
  | nil => rfl
  | cons r recs ih =>
      rw [List.cons_append, SSTable.getRecordAt, scanRecords]
      split
      · rfl
      · split
        · rfl
        · exact ih

theorem getRecordAt_drop {key : Key} {maxSeq : UInt64} {front : List Record}
    (hfront : ∀ r ∈ front, r.key < key) (recs : List Record) :
    SSTable.getRecordAt (front ++ recs) key maxSeq = SSTable.getRecordAt recs key maxSeq := by
  induction front with
  | nil => rfl
  | cons r front ih =>
      have hr := hfront r List.mem_cons_self
      rw [List.cons_append, SSTable.getRecordAt, if_neg (fun hmatch => absurd hmatch.1 hr.ne),
        if_neg (not_lt.mpr hr.le)]
      exact ih fun r' hr' => hfront r' (List.mem_cons_of_mem r hr')

/-- The blocks from `i` on answer as their records do. -/
theorem delivers_searchBlocks (h : Opens env damaged file md interval chunks)
    (hasc : KeysAscend chunks.flatten) (key : Key) (maxSeq : UInt64) {left i : Nat}
    (hleft : i + left = md.index.length) :
    Delivers damaged (searchBlocks env file md key maxSeq left i) fun found =>
      found = (SSTable.getRecordAt (chunks.drop i).flatten key maxSeq).map Record.plain := by
  induction left generalizing i with
  | zero =>
      rw [List.drop_of_length_le (by have := h.length; omega)]
      exact rfl
  | succ left ih =>
      obtain ⟨e, chunk, he, hchunk, hfits, hopen⟩ := h.chunk_at (i := i) (by omega)
      obtain ⟨hi, hget⟩ := List.getElem?_eq_some_iff.mp hchunk
      unfold searchBlocks
      rw [get_eq he, ok_bind]
      refine delivers_bind hopen fun c hc => ?_
      obtain ⟨legacy, rfl, hlegacy⟩ := hc
      obtain ⟨m, hm, hseek, hbefore⟩ := seek_cursorIn (ε := TableError) hfits
        (hasc.chunk (List.mem_of_getElem? hchunk)) legacy key
      obtain ⟨c, hscan, herr⟩ := scanBlock_cursorIn (ε := TableError) hfits legacy key maxSeq hm
        (by omega : chunk.length - m < chunk.length + 1)
      have hskip : scanRecords key maxSeq (chunk.drop m) = scanRecords key maxSeq chunk := by
        conv_rhs => rw [← List.take_append_drop m chunk]
        rw [scanRecords_append hbefore]
      rw [hskip] at hscan herr
      rw [hseek, ok_bind, cursorIn_err, cursorIn_count]
      dsimp only
      rw [hscan, ok_bind, List.drop_eq_getElem_cons hi, hget, List.flatten_cons,
        getRecordAt_append]
      dsimp only
      cases hwalk : scanRecords key maxSeq chunk with
      | found rec => exact rfl
      | passed => exact rfl
      | ended =>
          dsimp only
          rcases herr hwalk with ⟨hl, hsome⟩ | hnone
          · obtain ⟨e, he⟩ := Option.isSome_iff_exists.mp hsome
            rw [he]
            exact hlegacy hl
          · rw [hnone]
            exact ih (by omega)

/-- **A point read of the file is a point read of its records.** -/
theorem delivers_getRecordAt (h : Opens env damaged file md interval chunks)
    (hpasses : Passes env md chunks.flatten) {key : Key}
    (hleads : LeadsTo TableError md.index chunks key) (hmd : loadMetadata file = .ok md)
    (horder : InOrder chunks.flatten) (maxSeq : UInt64) :
    Delivers damaged (getRecordAt env file key maxSeq) fun found =>
      found = (SSTable.getRecordAt chunks.flatten key maxSeq).map Record.plain := by
  obtain ⟨possible, hpossible⟩ := mayContain_total env hmd key
  unfold getRecordAt
  rw [hmd, ok_bind, hpossible, ok_bind]
  cases possible with
  | false =>
      -- The filter would not have turned a key of the table away.
      have hnone : SSTable.getRecordAt chunks.flatten key maxSeq = none := by
        rw [SSTable.getRecordAt_eq_find horder, List.find?_eq_none]
        intro r hr hvisible
        have htrue := hpasses r hr
        rw [(visible_iff.mp hvisible).1, hpossible] at htrue
        cases htrue
      rw [hnone]
      exact rfl
  | true =>
      rw [if_neg (by decide)]
      by_cases hne : md.index.length = 0
      · have hnil : chunks = [] := List.eq_nil_of_length_eq_zero (h.length ▸ hne)
        rw [if_pos hne, hnil]
        exact rfl
      · obtain ⟨i, hfirst, hi, hbefore, -⟩ := hleads hne
        rw [if_neg hne, hfirst, ok_bind, if_neg (by omega), Int.toNat_natCast]
        have hsearch := delivers_searchBlocks h (keysAscend_of_inOrder horder) key maxSeq
          (by omega : i + (md.index.length - i) = md.index.length)
        conv in chunks.flatten => rw [← List.take_append_drop i chunks, List.flatten_append]
        rw [getRecordAt_drop hbefore]
        exact hsearch

/-! ### Iterators -/

/-- What a cursor has still to give: nothing before the first block, the rest of the block in
one. -/
inductive Yields (damaged : Prop) (interval : Nat) : LogicalBlockCursor → List Record → Prop
  | zero : Yields damaged interval {} []
  | inBlock {recs : List Record} {n : Nat} {legacy : Bool} (hlegacy : legacy = true → damaged)
      (hfits : BlockFits interval recs) (hn : n ≤ recs.length) :
      Yields damaged interval (cursorIn legacy interval recs n) ((recs.drop n).map Record.plain)

/-- With nothing left the cursor stops, or it finds the damage. -/
theorem Yields.next_nil {c : LogicalBlockCursor} (h : Yields damaged interval c []) :
    ∃ c', (c.next : Attempt ε _) = .ok (none, c') ∧
      (damaged ∧ c'.err.isSome = true ∨ c'.err = none ∧ Yields damaged interval c' []) := by
  generalize hrest : ([] : List Record) = rest at h
  cases h with
  | zero => exact ⟨{}, rfl, Or.inr ⟨rfl, .zero⟩⟩
  | @inBlock recs n legacy hlegacy hfits hn =>
      have hlen := congrArg List.length hrest
      simp only [List.length_nil, List.length_map, List.length_drop] at hlen
      obtain rfl : n = recs.length := by omega
      obtain ⟨c, hnext, hc⟩ := next_cursorIn_length (ε := ε) interval recs legacy
      refine ⟨c, hnext, ?_⟩
      rcases hc with ⟨hl, herr⟩ | ⟨rfl, rfl⟩
      · exact Or.inl ⟨hlegacy hl, herr⟩
      · exact Or.inr ⟨rfl, .inBlock hlegacy hfits hn⟩

theorem Yields.next_cons {c : LogicalBlockCursor} {r : Record} {rest : List Record}
    (h : Yields damaged interval c (r :: rest)) :
    ∃ c', (c.next : Attempt ε _) = .ok (some r, c') ∧ Yields damaged interval c' rest := by
  generalize hall : r :: rest = all at h
  cases h with
  | zero => cases hall
  | @inBlock recs n legacy hlegacy hfits hn =>
      have hlt : n < recs.length := by
        have hlen := congrArg List.length hall
        simp only [List.length_cons, List.length_map, List.length_drop] at hlen
        omega
      rw [List.drop_eq_getElem_cons hlt, List.map_cons] at hall
      cases hall
      exact ⟨_, next_cursorIn hfits legacy (List.getElem?_eq_getElem hlt),
        .inBlock hlegacy hfits hlt⟩

namespace Iterator

/-- The iterator has an error and gives nothing any more. -/
def Lost (it : Iterator) : Prop := it.err.isSome = true

/-- An iterator of the file that has `rest` still to give. -/
structure At (damaged : Prop) (md : Metadata) (interval : Nat) (chunks : List (List Record))
    (it : Iterator) (rest : List Record) : Prop where
  index : it.index = md.index
  version : it.formatVersion = md.formatVersion
  err : it.err = none
  low : -1 ≤ it.blockIndex
  /-- The pending record, then the block, then the blocks behind it. -/
  rest : ∃ left, Yields damaged interval it.blockCursor left ∧
    rest = it.pending.toList ++ (left ++
      (chunks.drop (it.blockIndex + 1).toNat).flatten.map Record.plain)

/-- Loading a block of the index leads to its front, or the iterator is lost in the damage. -/
theorem loadBlock_eq (h : Opens env damaged file md interval chunks) (it : Iterator)
    (hindex : it.index = md.index) (hversion : it.formatVersion = md.formatVersion) {i : Nat}
    (hi : i < md.index.length) :
    ∃ chunk a, chunks[i]? = some chunk ∧ BlockFits interval chunk ∧
      (it.loadBlock env file i : Attempt ε Iterator) = .ok a ∧
      (damaged ∧ a.Lost ∨ ∃ legacy, (legacy = true → damaged) ∧
        a = { it with blockIndex := i, blockCursor := cursorIn legacy interval chunk 0 }) := by
  obtain ⟨e, chunk, he, hchunk, hfits, hopen⟩ := h.chunk_at hi
  unfold loadBlock
  rw [hindex, getInt_eq he, ok_bind, hversion]
  rcases hopen.fails_or_ok with ⟨hdamaged, e', hfail⟩ | ⟨c, hok, legacy, rfl, hlegacy⟩
  · rw [hfail]
    exact ⟨chunk, _, hchunk, hfits, rfl, Or.inl ⟨hdamaged, rfl⟩⟩
  · rw [hok]
    exact ⟨chunk, _, hchunk, hfits, rfl, Or.inr ⟨legacy, hlegacy, rfl⟩⟩

/-- What a turn of `Next` makes of the records still to come. -/
def Turn (damaged : Prop) (md : Metadata) (interval : Nat) (chunks : List (List Record))
    (rest : List Record) (p : Bool × Iterator) : Prop :=
  match rest with
  | [] => p.1 = false ∧ At damaged md interval chunks p.2 []
  | r :: rest => p.1 = true ∧ p.2.current = r ∧ At damaged md interval chunks p.2 rest

theorem nextLoop_eq (h : Opens env damaged file md interval chunks) {fuel : Nat} {it : Iterator}
    {rest : List Record} (hit : At damaged md interval chunks it rest)
    (hpending : it.pending = none) (hfuel : (it.index.length - it.blockIndex).toNat < fuel) :
    ∃ p, (it.nextLoop env file fuel : Attempt ε _) = .ok p ∧
      (damaged ∧ p.2.Lost ∨ Turn damaged md interval chunks rest p) := by
  induction fuel generalizing it rest with
  | zero => omega
  | succ fuel ih =>
      obtain ⟨left, hleft, hrest⟩ := hit.rest
      have hlow := hit.low
      have hlength := h.length
      rw [hpending, Option.toList_none, List.nil_append] at hrest
      unfold nextLoop
      cases left with
      | cons r left =>
          obtain ⟨c, hnext, hc⟩ := hleft.next_cons (ε := ε)
          rw [hnext, ok_bind]
          refine ⟨_, rfl, Or.inr ?_⟩
          rw [hrest]
          refine ⟨rfl, rfl, hit.index, hit.version, hit.err, hlow, left, hc, ?_⟩
          show _ = it.pending.toList ++ _
          rw [hpending]
          rfl
      | nil =>
          obtain ⟨c, hnext, hc⟩ := hleft.next_nil (ε := ε)
          rw [hnext, ok_bind]
          dsimp only
          rcases hc with ⟨hdamaged, hsome⟩ | ⟨herr, hc⟩
          · obtain ⟨e, he⟩ := Option.isSome_iff_exists.mp hsome
            rw [he]
            exact ⟨_, rfl, Or.inl ⟨hdamaged, rfl⟩⟩
          rw [herr]
          dsimp only
          rw [List.nil_append] at hrest
          by_cases hlast : (it.index.length : Int) ≤ it.blockIndex + 1
          · rw [if_pos hlast]
            refine ⟨_, rfl, Or.inr ?_⟩
            have hindex := hit.index
            have hnil : rest = [] := by
              rw [hrest, List.drop_of_length_le (by rw [hindex] at hlast; omega)]
              rfl
            rw [hnil]
            refine ⟨rfl, hit.index, hit.version, hit.err, ?_, [], hc, ?_⟩
            · show -1 ≤ it.blockIndex + 1
              omega
            · show _ = it.pending.toList ++ ([] ++ _)
              rw [hpending, List.drop_of_length_le (by
                show chunks.length ≤ (it.blockIndex + 1 + 1).toNat
                rw [hindex] at hlast
                omega)]
              rfl
          · rw [if_neg hlast]
            obtain ⟨b, hb⟩ : ∃ b : Nat, it.blockIndex + 1 = b :=
              ⟨(it.blockIndex + 1).toNat, by omega⟩
            have hblt : b < md.index.length := by
              rw [hit.index] at hlast
              omega
            obtain ⟨chunk, a, hchunk, hfits, hload, ha⟩ := loadBlock_eq (ε := ε) h
              { it with blockCursor := c, blockIndex := it.blockIndex + 1 } hit.index hit.version
              hblt
            rw [hb] at hload ha ⊢
            rw [hload, ok_bind]
            rcases ha with ⟨hdamaged, hlost⟩ | ⟨legacy, hlegacy, rfl⟩
            · rw [if_pos (show a.err.isSome = true from hlost)]
              exact ⟨_, rfl, Or.inl ⟨hdamaged, hlost⟩⟩
            rw [if_neg (by rw [hit.err]; decide)]
            obtain ⟨hi, hget⟩ := List.getElem?_eq_some_iff.mp hchunk
            refine @ih { it with
              blockIndex := (b : Int), blockCursor := cursorIn legacy interval chunk 0 } rest ?_
                hpending ?_
            · refine ⟨hit.index, hit.version, hit.err, ?_, chunk.map Record.plain, ?_, ?_⟩
              · show (-1 : Int) ≤ b
                omega
              · exact .inBlock hlegacy hfits (Nat.zero_le _)
              · show rest = it.pending.toList ++ (_ ++
                  (chunks.drop ((b : Int) + 1).toNat).flatten.map Record.plain)
                rw [hrest, hb, hpending, Int.toNat_natCast, List.drop_eq_getElem_cons hi, hget,
                  List.flatten_cons, List.map_append, show ((b : Int) + 1).toNat = b + 1 by omega]
                rfl
            · show (it.index.length - (b : Int)).toNat < fuel
              omega

/-- **`Next` gives the records one by one.** -/
theorem next_eq (h : Opens env damaged file md interval chunks) {it : Iterator}
    {rest : List Record} (hit : At damaged md interval chunks it rest) :
    ∃ p, (it.next env file : Attempt ε _) = .ok p ∧
      (damaged ∧ p.2.Lost ∨ Turn damaged md interval chunks rest p) := by
  obtain ⟨left, hleft, hrest⟩ := hit.rest
  have hlow := hit.low
  unfold next
  rw [if_neg (by rw [hit.err]; decide)]
  cases hpending : it.pending with
  | none => exact nextLoop_eq h hit hpending (by omega)
  | some r =>
      rw [hpending] at hrest
      refine ⟨_, rfl, Or.inr ?_⟩
      rw [hrest]
      exact ⟨rfl, rfl, hit.index, hit.version, hit.err, hlow, left, hleft, rfl⟩

theorem drain_eq (h : Opens env False file md interval chunks) {fuel : Nat} {it : Iterator}
    {rest : List Record} (hit : At False md interval chunks it rest) (hfuel : rest.length < fuel) :
    ∃ last, (it.drain env file fuel : Attempt ε _) = .ok (rest, last) ∧
      At False md interval chunks last [] := by
  induction fuel generalizing it rest with
  | zero => omega
  | succ fuel ih =>
      obtain ⟨⟨more, it'⟩, hnext, hlost | hturn⟩ := next_eq (ε := ε) h hit
      · exact hlost.1.elim
      unfold drain
      rw [hnext, ok_bind]
      dsimp only
      cases rest with
      | nil =>
          obtain ⟨rfl, hlast⟩ : more = false ∧ _ := hturn
          exact ⟨it', rfl, hlast⟩
      | cons r rest =>
          obtain ⟨rfl, hcurrent, hit'⟩ : more = true ∧ it'.current = r ∧ _ := hturn
          rw [List.length_cons] at hfuel
          obtain ⟨last, hdrain, hlast⟩ := ih hit' (by omega)
          refine ⟨last, ?_, hlast⟩
          rw [if_pos rfl, hdrain, ok_bind, hcurrent]
          rfl

/-- In ascending records those that reach the key come last. -/
theorem filter_eq_dropWhile {recs : List Record} (h : KeysAscend recs) (key : Key) :
    recs.filter (fun r => key ≤ r.key) = recs.dropWhile fun r => r.key < key := by
  induction recs with
  | nil => rfl
  | cons r recs ih =>
      obtain ⟨hr, hrecs⟩ := List.pairwise_cons.mp h
      by_cases hlt : r.key < key
      · rw [List.filter_cons_of_neg (by simpa using hlt),
          List.dropWhile_cons_of_pos (by simpa using hlt)]
        exact ih hrecs
      · rw [List.dropWhile_cons_of_neg (by simpa using hlt), List.filter_eq_self]
        intro r' hr'
        have hle : key ≤ r'.key := by
          rcases List.mem_cons.mp hr' with rfl | hr'
          · exact not_lt.mp hlt
          · exact (not_lt.mp hlt).trans (hr r' hr')
        simpa using hle

/-- The loop of `Seek` keeps what reaches the key in the block. -/
theorem seekLoop_eq {recs : List Record} (hfits : BlockFits interval recs) {legacy : Bool}
    (hlegacy : legacy = true → damaged) (key : Key) {fuel n : Nat} (hn : n ≤ recs.length)
    (hfuel : recs.length - n < fuel) (it : Iterator)
    (hcursor : it.blockCursor = cursorIn legacy interval recs n) (hpending : it.pending = none) :
    ∃ a, (seekLoop key fuel it : Attempt ε _) = .ok a ∧ (damaged ∧ a.Lost ∨
      ∃ c pending left, a = { it with blockCursor := c, pending } ∧ Yields damaged interval c left ∧
        pending.toList ++ left =
          ((recs.drop n).dropWhile fun r => r.key < key).map Record.plain) := by
  induction fuel generalizing n it with
  | zero => omega
  | succ fuel ih =>
      unfold seekLoop
      rw [hcursor]
      rcases Nat.lt_or_eq_of_le hn with hlt | rfl
      · rw [next_cursorIn hfits legacy (List.getElem?_eq_getElem hlt), ok_bind,
          List.drop_eq_getElem_cons hlt]
        dsimp only
        by_cases hle : key ≤ (recs[n]).plain.key
        · rw [if_pos hle]
          refine ⟨_, rfl, Or.inr ⟨_, _, _, rfl, .inBlock hlegacy hfits hlt, ?_⟩⟩
          have hkey : ¬ (recs[n]).key < key := not_lt.mpr hle
          rw [List.dropWhile_cons_of_neg (by simpa using hkey), List.map_cons]
          rfl
        · rw [if_neg hle]
          have hkey : (recs[n]).key < key := not_le.mp hle
          rw [List.dropWhile_cons_of_pos (by simpa using hkey)]
          exact ih (n := n + 1) hlt (by omega)
            { it with blockCursor := cursorIn legacy interval recs (n + 1) } rfl hpending
      · obtain ⟨c, hnext, hc⟩ := next_cursorIn_length (ε := ε) interval recs legacy
        rw [hnext, ok_bind, List.drop_length]
        dsimp only
        rcases hc with ⟨hl, hsome⟩ | ⟨rfl, rfl⟩
        · obtain ⟨e, he⟩ := Option.isSome_iff_exists.mp hsome
          rw [he]
          exact ⟨_, rfl, Or.inl ⟨hlegacy hl, rfl⟩⟩
        · have hend := Yields.inBlock hlegacy hfits (le_refl recs.length)
          rw [List.drop_length] at hend
          refine ⟨_, rfl, Or.inr ⟨_, none, [], ?_, hend, rfl⟩⟩
          rw [← hpending]

/-- What is left to give when a search for the key has begun in block `i`. -/
def sought (chunks : List (List Record)) (i : Nat) (key : Key) : List Record :=
  (chunks[i]?.getD []).filter (fun r => key ≤ r.key) ++ (chunks.drop (i + 1)).flatten

/-- `Seek` leaves what reaches the key in the block it begins in, and all that is behind it. -/
theorem seek_block (h : Opens env damaged file md interval chunks)
    (hasc : KeysAscend chunks.flatten) {it : Iterator} {rest : List Record}
    (hit : At damaged md interval chunks it rest) {key : Key} {i : Nat}
    (hfirst : (firstPossibleBlock md.index key : Attempt ε Int) = .ok (i : Int))
    (hi : i < md.index.length) :
    ∃ a, (it.seek env file key : Attempt ε Iterator) = .ok a ∧
      (damaged ∧ a.Lost ∨
        At damaged md interval chunks a ((sought chunks i key).map Record.plain)) := by
  obtain ⟨chunk, a, hchunk, hfits, hload, ha⟩ := loadBlock_eq (ε := ε) h
    { it with index := md.index, blockCursor := {}, current := {}, pending := none }
    rfl hit.version hi
  unfold seek
  rw [if_neg (by rw [hit.err]; decide)]
  dsimp only
  rw [hit.index, if_neg (by omega), hfirst, ok_bind, hload, ok_bind]
  rcases ha with ⟨hdamaged, hlost⟩ | ⟨legacy, hlegacy, rfl⟩
  · rw [if_pos (show a.err.isSome = true from hlost)]
    exact ⟨a, rfl, Or.inl ⟨hdamaged, hlost⟩⟩
  have hchunkasc := hasc.chunk (List.mem_of_getElem? hchunk)
  obtain ⟨m, hm, hseek, hsmaller⟩ := seek_cursorIn (ε := ε) hfits hchunkasc legacy key
  obtain ⟨b, hloop, hb⟩ := seekLoop_eq (ε := ε) hfits hlegacy key hm
    (by omega : chunk.length - m < chunk.length + 1)
    { it with
      index := md.index, current := {}, pending := none, blockIndex := (i : Int),
      blockCursor := cursorIn legacy interval chunk m } rfl rfl
  rw [if_neg (by rw [hit.err]; decide), hseek, ok_bind, cursorIn_err, cursorIn_count]
  refine ⟨b, hloop, hb.imp_right ?_⟩
  rintro ⟨c, pending, left, rfl, hleft, heq⟩
  refine ⟨rfl, hit.version, hit.err, ?_, left, hleft, ?_⟩
  · show (-1 : Int) ≤ i
    omega
  · show _ = pending.toList ++ (left ++
      (chunks.drop ((i : Int) + 1).toNat).flatten.map Record.plain)
    have htake : (chunk.take m).filter (fun r => key ≤ r.key) = [] := by
      rw [List.filter_eq_nil_iff]
      intro r hr
      simpa using hsmaller r hr
    have hmiddle : chunk.filter (fun r => key ≤ r.key) =
        (chunk.drop m).dropWhile fun r => r.key < key := by
      conv_lhs => rw [← List.take_append_drop m chunk, List.filter_append, htake, List.nil_append]
      exact filter_eq_dropWhile (List.Pairwise.sublist (List.drop_sublist m chunk) hchunkasc) key
    rw [sought, hchunk, Option.getD_some, hmiddle, List.map_append, ← heq, List.append_assoc,
      show ((i : Int) + 1).toNat = i + 1 by omega]

/-- From the right block these are the records that reach the key. -/
theorem sought_eq {i : Nat} (hi : i < chunks.length) {key : Key}
    (hbefore : ∀ r ∈ (chunks.take i).flatten, r.key < key)
    (hbehind : ∀ r ∈ (chunks.drop (i + 1)).flatten, key ≤ r.key) :
    sought chunks i key = chunks.flatten.filter fun r => key ≤ r.key := by
  have hchunk := List.getElem?_eq_getElem hi
  have hfront : (chunks.take i).flatten.filter (fun r => key ≤ r.key) = [] := by
    rw [List.filter_eq_nil_iff]
    intro r hr
    simpa using hbefore r hr
  have hrest : (chunks.drop (i + 1)).flatten.filter (fun r => key ≤ r.key) =
      (chunks.drop (i + 1)).flatten := by
    rw [List.filter_eq_self]
    intro r hr
    simpa using hbehind r hr
  rw [sought, hchunk, Option.getD_some, flatten_split hchunk, List.filter_append,
    List.filter_append, hfront, hrest, List.nil_append]

/-- **`Seek` leaves the records that reach the key**, wherever the iterator was. -/
theorem seek_eq (h : Opens env damaged file md interval chunks) (hasc : KeysAscend chunks.flatten)
    {it : Iterator} {rest : List Record} (hit : At damaged md interval chunks it rest) {key : Key}
    (hleads : LeadsTo ε md.index chunks key) :
    ∃ a, (it.seek env file key : Attempt ε Iterator) = .ok a ∧
      (damaged ∧ a.Lost ∨ At damaged md interval chunks a
        ((chunks.flatten.filter fun r => key ≤ r.key).map Record.plain)) := by
  by_cases hne : md.index.length = 0
  · have hnil : chunks = [] := List.eq_nil_of_length_eq_zero (h.length ▸ hne)
    unfold seek
    rw [if_neg (by rw [hit.err]; decide)]
    dsimp only
    rw [hit.index, if_pos hne]
    refine ⟨_, rfl, Or.inr ⟨rfl, hit.version, hit.err, ?_, [], .zero, ?_⟩⟩
    · show (-1 : Int) ≤ 0
      omega
    · rw [hnil]
      rfl
  · obtain ⟨i, hfirst, hi, hbefore, hbehind⟩ := hleads hne
    rw [← sought_eq (h.length ▸ hi) hbefore hbehind]
    exact seek_block h hasc hit hfirst hi

end Iterator

/-- A new iterator has all records still to give. -/
theorem newIterator_eq (damaged : Prop) (interval : Nat) (chunks : List (List Record))
    (hmd : loadMetadata file = .ok md) :
    ∃ it, newIterator file = .ok it ∧
      Iterator.At damaged md interval chunks it (chunks.flatten.map Record.plain) := by
  unfold newIterator
  rw [hmd, ok_bind]
  refine ⟨_, rfl, rfl, rfl, rfl, le_rfl, [], .zero, ?_⟩
  rfl

/-! ### Calls on an iterator -/

/-- A call on an iterator. -/
inductive IteratorCall
  | next
  | seek (key : Key)
  deriving Repr, DecidableEq

/-- Calls one after the other. -/
def Iterator.calls (env : Env) (file : TableFile) :
    Iterator → List IteratorCall → Attempt ε Iterator
  | it, [] => pure it
  | it, .next :: cs => do
      let (_, it) ← it.next env file
      calls env file it cs
  | it, .seek key :: cs => do
      let it ← it.seek env file key
      calls env file it cs

/-- The record each `Next` makes current, none where it returns false. -/
def Iterator.trace (env : Env) (file : TableFile) :
    Iterator → List IteratorCall → Attempt ε (List (Option Record) × Iterator)
  | it, [] => pure ([], it)
  | it, .next :: cs => do
      let (more, it) ← it.next env file
      let (given, last) ← trace env file it cs
      pure ((if more then some it.current else none) :: given, last)
  | it, .seek key :: cs => do
      let it ← it.seek env file key
      trace env file it cs

/-- Open an iterator on the file, make the calls and ask for its error. -/
def iterate (env : Env) (file : TableFile) (cs : List IteratorCall) :
    Attempt TableError (List (Option Record)) := do
  let it ← newIterator file
  let (given, last) ← it.trace env file cs
  match last.err with
  | some e => fail e
  | none => pure given

/-- What the calls give, on records: `Next` takes the first of those still to come, and after a
`Seek` those that reach the key are still to come. -/
def answers (recs : List Record) : List Record → List IteratorCall → List (Option Record)
  | _, [] => []
  | rest, .next :: cs => rest.head? :: answers recs rest.tail cs
  | _, .seek key :: cs =>
      answers recs ((recs.filter fun r => key ≤ r.key).map Record.plain) cs

namespace Iterator

theorem calls_eq_trace (cs : List IteratorCall) (it : Iterator) :
    (it.calls env file cs : Attempt ε Iterator) = (do
      let p ← it.trace env file cs
      pure p.2) := by
  induction cs generalizing it with
  | nil => rfl
  | cons c cs ih =>
      cases c with
      | next =>
          unfold calls trace
          simp only [ih, bind_assoc, pure_bind]
      | seek key =>
          unfold calls trace
          simp only [ih, bind_assoc]

/-- An error stays. -/
theorem Lost.trace {it : Iterator} (h : it.Lost) (env : Env) (file : TableFile)
    (cs : List IteratorCall) :
    ∃ p, (it.trace env file cs : Attempt ε _) = .ok p ∧ p.2.Lost := by
  induction cs with
  | nil => exact ⟨_, rfl, h⟩
  | cons c cs ih =>
      obtain ⟨p, hp, hlost⟩ := ih
      cases c with
      | next =>
          unfold Iterator.trace
          rw [show (it.next env file : Attempt ε _) = .ok (false, it) from if_pos h, ok_bind]
          dsimp only
          rw [hp]
          exact ⟨_, rfl, hlost⟩
      | seek key =>
          unfold Iterator.trace
          rw [show (it.seek env file key : Attempt ε _) = .ok it from if_pos h, ok_bind]
          exact ⟨p, hp, hlost⟩

/-- **Calls give what they give on records**, or the iterator is lost in the damage. -/
theorem trace_answers (h : Opens env damaged file md interval chunks)
    (hasc : KeysAscend chunks.flatten) (cs : List IteratorCall)
    (hleads : ∀ key, .seek key ∈ cs → LeadsTo ε md.index chunks key) {it : Iterator}
    {rest : List Record} (hit : At damaged md interval chunks it rest) :
    ∃ p, (it.trace env file cs : Attempt ε _) = .ok p ∧ (damaged ∧ p.2.Lost ∨
      p.1 = answers chunks.flatten rest cs ∧ ∃ rest', At damaged md interval chunks p.2 rest') := by
  induction cs generalizing it rest with
  | nil => exact ⟨_, rfl, Or.inr ⟨rfl, rest, hit⟩⟩
  | cons c cs ih =>
      have hleads' := fun key hmem => hleads key (List.mem_cons_of_mem c hmem)
      cases c with
      | next =>
          unfold trace
          obtain ⟨⟨more, it'⟩, hnext, ⟨hdamaged, hlost⟩ | hturn⟩ := next_eq (ε := ε) h hit
          · obtain ⟨p, hp, hlost⟩ := hlost.trace (ε := ε) env file cs
            rw [hnext, ok_bind]
            dsimp only at hp ⊢
            rw [hp]
            exact ⟨_, rfl, Or.inl ⟨hdamaged, hlost⟩⟩
          · have hit' : At damaged md interval chunks it' rest.tail ∧
                (if more then some it'.current else none) = rest.head? := by
              cases rest with
              | nil =>
                  obtain ⟨rfl, hit'⟩ : more = false ∧ _ := hturn
                  exact ⟨hit', rfl⟩
              | cons r rest =>
                  obtain ⟨rfl, hcurrent, hit'⟩ : more = true ∧ it'.current = r ∧ _ := hturn
                  exact ⟨hit', congrArg some hcurrent⟩
            obtain ⟨p, hp, hcases⟩ := ih hleads' hit'.1
            rw [hnext, ok_bind]
            dsimp only
            rw [hp, ok_bind, hit'.2]
            refine ⟨_, rfl, hcases.imp_right fun ⟨hgiven, hlast⟩ => ⟨?_, hlast⟩⟩
            exact congrArg (rest.head? :: ·) hgiven
      | seek key =>
          unfold trace
          obtain ⟨a, hseek, ⟨hdamaged, hlost⟩ | hat⟩ :=
            seek_eq h hasc hit (hleads key List.mem_cons_self)
          · obtain ⟨p, hp, hlost⟩ := hlost.trace (ε := ε) env file cs
            rw [hseek, ok_bind]
            exact ⟨p, hp, Or.inl ⟨hdamaged, hlost⟩⟩
          · rw [hseek, ok_bind]
            exact ih hleads' hat

end Iterator

/-- **Any calls on a new iterator give what they give on the records of the file.** -/
theorem delivers_iterate (h : Opens env damaged file md interval chunks)
    (hasc : KeysAscend chunks.flatten) (hmd : loadMetadata file = .ok md)
    (cs : List IteratorCall)
    (hleads : ∀ key, .seek key ∈ cs → LeadsTo TableError md.index chunks key) :
    Delivers damaged (iterate env file cs) fun given =>
      given = answers chunks.flatten (chunks.flatten.map Record.plain) cs := by
  obtain ⟨it, hnew, hit⟩ := newIterator_eq damaged interval chunks hmd
  obtain ⟨p, htrace, hcases⟩ := Iterator.trace_answers h hasc cs hleads hit
  unfold iterate
  rw [hnew, ok_bind, htrace, ok_bind]
  dsimp only
  rcases hcases with ⟨hdamaged, hlost⟩ | ⟨hgiven, rest, hlast⟩
  · obtain ⟨e, he⟩ := Option.isSome_iff_exists.mp hlost
    rw [he]
    exact hdamaged
  · rw [hlast.err]
    exact hgiven

end Opens

/-! ### Files as they are written -/

/-- The file's footer names an index and a filter within the limits of the reader. -/
def WithinLimits (file : TableFile) : Prop :=
  ∃ footer, readFooter file = .ok footer ∧ footer.indexLength ≤ maxIndexSize ∧
    footer.filterLength ≤ maxFilterSize

section Created

variable {env : Env} {it : RecordIterator} {hint : Int} {opts : WriteOptions} {created : Created}

/-- A created file within the limits opens all its records, in order; its filter turns none away,
and its index leads to every key. -/
theorem created_opens (hlz4 : env.lz4.Inverts)
    (hcreate : createFromIteratorWithOptions env it hint opts = .ok created)
    (hfits : ∀ r ∈ it.records, r.Fits) (hlimits : WithinLimits created.file) :
    ∃ md interval chunks, loadMetadata created.file = .ok md ∧
      Opens env False created.file md interval chunks ∧ Passes env md chunks.flatten ∧
      (∀ ε key, LeadsTo ε md.index chunks key) ∧ chunks.flatten = it.records ∧
      InOrder it.records := by
  obtain ⟨opts', filter, -, -, ⟨W⟩⟩ := created_written hcreate
  obtain ⟨footer, hfooter, hindex, hfilter⟩ := hlimits
  rw [W.readFooter_eq] at hfooter
  cases hfooter
  have hW : W.Within := ⟨hfits, hindex, hfilter⟩
  have hopens := W.opens hlz4 hW
  have horder := SSTable.writable_iff.mp W.ordered
  refine ⟨W.metadata, _, W.chunks, W.loadMetadata_eq hW, hopens, ?_, fun ε key => ?_,
    W.chunks_flatten, horder⟩
  · rw [W.chunks_flatten]
    exact W.passes
  · exact leadsTo_of_keys W.index_keys (fun chunk hchunk => (hopens.fits chunk hchunk).nonempty)
      (by rw [W.chunks_flatten]; exact keysAscend_of_inOrder horder) key

end Created

/-! ### Small tables -/

theorem sampleTable_within : WithinLimits sampleTable.file :=
  ⟨_, sampleTable_footer, by decide, by decide⟩

/-- The same records, in blocks that are cut off at their end. -/
def trimmedTable : Created := sampleOf trimmingEnv { sampleOptions with compression := .lz4 }

theorem trimmedTable_created : createFromIteratorWithOptions trimmingEnv
    { records := sampleRecords } 3 { sampleOptions with compression := .lz4 } =
      .ok trimmedTable :=
  sampleOf_created (by decide +kernel)

theorem trimmedTable_within : WithinLimits trimmedTable.file :=
  ⟨{ formatVersion := 3, indexOffset := 100, indexLength := 38, filterOffset := 138
     filterLength := 16 }, by decide +kernel, by decide, by decide⟩

section Created

variable {env : Env} {it : RecordIterator} {hint : Int} {opts : WriteOptions} {created : Created}

/-- **Point reads of a written table.** The reopened file answers each read with the first record
of the key at or below the sequence, and with nothing if there is none. The recorded bounds are
the first and the last key. -/
theorem table_point_reads (hlz4 : env.lz4.Inverts)
    (hcreate : createFromIteratorWithOptions env it hint opts = .ok created)
    (hfits : ∀ r ∈ it.records, r.Fits) (hlimits : WithinLimits created.file) :
    (∀ key maxSeq, getRecordAt env created.file key maxSeq =
        .ok ((it.records.find? fun r => r.key = key ∧ r.seq ≤ maxSeq).map Record.plain)) ∧
      (∀ r, it.records.head? = some r → created.smallestKey = r.key) ∧
      ∀ r, it.records.getLast? = some r → created.largestKey = r.key := by
  obtain ⟨md, interval, chunks, hmd, hopens, hpasses, hleads, hflatten, horder⟩ :=
    created_opens hlz4 hcreate hfits hlimits
  obtain ⟨opts', filter, -, -, ⟨W⟩⟩ := created_written hcreate
  refine ⟨fun key maxSeq => ?_, fun r hr => ?_, fun r hr => ?_⟩
  · have hvisible : visible key maxSeq = fun r => decide (r.key = key ∧ r.seq ≤ maxSeq) := by
      funext r
      rw [Bool.eq_iff_iff, visible_iff, decide_eq_true_iff]
    obtain ⟨found, hget, rfl⟩ := (delivers_getRecordAt hopens hpasses (hleads TableError key) hmd
      (hflatten ▸ horder) maxSeq).exists_ok id
    rw [hget, hflatten, SSTable.getRecordAt_eq_find horder, hvisible]
  · rw [W.smallest, SSTable.smallestKey, hr]
  · rw [W.largest, SSTable.largestKey, hr]

/-- The version of key 1 that is visible at sequence 4, in a table of compressed blocks. -/
theorem table_point_reads_trimmed : WithinLimits trimmedTable.file ∧
    trimmedTable.file.size < sampleTable.file.size ∧
    getRecordAt trimmingEnv trimmedTable.file [1] 4 =
      .ok ((sampleRecords.find? fun r => r.key = [1] ∧ r.seq ≤ 4).map Record.plain) :=
  ⟨trimmedTable_within, by decide +kernel, (table_point_reads trimmingEnv_inverts
    trimmedTable_created (by decide) trimmedTable_within).1 [1] 4⟩

/-- **Scans of a written table.** A new iterator over the reopened file gives the records in
order, and after any calls a `Seek` leaves those whose key reaches the one sought; both end
without an error. -/
theorem table_scans (hlz4 : env.lz4.Inverts)
    (hcreate : createFromIteratorWithOptions env it hint opts = .ok created)
    (hfits : ∀ r ∈ it.records, r.Fits) (hlimits : WithinLimits created.file) :
    ∃ new, newIterator created.file = .ok new ∧
      (∃ last, (new.drain env created.file (it.records.length + 1) : Attempt Empty _) =
        .ok (it.records.map Record.plain, last) ∧ last.err = none) ∧
      ∀ cs key, ∃ called sought last,
        (new.calls env created.file cs : Attempt Empty Iterator) = .ok called ∧
        (called.seek env created.file key : Attempt Empty Iterator) = .ok sought ∧
        sought.err = none ∧
        (sought.drain env created.file (it.records.length + 1) : Attempt Empty _) =
          .ok ((it.records.filter fun r => key ≤ r.key).map Record.plain, last) ∧
        last.err = none := by
  obtain ⟨md, interval, chunks, hmd, hopens, -, hleads, hflatten, horder⟩ :=
    created_opens hlz4 hcreate hfits hlimits
  have hasc : KeysAscend chunks.flatten := keysAscend_of_inOrder (hflatten ▸ horder)
  obtain ⟨new, hnew, hat⟩ := newIterator_eq False interval chunks hmd
  rw [hflatten] at hat
  refine ⟨new, hnew, ?_, fun cs key => ?_⟩
  · obtain ⟨last, hdrain, hlast⟩ := Iterator.drain_eq (ε := Empty) hopens hat
      (by rw [List.length_map]; omega : _ < it.records.length + 1)
    exact ⟨last, hdrain, hlast.err⟩
  · obtain ⟨p, htrace, hlost | ⟨-, rest, hcalled⟩⟩ := Iterator.trace_answers hopens hasc cs
      (fun key _ => hleads Empty key) hat
    · exact hlost.1.elim
    have hcalls : (new.calls env created.file cs : Attempt Empty Iterator) = .ok p.2 := by
      rw [Iterator.calls_eq_trace, htrace]
      rfl
    obtain ⟨sought, hseek, hlost | hsought⟩ :=
      Iterator.seek_eq hopens hasc hcalled (hleads Empty key)
    · exact hlost.1.elim
    rw [hflatten] at hsought
    obtain ⟨last, hdrain, hlast⟩ := Iterator.drain_eq (ε := Empty) hopens hsought
      (by
        rw [List.length_map]
        exact Nat.lt_succ_of_le (List.length_filter_le _ _) : _ < it.records.length + 1)
    exact ⟨p.2, sought, last, hcalls, hseek, hsought.err, hdrain, hlast.err⟩

/-- The table of compressed blocks, walked through from its start. -/
theorem table_scans_trimmed : WithinLimits trimmedTable.file ∧
    trimmedTable.file.size < sampleTable.file.size ∧
    ∃ new last, newIterator trimmedTable.file = .ok new ∧
      (new.drain trimmingEnv trimmedTable.file (sampleRecords.length + 1) : Attempt Empty _) =
        .ok (sampleRecords.map Record.plain, last) := by
  obtain ⟨new, hnew, ⟨last, hdrain, -⟩, -⟩ :=
    table_scans trimmingEnv_inverts trimmedTable_created (by decide) trimmedTable_within
  exact ⟨trimmedTable_within, by decide +kernel, new, last, hnew, hdrain⟩

end Created

end HyphaDB.Table
