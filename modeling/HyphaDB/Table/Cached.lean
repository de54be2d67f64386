import HyphaDB.BlockCache
import HyphaDB.Lib.Interleaved
import HyphaDB.Table.Reads

/-!
# HyphaDB.Table.Cached

**Reading tables through what they share** (`internal/sstable`): all tables have one block cache,
whose keys are a table's ID and a block's offset, and each keeps its metadata once they are loaded.
Loading metadata and each call of the cache are under a mutex, so they are atomic steps; everything
else a reader does is its own.

`HyphaDB.Table.File` reads every block from the file. The programs here do the same in every
interleaving (`cached_reads`), provided a key of the cache names one block. In a file that is
written, blocks have different offsets (`created_offsets`).
-/

namespace HyphaDB.Table.Cached

open Checked Interleaved BlockCache

/-- `sstable.SSTable`, as far as reads use it. -/
structure Handle where
  id : UInt64
  file : TableFile
  /-- The table was opened with a block cache. -/
  hasCache : Bool := true

/-- What the readers share. -/
structure Shared (τ : Type) where
  cache : LRU
  /-- Index, filter and format version of the tables whose metadata have been loaded. -/
  loaded : τ → Option Metadata := fun _ => none

section Programs

variable {τ ε : Type} [DecidableEq τ] (env : Env) (tables : τ → Handle)

def loadMetadata (t : τ) : Prog (Shared τ) TableError Metadata := .atomic fun w =>
  match w.loaded t with
  | some md => (.ok md, w)
  | none =>
      match Table.loadMetadata (tables t).file with
      | .error e => (.error e, w)
      | .ok md => (.ok md, { w with loaded := Function.update w.loaded t (some md) })

/-! ### Blocks -/

def blockCacheKey (t : τ) (entry : IndexEntry) : BlockCache.Key :=
  { tableID := (tables t).id, offset := UInt64.ofNat entry.offset }

/-- `s.cache.Get`. -/
def cacheGet (key : BlockCache.Key) : Prog (Shared τ) ε (Option Bytes) := .atomic fun w =>
  (.ok (w.cache.get key).1, { w with cache := (w.cache.get key).2 })

/-- `s.cache.Set`. -/
def cacheSet (key : BlockCache.Key) (block : Bytes) : Prog (Shared τ) ε Unit := .atomic fun w =>
  (.ok (), { w with cache := w.cache.set key block })

def readLogicalBlockMiss (t : τ) (entry : IndexEntry) (cacheKey : BlockCache.Key) :
    Prog (Shared τ) TableError Bytes := do
  let logical ← .lift (Table.readLogicalBlock env (tables t).file entry)
  if (tables t).hasCache then do
    cacheSet cacheKey logical
    pure logical
  else pure logical

/-- `readLogicalBlock` and `readLogicalBlockFrom`, which differ in who opens the file. -/
def readLogicalBlock (t : τ) (entry : IndexEntry) : Prog (Shared τ) TableError Bytes :=
  let cacheKey := blockCacheKey tables t entry
  if (tables t).hasCache then do
    match ← cacheGet cacheKey with
    | some logical => pure logical
    | none => readLogicalBlockMiss env tables t entry cacheKey
  else readLogicalBlockMiss env tables t entry cacheKey

def openBlock (t : τ) (formatVersion : UInt8) (entry : IndexEntry) :
    Prog (Shared τ) TableError LogicalBlockCursor := do
  let logical ← readLogicalBlock env tables t entry
  .lift (mapError .block (newLogicalBlockCursorForVersion logical formatVersion))

/-! ### Point reads -/

def searchBlocks (t : τ) (md : Metadata) (key : Key) (maxSeq : UInt64) :
    Nat → Nat → Prog (Shared τ) TableError (Option Record)
  | 0, _ => pure none
  | left + 1, i => do
      let entry ← .lift (get md.index i)
      let cursor ← openBlock env tables t md.formatVersion entry
      let cursor ← .lift (cursor.seek key)
      match cursor.err with
      | some e => .lift (fail (.block e))
      | none => do
          let (scan, cursor) ← .lift (scanBlock key maxSeq (cursor.count + 1) cursor)
          match scan with
          | .found rec => pure (some rec)
          | .passed => pure none
          | .ended =>
              match cursor.err with
              | some e => .lift (fail (.block e))
              | none => searchBlocks t md key maxSeq left (i + 1)

/-- `SSTable.GetRecordAt`. -/
def getRecordAt (t : τ) (key : Key) (maxSeq : UInt64) :
    Prog (Shared τ) TableError (Option Record) := do
  let md ← loadMetadata tables t
  let possible ← .lift (md.mayContain env key)
  if !possible then pure none
  else if md.index.length = 0 then pure none
  else do
    let i ← .lift (firstPossibleBlock md.index key)
    if i < 0 then pure none
    else searchBlocks env tables t md key maxSeq (md.index.length - i.toNat) i.toNat

/-! ### Iterators -/

/-- `SSTable.Iterator`. The format version is fixed once metadata are loaded, so the iterator has
its own copy. -/
def newIterator (t : τ) : Prog (Shared τ) TableError Iterator := do
  let md ← loadMetadata tables t
  pure { index := md.index, formatVersion := md.formatVersion }

def loadBlock (t : τ) (it : Iterator) (blockIndex : Int) : Prog (Shared τ) ε Iterator :=
  Prog.handle (do
      let entry ← .lift (getInt it.index blockIndex)
      openBlock env tables t it.formatVersion entry)
    (fun e => pure { it with err := some e })
    fun cursor => pure { it with blockIndex, blockCursor := cursor }

/-- `Iterator.Seek`; the loop is within a block. -/
def seek (t : τ) (it : Iterator) (key : Key) : Prog (Shared τ) ε Iterator :=
  if it.err.isSome then pure it
  else
    let it := { it with blockCursor := {}, current := {}, pending := none }
    if it.index.length = 0 then pure { it with blockIndex := 0 }
    else do
      let blockIndex ← .lift (firstPossibleBlock it.index key)
      let it ← loadBlock env tables t it blockIndex
      if it.err.isSome then pure it
      else do
        let cursor ← .lift (it.blockCursor.seek key)
        match cursor.err with
        | some e => pure { it with blockCursor := cursor, err := some (.block e) }
        | none => .lift (Iterator.seekLoop key (cursor.count + 1) { it with blockCursor := cursor })

def nextLoop (t : τ) : Nat → Iterator → Prog (Shared τ) ε (Bool × Iterator)
  | 0, _ => .lift (.error (.fault .endless))
  | fuel + 1, it => do
      let (rec?, cursor) ← .lift it.blockCursor.next
      match rec? with
      | some rec => pure (true, { it with blockCursor := cursor, current := rec })
      | none =>
          match cursor.err with
          | some e => pure (false, { it with blockCursor := cursor, err := some (.block e) })
          | none =>
              let it := { it with blockCursor := cursor, blockIndex := it.blockIndex + 1 }
              if (it.index.length : Int) ≤ it.blockIndex then pure (false, it)
              else do
                let it ← loadBlock env tables t it it.blockIndex
                if it.err.isSome then pure (false, it) else nextLoop t fuel it

/-- `Iterator.Next`. -/
def next (t : τ) (it : Iterator) : Prog (Shared τ) ε (Bool × Iterator) :=
  if it.err.isSome then pure (false, it)
  else
    match it.pending with
    | some rec => pure (true, { it with current := rec, pending := none })
    | none => nextLoop env tables t (it.index.length + 2) it

/-- The record each `Next` makes current, none where it returns false. -/
def trace (t : τ) : Iterator → List IteratorCall →
    Prog (Shared τ) ε (List (Option Record) × Iterator)
  | it, [] => pure ([], it)
  | it, .next :: cs => do
      let (more, it) ← next env tables t it
      let (given, last) ← trace t it cs
      pure ((if more then some it.current else none) :: given, last)
  | it, .seek key :: cs => do
      let it ← seek env tables t it key
      trace t it cs

/-- Open an iterator, make the calls and ask for its error. -/
def iterate (t : τ) (cs : List IteratorCall) :
    Prog (Shared τ) TableError (List (Option Record)) := do
  let it ← newIterator tables t
  let (given, last) ← trace env tables t it cs
  match last.err with
  | some e => .lift (fail e)
  | none => pure given

end Programs

/-! ### What a cache holds -/

/-- Everything in the cache was put there as `P` allows. -/
def Holds (P : BlockCache.Key → Bytes → Prop) (c : LRU) : Prop :=
  ∀ key elem, c.entries.lookup key = some elem →
    elem < c.nextElement ∧ (c.items elem).key = key ∧ P key (c.items elem).block

section Holds

variable {P : BlockCache.Key → Bytes → Prop} {c : LRU}

theorem holds_new (capacityBytes : Int) : Holds P (newLRU capacityBytes) := by
  intro key elem h
  cases h

theorem Holds.get (h : Holds P c) (key : BlockCache.Key) :
    (∀ block, (c.get key).1 = some block → P key block) ∧ Holds P (c.get key).2 := by
  unfold LRU.get
  cases hl : c.entries.lookup key with
  | none => exact ⟨fun block hb => (by cases hb), h⟩
  | some elem =>
      refine ⟨fun block hb => ?_, h⟩
      cases hb
      exact (h key elem hl).2.2

theorem Holds.removeElement (h : Holds P c) (key : BlockCache.Key) (elem : Nat) :
    Holds P (c.removeElement key elem) := by
  intro key' elem' hl
  by_cases hk : key' = key
  · subst hk
    rw [show (c.removeElement key' elem).entries = c.entries.erase key' from rfl,
      AList.lookup_erase] at hl
    cases hl
  · rw [show (c.removeElement key elem).entries = c.entries.erase key from rfl,
      AList.lookup_erase_ne hk] at hl
    exact h key' elem' hl

theorem Holds.deleteLocked (h : Holds P c) (key : BlockCache.Key) :
    Holds P (c.deleteLocked key) := by
  unfold LRU.deleteLocked
  split
  · exact h
  · exact h.removeElement key _

theorem Holds.evictLoop (h : Holds P c) (rounds : Nat) : Holds P (LRU.evictLoop rounds c) := by
  induction rounds generalizing c with
  | zero => exact h
  | succ rounds ih =>
      unfold LRU.evictLoop
      split
      · split
        · exact h
        · exact ih (h.removeElement _ _)
      · exact h

theorem Holds.replace (h : Holds P c) {key : BlockCache.Key} {elem : Nat} {block : Bytes}
    (hl : c.entries.lookup key = some elem) (hP : P key block) :
    Holds P (c.replace elem block) := by
  intro key' elem' hl'
  obtain ⟨hlt, hkey, hold⟩ := h key' elem' hl'
  have hitems : (c.replace elem block).items =
    Function.update c.items elem { c.items elem with block, size := block.length } := rfl
  rw [hitems]
  by_cases he : elem' = elem
  · -- two keys with one element would be one key
    subst he
    rw [Function.update_self]
    have hk : key' = key := hkey.symm.trans (h key elem' hl).2.1
    exact ⟨hlt, hkey, hk ▸ hP⟩
  · rw [Function.update_of_ne he]
    exact ⟨hlt, hkey, hold⟩

theorem Holds.pushFront (h : Holds P c) {key : BlockCache.Key} {block : Bytes} (hP : P key block) :
    Holds P (c.pushFront key block) := by
  intro key' elem' hl
  have hitems : (c.pushFront key block).items =
    Function.update c.items c.nextElement { key, block, size := block.length } := rfl
  have hnext : (c.pushFront key block).nextElement = c.nextElement + 1 := rfl
  rw [hitems, hnext]
  by_cases hk : key' = key
  · subst hk
    rw [show (c.pushFront key' block).entries = c.entries.insert key' c.nextElement from rfl,
      AList.lookup_insert] at hl
    cases hl
    rw [Function.update_self]
    exact ⟨Nat.lt_succ_self _, rfl, hP⟩
  · rw [show (c.pushFront key block).entries = c.entries.insert key c.nextElement from rfl,
      AList.lookup_insert_ne hk] at hl
    obtain ⟨hlt, hkey, hold⟩ := h key' elem' hl
    rw [Function.update_of_ne hlt.ne]
    exact ⟨Nat.lt_succ_of_lt hlt, hkey, hold⟩

theorem Holds.set (h : Holds P c) {key : BlockCache.Key} {block : Bytes} (hP : P key block) :
    Holds P (c.set key block) := by
  unfold LRU.set
  split
  · exact h
  split
  · exact h.deleteLocked key
  split
  · rename_i hl
    exact (h.replace hl hP).evictLoop _
  · exact (h.pushFront hP).evictLoop _

theorem Holds.purgeTable (h : Holds P c) (tableID : UInt64)
    (range : MapOrder (Sigma fun _ : BlockCache.Key => Nat)) :
    Holds P (c.purgeTable tableID range) := by
  unfold LRU.purgeTable
  generalize range.order c.entries.entries = visit
  induction visit generalizing c with
  | nil => exact h
  | cons entry visit ih =>
      refine ih ?_
      dsimp only
      split
      · exact h
      · exact h.removeElement _ _

end Holds

/-! ### A key for each block -/

/-- An entry of the file's index. -/
def InIndex (file : TableFile) (entry : IndexEntry) : Prop :=
  ∃ md, Table.loadMetadata file = .ok md ∧ entry ∈ md.index

/-- No two blocks of an index start at one place, as a `uint64`. -/
def OffsetsDiffer (file : TableFile) : Prop :=
  ∀ e e', InIndex file e → InIndex file e' →
    UInt64.ofNat e.offset = UInt64.ofNat e'.offset → e = e'

/-- Tables are told apart by their IDs, and the blocks of a table by their offsets. -/
structure Distinct {τ : Type} (tables : τ → Handle) : Prop where
  ids : ∀ t t', (tables t).id = (tables t').id → t = t'
  offsets : ∀ t, OffsetsDiffer (tables t).file

theorem Distinct.eq_of_key {τ : Type} {tables : τ → Handle} (hd : Distinct tables) {t t' : τ}
    {e e' : IndexEntry} (he : InIndex (tables t).file e) (he' : InIndex (tables t').file e')
    (hkey : blockCacheKey tables t e = blockCacheKey tables t' e') : t = t' ∧ e = e' := by
  obtain ⟨hid, hoffset⟩ := BlockCache.Key.mk.inj hkey
  obtain rfl := hd.ids t t' hid
  exact ⟨rfl, hd.offsets t e e' he he' hoffset⟩

/-! ### Written files -/

theorem entriesFrom_offsets {env : Env} {opts : WriteOptions} (offset : Nat)
    (blocks : List (StoredBlock env opts)) :
    (entriesFrom offset blocks).Pairwise (fun e e' => e.offset < e'.offset) ∧
      ∀ e ∈ entriesFrom offset blocks,
        offset ≤ e.offset ∧ e.offset < offset + (dataBytes blocks).length := by
  induction blocks generalizing offset with
  | nil => exact ⟨List.Pairwise.nil, fun e he => (by cases he)⟩
  | cons b blocks ih =>
      obtain ⟨hpair, hle⟩ := ih (offset + b.physical.length)
      have hpos := (encodePhysicalBlock_length b.encoded).1
      rw [dataBytes_cons, List.length_append]
      refine ⟨List.pairwise_cons.mpr ⟨fun e he => ?_, hpair⟩, fun e he => ?_⟩
      · exact Nat.lt_of_lt_of_le (Nat.lt_add_of_pos_right hpos) (hle e he).1
      · rcases List.mem_cons.mp he with rfl | he
        · dsimp only
          omega
        · have := hle e he
          omega

/-- **The blocks of a written file start at different places.** -/
theorem created_offsets {env : Env} {it : RecordIterator} {hint : Int} {opts : WriteOptions}
    {created : Created} (hcreate : createFromIteratorWithOptions env it hint opts = .ok created)
    (hfits : ∀ r ∈ it.records, r.Fits) (hlimits : WithinLimits created.file) :
    OffsetsDiffer created.file := by
  obtain ⟨opts', filter, -, -, ⟨W⟩⟩ := created_written hcreate
  obtain ⟨footer, hfooter, hindex, hfilter⟩ := hlimits
  rw [W.readFooter_eq] at hfooter
  cases hfooter
  have hmd := W.loadMetadata_eq ⟨hfits, hindex, hfilter⟩
  rintro e e' ⟨md, he, hmem⟩ ⟨md', he', hmem'⟩ heq
  rw [hmd] at he he'
  cases he
  cases he'
  obtain ⟨hpair, hbound⟩ := entriesFrom_offsets 0 W.blocks
  have hnodup : ((entriesFrom 0 W.blocks).map (·.offset)).Nodup :=
    List.pairwise_map.mpr (hpair.imp fun h => h.ne)
  have hlt : ∀ e ∈ entriesFrom 0 W.blocks, e.offset < 2 ^ 64 := by
    intro e he
    have hsize := created.file.size_lt
    rw [W.bytes, List.length_append, List.length_append, List.length_append] at hsize
    have := (hbound e he).2
    omega
  have hnat := congrArg UInt64.toNat heq
  rw [UInt64.toNat_ofNat_of_lt' (hlt e hmem), UInt64.toNat_ofNat_of_lt' (hlt e' hmem')] at hnat
  exact List.inj_on_of_nodup_map hnodup hmem hmem' hnat

/-! ### The same as from the file -/

section Agrees

variable {τ ε : Type} {env : Env} {tables : τ → Handle}

/-- `block` is the block whose key this is. -/
def Stored (env : Env) (tables : τ → Handle) (key : BlockCache.Key) (block : Bytes) : Prop :=
  ∀ t entry, InIndex (tables t).file entry → blockCacheKey tables t entry = key →
    Table.readLogicalBlock env (tables t).file entry = .ok block

/-- What is shared repeats the files. -/
structure Faithful (env : Env) (tables : τ → Handle) (w : Shared τ) : Prop where
  cache : Holds (Stored env tables) w.cache
  loaded : ∀ t md, w.loaded t = some md → Table.loadMetadata (tables t).file = .ok md

theorem faithful_new (capacityBytes : Int) :
    Faithful env tables { cache := newLRU capacityBytes } :=
  ⟨holds_new capacityBytes, fun _ _ h => by cases h⟩

theorem loadMetadata_agrees [DecidableEq τ] (t : τ) : Agrees (Faithful env tables)
    (loadMetadata tables t) (Table.loadMetadata (tables t).file) := by
  refine ends_atomic fun w hw => ?_
  cases hl : w.loaded t with
  | some md => exact ⟨(hw.loaded t md hl).symm, hw⟩
  | none =>
      cases hmd : Table.loadMetadata (tables t).file with
      | error e => exact ⟨rfl, hw⟩
      | ok md =>
          refine ⟨rfl, hw.cache, fun t' md' hl' => ?_⟩
          dsimp only at hl'
          by_cases ht : t' = t
          · subst ht
            rw [Function.update_self] at hl'
            cases hl'
            exact hmd
          · rw [Function.update_of_ne ht] at hl'
            exact hw.loaded t' md' hl'

theorem cacheGet_ends (key : BlockCache.Key) :
    Ends (Faithful env tables) (fun r => ∃ block?, r = .ok block? ∧ ∀ block, block? = some block →
      Stored env tables key block) (cacheGet key : Prog (Shared τ) ε (Option Bytes)) := by
  refine ends_atomic fun w hw => ?_
  obtain ⟨hstored, hholds⟩ := hw.cache.get key
  exact ⟨⟨_, rfl, hstored⟩, hholds, hw.loaded⟩

theorem readLogicalBlockMiss_agrees (hd : Distinct tables) {t : τ} {entry : IndexEntry}
    (he : InIndex (tables t).file entry) :
    Agrees (Faithful env tables)
      (readLogicalBlockMiss env tables t entry (blockCacheKey tables t entry))
      (Table.readLogicalBlock env (tables t).file entry) := by
  rw [← bind_pure (Table.readLogicalBlock env (tables t).file entry)]
  refine agrees_bind (agrees_lift _) fun logical hlogical => ?_
  split
  · refine ends_bind (P := fun r => r = .ok ()) (ends_atomic fun w hw => ⟨rfl, ?_, hw.loaded⟩)
      (fun _ _ => .done rfl) fun s hs => (by cases hs)
    refine hw.cache.set fun t' entry' he' hkey => ?_
    obtain ⟨rfl, rfl⟩ := hd.eq_of_key he' he hkey
    exact hlogical
  · exact .done rfl

/-- **A block from the cache is the block of the file.** -/
theorem readLogicalBlock_agrees (hd : Distinct tables) {t : τ} {entry : IndexEntry}
    (he : InIndex (tables t).file entry) :
    Agrees (Faithful env tables) (readLogicalBlock env tables t entry)
      (Table.readLogicalBlock env (tables t).file entry) := by
  have hmiss : Agrees (Faithful env tables)
      (readLogicalBlockMiss env tables t entry (blockCacheKey tables t entry)) _ :=
    readLogicalBlockMiss_agrees hd he
  unfold readLogicalBlock
  dsimp only
  split
  · refine ends_bind (cacheGet_ends _) (fun block? hblock => ?_) fun s hs => ?_
    · obtain ⟨_, heq, hstored⟩ := hblock
      cases heq
      cases block? with
      | none => exact hmiss
      | some block => exact .done (hstored block rfl t entry he rfl).symm
    · obtain ⟨_, heq, -⟩ := hs
      cases heq
  · exact hmiss

theorem openBlock_agrees (hd : Distinct tables) {t : τ} {entry : IndexEntry}
    (he : InIndex (tables t).file entry) (formatVersion : UInt8) :
    Agrees (Faithful env tables) (openBlock env tables t formatVersion entry)
      (Table.openBlock env (tables t).file formatVersion entry) :=
  agrees_bind (readLogicalBlock_agrees hd he) fun _ _ => agrees_lift _

theorem searchBlocks_agrees (hd : Distinct tables) {t : τ} {md : Metadata}
    (hmd : Table.loadMetadata (tables t).file = .ok md) (key : Key) (maxSeq : UInt64)
    (left i : Nat) :
    Agrees (Faithful env tables) (searchBlocks env tables t md key maxSeq left i)
      (Table.searchBlocks env (tables t).file md key maxSeq left i) := by
  induction left generalizing i with
  | zero => exact agrees_pure _
  | succ left ih =>
      unfold searchBlocks Table.searchBlocks
      refine agrees_bind (agrees_lift _) fun entry hentry => ?_
      refine agrees_bind (openBlock_agrees hd ⟨md, hmd, mem_of_get hentry⟩ _) fun cursor _ => ?_
      refine agrees_bind (agrees_lift _) fun cursor _ => ?_
      cases cursor.err with
      | some e => exact agrees_lift _
      | none =>
          refine agrees_bind (agrees_lift _) fun p _ => ?_
          obtain ⟨scan, cursor⟩ := p
          cases scan with
          | found rec => exact agrees_pure _
          | passed => exact agrees_pure _
          | ended =>
              dsimp only
              cases cursor.err with
              | some e => exact agrees_lift _
              | none => exact ih (i + 1)

theorem getRecordAt_agrees [DecidableEq τ] (hd : Distinct tables) (t : τ) (key : Key)
    (maxSeq : UInt64) : Agrees (Faithful env tables) (getRecordAt env tables t key maxSeq)
      (Table.getRecordAt env (tables t).file key maxSeq) := by
  refine agrees_bind (loadMetadata_agrees t) fun md hmd => ?_
  refine agrees_bind (agrees_lift _) fun possible _ => ?_
  refine agrees_ite (fun _ => agrees_pure _) fun _ => ?_
  refine agrees_ite (fun _ => agrees_pure _) fun _ => ?_
  refine agrees_bind (agrees_lift _) fun i _ => ?_
  exact agrees_ite (fun _ => agrees_pure _) fun _ => searchBlocks_agrees hd hmd key maxSeq _ _

/-! ### Iterators -/

/-- The iterator has the index of its table. -/
def Opened (file : TableFile) (it : Iterator) : Prop :=
  ∃ md, Table.loadMetadata file = .ok md ∧ it.index = md.index

theorem newIterator_agrees [DecidableEq τ] (t : τ) : Agrees (Faithful env tables)
    (newIterator tables t) (Table.newIterator (tables t).file) :=
  agrees_bind (loadMetadata_agrees t) fun _ _ => agrees_pure _

theorem newIterator_opened {file : TableFile} {it : Iterator}
    (h : Table.newIterator file = .ok it) : Opened file it := by
  obtain ⟨md, hmd, h⟩ := bind_eq_ok h
  cases h
  exact ⟨md, hmd, rfl⟩

theorem loadBlock_index {file : TableFile} {it it' : Iterator} {i : Int}
    (h : (it.loadBlock env file i : Attempt ε Iterator) = .ok it') : it'.index = it.index := by
  unfold Iterator.loadBlock handle at h
  split at h
  · cases h
    rfl
  · cases h
    rfl
  · cases h

theorem nextLoop_index {file : TableFile} {fuel : Nat} {it it' : Iterator} {more : Bool}
    (h : (it.nextLoop env file fuel : Attempt ε _) = .ok (more, it')) : it'.index = it.index := by
  induction fuel generalizing it with
  | zero => cases h
  | succ fuel ih =>
      unfold Iterator.nextLoop at h
      obtain ⟨⟨rec?, cursor⟩, -, h⟩ := bind_eq_ok h
      cases rec? with
      | some rec =>
          cases h
          rfl
      | none =>
          dsimp only at h
          split at h
          · cases h
            rfl
          split at h
          · cases h
            rfl
          obtain ⟨loaded, hload, h⟩ := bind_eq_ok h
          have hindex := loadBlock_index hload
          split at h
          · cases h
            exact hindex
          · exact (ih h).trans hindex

theorem next_index {file : TableFile} {it it' : Iterator} {more : Bool}
    (h : (it.next env file : Attempt ε _) = .ok (more, it')) : it'.index = it.index := by
  unfold Iterator.next at h
  split at h
  · cases h
    rfl
  split at h
  · cases h
    rfl
  · exact nextLoop_index h

theorem seekLoop_index {key : Key} {fuel : Nat} {it it' : Iterator}
    (h : (Iterator.seekLoop key fuel it : Attempt ε _) = .ok it') : it'.index = it.index := by
  induction fuel generalizing it with
  | zero => cases h
  | succ fuel ih =>
      unfold Iterator.seekLoop at h
      obtain ⟨⟨rec?, cursor⟩, -, h⟩ := bind_eq_ok h
      cases rec? with
      | none =>
          dsimp only at h
          split at h
          · cases h
            rfl
          · cases h
            rfl
      | some rec =>
          dsimp only at h
          split at h
          · cases h
            rfl
          · have hindex := @ih _ h
            exact hindex

theorem seek_index {file : TableFile} {it it' : Iterator} {key : Key}
    (h : (it.seek env file key : Attempt ε _) = .ok it') : it'.index = it.index := by
  unfold Iterator.seek at h
  dsimp only at h
  split at h
  · cases h
    rfl
  split at h
  · cases h
    rfl
  obtain ⟨blockIndex, -, h⟩ := bind_eq_ok h
  obtain ⟨loaded, hload, h⟩ := bind_eq_ok h
  have hindex := loadBlock_index hload
  split at h
  · cases h
    exact hindex
  obtain ⟨cursor, -, h⟩ := bind_eq_ok h
  split at h
  · cases h
    exact hindex
  · exact (seekLoop_index h).trans hindex

theorem loadBlock_agrees (hd : Distinct tables) {t : τ} {it : Iterator}
    (hit : Opened (tables t).file it) (i : Int) :
    Agrees (Faithful env tables) (loadBlock env tables t it i : Prog (Shared τ) ε Iterator)
      (it.loadBlock env (tables t).file i) := by
  refine agrees_handle (agrees_bind (agrees_lift _) fun entry hentry => ?_)
    (fun _ _ => agrees_pure _) fun _ => agrees_pure _
  obtain ⟨md, hmd, hindex⟩ := hit
  exact openBlock_agrees hd ⟨md, hmd, hindex ▸ mem_of_getInt hentry⟩ _

theorem nextLoop_agrees (hd : Distinct tables) {t : τ} {it : Iterator}
    (hit : Opened (tables t).file it) (fuel : Nat) :
    Agrees (Faithful env tables) (nextLoop env tables t fuel it : Prog (Shared τ) ε _)
      (it.nextLoop env (tables t).file fuel) := by
  induction fuel generalizing it with
  | zero => exact agrees_lift _
  | succ fuel ih =>
      unfold nextLoop Iterator.nextLoop
      refine agrees_bind (agrees_lift _) fun p _ => ?_
      obtain ⟨rec?, cursor⟩ := p
      cases rec? with
      | some rec => exact agrees_pure _
      | none =>
          dsimp only
          cases cursor.err with
          | some e => exact agrees_pure _
          | none =>
              dsimp only
              refine agrees_ite (fun _ => agrees_pure _) fun _ => ?_
              have hit' : Opened (tables t).file
                { it with blockCursor := cursor, blockIndex := it.blockIndex + 1 } := hit
              refine agrees_bind (loadBlock_agrees hd hit' _) fun loaded hload => ?_
              refine agrees_ite (fun _ => agrees_pure _) fun _ => ih ?_
              obtain ⟨md, hmd, hindex⟩ := hit'
              exact ⟨md, hmd, (loadBlock_index hload).trans hindex⟩

/-- **`Next` through the cache does what it does on the file.** -/
theorem next_agrees (hd : Distinct tables) {t : τ} {it : Iterator}
    (hit : Opened (tables t).file it) :
    Agrees (Faithful env tables) (next env tables t it : Prog (Shared τ) ε _)
      (it.next env (tables t).file) := by
  unfold next Iterator.next
  refine agrees_ite (fun _ => agrees_pure _) fun _ => ?_
  cases it.pending with
  | some rec => exact agrees_pure _
  | none => exact nextLoop_agrees hd hit _

theorem seek_agrees (hd : Distinct tables) {t : τ} {it : Iterator}
    (hit : Opened (tables t).file it) (key : Key) :
    Agrees (Faithful env tables) (seek env tables t it key : Prog (Shared τ) ε _)
      (it.seek env (tables t).file key) := by
  unfold seek Iterator.seek
  refine agrees_ite (fun _ => agrees_pure _) fun _ => ?_
  refine agrees_ite (fun _ => agrees_pure _) fun _ => ?_
  refine agrees_bind (agrees_lift _) fun i _ => ?_
  have hit' : Opened (tables t).file
    { it with blockCursor := {}, current := {}, pending := none } := hit
  refine agrees_bind (loadBlock_agrees hd hit' i) fun loaded _ => ?_
  refine agrees_ite (fun _ => agrees_pure _) fun _ => ?_
  refine agrees_bind (agrees_lift _) fun cursor _ => ?_
  cases cursor.err with
  | some e => exact agrees_pure _
  | none => exact agrees_lift _

theorem trace_agrees (hd : Distinct tables) {t : τ} {it : Iterator}
    (hit : Opened (tables t).file it) (cs : List IteratorCall) :
    Agrees (Faithful env tables) (trace env tables t it cs : Prog (Shared τ) ε _)
      (it.trace env (tables t).file cs) := by
  induction cs generalizing it with
  | nil => exact agrees_pure _
  | cons c cs ih =>
      have hkeep : ∀ {it' : Iterator}, it'.index = it.index → Opened (tables t).file it' := by
        intro it' hindex
        obtain ⟨md, hmd, h⟩ := hit
        exact ⟨md, hmd, hindex.trans h⟩
      cases c with
      | next =>
          refine agrees_bind (next_agrees hd hit) fun p hp => ?_
          refine agrees_bind (ih (hkeep (next_index hp))) fun q _ => agrees_pure _
      | seek key =>
          exact agrees_bind (seek_agrees hd hit key) fun it' h => ih (hkeep (seek_index h))

theorem iterate_agrees [DecidableEq τ] (hd : Distinct tables) (t : τ) (cs : List IteratorCall) :
    Agrees (Faithful env tables) (iterate env tables t cs)
      (Table.iterate env (tables t).file cs) := by
  refine agrees_bind (newIterator_agrees t) fun it hit => ?_
  refine agrees_bind (trace_agrees hd (newIterator_opened hit) cs) fun p _ => ?_
  obtain ⟨given, last⟩ := p
  dsimp only
  cases last.err with
  | some e => exact agrees_lift _
  | none => exact agrees_pure _

end Agrees

/-! ### Many readers at once -/

/-- What a goroutine does with the tables. -/
inductive Request (τ : Type)
  | getRecordAt (t : τ) (key : Key) (maxSeq : UInt64)
  | iterate (t : τ) (calls : List IteratorCall)
  /-- Compaction drops the blocks of a table. -/
  | purgeTable (tableID : UInt64) (range : MapOrder (Sigma fun _ : BlockCache.Key => Nat))

inductive Answer
  | record (rec : Option Record)
  | records (given : List (Option Record))
  | purged
  deriving Repr, DecidableEq

section Requests

variable {τ : Type} [DecidableEq τ] (env : Env) (tables : τ → Handle)

def Request.prog : Request τ → Prog (Shared τ) TableError Answer
  | .getRecordAt t key maxSeq => do pure (.record (← Cached.getRecordAt env tables t key maxSeq))
  | .iterate t cs => do pure (.records (← Cached.iterate env tables t cs))
  | .purgeTable tableID range =>
      .atomic fun w => (.ok .purged, { w with cache := w.cache.purgeTable tableID range })

omit [DecidableEq τ] in
/-- What the request gives without cache and kept metadata. -/
def Request.answer : Request τ → Attempt TableError Answer
  | .getRecordAt t key maxSeq => do
      pure (.record (← Table.getRecordAt env (tables t).file key maxSeq))
  | .iterate t cs => do pure (.records (← Table.iterate env (tables t).file cs))
  | .purgeTable _ _ => pure .purged

variable {env tables}

theorem Request.agrees (hd : Distinct tables) (request : Request τ) :
    Agrees (Faithful env tables) (request.prog env tables) (request.answer env tables) := by
  cases request with
  | getRecordAt t key maxSeq =>
      exact agrees_bind (getRecordAt_agrees hd t key maxSeq) fun _ _ => agrees_pure _
  | iterate t cs => exact agrees_bind (iterate_agrees hd t cs) fun _ _ => agrees_pure _
  | purgeTable tableID range =>
      exact ends_atomic fun w hw => ⟨rfl, hw.cache.purgeTable tableID range, hw.loaded⟩

/-- **The cache is not observable.** However the steps of any number of readers and purges are
interleaved, over a cache of any capacity, every request has or will have the answer that reading
the files gives. -/
theorem cached_reads (hd : Distinct tables) (capacityBytes : Int) (requests : List (Request τ))
    (schedule : List Nat) {i : Nat} {request : Request τ} (hi : requests[i]? = some request) :
    let c := runThreads ({ cache := newLRU capacityBytes }, requests.map (·.prog env tables))
      schedule
    ∃ p, c.2[i]? = some p ∧ (p.run c.1).1 = request.answer env tables :=
  runThreads_ends (faithful_new capacityBytes) (fun request _ => request.agrees hd) schedule hi

def soleTable (file : TableFile) (_ : Unit) : Handle := { id := 1, file }

theorem soleTable_distinct {file : TableFile} (h : OffsetsDiffer file) :
    Distinct (soleTable file) :=
  ⟨fun _ _ _ => rfl, fun _ => h⟩

theorem cached_reads_sample :
    let tables := soleTable sampleTable.file
    let requests : List (Request Unit) := [.getRecordAt () [1] 4, .iterate () [.next, .next]]
    let c := runThreads ({ cache := newLRU 100 }, requests.map (·.prog storingEnv tables))
      [0, 1, 1, 0, 0]
    ∃ p, c.2[0]? = some p ∧
      (p.run c.1).1 = (Request.getRecordAt () [1] 4).answer storingEnv tables :=
  cached_reads (soleTable_distinct (created_offsets sampleTable_created (by decide)
    sampleTable_within)) 100 _ [0, 1, 1, 0, 0] rfl

end Requests

end HyphaDB.Table.Cached
