import HyphaDB.Table.Block

/-!
# HyphaDB.Table.File

Reading an **SSTable file** (`internal/sstable`: `footer.go`, `validation.go`, `index.go`,
`sstable.go`, `iterator.go`).

Behind the blocks a file has its index, one entry a block, then perhaps a Bloom filter, and a
footer of 40 bytes that says where both are. `getRecordAt` asks the filter, finds the earliest
block that may hold the key and walks the blocks from there; an `Iterator` walks all records, or
those from a key on.

A file is its bytes, fewer than `2 ^ 63` of them as the size is an `int64`. Metadata is loaded
for each read, and every block is read from the file: what the table keeps of its metadata and
the block cache hold nothing but what is in the file. Errors are kept apart by what the source's
message says.
-/

namespace HyphaDB.Table

open Checked

/-- The bytes of a file. -/
structure TableFile where
  bytes : Bytes
  size_lt : bytes.length < 2 ^ 63

def TableFile.size (file : TableFile) : Nat := file.bytes.length

/-- The file with another byte at a place. -/
def TableFile.set (file : TableFile) (place : Nat) (byte : UInt8) : TableFile where
  bytes := file.bytes.set place byte
  size_lt := by
    rw [List.length_set]
    exact file.size_lt

/-- `File.ReadAt` of a buffer of `length` bytes, which has to be filled. -/
def TableFile.readAt (file : TableFile) (length offset : Nat) : Option Bytes :=
  if offset + length ≤ file.size then some ((file.bytes.drop offset).take length) else none

/-- What `checkedBufferLength` calls the part it checks. -/
inductive Part
  | index
  | filter
  deriving Repr, DecidableEq

inductive IndexError
  | eof
  | unexpectedEOF
  | keyLength
  deriving Repr, DecidableEq

inductive TableError
  | tooSmall
  | readFooter
  | magic
  | version (version : UInt8)
  | flags (flags : UInt8)
  | indexOffset (indexOffset dataEnd : Nat)
  | indexLength (indexLength dataEnd indexOffset : Nat)
  | filterOffsetNonzero (filterOffset : Nat)
  | indexEnd (indexEnd dataEnd : Nat)
  | filterOffset (filterOffset indexEnd : Nat)
  | filterBoundary (filterOffset dataEnd : Nat)
  | filterLength (filterLength dataEnd filterOffset : Nat)
  | filterEnd (filterEnd dataEnd : Nat)
  | partLength (part : Part) (length maxLength : Nat)
  | partAllocation (part : Part) (length : Nat)
  | readIndex (offset : Nat)
  | decodeIndex (offset : Nat) (e : IndexError)
  | readFilter (offset : Nat)
  | decodeFilter (offset : Nat) (e : Bloom.FilterError)
  | zeroLengthBlock (offset : Nat)
  | blockLength (offset length : Nat)
  | blockOffset (offset : Nat)
  | readBlock (offset : Nat)
  | block (e : BlockError)
  deriving Repr, DecidableEq

/-! ### The footer -/

def footerSize : Nat := 40
/-- 256 MiB. -/
def maxIndexSize : Nat := 256 * 2 ^ 20
def maxFilterSize : Nat := 256 * 2 ^ 20

/-- The ASCII bytes of `HYPSST`. -/
def tableMagic : Bytes := [0x48, 0x59, 0x50, 0x53, 0x53, 0x54]

structure FooterMetadata where
  formatVersion : UInt8
  indexOffset : Nat
  indexLength : Nat
  filterOffset : Nat
  filterLength : Nat
  deriving Repr, DecidableEq

/-- What `writeFooter` writes. -/
def footerBytes (indexOffset indexLength filterOffset filterLength : Nat) : Bytes :=
  toLE 8 indexOffset ++ toLE 8 indexLength ++ toLE 8 filterOffset ++ toLE 8 filterLength ++
    tableMagic ++ [currentFormatVersion, 0]

/-- The checks of `readFooter` on where index and filter lie in a file that ends its data at
`dataEnd`. -/
def checkFooter (dataEnd : Nat) (footer : FooterMetadata) : Attempt TableError FooterMetadata :=
  if dataEnd < footer.indexOffset then fail (.indexOffset footer.indexOffset dataEnd)
  else do
    let room ← sub dataEnd footer.indexOffset
    if room < footer.indexLength then
      fail (.indexLength footer.indexLength dataEnd footer.indexOffset)
    else do
      let indexEnd ← fits 64 (footer.indexOffset + footer.indexLength)
      if footer.filterLength = 0 then
        if footer.filterOffset ≠ 0 then fail (.filterOffsetNonzero footer.filterOffset)
        else if indexEnd ≠ dataEnd then fail (.indexEnd indexEnd dataEnd)
        else pure footer
      else if footer.filterOffset ≠ indexEnd then
        fail (.filterOffset footer.filterOffset indexEnd)
      else if dataEnd < footer.filterOffset then
        fail (.filterBoundary footer.filterOffset dataEnd)
      else do
        let room ← sub dataEnd footer.filterOffset
        if room < footer.filterLength then
          fail (.filterLength footer.filterLength dataEnd footer.filterOffset)
        else do
          let filterEnd ← fits 64 (footer.filterOffset + footer.filterLength)
          if filterEnd ≠ dataEnd then fail (.filterEnd filterEnd dataEnd)
          else pure footer

/-- `readFooter` once the footer's bytes are read. -/
def decodeFooter (fileSize : Nat) (footer : Bytes) : Attempt TableError FooterMetadata := do
  let magic ← slice footer 32 38
  if magic ≠ tableMagic then fail .magic
  else do
    let version ← get footer 38
    if version ≠ legacyFormatVersion ∧ version ≠ currentFormatVersion then fail (.version version)
    else do
      let flags ← get footer 39
      if flags ≠ 0 then fail (.flags flags)
      else do
        let indexOffset ← readLE 8 (← slice footer 0 8)
        let indexLength ← readLE 8 (← slice footer 8 16)
        let filterOffset ← readLE 8 (← slice footer 16 24)
        let filterLength ← readLE 8 (← slice footer 24 32)
        let dataEnd ← sub fileSize footerSize
        checkFooter dataEnd
          { formatVersion := version, indexOffset, indexLength, filterOffset, filterLength }

def readFooter (file : TableFile) : Attempt TableError FooterMetadata :=
  if file.size < footerSize then fail .tooSmall
  else do
    let footerOffset ← sub file.size footerSize
    match file.readAt footerSize footerOffset with
    | none => fail .readFooter
    | some footer => decodeFooter file.size footer

/-! ### The index -/

structure IndexEntry where
  firstKey : Key
  offset : Nat
  length : Nat
  deriving Repr, DecidableEq

/-- The earliest block that may contain `key`. The block before the first one whose first key
reaches `key` counts, as a key can begin at its end. -/
def firstPossibleBlock {ε : Type} (index : List IndexEntry) (key : Key) : Attempt ε Int :=
  if index.length = 0 then pure (-1)
  else do
    let i ← search index.length fun i => do
      let entry ← get index i
      pure (decide (key ≤ entry.firstKey))
    if i = index.length then pure (index.length - 1 : Int)
    else if 0 < i then pure (i - 1 : Int)
    else pure 0

def entryBytes (entry : IndexEntry) : Bytes :=
  toLE 4 entry.firstKey.length ++ toLE 8 entry.offset ++ toLE 4 entry.length ++ entry.firstKey

/-- What `writeIndex` writes. -/
def indexBytes (index : List IndexEntry) : Bytes :=
  toLE 4 index.length ++ index.flatMap entryBytes

/-- `io.ReadFull` from a `bytes.Reader`: the bytes read and those left. -/
def readFull (length : Nat) (r : Bytes) : Attempt IndexError (Bytes × Bytes) :=
  if length ≤ r.length then pure (r.take length, r.drop length)
  else if r.length = 0 then fail .eof
  else fail .unexpectedEOF

/-- The loop of `decodeIndex` for the entries that are left. -/
def decodeEntries : Nat → Bytes → Attempt IndexError (List IndexEntry)
  | 0, _ => pure []
  | left + 1, r => do
      let (header, r) ← readFull 16 r
      let keyLen ← readLE 4 (← slice header 0 4)
      let offset ← readLE 8 (← slice header 4 12)
      let length ← readLE 4 (← slice header 12 16)
      if r.length < keyLen then fail .keyLength
      else do
        let (key, r) ← readFull keyLen r
        let index ← decodeEntries left r
        pure ({ firstKey := key, offset, length } :: index)

/-- Bytes behind the last entry are not looked at. -/
def decodeIndex (buf : Bytes) : Attempt IndexError (List IndexEntry) := do
  let (countBuf, r) ← readFull 4 buf
  let count ← readLE 4 countBuf
  decodeEntries count r

/-! ### Metadata -/

/-- What `loadMetadata` keeps of a file. -/
structure Metadata where
  index : List IndexEntry
  filter : Option Bloom.Filter
  formatVersion : UInt8
  deriving Repr, DecidableEq

def checkedBufferLength (length maxLength : Nat) (part : Part) : Attempt TableError Nat :=
  if maxLength < length then fail (.partLength part length maxLength)
  else if 2 ^ 63 - 1 < length then fail (.partAllocation part length)
  else pure length

def loadIndex (file : TableFile) (footer : FooterMetadata) :
    Attempt TableError (List IndexEntry) := do
  let indexLength ← checkedBufferLength footer.indexLength maxIndexSize .index
  let indexOffset ← fits 63 footer.indexOffset
  match file.readAt indexLength indexOffset with
  | none => fail (.readIndex footer.indexOffset)
  | some indexBuf => mapError (.decodeIndex footer.indexOffset) (decodeIndex indexBuf)

def loadFilter (file : TableFile) (footer : FooterMetadata) :
    Attempt TableError (Option Bloom.Filter) := do
  let filterLength ← checkedBufferLength footer.filterLength maxFilterSize .filter
  if 0 < filterLength then do
    let filterOffset ← fits 63 footer.filterOffset
    match file.readAt filterLength filterOffset with
    | none => fail (.readFilter footer.filterOffset)
    | some filterBuf => do
        let filter ← mapError (.decodeFilter footer.filterOffset) (Bloom.decode filterBuf)
        pure (some filter)
  else pure none

def loadMetadata (file : TableFile) : Attempt TableError Metadata := do
  let footer ← readFooter file
  let index ← loadIndex file footer
  let filter ← loadFilter file footer
  pure { index, filter, formatVersion := footer.formatVersion }

/-! ### Blocks -/

def maxStoredBlockSize : Nat := maxBlockSize + blockHeaderSize + blockTrailerSize

def readBlockFrom (file : TableFile) (entry : IndexEntry) : Attempt TableError Bytes :=
  if entry.length = 0 then fail (.zeroLengthBlock entry.offset)
  else if maxStoredBlockSize < entry.length then fail (.blockLength entry.offset entry.length)
  else if 2 ^ 63 - 1 < entry.offset then fail (.blockOffset entry.offset)
  else
    match file.readAt entry.length entry.offset with
    | none => fail (.readBlock entry.offset)
    | some buf => pure buf

def readLogicalBlock (env : Env) (file : TableFile) (entry : IndexEntry) :
    Attempt TableError Bytes := do
  let physical ← readBlockFrom file entry
  mapError .block (decodePhysicalBlock env physical)

/-- A cursor at the start of a block, which point reads and iterators make alike. -/
def openBlock (env : Env) (file : TableFile) (formatVersion : UInt8) (entry : IndexEntry) :
    Attempt TableError LogicalBlockCursor := do
  let logical ← readLogicalBlock env file entry
  mapError .block (newLogicalBlockCursorForVersion logical formatVersion)

/-! ### Point reads -/

/-- How the walk through one block ends. -/
inductive Scan
  | found (rec : Record)
  /-- A greater key came: no later record can match. -/
  | passed
  | ended
  deriving Repr, DecidableEq

/-- The inner loop of `GetRecordAt`. -/
def scanBlock {ε : Type} (key : Key) (maxSeq : UInt64) :
    Nat → LogicalBlockCursor → Attempt ε (Scan × LogicalBlockCursor)
  | 0, _ => .error (.fault .endless)
  | fuel + 1, cursor => do
      let (rec?, cursor) ← cursor.next
      match rec? with
      | none => pure (.ended, cursor)
      | some rec =>
          if rec.key = key ∧ rec.seq ≤ maxSeq then pure (.found rec, cursor)
          else if key < rec.key then pure (.passed, cursor)
          else scanBlock key maxSeq fuel cursor

/-- The outer loop of `GetRecordAt`, over the `left` blocks from `i` on. -/
def searchBlocks (env : Env) (file : TableFile) (md : Metadata) (key : Key) (maxSeq : UInt64) :
    Nat → Nat → Attempt TableError (Option Record)
  | 0, _ => pure none
  | left + 1, i => do
      let entry ← get md.index i
      let cursor ← openBlock env file md.formatVersion entry
      let cursor ← cursor.seek key
      match cursor.err with
      | some e => fail (.block e)
      | none => do
          let (scan, cursor) ← scanBlock key maxSeq (cursor.count + 1) cursor
          match scan with
          | .found rec => pure (some rec)
          | .passed => pure none
          | .ended =>
              match cursor.err with
              | some e => fail (.block e)
              | none => searchBlocks env file md key maxSeq left (i + 1)

/-- The filter does not rule the key out; a table without one rules out nothing. -/
def Metadata.mayContain {ε : Type} (env : Env) (md : Metadata) (key : Key) : Attempt ε Bool :=
  match md.filter with
  | none => pure true
  | some filter => filter.mayContain env.hash128 key

/-- `SSTable.GetRecordAt`. -/
def getRecordAt (env : Env) (file : TableFile) (key : Key) (maxSeq : UInt64) :
    Attempt TableError (Option Record) := do
  let md ← loadMetadata file
  let possible ← md.mayContain env key
  if !possible then pure none
  else if md.index.length = 0 then pure none
  else do
    let i ← firstPossibleBlock md.index key
    if i < 0 then pure none
    else searchBlocks env file md key maxSeq (md.index.length - i.toNat) i.toNat

/-! ### Iterators -/

structure Iterator where
  index : List IndexEntry
  formatVersion : UInt8
  /-- The block the cursor is in, −1 before the first. -/
  blockIndex : Int := -1
  blockCursor : LogicalBlockCursor := {}
  current : Record := {}
  /-- The record `Seek` has found and `Next` has not yet returned. -/
  pending : Option Record := none
  err : Option TableError := none
  deriving Repr, DecidableEq

/-- `SSTable.Iterator`. -/
def newIterator (file : TableFile) : Attempt TableError Iterator := do
  let md ← loadMetadata file
  pure { index := md.index, formatVersion := md.formatVersion }

namespace Iterator

variable {ε : Type} (env : Env) (file : TableFile)

def loadBlock (it : Iterator) (blockIndex : Int) : Attempt ε Iterator :=
  handle (do
      let entry ← getInt it.index blockIndex
      openBlock env file it.formatVersion entry)
    (fun e => pure { it with err := some e })
    fun cursor => pure { it with blockIndex, blockCursor := cursor }

/-- The loop of `Seek`, up to the first record that reaches `key` or the end of the block. -/
def seekLoop (key : Key) : Nat → Iterator → Attempt ε Iterator
  | 0, _ => .error (.fault .endless)
  | fuel + 1, it => do
      let (rec?, cursor) ← it.blockCursor.next
      match rec? with
      | none =>
          match cursor.err with
          | some e => pure { it with blockCursor := cursor, err := some (.block e) }
          | none => pure { it with blockCursor := cursor }
      | some rec =>
          if key ≤ rec.key then pure { it with blockCursor := cursor, pending := some rec }
          else seekLoop key fuel { it with blockCursor := cursor }

/-- `Iterator.Seek`; the error it returns is the one in the state. -/
def seek (it : Iterator) (key : Key) : Attempt ε Iterator :=
  if it.err.isSome then pure it
  else
    let it := { it with blockCursor := {}, current := {}, pending := none }
    if it.index.length = 0 then pure { it with blockIndex := 0 }
    else do
      let blockIndex ← firstPossibleBlock it.index key
      let it ← it.loadBlock env file blockIndex
      if it.err.isSome then pure it
      else do
        let cursor ← it.blockCursor.seek key
        match cursor.err with
        | some e => pure { it with blockCursor := cursor, err := some (.block e) }
        | none => seekLoop key (cursor.count + 1) { it with blockCursor := cursor }

/-- The loop of `Next`, from block to block. -/
def nextLoop : Nat → Iterator → Attempt ε (Bool × Iterator)
  | 0, _ => .error (.fault .endless)
  | fuel + 1, it => do
      let (rec?, cursor) ← it.blockCursor.next
      match rec? with
      | some rec => pure (true, { it with blockCursor := cursor, current := rec })
      | none =>
          match cursor.err with
          | some e => pure (false, { it with blockCursor := cursor, err := some (.block e) })
          | none =>
              let it := { it with blockCursor := cursor, blockIndex := it.blockIndex + 1 }
              if (it.index.length : Int) ≤ it.blockIndex then pure (false, it)
              else do
                let it ← it.loadBlock env file it.blockIndex
                if it.err.isSome then pure (false, it) else nextLoop fuel it

/-- `Iterator.Next`. The loop enters each block at most once. -/
def next (it : Iterator) : Attempt ε (Bool × Iterator) :=
  if it.err.isSome then pure (false, it)
  else
    match it.pending with
    | some rec => pure (true, { it with current := rec, pending := none })
    | none => nextLoop env file (it.index.length + 2) it

/-- `Next` until it returns false, with the records it made current. -/
def drain : Nat → Iterator → Attempt ε (List Record × Iterator)
  | 0, _ => .error (.fault .endless)
  | fuel + 1, it => do
      let (more, it) ← it.next env file
      if more then do
        let (recs, last) ← drain fuel it
        pure (it.current :: recs, last)
      else pure ([], it)

end Iterator

end HyphaDB.Table
