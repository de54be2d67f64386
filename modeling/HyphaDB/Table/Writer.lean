import HyphaDB.Table.File
import HyphaDB.SSTable

/-!
# HyphaDB.Table.Writer

Writing an **SSTable file** (`internal/sstable`: `options.go`, `writer.go`).

`CreateFromIteratorWithOptions` takes the records one by one: it checks the order, adds the key
to the filter, closes the block when the record would take it over the block size, and appends
the record to the block. Behind the last block come index, filter and footer.

The writer's variables are the state `Writer`, its closures the functions on it. Of the system
calls only the bound on the size of a file is kept; the calls that make a finished file durable
are part of the database's own model. Errors of the source's iterator end the write.
-/

namespace HyphaDB.Table

/-! ### Options -/

def defaultBlockSize : Int := 64 * 1024
def defaultRestartInterval : Int := 16

structure WriteOptions where
  blockSize : Int
  restartInterval : Int
  compression : Codec
  minCompressionSavingsRate : SavingsRate
  bloomEnabled : Bool
  falsePositiveRate : Bloom.FalsePositiveRate

/-- A savings rate of one eighth. -/
def defaultMinCompressionSavingsRate : SavingsRate where
  inRange := true
  reached := fun rawSize compressedSize => rawSize ≤ 8 * (rawSize - compressedSize)

/-- A false positive rate of one percent: 9.585058377367439 bits a record, seven hash functions. -/
def defaultFalsePositiveRate : Bloom.FalsePositiveRate where
  inRange := true
  bitCount := fun n => UInt64.ofNat ((n * 9585058377367439 + (10 ^ 15 - 1)) / 10 ^ 15)
  hashCount := fun _ _ => 7

def defaultWriteOptions : WriteOptions where
  blockSize := defaultBlockSize
  restartInterval := defaultRestartInterval
  compression := .lz4
  minCompressionSavingsRate := defaultMinCompressionSavingsRate
  bloomEnabled := true
  falsePositiveRate := defaultFalsePositiveRate

inductive WriteError
  | restartInterval (restartInterval : Int)
  | savingsRate
  | falsePositiveRate
  | newFilter (e : Bloom.FilterError)
  | unsortedKey (previousKey key : Key)
  | unsortedSeq (seq : UInt64) (key : Key) (previousSeq : UInt64)
  | block (e : BlockError)
  | iterator
  | encodeFilter (e : Bloom.FilterError)
  | fileTooLarge
  deriving Repr, DecidableEq

def normalizeWriteOptions (opts : WriteOptions) : Except WriteError WriteOptions :=
  let opts := { opts with
    blockSize := if opts.blockSize ≤ 0 then defaultBlockSize else opts.blockSize
    restartInterval :=
      if opts.restartInterval ≤ 0 then defaultRestartInterval else opts.restartInterval }
  if 2 ^ 32 - 1 < opts.restartInterval then .error (.restartInterval opts.restartInterval)
  else if !opts.minCompressionSavingsRate.inRange then .error .savingsRate
  else if opts.bloomEnabled && !opts.falsePositiveRate.inRange then .error .falsePositiveRate
  else .ok opts

/-! ### The block being built -/

structure BlockBuilder where
  logical : Bytes := []
  restartOffsets : List Nat := []
  recordCount : Nat := 0
  firstKey : Key := []
  deriving Repr, DecidableEq

/-- A block with nothing but the place of its record count. -/
def startBlock (firstKey : Key) : BlockBuilder :=
  { logical := [0, 0, 0, 0], firstKey }

namespace BlockBuilder

/-- The logical block: the count put into its place, and the restarts behind the records. -/
def finish (b : BlockBuilder) (restartInterval : Nat) : Bytes :=
  toLE 4 b.recordCount ++ b.logical.drop 4 ++ b.restartOffsets.flatMap (toLE 4) ++
    toLE 4 restartInterval ++ toLE 4 b.restartOffsets.length

/-- The size the block would have with one more record. -/
def projectedSize (b : BlockBuilder) (rec : Record) (addsRestart : Bool) : Nat :=
  let restartCount := if addsRestart then b.restartOffsets.length + 1 else b.restartOffsets.length
  b.logical.length + rec.encodedSize + restartCount * 4 + 8

def append (b : BlockBuilder) (rec : Record) (addsRestart : Bool) : BlockBuilder :=
  { b with
    restartOffsets :=
      if addsRestart then b.restartOffsets ++ [b.logical.length] else b.restartOffsets
    logical := b.logical ++ rec.encodeBinary
    recordCount := b.recordCount + 1 }

end BlockBuilder

/-! ### The writer -/

def TableFile.empty : TableFile := ⟨[], by decide⟩

/-- `File.Write`; a file cannot grow past the range of its offsets. -/
def TableFile.write (file : TableFile) (bytes : Bytes) : Except WriteError TableFile :=
  if h : (file.bytes ++ bytes).length < 2 ^ 63 then .ok ⟨file.bytes ++ bytes, h⟩
  else .error .fileTooLarge

structure Writer where
  file : TableFile := .empty
  index : List IndexEntry := []
  block : BlockBuilder := {}
  /-- Key and sequence of the last record; none before the first. -/
  previous : Option (Key × UInt64) := none
  smallestKey : Key := []
  largestKey : Key := []
  filter : Option Bloom.Filter := none

namespace Writer

def flushBlock (env : Env) (opts : WriteOptions) (w : Writer) : Except WriteError Writer :=
  if w.block.recordCount = 0 then .ok w
  else
    match encodePhysicalBlock env (w.block.finish opts.restartInterval.toNat) opts.compression
        opts.minCompressionSavingsRate with
    | .error e => .error (.block e)
    | .ok physical =>
        match w.file.write physical with
        | .error e => .error e
        | .ok file =>
            let entry : IndexEntry :=
              { firstKey := w.block.firstKey, offset := w.file.size, length := physical.length }
            .ok { w with file, index := w.index ++ [entry], block := {} }

/-- The order the writer insists on: keys ascending, sequences of one key descending. -/
def checkOrder (previous : Option (Key × UInt64)) (rec : Record) : Except WriteError Unit :=
  match previous with
  | none => .ok ()
  | some (previousKey, previousSeq) =>
      if rec.key < previousKey then .error (.unsortedKey previousKey rec.key)
      else if previousKey = rec.key ∧ previousSeq < rec.seq then
        .error (.unsortedSeq rec.seq rec.key previousSeq)
      else .ok ()

/-- What is kept of a record besides its bytes, and a block for it if there is none. -/
def note (env : Env) (w : Writer) (rec : Record) : Writer :=
  { w with
    smallestKey := if w.previous.isNone then rec.key else w.smallestKey
    largestKey := rec.key
    previous := some (rec.key, rec.seq)
    filter := w.filter.map (Bloom.Filter.add env.hash128 · rec.key)
    block := if w.block.recordCount = 0 then startBlock rec.key else w.block }

/-- Make room for a record: close the block that it would take over the block size. -/
def makeRoom (env : Env) (opts : WriteOptions) (w : Writer) (rec : Record) (addsRestart : Bool) :
    Except WriteError (Writer × Bool) :=
  if 0 < w.block.recordCount ∧ opts.blockSize < w.block.projectedSize rec addsRestart then
    match w.flushBlock env opts with
    | .error e => .error e
    | .ok w => .ok ({ w with block := startBlock rec.key }, true)
  else .ok (w, addsRestart)

/-- One turn of the loop over the records. -/
def writeRecord (env : Env) (opts : WriteOptions) (w : Writer) (rec : Record) :
    Except WriteError Writer :=
  match checkOrder w.previous rec with
  | .error e => .error e
  | .ok () =>
      let w := w.note env rec
      let addsRestart := w.block.recordCount % opts.restartInterval.toNat = 0
      match w.makeRoom env opts rec addsRestart with
      | .error e => .error e
      | .ok (w, addsRestart) => .ok { w with block := w.block.append rec addsRestart }

/-- The loop over the records. -/
def writeRecords (env : Env) (opts : WriteOptions) : Writer → List Record → Except WriteError Writer
  | w, [] => .ok w
  | w, rec :: recs =>
      match w.writeRecord env opts rec with
      | .error e => .error e
      | .ok w => writeRecords env opts w recs

end Writer

/-- The records a `record.Iterator` gives, and whether it ends with an error. -/
structure RecordIterator where
  records : List Record
  fails : Bool := false

/-- What the writer hands back. -/
structure Created where
  file : TableFile
  sizeBytes : Nat
  smallestKey : Key
  largestKey : Key

/-- The filter for a table of so many records, if there is to be one. -/
def newFilter (opts : WriteOptions) (recordCountHint : Int) :
    Except WriteError (Option Bloom.Filter) :=
  if opts.bloomEnabled ∧ 0 < recordCountHint then
    match Bloom.new recordCountHint opts.falsePositiveRate with
    | .error e => .error (.newFilter e)
    | .ok filter => .ok (some filter)
  else .ok none

/-- The filter's bytes; a table without a filter has none. -/
def encodeFilter : Option Bloom.Filter → Except WriteError Bytes
  | none => .ok []
  | some filter =>
      match filter.encode with
      | .error e => .error (.encodeFilter e)
      | .ok encodedFilter => .ok encodedFilter

/-- Index, filter and footer behind the blocks. -/
def Writer.finish (w : Writer) : Except WriteError Created := do
  let indexOffset := w.file.size
  let file ← w.file.write (indexBytes w.index)
  let indexLength := file.size - indexOffset
  let encodedFilter ← encodeFilter w.filter
  let filterOffset := if w.filter.isSome then file.size else 0
  let file ← file.write encodedFilter
  let file ← file.write
    (footerBytes indexOffset indexLength filterOffset encodedFilter.length)
  .ok { file, sizeBytes := file.size, smallestKey := w.smallestKey, largestKey := w.largestKey }

def createFromIteratorWithOptions (env : Env) (it : RecordIterator) (recordCountHint : Int)
    (opts : WriteOptions) : Except WriteError Created := do
  let opts ← normalizeWriteOptions opts
  let filter ← newFilter opts recordCountHint
  let w ← Writer.writeRecords env opts { filter } it.records
  if it.fails then .error .iterator
  else do
    let w ← w.flushBlock env opts
    w.finish

/-! ### A small table -/

/-- Small blocks, so that three records take two of them. -/
def sampleOptions : WriteOptions where
  blockSize := 64
  restartInterval := 2
  compression := .none
  minCompressionSavingsRate := { inRange := true, reached := fun _ _ => true }
  bloomEnabled := true
  falsePositiveRate :=
    { inRange := true, bitCount := fun n => UInt64.ofNat (10 * n), hashCount := fun _ _ => 2 }

def sampleRecords : List Record :=
  [{ key := [1], seq := 5, value := [9] },
    { key := [1], seq := 3, deleted := true },
    { key := [2], seq := 4, value := [7] }]

/-- The table of the three records. -/
def sampleOf (env : Env) (opts : WriteOptions) : Created :=
  match createFromIteratorWithOptions env { records := sampleRecords } 3 opts with
  | .ok created => created
  | .error _ => { file := .empty, sizeBytes := 0, smallestKey := [], largestKey := [] }

theorem sampleOf_created {env : Env} {opts : WriteOptions}
    (hok : (createFromIteratorWithOptions env { records := sampleRecords } 3 opts).isOk = true) :
    createFromIteratorWithOptions env { records := sampleRecords } 3 opts =
      .ok (sampleOf env opts) := by
  unfold sampleOf
  cases h : createFromIteratorWithOptions env { records := sampleRecords } 3 opts with
  | ok created => rfl
  | error e =>
      rw [h] at hok
      cases hok

def sampleTable : Created := sampleOf storingEnv sampleOptions

theorem sampleTable_created :
    createFromIteratorWithOptions storingEnv { records := sampleRecords } 3 sampleOptions =
      .ok sampleTable :=
  sampleOf_created (by decide +kernel)

theorem sampleTable_footer : readFooter sampleTable.file =
    .ok { formatVersion := 3, indexOffset := 106, indexLength := 38, filterOffset := 144
          filterLength := 16 } := by
  decide +kernel

end HyphaDB.Table
