import HyphaDB.Lib.Codec
import HyphaDB.Manifest

/-!
# HyphaDB.ManifestFile

The **file format of the manifest** (`internal/manifest`): `encode`, `decode` and `Read`, byte by
byte, with the machine integers the file holds. `HyphaDB.Manifest` is what the rest of the model
knows of a manifest; `Manifest.view` forgets the widths and the spelling of the paths, and
`view_read` says that `Read` on the file is `Manifest.read` on the view.

The decoder is shown to be **exact**, field by field with the rules of `HyphaDB.Lib.Codec`
(`exact_decodePayload`): it reads what the encoder writes and accepts no other bytes. What is left
is that the limits of the two sides are the same ones (`encode_eq_ok_iff`,
`decodeHeader_eq_ok_iff`).
-/

namespace HyphaDB.ManifestFile

open Codec

structure SSTableMetadata where
  id : UInt64
  path : Bytes
  level : UInt32
  sizeBytes : UInt64
  smallestKey : Bytes
  largestKey : Bytes
  deriving Repr, DecidableEq

structure Manifest where
  nextSSTableID : UInt64 := 0
  nextWALSegmentID : UInt64 := 0
  sstables : List SSTableMetadata := []
  deriving Repr, DecidableEq

/-- "HYPHAMAN". -/
def manifestMagic : Bytes := [0x48, 0x59, 0x50, 0x48, 0x41, 0x4d, 0x41, 0x4e]
def manifestVersion : Nat := 1

def manifestHeaderSize : Nat := 8 + 4 + 4 + 4
def manifestPayloadHeaderSize : Nat := 8 + 8 + 4
def sstableFixedSize : Nat := 8 + 4 + 8 + 4 + 4 + 4

def maxManifestPayloadSize : Nat := 256 * 1024 * 1024
def maxSSTableCount : Nat := 1000000
def maxMetadataStringSize : Nat := 64 * 1024

/-- The strings of a table's entry, as the errors name them. -/
inductive MetadataField
  | path
  | smallestKey
  | largestKey
  deriving Repr, DecidableEq

inductive EncodeError
  | tableCount (count : Nat)
  | stringLength (table : Nat) (field : MetadataField) (length : Nat)
  | payloadSize
  deriving Repr, DecidableEq

/-- The errors of `io.ReadFull`. -/
inductive ReadError
  | eof
  | unexpectedEOF
  deriving Repr, DecidableEq

inductive StringError
  | read (e : ReadError)
  | length (length : Nat)
  | remaining (length left : Nat)
  deriving Repr, DecidableEq

inductive MetadataError
  | read (e : ReadError)
  | string (field : MetadataField) (e : StringError)
  deriving Repr, DecidableEq

/-- The numbers before the entries. -/
inductive PayloadField
  | nextSSTableID
  | nextWALSegmentID
  | tableCount
  deriving Repr, DecidableEq

inductive DecodeError
  | fileTooLarge
  | tooSmall
  | magic
  | version (version : Nat)
  | payloadLength (length : Nat)
  | fileSize (size want : Nat)
  | checksum
  | payloadTooSmall
  | read (field : PayloadField) (e : ReadError)
  | tableCount (count : Nat)
  | entriesFit (count left : Nat)
  | table (i : Nat) (e : MetadataError)
  | trailingBytes (left : Nat)
  | identifiersExhausted
  deriving Repr, DecidableEq

/-! ### Encoding -/

/-- The loop of `metadataStringsSize`. -/
def addStringSizes : Nat → List (MetadataField × Bytes) → Except (MetadataField × Nat) Nat
  | total, [] => .ok total
  | total, (name, value) :: fields =>
      if maxMetadataStringSize < value.length then .error (name, value.length)
      else addStringSizes (total + value.length) fields

def metadataStringsSize (table : SSTableMetadata) : Except (MetadataField × Nat) Nat :=
  addStringSizes 0
    [(.path, table.path), (.smallestKey, table.smallestKey), (.largestKey, table.largestKey)]

/-- The loop of `encode` over the tables from number `i` on, which adds up the payload's size. -/
def payloadSizeFrom : Nat → Nat → List SSTableMetadata → Except EncodeError Nat
  | _, size, [] => .ok size
  | i, size, table :: tables =>
      match metadataStringsSize table with
      | .error (field, length) => .error (.stringLength i field length)
      | .ok stringsSize =>
          let payloadSize := size + (sstableFixedSize + stringsSize)
          if maxManifestPayloadSize < payloadSize then .error .payloadSize
          else payloadSizeFrom (i + 1) payloadSize tables

def writeString (value : Bytes) : Bytes := toLE 4 value.length ++ value

def tableBytes (table : SSTableMetadata) : Bytes :=
  toLE 8 table.id.toNat ++ (toLE 4 table.level.toNat ++ (toLE 8 table.sizeBytes.toNat ++
    (writeString table.path ++ (writeString table.smallestKey ++ writeString table.largestKey))))

def payloadBytes (m : Manifest) : Bytes :=
  toLE 8 m.nextSSTableID.toNat ++ (toLE 8 m.nextWALSegmentID.toNat ++
    (toLE 4 m.sstables.length ++ m.sstables.flatMap tableBytes))

/-- The header up to the checksum. -/
def headerPrefix (payloadLen : Nat) : Bytes :=
  manifestMagic ++ (toLE 4 manifestVersion ++ toLE 4 payloadLen)

/-- The file with this payload. -/
def fileBytes (checksum : Bytes → UInt32) (payload : Bytes) : Bytes :=
  headerPrefix payload.length ++
    (toLE 4 (checksum (headerPrefix payload.length ++ payload)).toNat ++ payload)

def encode (checksum : Bytes → UInt32) (m : Manifest) : Except EncodeError Bytes :=
  if maxSSTableCount < m.sstables.length then .error (.tableCount m.sstables.length)
  else
    match payloadSizeFrom 0 manifestPayloadHeaderSize m.sstables with
    | .error e => .error e
    | .ok _ => .ok (fileBytes checksum (payloadBytes m))

/-! ### Decoding -/

/-- How a read ends that finds too few bytes. -/
def shortRead (bs : Bytes) : ReadError := if bs = [] then .eof else .unexpectedEOF

def readString : Reader StringError Bytes := do
  let length ← readUint32 fun bs => .read (shortRead bs)
  if maxMetadataStringSize < length.toNat then fail (.length length.toNat)
  else do
    let left ← remaining
    if left < length.toNat then fail (.remaining length.toNat left)
    else take (fun bs => .read (shortRead bs)) length.toNat

def decodeSSTableMetadata : Reader MetadataError SSTableMetadata := do
  let id ← readUint64 fun bs => .read (shortRead bs)
  let level ← readUint32 fun bs => .read (shortRead bs)
  let sizeBytes ← readUint64 fun bs => .read (shortRead bs)
  let path ← mapError (.string .path) readString
  let smallestKey ← mapError (.string .smallestKey) readString
  let largestKey ← mapError (.string .largestKey) readString
  pure { id, path, level, sizeBytes, smallestKey, largestKey }

/-- The checks of the header, which leave the payload. -/
def decodeHeader (checksum : Bytes → UInt32) (data : Bytes) : Except DecodeError Bytes :=
  if data.length < manifestHeaderSize then .error .tooSmall
  else if data.take 8 ≠ manifestMagic then .error .magic
  else
    let version := ofLE ((data.drop 8).take 4)
    let payloadLen := ofLE ((data.drop 12).take 4)
    let payload := data.drop manifestHeaderSize
    let wantChecksum := ofLE ((data.drop 16).take 4)
    if version ≠ manifestVersion then .error (.version version)
    else if maxManifestPayloadSize < payloadLen then .error (.payloadLength payloadLen)
    else if data.length ≠ manifestHeaderSize + payloadLen then
      .error (.fileSize data.length (manifestHeaderSize + payloadLen))
    else if wantChecksum ≠ (checksum (data.take 16 ++ payload)).toNat then .error .checksum
    else .ok payload

/-- `decode` on the payload, up to the check that nothing follows. -/
def decodePayload : Reader DecodeError Manifest := do
  let left ← remaining
  if left < manifestPayloadHeaderSize then fail .payloadTooSmall
  else do
    let nextSSTableID ← readUint64 fun bs => .read .nextSSTableID (shortRead bs)
    let nextWALSegmentID ← readUint64 fun bs => .read .nextWALSegmentID (shortRead bs)
    let tableCount ← readUint32 fun bs => .read .tableCount (shortRead bs)
    if maxSSTableCount < tableCount.toNat then fail (.tableCount tableCount.toNat)
    else do
      let left ← remaining
      if left < tableCount.toNat * sstableFixedSize then fail (.entriesFit tableCount.toNat left)
      else do
        let sstables ← many (fun i => mapError (.table i) decodeSSTableMetadata) 0 tableCount.toNat
        pure { nextSSTableID, nextWALSegmentID, sstables }

def decode (checksum : Bytes → UInt32) (data : Bytes) : Except DecodeError Manifest := do
  let payload ← decodeHeader checksum data
  readAll .trailingBytes decodePayload payload

/-- The loop of `ensureSafeNextSSTableID`. -/
def maxID (tables : List SSTableMetadata) : Option UInt64 :=
  tables.foldl (fun max table =>
    match max with
    | none => some table.id
    | some id => if id < table.id then some table.id else some id) none

def ensureSafeNextSSTableID (m : Manifest) : Except DecodeError Manifest :=
  match maxID m.sstables with
  | none => .ok m
  | some id =>
      if m.nextSSTableID ≤ id then
        if id.toNat = 2 ^ 64 - 1 then .error .identifiersExhausted
        else .ok { m with nextSSTableID := id + 1 }
      else .ok m

/-- `manifest.Read` on a readable file, or on none. -/
def read (checksum : Bytes → UInt32) : Option Bytes → Except DecodeError Manifest
  | none => .ok {}
  | some data =>
      if manifestHeaderSize + maxManifestPayloadSize < data.length then .error .fileTooLarge
      else do
        let m ← decode checksum data
        ensureSafeNextSSTableID m

/-! ### The decoder is exact -/

/-- A string the format takes. -/
def StringFits (value : Bytes) : Prop := value.length ≤ maxMetadataStringSize

theorem exact_readString : Exact StringFits writeString readString := by
  have hlength : ∀ value : Bytes, StringFits value →
      (UInt32.ofNat value.length).toNat = value.length := by
    intro value hvalue
    unfold StringFits maxMetadataStringSize at hvalue
    rw [UInt32.toNat_ofNat']
    omega
  have h : Exact StringFits
      (fun value => toLE 4 (UInt32.ofNat value.length).toNat ++ id value) readString := by
    refine exact_bind (g := fun value : Bytes => UInt32.ofNat value.length) (exact_readUint32 _)
      (fun _ _ => trivial) fun length _ => ?_
    refine exact_check _ ?_ fun hmax => ?_
    · rintro value ⟨hvalue, rfl⟩
      rw [hlength value hvalue]
      exact not_lt.mpr hvalue
    refine exact_room _ ?_ ?_
    · rintro value ⟨hvalue, rfl⟩
      rw [hlength value hvalue]
      exact le_rfl
    refine (exact_take _ length.toNat).congr (fun value => ⟨?_, ?_⟩) fun _ => rfl
    · rintro hvalue
      refine ⟨?_, ?_⟩
      · unfold StringFits
        omega
      · rw [hvalue, UInt32.ofNat_toNat]
    · rintro ⟨hvalue, rfl⟩
      exact (hlength value hvalue).symm
  refine ⟨fun {value} hvalue rest => ?_, fun hdec => ?_⟩
  · have hreads := h.reads hvalue rest
    rwa [hlength value hvalue] at hreads
  · obtain ⟨hvalue, rfl⟩ := h.canonical hdec
    exact ⟨hvalue, by rw [hlength _ hvalue]; rfl⟩

/-- A table whose strings the format takes. -/
structure SSTableMetadata.Fits (table : SSTableMetadata) : Prop where
  path : StringFits table.path
  smallestKey : StringFits table.smallestKey
  largestKey : StringFits table.largestKey

theorem exact_decodeSSTableMetadata :
    Exact SSTableMetadata.Fits tableBytes decodeSSTableMetadata := by
  have h : Exact SSTableMetadata.Fits
      (fun table => toLE 8 table.id.toNat ++ (toLE 4 table.level.toNat ++
        (toLE 8 table.sizeBytes.toNat ++ (writeString table.path ++
          (writeString table.smallestKey ++ (writeString table.largestKey ++ []))))))
      decodeSSTableMetadata := by
    refine exact_bind (g := fun t : SSTableMetadata => t.id) (exact_readUint64 _)
      (fun _ _ => trivial)
      fun id _ => ?_
    refine exact_bind (g := fun t : SSTableMetadata => t.level) (exact_readUint32 _)
      (fun _ _ => trivial)
      fun level _ => ?_
    refine exact_bind (g := fun t : SSTableMetadata => t.sizeBytes) (exact_readUint64 _)
      (fun _ _ => trivial)
      fun sizeBytes _ => ?_
    refine exact_bind (g := fun t : SSTableMetadata => t.path) (exact_mapError _ exact_readString)
      (fun t ht => ht.1.1.1.path) fun path hpath => ?_
    refine exact_bind (g := fun t : SSTableMetadata => t.smallestKey)
      (exact_mapError _ exact_readString)
      (fun t ht => ht.1.1.1.1.smallestKey) fun smallestKey hsmallest => ?_
    refine exact_bind (g := fun t : SSTableMetadata => t.largestKey)
      (exact_mapError _ exact_readString)
      (fun t ht => ht.1.1.1.1.1.largestKey) fun largestKey hlargest => ?_
    refine exact_pure ?_ ?_
    · exact ⟨⟨⟨⟨⟨⟨⟨hpath, hsmallest, hlargest⟩, rfl⟩, rfl⟩, rfl⟩, rfl⟩, rfl⟩, rfl⟩
    · rintro t ⟨⟨⟨⟨⟨⟨-, rfl⟩, rfl⟩, rfl⟩, rfl⟩, rfl⟩, rfl⟩
      rfl
  refine h.congr (fun _ => Iff.rfl) fun table => ?_
  rw [List.append_nil]
  rfl

theorem writeString_length (value : Bytes) : (writeString value).length = 4 + value.length := by
  simp [writeString]

theorem tableBytes_length (table : SSTableMetadata) :
    (tableBytes table).length = sstableFixedSize +
      (table.path.length + table.smallestKey.length + table.largestKey.length) := by
  simp only [tableBytes, List.length_append, toLE_length, writeString_length, sstableFixedSize]
  omega

/-- Each entry takes its fixed part at least. -/
theorem tables_length (tables : List SSTableMetadata) :
    tables.length * sstableFixedSize ≤ (tables.flatMap tableBytes).length := by
  induction tables with
  | nil => exact Nat.le_refl 0
  | cons table tables ih =>
      have hlen := tableBytes_length table
      rw [List.flatMap_cons, List.length_append, List.length_cons, Nat.add_mul, Nat.one_mul]
      omega

/-- A manifest within the limits that both sides check before the entries. -/
structure Manifest.Fits (m : Manifest) : Prop where
  count : m.sstables.length ≤ maxSSTableCount
  tables : ∀ table ∈ m.sstables, table.Fits

theorem Manifest.Fits.count_toNat {m : Manifest} (h : m.Fits) :
    (UInt32.ofNat m.sstables.length).toNat = m.sstables.length := by
  have hcount := h.count
  unfold maxSSTableCount at hcount
  rw [UInt32.toNat_ofNat']
  omega

theorem payloadBytes_length (m : Manifest) :
    (payloadBytes m).length =
      manifestPayloadHeaderSize + (m.sstables.flatMap tableBytes).length := by
  simp only [payloadBytes, List.length_append, toLE_length, manifestPayloadHeaderSize]
  omega

theorem exact_decodePayload : Exact Manifest.Fits payloadBytes decodePayload := by
  have h : Exact Manifest.Fits
      (fun m => toLE 8 m.nextSSTableID.toNat ++ (toLE 8 m.nextWALSegmentID.toNat ++
        (toLE 4 (UInt32.ofNat m.sstables.length).toNat ++ (m.sstables.flatMap tableBytes ++ []))))
      decodePayload := by
    refine exact_room _ (fun m _ => ?_) ?_
    · simp only [List.length_append, toLE_length, manifestPayloadHeaderSize]
      omega
    refine exact_bind (g := fun m : Manifest => m.nextSSTableID) (exact_readUint64 _)
      (fun _ _ => trivial) fun nextSSTableID _ => ?_
    refine exact_bind (g := fun m : Manifest => m.nextWALSegmentID) (exact_readUint64 _)
      (fun _ _ => trivial) fun nextWALSegmentID _ => ?_
    refine exact_bind (g := fun m : Manifest => UInt32.ofNat m.sstables.length)
      (exact_readUint32 _) (fun _ _ => trivial) fun tableCount _ => ?_
    refine exact_check _ ?_ fun hmax => ?_
    · rintro m ⟨⟨⟨hm, -⟩, -⟩, rfl⟩
      rw [hm.count_toNat]
      exact not_lt.mpr hm.count
    refine exact_room _ ?_ ?_
    · rintro m ⟨⟨⟨hm, -⟩, -⟩, rfl⟩
      rw [hm.count_toNat, List.append_nil]
      exact tables_length m.sstables
    refine exact_bind (g := fun m : Manifest => m.sstables)
      (exact_many (fun i => exact_mapError _ exact_decodeSSTableMetadata) 0 tableCount.toNat) ?_
      fun sstables hsstables => ?_
    · rintro m ⟨⟨⟨hm, -⟩, -⟩, rfl⟩
      exact ⟨hm.count_toNat.symm, hm.tables⟩
    refine exact_pure ⟨⟨⟨⟨⟨?_, hsstables.2⟩, rfl⟩, rfl⟩, ?_⟩, rfl⟩ ?_
    · rw [hsstables.1]
      omega
    · rw [hsstables.1, UInt32.ofNat_toNat]
    · rintro m ⟨⟨⟨⟨-, rfl⟩, rfl⟩, -⟩, rfl⟩
      rfl
  refine ⟨fun {m} hm rest => ?_, fun {bs m rest} hdec => ?_⟩
  · have hreads := h.reads hm rest
    rwa [hm.count_toNat, List.append_nil] at hreads
  · obtain ⟨hm, rfl⟩ := h.canonical hdec
    refine ⟨hm, ?_⟩
    rw [hm.count_toNat, List.append_nil]
    rfl

/-! ### Both sides have the same limits -/

theorem addStringSizes_eq_ok {fields : List (MetadataField × Bytes)} {total size : Nat}
    (h : addStringSizes total fields = .ok size) :
    (∀ field ∈ fields, StringFits field.2) ∧
      size = total + (fields.map fun field => field.2.length).sum := by
  induction fields generalizing total with
  | nil =>
      cases h
      exact ⟨fun _ hfield => (nomatch hfield), rfl⟩
  | cons field fields ih =>
      obtain ⟨name, value⟩ := field
      unfold addStringSizes at h
      split at h
      · cases h
      · rename_i hvalue
        obtain ⟨hall, hsize⟩ := ih h
        refine ⟨fun field hfield => ?_, ?_⟩
        · rcases List.mem_cons.mp hfield with rfl | hfield
          · exact not_lt.mp hvalue
          · exact hall field hfield
        · rw [hsize, List.map_cons, List.sum_cons]
          dsimp only
          omega

theorem addStringSizes_ok {fields : List (MetadataField × Bytes)}
    (h : ∀ field ∈ fields, StringFits field.2) (total : Nat) :
    addStringSizes total fields =
      .ok (total + (fields.map fun field => field.2.length).sum) := by
  induction fields generalizing total with
  | nil => rfl
  | cons field fields ih =>
      obtain ⟨name, value⟩ := field
      unfold addStringSizes
      rw [if_neg (not_lt.mpr (h _ List.mem_cons_self)),
        ih fun field hfield => h field (List.mem_cons_of_mem _ hfield), List.map_cons,
        List.sum_cons, Nat.add_assoc]

/-- `metadataStringsSize` accepts exactly the entries that fit. -/
theorem metadataStringsSize_eq_ok {table : SSTableMetadata} {size : Nat}
    (h : metadataStringsSize table = .ok size) :
    table.Fits ∧ sstableFixedSize + size = (tableBytes table).length := by
  obtain ⟨hall, rfl⟩ := addStringSizes_eq_ok h
  refine ⟨⟨hall (.path, table.path) (by simp), hall (.smallestKey, table.smallestKey) (by simp),
    hall (.largestKey, table.largestKey) (by simp)⟩, ?_⟩
  rw [tableBytes_length]
  simp only [List.map_cons, List.map_nil, List.sum_cons, List.sum_nil]
  omega

theorem metadataStringsSize_ok {table : SSTableMetadata} (h : table.Fits) :
    ∃ size, metadataStringsSize table = .ok size := by
  refine ⟨_, addStringSizes_ok (fun field hfield => ?_) 0⟩
  simp only [List.mem_cons, List.not_mem_nil, or_false] at hfield
  rcases hfield with rfl | rfl | rfl
  · exact h.path
  · exact h.smallestKey
  · exact h.largestKey

theorem payloadSizeFrom_eq_ok {tables : List SSTableMetadata} {i size total : Nat}
    (hsize : size ≤ maxManifestPayloadSize) (h : payloadSizeFrom i size tables = .ok total) :
    (∀ table ∈ tables, table.Fits) ∧
      size + (tables.flatMap tableBytes).length ≤ maxManifestPayloadSize := by
  induction tables generalizing i size with
  | nil => exact ⟨fun _ htable => (nomatch htable), hsize⟩
  | cons table tables ih =>
      unfold payloadSizeFrom at h
      cases hstrings : metadataStringsSize table with
      | error e =>
          rw [hstrings] at h
          cases h
      | ok stringsSize =>
          rw [hstrings] at h
          dsimp only at h
          split at h
          · cases h
          · rename_i hle
            obtain ⟨hfits, hlen⟩ := metadataStringsSize_eq_ok hstrings
            obtain ⟨hall, htotal⟩ := ih (by omega) h
            refine ⟨fun t ht => ?_, ?_⟩
            · rcases List.mem_cons.mp ht with rfl | ht
              · exact hfits
              · exact hall t ht
            · rw [List.flatMap_cons, List.length_append]
              omega

theorem payloadSizeFrom_ok {tables : List SSTableMetadata} (i : Nat) {size : Nat}
    (hall : ∀ table ∈ tables, table.Fits)
    (hsize : size + (tables.flatMap tableBytes).length ≤ maxManifestPayloadSize) :
    ∃ total, payloadSizeFrom i size tables = .ok total := by
  induction tables generalizing i size with
  | nil => exact ⟨size, rfl⟩
  | cons table tables ih =>
      obtain ⟨stringsSize, hstrings⟩ := metadataStringsSize_ok (hall table List.mem_cons_self)
      obtain ⟨-, hlen⟩ := metadataStringsSize_eq_ok hstrings
      rw [List.flatMap_cons, List.length_append] at hsize
      unfold payloadSizeFrom
      rw [hstrings]
      dsimp only
      rw [if_neg (by omega)]
      exact ih (i + 1) (fun t ht => hall t (List.mem_cons_of_mem table ht)) (by omega)

/-- What `encode` accepts, and what it writes. -/
theorem encode_eq_ok_iff {checksum : Bytes → UInt32} {m : Manifest} {data : Bytes} :
    encode checksum m = .ok data ↔
      m.Fits ∧ (payloadBytes m).length ≤ maxManifestPayloadSize ∧
        data = fileBytes checksum (payloadBytes m) := by
  rw [payloadBytes_length]
  constructor
  · intro h
    unfold encode at h
    split at h
    · cases h
    rename_i hcount
    split at h
    · cases h
    rename_i total hsize
    cases h
    obtain ⟨hall, hle⟩ := payloadSizeFrom_eq_ok (by decide) hsize
    exact ⟨⟨not_lt.mp hcount, hall⟩, hle, rfl⟩
  · rintro ⟨hm, hle, rfl⟩
    obtain ⟨total, hsize⟩ := payloadSizeFrom_ok 0 hm.tables hle
    unfold encode
    rw [if_neg (not_lt.mpr hm.count), hsize]

/-! ### The header -/

@[simp] theorem headerPrefix_length (payloadLen : Nat) : (headerPrefix payloadLen).length = 16 := by
  simp [headerPrefix, manifestMagic]

theorem fileBytes_length (checksum : Bytes → UInt32) (payload : Bytes) :
    (fileBytes checksum payload).length = manifestHeaderSize + payload.length := by
  simp only [fileBytes, List.length_append, headerPrefix_length, toLE_length, manifestHeaderSize]
  omega

/-- A part of the data, and what follows it. -/
theorem drop_split (data : Bytes) (i n : Nat) :
    data.drop i = (data.drop i).take n ++ data.drop (i + n) := by
  rw [← List.drop_drop, List.take_append_drop]

/-- The data by the places of the header. -/
theorem header_split (data : Bytes) :
    data = data.take 16 ++ ((data.drop 16).take 4 ++ data.drop manifestHeaderSize) ∧
      data.take 16 = data.take 8 ++ ((data.drop 8).take 4 ++ (data.drop 12).take 4) := by
  have hsplit := drop_split data 16 4
  refine ⟨?_, ?_⟩
  · show data = data.take 16 ++ ((data.drop 16).take 4 ++ data.drop (16 + 4))
    rw [← hsplit, List.take_append_drop]
  · have height : data.take (8 + (4 + 4)) = data.take 8 ++ (data.drop 8).take (4 + 4) :=
      List.take_add
    rw [height, List.take_add, List.drop_drop]

/-- The fields at their places in a file. -/
theorem fileBytes_places (checksum : Bytes → UInt32) (payload : Bytes) :
    (fileBytes checksum payload).take 8 = manifestMagic ∧
      ((fileBytes checksum payload).drop 8).take 4 = toLE 4 manifestVersion ∧
      ((fileBytes checksum payload).drop 12).take 4 = toLE 4 payload.length ∧
      ((fileBytes checksum payload).drop 16).take 4 =
        toLE 4 (checksum (headerPrefix payload.length ++ payload)).toNat ∧
      (fileBytes checksum payload).drop manifestHeaderSize = payload := by
  generalize hsum : (checksum (headerPrefix payload.length ++ payload)).toNat = sum
  have hdata : fileBytes checksum payload = manifestMagic ++ (toLE 4 manifestVersion ++
      (toLE 4 payload.length ++ (toLE 4 sum ++ payload))) := by
    unfold fileBytes
    rw [hsum]
    unfold headerPrefix
    rw [List.append_assoc, List.append_assoc]
  have height : (fileBytes checksum payload).drop 8 =
      toLE 4 manifestVersion ++ (toLE 4 payload.length ++ (toLE 4 sum ++ payload)) := by
    rw [hdata]
    exact List.drop_left' rfl
  have htwelve : (fileBytes checksum payload).drop 12 =
      toLE 4 payload.length ++ (toLE 4 sum ++ payload) := by
    rw [show 12 = 8 + 4 from rfl, ← List.drop_drop, height]
    exact List.drop_left' (toLE_length 4 manifestVersion)
  have hsixteen : (fileBytes checksum payload).drop 16 = toLE 4 sum ++ payload := by
    rw [show 16 = 12 + 4 from rfl, ← List.drop_drop, htwelve]
    exact List.drop_left' (toLE_length 4 payload.length)
  refine ⟨?_, ?_, ?_, ?_, ?_⟩
  · rw [hdata]
    exact List.take_left' rfl
  · rw [height]
    exact List.take_left' (toLE_length 4 manifestVersion)
  · rw [htwelve]
    exact List.take_left' (toLE_length 4 payload.length)
  · rw [hsixteen]
    exact List.take_left' (toLE_length 4 sum)
  · rw [show manifestHeaderSize = 16 + 4 from rfl, ← List.drop_drop, hsixteen]
    exact List.drop_left' (toLE_length 4 sum)

/-- A header field of four bytes, read as a number. -/
theorem field_eq {data : Bytes} {i n : Nat} (hlen : i + 4 ≤ data.length)
    (h : ofLE ((data.drop i).take 4) = n) : (data.drop i).take 4 = toLE 4 n := by
  have hfour : ((data.drop i).take 4).length = 4 := by
    rw [List.length_take, List.length_drop]
    omega
  have hback := toLE_ofLE ((data.drop i).take 4)
  rw [hfour, h] at hback
  exact hback.symm

/-- **The header takes exactly the files whose header is the one of their payload.** -/
theorem decodeHeader_eq_ok_iff {checksum : Bytes → UInt32} {data payload : Bytes} :
    decodeHeader checksum data = .ok payload ↔
      payload.length ≤ maxManifestPayloadSize ∧ data = fileBytes checksum payload := by
  constructor
  · intro h
    unfold decodeHeader at h
    split at h
    · cases h
    rename_i hsmall
    split at h
    · cases h
    rename_i hmagic
    dsimp only at h
    split at h
    · cases h
    rename_i hversion
    split at h
    · cases h
    rename_i hmax
    split at h
    · cases h
    rename_i hsize
    split at h
    · cases h
    rename_i hsum
    cases h
    unfold manifestHeaderSize at hsmall hsize
    have hlength : (data.drop manifestHeaderSize).length = ofLE ((data.drop 12).take 4) := by
      rw [List.length_drop]
      unfold manifestHeaderSize
      omega
    refine ⟨by omega, ?_⟩
    obtain ⟨hdata, hfront⟩ := header_split data
    have hhead : data.take 16 = headerPrefix (data.drop manifestHeaderSize).length := by
      rw [hfront, not_not.mp hmagic, field_eq (i := 8) (by omega) (not_not.mp hversion),
        field_eq (i := 12) (by omega) hlength.symm]
      rfl
    have hchecksum := field_eq (i := 16) (by omega) (not_not.mp hsum)
    rw [hhead] at hchecksum
    unfold fileBytes
    rw [← hchecksum, ← hhead]
    exact hdata
  · rintro ⟨hmax, rfl⟩
    have hsize := fileBytes_length checksum payload
    have hhead : (fileBytes checksum payload).take 16 = headerPrefix payload.length :=
      List.take_left' (headerPrefix_length payload.length)
    obtain ⟨hmagic, hversion, hlen, hsum, hpayload⟩ := fileBytes_places checksum payload
    have hlenNat : ofLE (toLE 4 payload.length) = payload.length :=
      ofLE_toLE_of_lt (by unfold maxManifestPayloadSize at hmax; omega)
    have hsumNat : ∀ v : UInt32, ofLE (toLE 4 v.toNat) = v.toNat := fun v =>
      ofLE_toLE_of_lt (by have := v.toNat_lt; omega)
    unfold decodeHeader
    rw [if_neg (by omega), if_neg (not_not.mpr hmagic)]
    dsimp only
    rw [hversion, hlen, hpayload, hsum, hhead, hlenNat, hsumNat, if_neg (by decide),
      if_neg (by omega), if_neg (by omega), if_neg (not_not.mpr rfl)]

theorem decode_encode {checksum : Bytes → UInt32} {m : Manifest} {data : Bytes}
    (h : encode checksum m = .ok data) : decode checksum data = .ok m := by
  obtain ⟨hm, hmax, rfl⟩ := encode_eq_ok_iff.mp h
  unfold decode
  rw [decodeHeader_eq_ok_iff.mpr ⟨hmax, rfl⟩]
  exact readAll_encode exact_decodePayload .trailingBytes hm

theorem encode_decode {checksum : Bytes → UInt32} {m : Manifest} {data : Bytes}
    (h : decode checksum data = .ok m) : encode checksum m = .ok data := by
  unfold decode at h
  cases hheader : decodeHeader checksum data with
  | error e =>
      rw [hheader] at h
      cases h
  | ok payload =>
      rw [hheader] at h
      obtain ⟨hmax, hdata⟩ := decodeHeader_eq_ok_iff.mp hheader
      obtain ⟨hm, rfl⟩ := readAll_eq_ok exact_decodePayload h
      exact encode_eq_ok_iff.mpr ⟨hm, hmax, hdata⟩

/-- **The manifest format is a bijection on its image.** What `encode` accepts is read back, and
what `decode` accepts is the encoding of what it gives, for any checksum. -/
theorem encode_decode_inverse (checksum : Bytes → UInt32) :
    (∀ m data, encode checksum m = .ok data → decode checksum data = .ok m) ∧
      ∀ data m, decode checksum data = .ok m → encode checksum m = .ok data :=
  ⟨fun _ _ h => decode_encode h, fun _ _ h => encode_decode h⟩

theorem encode_decode_inverse_sample :
    let m : Manifest :=
      { nextSSTableID := 2
        nextWALSegmentID := 1
        sstables := [{ id := 1, path := [7], level := 0, sizeBytes := 3, smallestKey := [1],
                       largestKey := [2, 3] }] }
    let data := fileBytes (fun bs => bs.length.toUInt32) (payloadBytes m)
    decode (fun bs => bs.length.toUInt32) data = .ok m ∧
      encode (fun bs => bs.length.toUInt32) m = .ok data :=
  have h := encode_decode_inverse fun bs => bs.length.toUInt32
  ⟨h.1 _ _ (by decide +kernel), h.2 _ _ (by decide +kernel)⟩

/-! ### Reading -/

/-- A file that was written and not touched reads as the manifest, made safe. -/
theorem read_encode {checksum : Bytes → UInt32} {m : Manifest} {data : Bytes}
    (h : encode checksum m = .ok data) :
    read checksum (some data) = ensureSafeNextSSTableID m := by
  obtain ⟨-, hmax, hdata⟩ := encode_eq_ok_iff.mp h
  have hsize : data.length = manifestHeaderSize + (payloadBytes m).length := by
    rw [hdata, fileBytes_length]
  unfold read
  dsimp only
  rw [if_neg (by omega), decode_encode h]
  rfl

def SSTableMetadata.view (pathOf : Bytes → TablePath) (table : SSTableMetadata) :
    HyphaDB.SSTableMetadata :=
  { id := table.id.toNat
    path := pathOf table.path
    level := table.level.toNat
    sizeBytes := table.sizeBytes.toNat
    smallestKey := table.smallestKey
    largestKey := table.largestKey }

/-- The manifest of the model, for a reading of the paths. -/
def Manifest.view (pathOf : Bytes → TablePath) (m : Manifest) : HyphaDB.Manifest :=
  { nextSSTableID := m.nextSSTableID.toNat
    nextWALSegmentID := m.nextWALSegmentID.toNat
    sstables := m.sstables.map fun table => table.view pathOf }

/-- One round of the loop of `maxID`. -/
theorem foldl_maxID (pathOf : Bytes → TablePath) (tables : List SSTableMetadata) (id : UInt64) :
    (tables.foldl (fun max table =>
      match max with
      | none => some table.id
      | some id => if id < table.id then some table.id else some id) (some id)).map UInt64.toNat =
      match HyphaDB.Manifest.maxID (tables.map fun table => table.view pathOf) with
      | none => some id.toNat
      | some id' => some (max id.toNat id') := by
  induction tables generalizing id with
  | nil => rfl
  | cons table tables ih =>
      rw [List.foldl_cons, List.map_cons]
      unfold HyphaDB.Manifest.maxID
      have hid : (table.view pathOf).id = table.id.toNat := rfl
      dsimp only
      by_cases hlt : id < table.id
      · have hlt' := UInt64.lt_iff_toNat_lt.mp hlt
        rw [if_pos hlt, ih, hid]
        cases HyphaDB.Manifest.maxID (tables.map fun table => table.view pathOf) with
        | none => exact congrArg some (by omega)
        | some id' => exact congrArg some (by omega)
      · have hle := UInt64.le_iff_toNat_le.mp (UInt64.not_lt.mp hlt)
        rw [if_neg hlt, ih, hid]
        cases HyphaDB.Manifest.maxID (tables.map fun table => table.view pathOf) with
        | none => exact congrArg some (by omega)
        | some id' => exact congrArg some (by omega)

theorem maxID_view (pathOf : Bytes → TablePath) (tables : List SSTableMetadata) :
    (maxID tables).map UInt64.toNat =
      HyphaDB.Manifest.maxID (tables.map fun table => table.view pathOf) := by
  cases tables with
  | nil => rfl
  | cons table tables =>
      unfold maxID HyphaDB.Manifest.maxID
      exact foldl_maxID pathOf tables table.id

/-- Making the next table ID safe is the same on the view, where it does not run out. -/
theorem view_ensureSafeNextSSTableID (pathOf : Bytes → TablePath) {m m' : Manifest}
    (h : ensureSafeNextSSTableID m = .ok m') :
    m'.view pathOf = (m.view pathOf).ensureSafeNextSSTableID := by
  have hmax := maxID_view pathOf m.sstables
  unfold ensureSafeNextSSTableID at h
  unfold HyphaDB.Manifest.ensureSafeNextSSTableID
  rw [show (m.view pathOf).sstables = m.sstables.map fun table => table.view pathOf from rfl,
    ← hmax]
  cases hid : maxID m.sstables with
  | none =>
      rw [hid] at h
      cases h
      rfl
  | some id =>
      rw [hid] at h
      dsimp only [Option.map_some] at h ⊢
      have hnext : m.nextSSTableID ≤ id ↔ (m.view pathOf).nextSSTableID ≤ id.toNat :=
        UInt64.le_iff_toNat_le
      by_cases hle : m.nextSSTableID ≤ id
      · rw [if_pos hle] at h
        rw [if_pos (hnext.mp hle)]
        split at h
        · cases h
        · rename_i hlast
          cases h
          have hsucc : (id + 1).toNat = id.toNat + 1 := by
            have := id.toNat_lt
            rw [UInt64.toNat_add, show (1 : UInt64).toNat = 1 from rfl]
            omega
          unfold Manifest.view
          rw [hsucc]
      · rw [if_neg hle] at h
        rw [if_neg fun hle' => hle (hnext.mpr hle')]
        cases h
        rfl

/-- **`Read` on the file is `read` on the model's manifest.** -/
theorem view_read (checksum : Bytes → UInt32) (pathOf : Bytes → TablePath) {m : Manifest}
    {data : Bytes} (h : read checksum (some data) = .ok m) :
    ∃ stored, decode checksum data = .ok stored ∧
      m.view pathOf = HyphaDB.Manifest.read (some (stored.view pathOf)) := by
  unfold read at h
  dsimp only at h
  split at h
  · cases h
  cases hdecode : decode checksum data with
  | error e =>
      rw [hdecode] at h
      cases h
  | ok stored =>
      rw [hdecode] at h
      exact ⟨stored, rfl, view_ensureSafeNextSSTableID pathOf h⟩

end HyphaDB.ManifestFile
