import HyphaDB.Lib.Checked
import HyphaDB.Record
import Mathlib.Tactic.IntervalCases

/-!
# HyphaDB.Table.Bloom

The **Bloom filter** of a table (`internal/bloom`): its probe sequence, `Add`, `MayContain` and
the encoding in the file.

`Add` and `MayContain` each run their own copy of the probe loop. Both are shown to follow the
one list `probes`, so a bit that `Add` has set is a bit that `MayContain` asks for, and adding
more keys only sets more bits (`mayContain_eq`).

The floating-point computations of `New` are parameters: a rate is given by whether the code
takes it and by the two counts it works out.
-/

namespace HyphaDB.Bloom

open Checked

/-- What `xxh3.Hash128` gives, the low half first. -/
abbrev Hash128 := Bytes → UInt64 × UInt64

/-- A false positive rate, as far as `New` uses it. -/
structure FalsePositiveRate where
  /-- It lies strictly between 0 and 1. -/
  inRange : Bool
  /-- The size `-n * ln p / (ln 2)^2`, rounded up. -/
  bitCount : Nat → UInt64
  /-- The number of hash functions `m / n * ln 2`, rounded. -/
  hashCount : Nat → UInt64 → Int

structure Filter where
  bits : Bytes
  bitCount : UInt64
  hashCount : UInt8
  deriving Repr, DecidableEq

inductive FilterError
  | expectedItems
  | falsePositiveRate
  | zeroHashCount
  | bitCount (bitCount : UInt64)
  | bitsetMismatch (length : Nat) (byteCount : UInt64)
  | tooSmall
  | version (version : UInt8)
  | hashAlgorithm (code : UInt8)
  | probeAlgorithm (code : UInt8)
  | hashCount (hashCount : UInt8)
  | tooManyBits (bitCount : Nat)
  | bitsetLength (expected actual : Nat)
  deriving Repr, DecidableEq

/-- `bloom.New`. -/
def new (expectedItems : Int) (rate : FalsePositiveRate) : Except FilterError Filter :=
  if expectedItems ≤ 0 then .error .expectedItems
  else if !rate.inRange then .error .falsePositiveRate
  else
    let bitCount := rate.bitCount expectedItems.toNat
    let hashCount := min (max (rate.hashCount expectedItems.toNat bitCount) 1) 30
    let byteCount := (bitCount + 7) / 8
    .ok
      { bits := List.replicate byteCount.toNat 0
        bitCount := byteCount * 8
        hashCount := UInt8.ofNat hashCount.toNat }

/-- The two halves of the hash; a high half of zero is replaced. -/
def hashPair (hash128 : Hash128) (key : Bytes) : UInt64 × UInt64 :=
  let hash := hash128 key
  (hash.1, if hash.2 = 0 then 0x9e3779b97f4a7c15 else hash.2)

/-- The bit of its byte. -/
def mask (bit : UInt64) : UInt8 := 1 <<< (bit % 8).toUInt8

def setBit (bits : Bytes) (bit : UInt64) : Bytes :=
  bits.modify (bit / 8).toNat (· ||| mask bit)

/-- The loop of `Filter.Add`. -/
def addLoop (bitCount : UInt64) : Nat → UInt64 → UInt64 → UInt64 → Bytes → Bytes
  | 0, _, _, _, bits => bits
  | left + 1, i, position, increment, bits =>
      addLoop bitCount left (i + 1) (position + increment) (increment + (i + 1))
        (setBit bits (position % bitCount))

def Filter.add (hash128 : Hash128) (f : Filter) (key : Bytes) : Filter :=
  let (h1, h2) := hashPair hash128 key
  { f with bits := addLoop f.bitCount f.hashCount.toNat 0 h1 h2 f.bits }

/-- The loop of `Filter.MayContain`, which stops at the first bit that is not set. -/
def mayContainLoop {ε : Type} (bitCount : UInt64) (bits : Bytes) :
    Nat → UInt64 → UInt64 → UInt64 → Attempt ε Bool
  | 0, _, _, _ => pure true
  | left + 1, i, position, increment => do
      let bit := position % bitCount
      let byte ← get bits (bit / 8).toNat
      if byte &&& mask bit = 0 then pure false
      else mayContainLoop bitCount bits left (i + 1) (position + increment) (increment + (i + 1))

def Filter.mayContain {ε : Type} (hash128 : Hash128) (f : Filter) (key : Bytes) :
    Attempt ε Bool :=
  if f.bitCount = 0 then pure true
  else
    let (h1, h2) := hashPair hash128 key
    mayContainLoop f.bitCount f.bits f.hashCount.toNat 0 h1 h2

/-! ### The encoding -/

def currentVersion : UInt8 := 1
def hashXXH3 : UInt8 := 1
def probeEnhancedDoubleHash : UInt8 := 1
def encodedHeaderSize : Nat := 12
/-- 256 MiB in bits. -/
def maxEncodedBitCount : Nat := 256 * 2 ^ 20 * 8

def Filter.encode (f : Filter) : Except FilterError Bytes :=
  if f.hashCount = 0 then .error .zeroHashCount
  else if f.bitCount = 0 ∨ f.bitCount % 8 ≠ 0 then .error (.bitCount f.bitCount)
  else if f.bits.length ≠ (f.bitCount / 8).toNat then
    .error (.bitsetMismatch f.bits.length (f.bitCount / 8))
  else
    .ok (currentVersion :: hashXXH3 :: probeEnhancedDoubleHash :: f.hashCount ::
      (toLE 8 f.bitCount.toNat ++ f.bits))

def decode (buf : Bytes) : Attempt FilterError Filter :=
  if buf.length < encodedHeaderSize then fail .tooSmall
  else do
    let version ← get buf 0
    let hashAlgorithm ← get buf 1
    let probeAlgorithm ← get buf 2
    let hashCount ← get buf 3
    let bitCount ← readLE 8 (← slice buf 4 12)
    if version ≠ currentVersion then fail (.version version)
    else if hashAlgorithm ≠ hashXXH3 then fail (.hashAlgorithm hashAlgorithm)
    else if probeAlgorithm ≠ probeEnhancedDoubleHash then fail (.probeAlgorithm probeAlgorithm)
    else if hashCount = 0 ∨ 30 < hashCount then fail (.hashCount hashCount)
    else if bitCount = 0 ∨ bitCount % 8 ≠ 0 then fail (.bitCount (UInt64.ofNat bitCount))
    else if maxEncodedBitCount < bitCount then fail (.tooManyBits bitCount)
    else do
      let expectedBytes := bitCount / 8
      let actualBytes ← sub buf.length encodedHeaderSize
      if actualBytes ≠ expectedBytes then fail (.bitsetLength expectedBytes actualBytes)
      else do
        let bits ← slice buf encodedHeaderSize buf.length
        pure { bits, bitCount := UInt64.ofNat bitCount, hashCount }

/-! ### The probe sequence -/

/-- The bits the hash functions name, in order. -/
def probes (bitCount : UInt64) : Nat → UInt64 → UInt64 → UInt64 → List UInt64
  | 0, _, _, _ => []
  | left + 1, i, position, increment =>
      position % bitCount ::
        probes bitCount left (i + 1) (position + increment) (increment + (i + 1))

/-- The bits of a key. -/
def Filter.probesOf (hash128 : Hash128) (f : Filter) (key : Bytes) : List UInt64 :=
  probes f.bitCount f.hashCount.toNat 0 (hashPair hash128 key).1 (hashPair hash128 key).2

/-- The bit is set. -/
def IsSet (bits : Bytes) (bit : UInt64) : Prop :=
  ∃ byte, bits[(bit / 8).toNat]? = some byte ∧ byte &&& mask bit ≠ 0

/-- A filter whose bits are as many as it says. -/
structure Filter.Valid (f : Filter) : Prop where
  positive : 0 < f.bitCount.toNat
  bytes : f.bitCount.toNat = 8 * f.bits.length

theorem addLoop_eq (bitCount : UInt64) (left : Nat) (i position increment : UInt64)
    (bits : Bytes) :
    addLoop bitCount left i position increment bits =
      (probes bitCount left i position increment).foldl setBit bits := by
  induction left generalizing i position increment bits with
  | zero => rfl
  | succ left ih => exact ih _ _ _ _

theorem add_eq (hash128 : Hash128) (f : Filter) (key : Bytes) :
    f.add hash128 key =
      { f with bits := (f.probesOf hash128 key).foldl setBit f.bits } := by
  show ({ f with bits := addLoop f.bitCount f.hashCount.toNat 0 _ _ f.bits } : Filter) = _
  rw [addLoop_eq]
  rfl

theorem probes_lt {bitCount : UInt64} (hpos : 0 < bitCount.toNat) {left : Nat}
    {i position increment bit : UInt64} (h : bit ∈ probes bitCount left i position increment) :
    bit.toNat < bitCount.toNat := by
  induction left generalizing i position increment with
  | zero => cases h
  | succ left ih =>
      rcases List.mem_cons.mp h with rfl | h
      · rw [UInt64.toNat_mod]
        exact Nat.mod_lt _ hpos
      · exact ih h

/-- A probe falls into the bit array. -/
theorem Filter.Valid.probe_lt {f : Filter} (h : f.Valid) {hash128 : Hash128} {key : Bytes}
    {bit : UInt64} (hbit : bit ∈ f.probesOf hash128 key) : (bit / 8).toNat < f.bits.length := by
  have hlt : bit.toNat < f.bitCount.toNat := probes_lt h.positive hbit
  have := h.bytes
  rw [UInt64.toNat_div, show (8 : UInt64).toNat = 8 from rfl]
  omega

/-! ### No false negatives -/

/-- The mask of a bit is one bit, so a byte keeps it under any `or`. -/
theorem mask_or (a m : UInt8) : (a ||| m) &&& m = m := by
  apply UInt8.toBitVec_inj.mp
  ext i
  simp only [UInt8.toBitVec_and, UInt8.toBitVec_or, BitVec.getElem_and, BitVec.getElem_or]
  cases a.toBitVec[i] <;> cases m.toBitVec[i] <;> rfl

theorem or_and_ne_zero {a b m : UInt8} (h : a &&& m ≠ 0) : (a ||| b) &&& m ≠ 0 := by
  intro hzero
  apply h
  apply UInt8.toBitVec_inj.mp
  have hbits := congrArg UInt8.toBitVec hzero
  ext i hi
  have hbit : (((a ||| b) &&& m).toBitVec)[i] = (0 : UInt8).toBitVec[i] := by rw [hbits]
  simp only [UInt8.toBitVec_and, UInt8.toBitVec_or, BitVec.getElem_and, BitVec.getElem_or] at hbit ⊢
  revert hbit
  cases a.toBitVec[i] <;> cases b.toBitVec[i] <;> cases m.toBitVec[i] <;> simp

theorem mask_ne_zero (bit : UInt64) : mask bit ≠ 0 := by
  have hlt : (bit % 8).toUInt8.toNat < 8 := by
    rw [UInt64.toNat_toUInt8, UInt64.toNat_mod, show (8 : UInt64).toNat = 8 from rfl]
    omega
  intro hzero
  unfold mask at hzero
  have hnat := congrArg UInt8.toNat hzero
  rw [UInt8.toNat_shiftLeft, Nat.mod_eq_of_lt hlt] at hnat
  generalize (bit % 8).toUInt8.toNat = k at hlt hnat
  interval_cases k <;> simp at hnat

@[simp] theorem setBit_length (bits : Bytes) (bit : UInt64) :
    (setBit bits bit).length = bits.length := by
  simp [setBit]

theorem setBit_isSet {bits : Bytes} {bit : UInt64} (h : (bit / 8).toNat < bits.length) :
    IsSet (setBit bits bit) bit := by
  refine ⟨bits[(bit / 8).toNat] ||| mask bit, ?_, ?_⟩
  · unfold setBit
    rw [List.getElem?_modify_eq, List.getElem?_eq_getElem h]
    rfl
  · rw [mask_or]
    exact mask_ne_zero bit

/-- Setting a bit leaves the others as they are. -/
theorem IsSet.setBit {bits : Bytes} {bit : UInt64} (h : IsSet bits bit) (other : UInt64) :
    IsSet (setBit bits other) bit := by
  obtain ⟨byte, hbyte, hset⟩ := h
  unfold Bloom.setBit
  by_cases heq : (other / 8).toNat = (bit / 8).toNat
  · refine ⟨byte ||| mask other, ?_, or_and_ne_zero hset⟩
    rw [heq, List.getElem?_modify_eq, hbyte]
    rfl
  · exact ⟨byte, by rw [List.getElem?_modify_ne _ bits heq, hbyte], hset⟩

theorem foldl_setBit_length (ps : List UInt64) (bits : Bytes) :
    (ps.foldl setBit bits).length = bits.length := by
  induction ps generalizing bits with
  | nil => rfl
  | cons p ps ih => rw [List.foldl_cons, ih, setBit_length]

theorem IsSet.foldl {bits : Bytes} {bit : UInt64} (h : IsSet bits bit) (ps : List UInt64) :
    IsSet (ps.foldl Bloom.setBit bits) bit := by
  induction ps generalizing bits with
  | nil => exact h
  | cons p ps ih => exact ih (h.setBit p)

/-- After all of a list has been set, each of it is set. -/
theorem isSet_foldl {ps : List UInt64} {bits : Bytes}
    (hps : ∀ p ∈ ps, (p / 8).toNat < bits.length) {p : UInt64} (hp : p ∈ ps) :
    IsSet (ps.foldl setBit bits) p := by
  induction ps generalizing bits with
  | nil => cases hp
  | cons q ps ih =>
      rw [List.foldl_cons]
      rcases List.mem_cons.mp hp with rfl | hp
      · exact (setBit_isSet (hps p List.mem_cons_self)).foldl ps
      · refine ih (fun r hr => ?_) hp
        rw [setBit_length]
        exact hps r (List.mem_cons_of_mem q hr)

@[simp] theorem add_bitCount (hash128 : Hash128) (f : Filter) (key : Bytes) :
    (f.add hash128 key).bitCount = f.bitCount := rfl

@[simp] theorem add_bits_length (hash128 : Hash128) (f : Filter) (key : Bytes) :
    (f.add hash128 key).bits.length = f.bits.length := by
  rw [add_eq]
  exact foldl_setBit_length _ _

theorem Filter.Valid.add {f : Filter} (h : f.Valid) (hash128 : Hash128) (key : Bytes) :
    (f.add hash128 key).Valid :=
  ⟨h.positive, by rw [add_bits_length, add_bitCount]; exact h.bytes⟩

/-- The key's bits are all set. -/
def Filter.Holds (hash128 : Hash128) (f : Filter) (key : Bytes) : Prop :=
  ∀ bit ∈ f.probesOf hash128 key, IsSet f.bits bit

theorem holds_add {f : Filter} (h : f.Valid) (hash128 : Hash128) (key : Bytes) :
    (f.add hash128 key).Holds hash128 key := by
  intro bit hbit
  rw [add_eq]
  exact isSet_foldl (fun p hp => h.probe_lt hp) hbit

/-- Adding another key keeps what the filter holds. -/
theorem Filter.Holds.add {hash128 : Hash128} {f : Filter} {key : Bytes} (h : f.Holds hash128 key)
    (other : Bytes) : (f.add hash128 other).Holds hash128 key := by
  intro bit hbit
  rw [add_eq]
  exact (h bit hbit).foldl _

/-- A run of `Add` calls. -/
def Filter.addAll (hash128 : Hash128) (f : Filter) (keys : List Bytes) : Filter :=
  keys.foldl (fun f key => f.add hash128 key) f

@[simp] theorem addAll_bitCount (hash128 : Hash128) (f : Filter) (keys : List Bytes) :
    (f.addAll hash128 keys).bitCount = f.bitCount := by
  induction keys generalizing f with
  | nil => rfl
  | cons key keys ih => exact ih (f.add hash128 key)

@[simp] theorem addAll_hashCount (hash128 : Hash128) (f : Filter) (keys : List Bytes) :
    (f.addAll hash128 keys).hashCount = f.hashCount := by
  induction keys generalizing f with
  | nil => rfl
  | cons key keys ih => exact ih (f.add hash128 key)

@[simp] theorem addAll_bits_length (hash128 : Hash128) (f : Filter) (keys : List Bytes) :
    (f.addAll hash128 keys).bits.length = f.bits.length := by
  induction keys generalizing f with
  | nil => rfl
  | cons key keys ih => exact (ih (f.add hash128 key)).trans (add_bits_length _ _ _)

theorem Filter.Valid.addAll {f : Filter} (h : f.Valid) (hash128 : Hash128) (keys : List Bytes) :
    (f.addAll hash128 keys).Valid :=
  ⟨by rw [addAll_bitCount]; exact h.positive,
    by rw [addAll_bits_length, addAll_bitCount]; exact h.bytes⟩

theorem Filter.Holds.addAll {hash128 : Hash128} {f : Filter} {key : Bytes}
    (h : f.Holds hash128 key) (keys : List Bytes) :
    (f.addAll hash128 keys).Holds hash128 key := by
  induction keys generalizing f with
  | nil => exact h
  | cons other keys ih => exact ih (h.add other)

/-- After a run of `Add` calls the filter holds each key added in it. -/
theorem holds_addAll {f : Filter} (h : f.Valid) (hash128 : Hash128) {keys : List Bytes}
    {key : Bytes} (hkey : key ∈ keys) : (f.addAll hash128 keys).Holds hash128 key := by
  induction keys generalizing f with
  | nil => cases hkey
  | cons other keys ih =>
      rcases List.mem_cons.mp hkey with rfl | hkey
      · exact (holds_add h hash128 key).addAll keys
      · exact ih (h.add hash128 other) hkey

theorem mayContainLoop_eq {ε : Type} {bitCount : UInt64} {bits : Bytes} {left : Nat}
    {i position increment : UInt64}
    (h : ∀ bit ∈ probes bitCount left i position increment, IsSet bits bit) :
    (mayContainLoop bitCount bits left i position increment : Attempt ε Bool) = .ok true := by
  induction left generalizing i position increment with
  | zero => rfl
  | succ left ih =>
      obtain ⟨byte, hbyte, hset⟩ := h _ List.mem_cons_self
      unfold mayContainLoop
      dsimp only
      rw [get_eq hbyte, ok_bind, if_neg hset]
      exact ih fun bit hbit => h bit (List.mem_cons_of_mem _ hbit)

/-- **A key the filter holds is never turned away.** -/
theorem mayContain_eq {ε : Type} {hash128 : Hash128} {f : Filter} {key : Bytes}
    (h : f.Holds hash128 key) : (f.mayContain hash128 key : Attempt ε Bool) = .ok true := by
  unfold Filter.mayContain
  split
  · rfl
  · exact mayContainLoop_eq h

theorem mayContainLoop_total {ε : Type} {f : Filter} (h : f.Valid) (left : Nat)
    (i position increment : UInt64) :
    ∃ b, (mayContainLoop f.bitCount f.bits left i position increment : Attempt ε Bool) = .ok b := by
  induction left generalizing i position increment with
  | zero => exact ⟨true, rfl⟩
  | succ left ih =>
      have hlt : (position % f.bitCount / 8).toNat < f.bits.length := by
        have hmod : (position % f.bitCount).toNat < f.bitCount.toNat := by
          rw [UInt64.toNat_mod]
          exact Nat.mod_lt _ h.positive
        have := h.bytes
        rw [UInt64.toNat_div, show (8 : UInt64).toNat = 8 from rfl]
        omega
      unfold mayContainLoop
      dsimp only
      rw [get_eq (List.getElem?_eq_getElem hlt), ok_bind]
      split
      · exact ⟨false, rfl⟩
      · exact ih _ _ _

/-- A valid filter always has an answer: a probe never leaves the bit array. -/
theorem mayContain_total {ε : Type} {f : Filter} (h : f.Valid) (hash128 : Hash128) (key : Bytes) :
    ∃ b, (f.mayContain hash128 key : Attempt ε Bool) = .ok b := by
  unfold Filter.mayContain
  split
  · exact ⟨true, rfl⟩
  · exact mayContainLoop_total h _ _ _ _

/-- The number of hash functions is capped. -/
theorem new_hashCount {expectedItems : Int} {rate : FalsePositiveRate} {f : Filter}
    (h : new expectedItems rate = .ok f) : f.hashCount ≤ 30 := by
  unfold new at h
  split at h
  · cases h
  split at h
  · cases h
  dsimp only at h
  cases h
  rw [UInt8.le_iff_toNat_le, UInt8.toNat_ofNat', show (30 : UInt8).toNat = 30 from rfl]
  omega

/-! ### Encoding and decoding -/

/-- What `Encode` accepts and what it writes. -/
theorem encode_eq_ok {f : Filter} {buf : Bytes} (h : f.encode = .ok buf) :
    f.hashCount ≠ 0 ∧ f.Valid ∧
      buf = currentVersion :: hashXXH3 :: probeEnhancedDoubleHash :: f.hashCount ::
        (toLE 8 f.bitCount.toNat ++ f.bits) := by
  unfold Filter.encode at h
  split at h
  · cases h
  rename_i hhash
  split at h
  · cases h
  rename_i hbits
  split at h
  · cases h
  rename_i hlen
  obtain ⟨hzero, hmod⟩ := not_or.mp hbits
  have hmod' : f.bitCount.toNat % 8 = 0 := by
    have := congrArg UInt64.toNat (not_not.mp hmod)
    rwa [UInt64.toNat_mod] at this
  have hpos : f.bitCount.toNat ≠ 0 := fun h0 => hzero (UInt64.toNat_inj.mp h0)
  have hlen' : f.bits.length = f.bitCount.toNat / 8 := by
    rw [not_not.mp hlen, UInt64.toNat_div]
    rfl
  refine ⟨hhash, ⟨by omega, by omega⟩, ?_⟩
  cases h
  rfl

/-- Any valid filter with a hash function is encoded. -/
theorem encode_ok {f : Filter} (hcount : f.hashCount ≠ 0) (h : f.Valid) :
    f.encode = .ok (currentVersion :: hashXXH3 :: probeEnhancedDoubleHash :: f.hashCount ::
      (toLE 8 f.bitCount.toNat ++ f.bits)) := by
  have hpos := h.positive
  have hbytes := h.bytes
  have hzero : f.bitCount ≠ 0 := fun h0 => by
    rw [h0] at hpos
    exact absurd hpos (lt_irrefl 0)
  have hmod : f.bitCount % 8 = 0 := by
    apply UInt64.toNat_inj.mp
    rw [UInt64.toNat_mod, hbytes]
    exact Nat.mul_mod_right 8 _
  have hlen : f.bits.length = (f.bitCount / 8).toNat := by
    rw [UInt64.toNat_div, show (8 : UInt64).toNat = 8 from rfl]
    omega
  unfold Filter.encode
  rw [if_neg hcount, if_neg (not_or.mpr ⟨hzero, not_not.mpr hmod⟩), if_neg (not_not.mpr hlen)]

theorem encode_length {f : Filter} {buf : Bytes} (h : f.encode = .ok buf) :
    buf.length = encodedHeaderSize + f.bits.length := by
  obtain ⟨-, -, rfl⟩ := encode_eq_ok h
  simp [encodedHeaderSize]
  omega

/-- **The encoding reads back**, for a filter within the limits of the format. -/
theorem decode_encode {f : Filter} {buf : Bytes} (h : f.encode = .ok buf)
    (hhash : f.hashCount ≤ 30) (hbits : f.bitCount.toNat ≤ maxEncodedBitCount) :
    decode buf = .ok f := by
  have hlen := encode_length h
  obtain ⟨hzero, hvalid, rfl⟩ := encode_eq_ok h
  have hbytes := hvalid.bytes
  have hpos := hvalid.positive
  have hslice : (slice (currentVersion :: hashXXH3 :: probeEnhancedDoubleHash :: f.hashCount ::
      (toLE 8 f.bitCount.toNat ++ f.bits)) 4 12 : Attempt FilterError Bytes) =
      .ok (toLE 8 f.bitCount.toNat) :=
    slice_append [currentVersion, hashXXH3, probeEnhancedDoubleHash, f.hashCount]
      (toLE 8 f.bitCount.toNat) f.bits rfl (by simp)
  have hread : (readLE 8 (toLE 8 f.bitCount.toNat) : Attempt FilterError Nat) =
      .ok f.bitCount.toNat :=
    readLE_toLE_self (by have := f.bitCount.toNat_lt; omega)
  unfold decode
  rw [if_neg (by rw [hlen]; omega), get_eq rfl, ok_bind, get_eq rfl, ok_bind, get_eq rfl, ok_bind,
    get_eq rfl, ok_bind, hslice, ok_bind, hread, ok_bind, if_neg (not_not.mpr rfl),
    if_neg (not_not.mpr rfl), if_neg (not_not.mpr rfl),
    if_neg (not_or.mpr ⟨hzero, not_lt.mpr hhash⟩), if_neg (by omega), if_neg (by omega),
    sub_eq (by rw [hlen]; omega), ok_bind, if_neg (by rw [hlen]; omega), slice_to_end (by
      rw [hlen]; omega), ok_bind, UInt64.ofNat_toNat]
  rfl

/-- What `decode` checks in the header: the three codes, and the bits against the length. -/
theorem decode_header {buf : Bytes} {f : Filter} (h : decode buf = .ok f) :
    encodedHeaderSize ≤ buf.length ∧
      buf.take 3 = [currentVersion, hashXXH3, probeEnhancedDoubleHash] ∧
      ofLE ((buf.drop 4).take 8) = 8 * (buf.length - encodedHeaderSize) := by
  unfold decode at h
  split at h
  · cases h
  rename_i hlen
  have hlen' : encodedHeaderSize = 12 := rfl
  rcases buf with _ | ⟨version, _ | ⟨hash, _ | ⟨probe, _ | ⟨count, rest⟩⟩⟩⟩
  iterate 4 exact absurd (of_decide_eq_true rfl) hlen
  have hrest : (version :: hash :: probe :: count :: rest).length = rest.length + 4 := rfl
  rw [get_eq rfl, ok_bind, get_eq rfl, ok_bind, get_eq rfl, ok_bind, get_eq rfl, ok_bind,
    slice_eq (by omega) (by omega), ok_bind, readLE_eq (by
      rw [List.length_take, List.length_drop]
      omega), ok_bind] at h
  simp only [List.take_take, Nat.min_self] at h
  split at h
  · cases h
  split at h
  · cases h
  split at h
  · cases h
  split at h
  · cases h
  split at h
  · cases h
  split at h
  · cases h
  rename_i hversion hhash hprobe _ hbits _
  rw [sub_eq (by omega), ok_bind] at h
  split at h
  · cases h
  rename_i hsize
  rw [not_not] at hversion hhash hprobe hsize
  subst hversion hhash hprobe
  refine ⟨by omega, rfl, ?_⟩
  rw [hsize]
  omega

/-- **No false negatives, also after persistence.** A key that one of the `Add` calls has added is
found, in the filter and in what the file gives back for it, which is the filter itself. -/
theorem no_false_negatives (hash128 : Hash128) {f : Filter} (hvalid : f.Valid)
    (hone : 1 ≤ f.hashCount) (hmax : f.hashCount ≤ 30) (keys : List Bytes) :
    (∀ key ∈ keys,
      ((f.addAll hash128 keys).mayContain hash128 key : Attempt FilterError Bool) = .ok true) ∧
      (f.bitCount.toNat ≤ 2 ^ 31 → ∃ buf g, (f.addAll hash128 keys).encode = .ok buf ∧
        decode buf = .ok g ∧ g = f.addAll hash128 keys ∧
        ∀ key ∈ keys, (g.mayContain hash128 key : Attempt FilterError Bool) = .ok true) := by
  have hfound : ∀ key ∈ keys,
      ((f.addAll hash128 keys).mayContain hash128 key : Attempt FilterError Bool) = .ok true :=
    fun key hkey => mayContain_eq (holds_addAll hvalid hash128 hkey)
  refine ⟨hfound, fun hbits => ?_⟩
  have hcount : (f.addAll hash128 keys).hashCount ≠ 0 := by
    rw [addAll_hashCount]
    rintro hzero
    rw [hzero] at hone
    exact absurd hone (by decide)
  have hencode := encode_ok hcount (hvalid.addAll hash128 keys)
  have hdecode := decode_encode hencode (by rw [addAll_hashCount]; exact hmax)
    (by rw [addAll_bitCount]; exact hbits)
  exact ⟨_, _, hencode, hdecode, rfl, hfound⟩

theorem no_false_negatives_byte :
    let hash128 : Hash128 := fun key => (key.length.toUInt64, 0)
    let f : Filter := { bits := [0], bitCount := 8, hashCount := 3 }
    ∃ buf g, (f.addAll hash128 [[1], [1, 2]]).encode = .ok buf ∧ decode buf = .ok g ∧
      g = f.addAll hash128 [[1], [1, 2]] ∧
      ∀ key ∈ ([[1], [1, 2]] : List Bytes),
        (g.mayContain hash128 key : Attempt FilterError Bool) = .ok true :=
  (no_false_negatives _ ⟨by decide, by decide⟩ (by decide) (by decide) [[1], [1, 2]]).2
    (by decide)

/-- Decoding stays in bounds, and what it gives is valid. -/
theorem gives_decode (buf : Bytes) : Gives (decode buf) fun f => f.Valid := by
  unfold decode
  refine gives_ite (fun _ => trivial) fun hlen => ?_
  have hlen' : 12 ≤ buf.length := by unfold encodedHeaderSize at hlen; omega
  refine gives_bind (gives_get (by omega)) fun version _ => ?_
  refine gives_bind (gives_get (by omega)) fun hashAlgorithm _ => ?_
  refine gives_bind (gives_get (by omega)) fun probeAlgorithm _ => ?_
  refine gives_bind (gives_get (by omega)) fun hashCount _ => ?_
  refine gives_bind (gives_slice_length (by omega) hlen') fun field hfield => ?_
  refine gives_bind (gives_readLE (by omega)) fun bitCount hbitCount => ?_
  refine gives_ite (fun _ => trivial) fun _ => gives_ite (fun _ => trivial) fun _ =>
    gives_ite (fun _ => trivial) fun _ => gives_ite (fun _ => trivial) fun _ =>
    gives_ite (fun _ => trivial) fun hbits => gives_ite (fun _ => trivial) fun hmax => ?_
  refine gives_bind (gives_sub (by unfold encodedHeaderSize; omega)) fun actual hactual => ?_
  refine gives_ite (fun _ => trivial) fun hbytes => ?_
  refine gives_bind (gives_slice_length (by unfold encodedHeaderSize; omega) le_rfl)
    fun bits hlength => ?_
  have hnat : (UInt64.ofNat bitCount).toNat = bitCount := by
    rw [UInt64.toNat_ofNat']
    exact Nat.mod_eq_of_lt (by have := hbitCount.2; omega)
  refine gives_pure ⟨?_, ?_⟩
  · rw [hnat]
    omega
  · rw [hnat]
    show bitCount = 8 * bits.length
    omega

end HyphaDB.Bloom
