import Mathlib.Data.BitVec
import Mathlib.Logic.Function.Iterate

/-!
# HyphaDB.Lib.Crc32c

CRC-32C (the Castagnoli polynomial), bit by bit in the reflected form: the register
starts at all ones, takes a byte into its low octet, shifts eight times, and is
complemented at the end.

One shift is a bijection of the register because the polynomial's top bit is set, so
a difference in one byte is never undone by the bytes after it: inputs that differ in
exactly one byte have different checksums (`crc32c_distinguishes`).
-/

namespace HyphaDB

/-- Two byte strings of one length that differ in exactly one place. -/
def DifferInOneByte (as bs : List UInt8) : Prop :=
  ∃ pre x y post, x ≠ y ∧ as = pre ++ x :: post ∧ bs = pre ++ y :: post

/-- A difference in an append lies in the left part or in the right one. -/
theorem DifferInOneByte.append_cases {as bs cs : List UInt8} (h : DifferInOneByte (as ++ bs) cs) :
    (∃ as', DifferInOneByte as as' ∧ cs = as' ++ bs) ∨
      ∃ bs', DifferInOneByte bs bs' ∧ cs = as ++ bs' := by
  obtain ⟨pre, x, y, post, hne, heq, rfl⟩ := h
  rcases List.append_eq_append_iff.mp heq with ⟨mid, rfl, rfl⟩ | ⟨mid, rfl, hmid⟩
  · exact Or.inr ⟨mid ++ y :: post, ⟨mid, x, y, post, hne, rfl, rfl⟩, by simp⟩
  · cases mid with
    | nil =>
        rw [List.nil_append] at hmid
        exact Or.inr ⟨y :: post, ⟨[], x, y, post, hne, hmid.symm, rfl⟩, by simp⟩
    | cons z mid =>
        obtain ⟨rfl, rfl⟩ := List.cons.inj hmid
        exact Or.inl ⟨pre ++ y :: mid, ⟨pre, x, y, mid, hne, rfl, rfl⟩, by simp⟩

theorem DifferInOneByte.length_eq {as bs : List UInt8} (h : DifferInOneByte as bs) :
    as.length = bs.length := by
  obtain ⟨pre, x, y, post, -, rfl, rfl⟩ := h
  simp

theorem DifferInOneByte.ne {as bs : List UInt8} (h : DifferInOneByte as bs) : as ≠ bs := by
  obtain ⟨pre, x, y, post, hne, rfl, rfl⟩ := h
  simpa using hne

/-- Byte strings of one length that differ at this place and nowhere else. -/
def ChangedAt (place : Nat) (as bs : List UInt8) : Prop :=
  ∃ pre x y post, pre.length = place ∧ x ≠ y ∧ as = pre ++ x :: post ∧ bs = pre ++ y :: post

theorem ChangedAt.differ {place : Nat} {as bs : List UInt8} (h : ChangedAt place as bs) :
    DifferInOneByte as bs := by
  obtain ⟨pre, x, y, post, -, hne, has, hbs⟩ := h
  exact ⟨pre, x, y, post, hne, has, hbs⟩

theorem DifferInOneByte.changedAt {as bs : List UInt8} (h : DifferInOneByte as bs) :
    ∃ place, place < as.length ∧ ChangedAt place as bs := by
  obtain ⟨pre, x, y, post, hne, rfl, rfl⟩ := h
  exact ⟨pre.length, by simp, pre, x, y, post, rfl, hne, rfl, rfl⟩

theorem ChangedAt.place_lt {place : Nat} {as bs : List UInt8} (h : ChangedAt place as bs) :
    place < as.length := by
  obtain ⟨pre, x, y, post, rfl, -, rfl, -⟩ := h
  simp

theorem ChangedAt.getElem?_ne {place : Nat} {as bs : List UInt8} (h : ChangedAt place as bs) :
    as[place]? ≠ bs[place]? := by
  obtain ⟨pre, x, y, post, rfl, hne, rfl, rfl⟩ := h
  simpa using hne

theorem changedAt_set {place : Nat} {as : List UInt8} {x y : UInt8} (h : as[place]? = some x)
    (hne : x ≠ y) : ChangedAt place as (as.set place y) := by
  obtain ⟨hlt, rfl⟩ := List.getElem?_eq_some_iff.mp h
  refine ⟨as.take place, as[place], y, as.drop (place + 1), by simp; omega, hne, ?_, ?_⟩
  · rw [← List.drop_eq_getElem_cons hlt, List.take_append_drop]
  · exact List.set_eq_take_append_cons_drop.trans (if_pos hlt)

/-- A change in the left part of an append. -/
theorem ChangedAt.left {place : Nat} {as bs cs : List UInt8} (h : ChangedAt place (as ++ bs) cs)
    (hlt : place < as.length) : ∃ as', ChangedAt place as as' ∧ cs = as' ++ bs := by
  obtain ⟨pre, x, y, post, rfl, hne, heq, rfl⟩ := h
  rcases List.append_eq_append_iff.mp heq with ⟨mid, rfl, -⟩ | ⟨mid, rfl, hmid⟩
  · rw [List.length_append] at hlt
    omega
  · cases mid with
    | nil => simp at hlt
    | cons z mid =>
        obtain ⟨rfl, rfl⟩ := List.cons.inj hmid
        exact ⟨pre ++ y :: mid, ⟨pre, x, y, mid, rfl, hne, rfl, rfl⟩, by simp⟩

/-- A change in the right part. -/
theorem ChangedAt.right {place : Nat} {as bs cs : List UInt8} (h : ChangedAt place (as ++ bs) cs)
    (hle : as.length ≤ place) :
    ∃ bs', ChangedAt (place - as.length) bs bs' ∧ cs = as ++ bs' := by
  obtain ⟨pre, x, y, post, rfl, hne, heq, rfl⟩ := h
  obtain ⟨mid, rfl⟩ : as <+: pre :=
    List.prefix_of_prefix_length_le ⟨bs, heq⟩ ⟨x :: post, rfl⟩ hle
  rw [List.append_assoc] at heq
  exact ⟨mid ++ y :: post, ⟨mid, x, y, post, by simp, hne, List.append_cancel_left heq, rfl⟩,
    by simp⟩

/-- A checksum tells apart any two inputs that differ in exactly one byte. -/
def Distinguishes (crc : List UInt8 → UInt32) : Prop :=
  ∀ as bs, DifferInOneByte as bs → crc as ≠ crc bs

namespace Crc32c

/-- The reflected Castagnoli polynomial. -/
def poly : BitVec 32 := 0x82F63B78#32

/-- Shift the register by one bit. -/
def shift (c : BitVec 32) : BitVec 32 :=
  if c.getLsbD 0 then (c >>> 1) ^^^ poly else c >>> 1

/-- Take one byte into the register. -/
def update (c : BitVec 32) (b : UInt8) : BitVec 32 :=
  shift^[8] (c ^^^ b.toBitVec.setWidth 32)

/-- The bit shifted out comes back as the top bit, through the polynomial. -/
theorem shift_top (c : BitVec 32) : (shift c).getLsbD 31 = c.getLsbD 0 := by
  unfold shift
  cases h : c.getLsbD 0 <;> simp [poly]

theorem eq_of_ushiftRight_eq {a b : BitVec 32} (h0 : a.getLsbD 0 = b.getLsbD 0)
    (h : a >>> 1 = b >>> 1) : a = b := by
  apply BitVec.eq_of_getLsbD_eq
  intro i _
  cases i with
  | zero => exact h0
  | succ i =>
      have hi := congrArg (fun c : BitVec 32 => c.getLsbD i) h
      simpa [Nat.add_comm] using hi

theorem shift_injective : Function.Injective shift := by
  intro a b h
  have h0 : a.getLsbD 0 = b.getLsbD 0 := by rw [← shift_top, ← shift_top, h]
  apply eq_of_ushiftRight_eq h0
  unfold shift at h
  rw [h0] at h
  cases hb : b.getLsbD 0 with
  | false =>
      rw [hb] at h
      simpa only [Bool.false_eq_true, if_false] using h
  | true =>
      rw [hb] at h
      simpa only [if_true, BitVec.xor_left_inj] using h

theorem update_injective (b : UInt8) : Function.Injective (update · b) := by
  intro c d h
  exact (BitVec.xor_left_inj _).mp (shift_injective.iterate 8 h)

theorem update_byte_injective (c : BitVec 32) : Function.Injective (update c) := by
  intro x y h
  have hx := (BitVec.xor_right_inj _).mp (shift_injective.iterate 8 h)
  apply UInt8.toBitVec_inj.mp
  apply BitVec.eq_of_toNat_eq
  have hn := congrArg BitVec.toNat hx
  simp only [BitVec.toNat_setWidth] at hn
  have hxl := x.toBitVec.isLt
  have hyl := y.toBitVec.isLt
  omega

/-- Bytes taken after a difference keep the registers apart. -/
theorem foldl_update_injective (bs : List UInt8) :
    Function.Injective (fun c => bs.foldl update c) := by
  induction bs with
  | nil => exact fun _ _ h => h
  | cons b bs ih => exact fun c d h => update_injective b (ih h)

end Crc32c

open Crc32c

/-- CRC-32C of a byte string. -/
def crc32c (bs : List UInt8) : UInt32 :=
  ⟨(bs.foldl update (BitVec.allOnes 32)) ^^^ BitVec.allOnes 32⟩

theorem crc32c_distinguishes : Distinguishes crc32c := by
  rintro _ _ ⟨pre, x, y, post, hne, rfl, rfl⟩ h
  have h' := congrArg UInt32.toBitVec h
  simp only [crc32c, BitVec.xor_left_inj, List.foldl_append, List.foldl_cons] at h'
  exact hne (update_byte_injective _ (foldl_update_injective post h'))

-- The check value of the CRC catalogue: the checksum of the ASCII digits 1 to 9.
example : crc32c [0x31, 0x32, 0x33, 0x34, 0x35, 0x36, 0x37, 0x38, 0x39] = 0xE3069283 := by
  decide +kernel

end HyphaDB
