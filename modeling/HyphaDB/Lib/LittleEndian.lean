import Mathlib.Tactic.Ring
import Mathlib.Tactic.Linarith

/-!
# HyphaDB.Lib.LittleEndian

Fixed-width **little-endian** integers over byte lists. `toLE w n` is the `w`-byte
image of `n` (the high bits are dropped, as an unsigned conversion drops them) and
`ofLE` reads a byte list back. On exactly `w` bytes the two are inverse
(`ofLE_toLE`, `toLE_ofLE`).
-/

namespace HyphaDB

/-- The low `w` bytes of `n`, least significant first. -/
def toLE : Nat → Nat → List UInt8
  | 0, _ => []
  | w + 1, n => UInt8.ofNat n :: toLE w (n / 256)

/-- The number a byte list denotes, least significant byte first. -/
def ofLE : List UInt8 → Nat
  | [] => 0
  | b :: bs => b.toNat + 256 * ofLE bs

@[simp] theorem toLE_length (w n : Nat) : (toLE w n).length = w := by
  induction w generalizing n with
  | zero => rfl
  | succ w ih => simp [toLE, ih]

theorem ofLE_lt (bs : List UInt8) : ofLE bs < 256 ^ bs.length := by
  induction bs with
  | nil => simp [ofLE]
  | cons b bs ih =>
      have hb := b.toNat_lt
      simp only [ofLE, List.length_cons, pow_succ]
      omega

theorem ofLE_toLE (w n : Nat) : ofLE (toLE w n) = n % 256 ^ w := by
  induction w generalizing n with
  | zero => simp [toLE, ofLE, Nat.mod_one]
  | succ w ih =>
      simp only [toLE, ofLE, ih, UInt8.toNat_ofNat']
      rw [show 256 ^ (w + 1) = 256 * 256 ^ w from pow_succ' 256 w, Nat.mod_mul]

/-- Reading back a number that fits its width. -/
theorem ofLE_toLE_of_lt {w n : Nat} (h : n < 256 ^ w) : ofLE (toLE w n) = n := by
  rw [ofLE_toLE, Nat.mod_eq_of_lt h]

theorem toLE_ofLE (bs : List UInt8) : toLE bs.length (ofLE bs) = bs := by
  induction bs with
  | nil => rfl
  | cons b bs ih =>
      have hb := b.toNat_lt
      have hdiv : (b.toNat + 256 * ofLE bs) / 256 = ofLE bs := by omega
      have hlow : UInt8.ofNat (b.toNat + 256 * ofLE bs) = b := by
        apply UInt8.toNat_inj.mp
        rw [UInt8.toNat_ofNat']
        omega
      simp only [List.length_cons, toLE, ofLE, hdiv, hlow, ih]

/-- Byte lists of one length denote different numbers unless they are equal. -/
theorem ofLE_inj {as bs : List UInt8} (hlen : as.length = bs.length)
    (h : ofLE as = ofLE bs) : as = bs := by
  rw [← toLE_ofLE as, ← toLE_ofLE bs, hlen, h]

end HyphaDB
