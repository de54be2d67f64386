import Mathlib.Data.UInt
import Mathlib.Order.Lex
import Mathlib.Data.List.Lex

/-!
# HyphaDB.Lib.MachineInt

The unsigned machine integers as **linear orders**, so that byte strings get the
lexicographic order of `List` and sequence numbers the order lemmas of the
library. The relations are the ones core already has; only the laws are added.

A counter is read through `toNat`: `toNat_add_one` and `toNat_add_ofNat` say when
an addition did not wrap.
-/

namespace HyphaDB

instance instLinearOrderUInt8 : LinearOrder UInt8 where
  le_refl := UInt8.le_refl
  le_trans := fun _ _ _ => UInt8.le_trans
  lt_iff_le_not_ge := fun a b => by
    rw [UInt8.lt_iff_toNat_lt, UInt8.le_iff_toNat_le, UInt8.le_iff_toNat_le]
    omega
  le_antisymm := fun _ _ => UInt8.le_antisymm
  le_total := UInt8.le_total
  toDecidableLE := inferInstance

instance instLinearOrderUInt64 : LinearOrder UInt64 where
  le_refl := UInt64.le_refl
  le_trans := fun _ _ _ => UInt64.le_trans
  lt_iff_le_not_ge := fun a b => by
    rw [UInt64.lt_iff_toNat_lt, UInt64.le_iff_toNat_le, UInt64.le_iff_toNat_le]
    omega
  le_antisymm := fun _ _ => UInt64.le_antisymm
  le_total := UInt64.le_total
  toDecidableLE := inferInstance

/-- Adding a number that fits does not wrap. -/
theorem toNat_add_ofNat {a : UInt64} {n : Nat} (h : a.toNat + n < 2 ^ 64) :
    (a + UInt64.ofNat n).toNat = a.toNat + n := by
  rw [UInt64.toNat_add, UInt64.toNat_ofNat', Nat.mod_eq_of_lt (a := n) (by omega)]
  exact Nat.mod_eq_of_lt h

theorem toNat_add_one {a : UInt64} (h : a.toNat + 1 < 2 ^ 64) :
    (a + 1).toNat = a.toNat + 1 :=
  toNat_add_ofNat (n := 1) h

end HyphaDB
