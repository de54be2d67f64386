import HyphaDB.Engine.Catalog
import HyphaDB.Refine.Scan

/-!
# HyphaDB.Refine.ScanPrefix

**A scan by its first bytes.** `ScanPrefix` turns a byte string `p` into the half-open range
from `p` to `PrefixEnd p`, which cuts off the `0xff` bytes at the end of `p` and raises the
byte before them; where nothing is left the range has no end. In byte order that range holds
exactly the keys that start with `p` (`isPrefix_iff`).

The loop of `PrefixEnd` runs from the last byte, the order from the first. `prefixEnd_cons`
turns the loop around, and the rest is an induction along the order.
-/

namespace HyphaDB.Refine

open Merge

/-! ### The end of the range -/

theorem raiseLast_append (bs : Bytes) (b : UInt8) :
    raiseLast (bs ++ [b]) =
      if raiseLast bs = [] then if b = 0xff then [] else [b + 1] else b :: raiseLast bs := by
  induction bs with
  | nil =>
      by_cases hb : b = 0xff
      · simp [raiseLast, hb]
      · simp [raiseLast, hb]
  | cons a bs ih =>
      by_cases ha : a = 0xff
      · simp [raiseLast, ha, ih]
      · simp [raiseLast, ha]

/-- The end of a longer string, from its first byte: the rest decides unless it can not be
raised. -/
theorem prefixEnd_cons (b : UInt8) (p : Key) :
    prefixEnd (b :: p) =
      if prefixEnd p = [] then if b = 0xff then [] else [b + 1] else b :: prefixEnd p := by
  have hrest : prefixEnd p = raiseLast p.reverse := by
    unfold prefixEnd
    split
    · rename_i hp
      rw [hp]
      rfl
    · rfl
  rw [hrest, ← raiseLast_append, ← List.reverse_cons]
  rfl

theorem length_prefixEnd_le (p : Key) : (prefixEnd p).length ≤ p.length := by
  induction p with
  | nil => exact Nat.le_refl _
  | cons b p ih =>
      rw [prefixEnd_cons]
      split
      · split
        · simp
        · simp
      · simpa using ih

/-- Bytes below the next one are at most the byte itself, which is not the last byte. -/
theorem lt_add_one_iff {b c : UInt8} (hb : b ≠ 0xff) : c < b + 1 ↔ c ≤ b := by
  have hne : b.toNat ≠ 255 := fun h => hb (UInt8.toNat_inj.mp h)
  have hlt := b.toNat_lt
  rw [UInt8.lt_iff_toNat_lt, UInt8.le_iff_toNat_le, UInt8.toNat_add]
  have h1 : (1 : UInt8).toNat = 1 := rfl
  rw [h1, Nat.mod_eq_of_lt (by omega)]
  omega

theorem le_last (c : UInt8) : c ≤ 0xff := by
  have := c.toNat_lt
  rw [UInt8.le_iff_toNat_le]
  show c.toNat ≤ 255
  omega

theorem cons_lt_cons {b c : UInt8} {p k : Key} : b :: p < c :: k ↔ b < c ∨ b = c ∧ p < k :=
  List.cons_lt_cons_iff

theorem cons_le_cons {b c : UInt8} {p k : Key} : b :: p ≤ c :: k ↔ b < c ∨ b = c ∧ p ≤ k := by
  rw [← not_lt, cons_lt_cons, ← not_lt (a := k)]
  rcases lt_trichotomy b c with h | h | h
  · simp [h, h.ne', h.le]
  · simp [h]
  · simp [h, h.ne', not_lt.mpr h.le]

/-- **The range of a byte string**: the keys that start with it. -/
theorem isPrefix_iff (p k : Key) :
    p <+: k ↔ p ≤ k ∧ (prefixEnd p = [] ∨ k < prefixEnd p) := by
  induction p generalizing k with
  | nil =>
      have hle : ([] : Key) ≤ k := not_lt.mp (List.not_lt_nil k)
      simp [prefixEnd, hle]
  | cons b p ih =>
      cases k with
      | nil =>
          have hlt : ¬ b :: p ≤ ([] : Key) := not_le.mpr (List.nil_lt_cons b p)
          simp [hlt]
      | cons c k =>
          rw [List.cons_prefix_cons, ih, cons_le_cons, prefixEnd_cons]
          by_cases hend : prefixEnd p = []
          · rw [if_pos hend]
            by_cases hb : b = 0xff
            · -- no first byte is behind the last one
              have hmax : ¬ b < c := not_lt.mpr (hb ▸ le_last c)
              rw [if_pos hb]
              simp [hend, hmax]
            · -- the next first byte is the end
              rw [if_neg hb, cons_lt_cons, lt_add_one_iff hb]
              have hnil : ¬ k < ([] : Key) := List.not_lt_nil k
              rcases lt_trichotomy b c with h | h | h
              · simp [h, h.ne, not_le.mpr h, hnil]
              · simp [h, hend]
              · simp [h.ne', not_lt.mpr h.le]
          · rw [if_neg hend, cons_lt_cons]
            rcases lt_trichotomy b c with h | h | h
            · simp [h.ne, h.ne', not_lt.mpr h.le]
            · simp [h, hend]
            · simp [h.ne', not_lt.mpr h.le]

theorem inRange_prefixRange (p k : Key) : inRange (prefixRange p) k = true ↔ p <+: k := by
  rw [isPrefix_iff, inRange_iff]
  rfl

/-! ### The scan -/

/-- The end passes every length check the string itself passes. -/
theorem validateKey_prefixEnd {limits : Limits} {p : Key} (hp : limits.validateKey p = .ok ()) :
    limits.validateKey (prefixEnd p) = .ok () :=
  validateKey_eq_ok.mpr ((length_prefixEnd_le p).trans (validateKey_eq_ok.mp hp))

/-- `ScanPrefix` of a string that passes the length check makes an iterator, or fails for
another reason. -/
theorem scanPrefix_eq {cfg : Config} {M : Faults.Model Call} {w : World} {db : DB} {p : Key}
    {fates : List Faults.Fate} (hdb : w.proc = some db) (hopen : db.closed = false)
    (hp : db.limits.validateKey p = .ok ()) :
    scanPrefix cfg M w p fates =
      match newIterator ⟨w.disk, db⟩ (prefixRange p) db.currentSequence with
      | .error e => (w, .err e)
      | .ok it => ({ w with
          proc := some (db.registerReader db.currentSequence)
          iterators := w.iterators ++ [it] }, .ok) := by
  show World.updateProc w _ = _
  unfold World.updateProc World.addIterator
  rw [hdb]
  dsimp only
  rw [if_neg (by simp [hopen]), show (prefixRange p).start = p from rfl,
    show (prefixRange p).stop = prefixEnd p from rfl, hp, validateKey_prefixEnd hp]
  cases newIterator ⟨w.disk, db⟩ (prefixRange p) db.currentSequence with
  | error e => rfl
  | ok it => rfl

theorem newIterator_error {s : Sys} {opts : IteratorOptions} {maxSeq : UInt64} {e : DBError}
    (h : newIterator s opts maxSeq = .error e) : ∃ path, e = .missingTable path := by
  unfold newIterator at h
  split at h
  · rename_i he
    obtain rfl := Except.error.inj h
    exact readTables_error he
  · cases h

/-- **A scan by first bytes is exact.** The range of `p` holds the keys that start with `p`
and no others, its end is no longer than `p`, so in an open database that admits `p` the
call fails for a missing table only; and the iterator it makes holds, of all records of the
database it may see, those whose key starts with `p`. Where the versions are consistent it returns
the keys that start with `p` and that `Get` finds, in ascending order. -/
theorem scanPrefix_exact (p : Key) :
    (∀ k, p <+: k ↔ p ≤ k ∧ (prefixEnd p = [] ∨ k < prefixEnd p)) ∧
    (prefixEnd p).length ≤ p.length ∧
    ∀ (cfg : Config) (M : Faults.Model Call) (w : World) (db : DB) (fates : List Faults.Fate),
      w.proc = some db → db.closed = false → db.limits.validateKey p = .ok () →
      (∀ e, (scanPrefix cfg M w p fates).2 = .err e → ∃ path, e = .missingTable path) ∧
      (TablesInOrder ⟨w.disk, db⟩ → ∃ it,
        scanPrefix cfg M w p fates = ({ w with
          proc := some (db.registerReader db.currentSequence)
          iterators := w.iterators ++ [it] }, .ok) ∧
        (∀ r, r ∈ elements it.heap ↔
          r ∈ held ⟨w.disk, db⟩ ∧ r.seq ≤ db.currentSequence ∧ p <+: r.key) ∧
        (Consistent (held ⟨w.disk, db⟩) → Ascending it.output ∧
          ∀ k v, (∃ r ∈ it.output, r.key = k ∧ r.value = v) ↔
            p <+: k ∧ getAt ⟨w.disk, db⟩ k db.currentSequence = .ok v)) := by
  refine ⟨isPrefix_iff p, length_prefixEnd_le p, ?_⟩
  intro cfg M w db fates hdb hopen hp
  have heq := @scanPrefix_eq cfg M w db p fates hdb hopen hp
  constructor
  · intro e he
    rw [heq] at he
    cases hit : newIterator ⟨w.disk, db⟩ (prefixRange p) db.currentSequence with
    | error e' =>
        rw [hit] at he
        obtain rfl := Response.err.inj he
        exact newIterator_error hit
    | ok it =>
        rw [hit] at he
        cases he
  · intro hs
    obtain ⟨it, hit, -, -, -, helems⟩ := hs.newIterator (prefixRange p) db.currentSequence
    rw [hit] at heq
    refine ⟨it, heq, fun r => ?_, fun hc => ?_⟩
    · rw [helems, inRange_prefixRange]
    · obtain ⟨it', hit', -, -, -, hasc, hmem⟩ :=
        hs.scan_getAt hc (prefixRange p) db.currentSequence
      obtain rfl := Except.ok.inj (hit.symm.trans hit')
      exact ⟨hasc, fun k v => (hmem k v).trans (and_congr_left' (isPrefix_iff p k).symm)⟩

/-- A database with one key. -/
def oneKey : DB :=
  newDB ⟨1, 4, ⟨16, 16, 16, 64⟩⟩ (MemTable.new.put (putOf [1, 0xff, 3] 1 [7])) {} 1

/-- A string that ends in the last byte. -/
theorem scanPrefix_exact_lastByte :
    (([1, 0xff] : Key) <+: [1, 0xff, 3] ∧ prefixEnd [1, 0xff] = [2]) ∧
    ∃ it, scanPrefix ⟨fun _ => 0, List.length⟩ noFaults { proc := some oneKey } [1, 0xff] [] =
        ({ proc := some (oneKey.registerReader 1), iterators := [it] }, .ok) ∧
      ∃ r ∈ it.output, r.key = [1, 0xff, 3] ∧ r.value = [7] := by
  obtain ⟨hrange, -, hscan⟩ := scanPrefix_exact [1, 0xff]
  have hstarts : ([1, 0xff] : Key) <+: [1, 0xff, 3] := (hrange [1, 0xff, 3]).mpr (by decide)
  obtain ⟨it, hit, -, hout⟩ := (hscan ⟨fun _ => 0, List.length⟩ noFaults { proc := some oneKey }
    oneKey [] rfl rfl rfl).2 fun t ht => (by cases ht)
  obtain ⟨-, hmem⟩ := hout (by
    rintro r ⟨src, hsrc, hr⟩ r' ⟨src', hsrc', hr'⟩ - -
    obtain rfl := List.mem_singleton.mp hsrc
    obtain rfl := List.mem_singleton.mp hsrc'
    exact (List.mem_singleton.mp hr).trans (List.mem_singleton.mp hr').symm)
  exact ⟨⟨hstarts, by decide⟩, it, hit, (hmem _ _).mpr ⟨hstarts, by decide⟩⟩

end HyphaDB.Refine
