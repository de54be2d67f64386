import HyphaDB.Table.Block
import HyphaDB.Memtable

/-!
# HyphaDB.Table.Cursor

What a **cursor** does in a block that the writer has made.

`logicalBlock` is the block of a list of records: the count, the records, the restarts and the
interval. A cursor in it is at one of its records, `cursorAt recs n`, and the operations are
equations between such cursors: a new cursor is at record 0, `next` gives record `n` and goes to
`n + 1`, and `seek` goes to a record that no record of the key lies before. A block read in the
legacy format gives the same records (`next_cursorIn`) and then finds that bytes are left over.
-/

namespace HyphaDB.Table

open Checked
open Record (headerSize)

/-! ### Records in a row -/

def recordsBytes (recs : List Record) : Bytes := recs.flatMap Record.encodeBinary

/-- Where record `n` starts in its block. -/
def offsetOf (recs : List Record) (n : Nat) : Nat := 4 + (recordsBytes (recs.take n)).length

theorem recordsBytes_append (a b : List Record) :
    recordsBytes (a ++ b) = recordsBytes a ++ recordsBytes b := List.flatMap_append

theorem recordsBytes_cons (r : Record) (recs : List Record) :
    recordsBytes (r :: recs) = r.encodeBinary ++ recordsBytes recs := rfl

@[simp] theorem offsetOf_zero (recs : List Record) : offsetOf recs 0 = 4 := rfl

theorem offsetOf_length (recs : List Record) :
    offsetOf recs recs.length = 4 + (recordsBytes recs).length := by
  rw [offsetOf, List.take_length]

theorem offsetOf_succ {recs : List Record} {n : Nat} {r : Record} (h : recs[n]? = some r) :
    offsetOf recs (n + 1) = offsetOf recs n + r.encodedSize := by
  unfold offsetOf
  rw [List.take_add_one, h, recordsBytes_append, List.length_append]
  simp [recordsBytes]
  omega

theorem offsetOf_lt_succ {recs : List Record} {n : Nat} (h : n < recs.length) :
    offsetOf recs n + headerSize ≤ offsetOf recs (n + 1) := by
  rw [offsetOf_succ (List.getElem?_eq_getElem h)]
  unfold Record.encodedSize
  omega

theorem offsetOf_add_le {recs : List Record} (m k : Nat) (h : m + k ≤ recs.length) :
    offsetOf recs m + headerSize * k ≤ offsetOf recs (m + k) := by
  induction k with
  | zero => exact le_rfl
  | succ k ih =>
      have hstep : offsetOf recs (m + k) + headerSize ≤ offsetOf recs (m + k + 1) :=
        offsetOf_lt_succ (by omega)
      have hbefore := ih (by omega)
      rw [show m + (k + 1) = m + k + 1 by omega, Nat.mul_succ]
      omega

theorem offsetOf_lt {recs : List Record} {m n : Nat} (hmn : m < n) (hn : n ≤ recs.length) :
    offsetOf recs m < offsetOf recs n := by
  obtain ⟨k, rfl⟩ := Nat.exists_eq_add_of_lt hmn
  have hle : offsetOf recs m + headerSize * (k + 1) ≤ offsetOf recs (m + (k + 1)) :=
    offsetOf_add_le m (k + 1) (by omega)
  unfold headerSize at hle
  rw [show m + k + 1 = m + (k + 1) by omega]
  omega

/-! ### Restarts -/

/-- How many restarts so many records have. -/
def restartCount (interval n : Nat) : Nat := (n + interval - 1) / interval

/-- The offsets of every `interval`-th record. -/
def restarts (interval : Nat) (recs : List Record) : List Nat :=
  (List.range (restartCount interval recs.length)).map fun j => offsetOf recs (j * interval)

theorem mul_lt_of_lt_restartCount {interval n j : Nat} (hpos : 0 < interval)
    (hj : j < restartCount interval n) : j * interval < n := by
  have hle : (j + 1) * interval ≤ n + interval - 1 :=
    (Nat.mul_le_mul_right interval hj).trans (Nat.div_mul_le_self _ _)
  rw [Nat.add_mul, Nat.one_mul] at hle
  omega

theorem restartCount_pos {interval n : Nat} (hpos : 0 < interval) (hn : 0 < n) :
    0 < restartCount interval n := by
  unfold restartCount
  exact Nat.div_pos (by omega) hpos

@[simp] theorem restarts_length (interval : Nat) (recs : List Record) :
    (restarts interval recs).length = restartCount interval recs.length := by
  simp [restarts]

theorem restarts_getElem? {interval : Nat} {recs : List Record} {j : Nat}
    (hj : j < restartCount interval recs.length) :
    (restarts interval recs)[j]? = some (offsetOf recs (j * interval)) := by
  simp [restarts, hj]

/-- One more record adds a restart when the records so far are a multiple of the interval. -/
theorem restarts_concat {interval : Nat} (hpos : 0 < interval) (recs : List Record) (r : Record) :
    restarts interval (recs ++ [r]) =
      restarts interval recs ++
        if recs.length % interval = 0 then [4 + (recordsBytes recs).length] else [] := by
  have hold : ∀ j, j * interval ≤ recs.length →
      offsetOf (recs ++ [r]) (j * interval) = offsetOf recs (j * interval) := by
    intro j hj
    unfold offsetOf
    rw [List.take_append_of_le_length hj]
  have hkeep : (List.range (restartCount interval recs.length)).map
      (fun j => offsetOf (recs ++ [r]) (j * interval)) = restarts interval recs := by
    refine List.map_congr_left fun j hj => hold j ?_
    exact (mul_lt_of_lt_restartCount hpos (List.mem_range.mp hj)).le
  have hdiv := Nat.div_add_mod recs.length interval
  have hmod := Nat.mod_lt recs.length hpos
  -- The count of records is `interval * q + m`; only `m = 0` makes the quotient grow.
  generalize hq : recs.length / interval = q at hdiv
  generalize hm : recs.length % interval = m at hdiv hmod
  have hnew : restartCount interval (recs ++ [r]).length = q + 1 := by
    unfold restartCount
    rw [List.length_append, List.length_singleton, Nat.div_eq_iff hpos]
    constructor
    · rw [Nat.add_mul, Nat.mul_comm q]
      omega
    · rw [Nat.add_mul, Nat.mul_comm q]
      omega
  by_cases hzero : m = 0
  · have hcount : restartCount interval recs.length = q := by
      unfold restartCount
      rw [Nat.div_eq_iff hpos, Nat.mul_comm q]
      omega
    have hlast : q * interval = recs.length := by
      rw [Nat.mul_comm]
      omega
    rw [if_pos hzero]
    unfold restarts at hkeep ⊢
    rw [hnew, List.range_succ, List.map_append, ← hcount, hkeep, List.map_singleton, hcount,
      hold q hlast.le, hlast, offsetOf_length]
  · have hcount : restartCount interval recs.length = q + 1 := by
      unfold restartCount
      rw [Nat.div_eq_iff hpos, Nat.add_mul, Nat.mul_comm q]
      omega
    rw [if_neg hzero, List.append_nil, ← hkeep, hcount, restarts, hnew]

/-- Fixed-width numbers in a row: what stands behind the first `i` of them. -/
theorem drop_flatMap_toLE {xs : List Nat} {i x : Nat} (h : xs[i]? = some x) :
    (xs.flatMap (toLE 4)).drop (i * 4) =
      toLE 4 x ++ (xs.drop (i + 1)).flatMap (toLE 4) := by
  induction xs generalizing i with
  | nil => simp at h
  | cons y xs ih =>
      cases i with
      | zero =>
          simp only [List.getElem?_cons_zero, Option.some.injEq] at h
          subst h
          rfl
      | succ i =>
          rw [List.flatMap_cons, List.drop_succ_cons, ← ih (by simpa using h), Nat.succ_mul,
            Nat.add_comm (i * 4) 4, ← List.drop_drop, List.drop_left' (toLE_length 4 y)]

@[simp] theorem flatMap_toLE_length (xs : List Nat) :
    (xs.flatMap (toLE 4)).length = xs.length * 4 := by
  induction xs with
  | nil => rfl
  | cons x xs ih =>
      rw [List.flatMap_cons, List.length_append, ih, toLE_length, List.length_cons]
      omega

/-! ### Logical blocks -/

/-- The logical block of a list of records. -/
def logicalBlock (interval : Nat) (recs : List Record) : Bytes :=
  toLE 4 recs.length ++ recordsBytes recs ++ (restarts interval recs).flatMap (toLE 4) ++
    toLE 4 interval ++ toLE 4 (restarts interval recs).length

/-- Records that make a block a reader takes. -/
structure BlockFits (interval : Nat) (recs : List Record) : Prop where
  nonempty : recs ≠ []
  interval_pos : 0 < interval
  interval_lt : interval < 2 ^ 32
  size_le : (logicalBlock interval recs).length ≤ maxBlockSize
  records_fit : ∀ r ∈ recs, r.Fits

/-- The cursor at record `n`. -/
def cursorAt (interval : Nat) (recs : List Record) (n : Nat) : LogicalBlockCursor :=
  { data := logicalBlock interval recs
    count := recs.length
    index := n
    offset := offsetOf recs n
    recordsEnd := offsetOf recs recs.length
    restartInterval := interval
    restartOffsets := (restarts interval recs).flatMap (toLE 4) }

/-- The cursor at record `n`, read in the current format or in the legacy one. The legacy format
knows no restarts, so the records seem to go on to the end of the block. -/
def cursorIn (legacy : Bool) (interval : Nat) (recs : List Record) (n : Nat) : LogicalBlockCursor :=
  if legacy then
    { data := logicalBlock interval recs
      count := recs.length
      index := n
      offset := offsetOf recs n
      recordsEnd := (logicalBlock interval recs).length }
  else cursorAt interval recs n

@[simp] theorem cursorIn_err (legacy : Bool) (interval : Nat) (recs : List Record) (n : Nat) :
    (cursorIn legacy interval recs n).err = none := by
  cases legacy <;> rfl

@[simp] theorem cursorIn_count (legacy : Bool) (interval : Nat) (recs : List Record) (n : Nat) :
    (cursorIn legacy interval recs n).count = recs.length := by
  cases legacy <;> rfl

theorem logicalBlock_length (interval : Nat) (recs : List Record) :
    (logicalBlock interval recs).length =
      offsetOf recs recs.length + restartCount interval recs.length * 4 + 8 := by
  rw [offsetOf_length]
  simp only [logicalBlock, List.length_append, toLE_length, flatMap_toLE_length, restarts_length]

namespace BlockFits

variable {interval : Nat} {recs : List Record} (h : BlockFits interval recs)

include h

theorem length_pos : 0 < recs.length := List.length_pos_of_ne_nil h.nonempty

/-- Everything in the block is counted with room to spare. -/
theorem bounds : 4 + headerSize * recs.length ≤ offsetOf recs recs.length ∧
    offsetOf recs recs.length + restartCount interval recs.length * 4 + 8 ≤ maxBlockSize := by
  have hadd : offsetOf recs 0 + headerSize * recs.length ≤ offsetOf recs (0 + recs.length) :=
    offsetOf_add_le 0 recs.length (by omega)
  rw [Nat.zero_add, offsetOf_zero] at hadd
  exact ⟨hadd, (logicalBlock_length interval recs) ▸ h.size_le⟩

/-- Each restart reads back as the offset of its record. -/
theorem readLE_restart {ε : Type} {j : Nat} (hj : j < restartCount interval recs.length) :
    (readLE 4 (((restarts interval recs).flatMap (toLE 4)).drop (j * 4)) : Attempt ε Nat) =
      .ok (offsetOf recs (j * interval)) := by
  have hlt := mul_lt_of_lt_restartCount h.interval_pos hj
  have hoffset := offsetOf_lt hlt le_rfl
  have hbounds := h.bounds
  unfold maxBlockSize at hbounds
  rw [drop_flatMap_toLE (restarts_getElem? hj), readLE_toLE (by omega)]

theorem checkRestarts_eq {left i previous : Nat}
    (hleft : i + left = restartCount interval recs.length)
    (hprevious : 0 < i → 0 < left → previous < offsetOf recs (i * interval)) :
    checkRestarts ((restarts interval recs).flatMap (toLE 4)) (offsetOf recs recs.length) left i
      previous = .ok () := by
  induction left generalizing i previous with
  | zero => rfl
  | succ left ih =>
      have hpos := h.interval_pos
      have hbounds := h.bounds
      unfold maxBlockSize at hbounds
      have hi : i < restartCount interval recs.length := by omega
      have hlt := offsetOf_lt (mul_lt_of_lt_restartCount hpos hi) le_rfl
      have hfour : 4 ≤ offsetOf recs (i * interval) := by unfold offsetOf; omega
      have hfirst : i = 0 → offsetOf recs (i * interval) = 4 := by
        rintro rfl
        rw [Nat.zero_mul, offsetOf_zero]
      unfold checkRestarts
      rw [fits_eq (by omega), ok_bind, slice_to_end (by simp; omega), ok_bind,
        h.readLE_restart hi, ok_bind, if_neg (by omega), if_neg (by omega),
        if_neg (fun hle => by have := hprevious hle.1 (Nat.succ_pos left); omega)]
      refine ih (by omega) fun _ hmore => offsetOf_lt ?_ ?_
      · rw [Nat.add_mul]
        omega
      · exact (mul_lt_of_lt_restartCount hpos (by omega)).le

/-- The restarts of a block read back. -/
theorem readRestarts_eq : readRestarts (logicalBlock interval recs) recs.length =
    .ok (offsetOf recs recs.length, interval, (restarts interval recs).flatMap (toLE 4)) := by
  have hpos := h.interval_pos
  have hlt := h.interval_lt
  have hn := h.length_pos
  have hbounds := h.bounds
  have hlen := logicalBlock_length interval recs
  unfold maxBlockSize headerSize at hbounds
  have hcount := restartCount_pos hpos hn
  have hhead : (toLE 4 recs.length ++ recordsBytes recs).length = offsetOf recs recs.length := by
    rw [offsetOf_length, List.length_append, toLE_length]
  -- The last four bytes, the four before them, and the offsets before those.
  have hlast : (slice (logicalBlock interval recs) ((logicalBlock interval recs).length - 4)
      (logicalBlock interval recs).length : Attempt BlockError Bytes) =
      .ok (toLE 4 (restarts interval recs).length) := by
    rw [slice_to_end (by omega)]
    unfold logicalBlock
    rw [List.drop_left' (by simp; omega)]
  have hoffsets : (slice (logicalBlock interval recs) (offsetOf recs recs.length)
      ((logicalBlock interval recs).length - 8) : Attempt BlockError Bytes) =
      .ok ((restarts interval recs).flatMap (toLE 4)) := by
    unfold logicalBlock at hlen ⊢
    rw [List.append_assoc _ (toLE 4 interval)] at hlen ⊢
    refine slice_append _ _ _ hhead.symm ?_
    rw [hlen, hhead, flatMap_toLE_length, restarts_length]
    omega
  have hinterval : (slice (logicalBlock interval recs) ((logicalBlock interval recs).length - 8)
      ((logicalBlock interval recs).length - 4) : Attempt BlockError Bytes) =
      .ok (toLE 4 interval) := by
    have hpre : (toLE 4 recs.length ++ recordsBytes recs ++
        (restarts interval recs).flatMap (toLE 4)).length =
        (logicalBlock interval recs).length - 8 := by
      rw [List.length_append, hhead, flatMap_toLE_length, restarts_length, hlen]
      omega
    refine slice_append _ _ _ hpre.symm ?_
    rw [hpre, toLE_length]
    omega
  have hread : ∀ n, n < 2 ^ 32 → (readLE 4 (toLE 4 n) : Attempt BlockError Nat) = .ok n :=
    fun n hn => readLE_toLE_self (by omega)
  unfold readRestarts
  rw [if_neg (by omega), sub_eq (by omega), ok_bind, hlast, ok_bind,
    hread _ (by rw [restarts_length]; omega), ok_bind, restarts_length, fits_eq (by omega), ok_bind,
    ok_bind, if_neg (by omega), sub_eq (by omega), ok_bind, sub_eq (by omega),
    ok_bind, show (logicalBlock interval recs).length -
      (restartCount interval recs.length * 4 + 8) = offsetOf recs recs.length by omega, hoffsets,
    ok_bind, hinterval, ok_bind, hread _ hlt, ok_bind, if_neg (by omega), if_pos hn,
    fits_eq (by omega), ok_bind, sub_eq (by omega), ok_bind]
  rw [show (pure ((recs.length + interval - 1) / interval) : Attempt BlockError Nat) =
      .ok (restartCount interval recs.length) from rfl, ok_bind, if_neg (not_not.mpr rfl),
    h.checkRestarts_eq (Nat.zero_add _) (fun h0 => absurd h0 (lt_irrefl 0)), ok_bind]
  rfl

/-- The count at the front of the block. -/
theorem readCount_eq :
    (slice (logicalBlock interval recs) 0 4 >>= readLE 4 : Attempt BlockError Nat) =
    .ok recs.length := by
  have hbounds := h.bounds
  unfold maxBlockSize headerSize at hbounds
  have hslice : (slice (logicalBlock interval recs) 0 4 : Attempt BlockError Bytes) =
      .ok (toLE 4 recs.length) := by
    unfold logicalBlock
    simp only [List.append_assoc]
    exact slice_append [] _ _ rfl (by simp)
  rw [hslice, ok_bind, readLE_toLE_self (by omega)]

/-- The records do not need more room than they have. -/
theorem count_le {recordsEnd : Nat} (hend : offsetOf recs recs.length ≤ recordsEnd) :
    recs.length ≤ (recordsEnd - 4) / headerSize := by
  have hbounds := h.bounds
  rw [Nat.le_div_iff_mul_le (by decide), Nat.mul_comm]
  omega

/-- **A new cursor is at the first record.** -/
theorem newLogicalBlockCursor_eq :
    newLogicalBlockCursorForVersion (logicalBlock interval recs) currentFormatVersion =
      .ok (cursorAt interval recs 0) := by
  have hlen := logicalBlock_length interval recs
  have hbounds := h.bounds
  unfold newLogicalBlockCursorForVersion
  rw [if_neg (by omega), ← bind_assoc, h.readCount_eq, ok_bind, if_neg (by decide), if_pos rfl,
    h.readRestarts_eq, ok_bind]
  dsimp only
  rw [sub_eq (by omega), ok_bind, if_neg (not_lt.mpr (h.count_le le_rfl))]
  rfl

/-- So it is in the legacy format, which takes the restarts for records as well. -/
theorem newLegacyCursor_eq :
    newLogicalBlockCursorForVersion (logicalBlock interval recs) legacyFormatVersion =
      .ok (cursorIn true interval recs 0) := by
  have hlen := logicalBlock_length interval recs
  have hbounds := h.bounds
  unfold newLogicalBlockCursorForVersion
  rw [if_neg (by omega), ← bind_assoc, h.readCount_eq, ok_bind, if_pos rfl]
  show (sub (logicalBlock interval recs).length 4 >>= fun remaining =>
    if remaining / headerSize < recs.length then _ else _) = _
  rw [sub_eq (by omega), ok_bind, if_neg (not_lt.mpr (h.count_le (by omega)))]
  rfl

end BlockFits

/-! ### Moving through a block -/

section Moving

variable {ε : Type} {interval : Nat} {recs : List Record}

/-- What stands behind the records of a block. -/
def blockTail (interval : Nat) (recs : List Record) : Bytes :=
  (restarts interval recs).flatMap (toLE 4) ++ toLE 4 interval ++
    toLE 4 (restarts interval recs).length

theorem logicalBlock_split (n : Nat) : logicalBlock interval recs =
    toLE 4 recs.length ++ recordsBytes (recs.take n) ++ recordsBytes (recs.drop n) ++
      blockTail interval recs := by
  have hsplit : recordsBytes recs = recordsBytes (recs.take n) ++ recordsBytes (recs.drop n) := by
    rw [← recordsBytes_append, List.take_append_drop]
  unfold logicalBlock blockTail
  rw [hsplit]
  simp only [List.append_assoc]

/-- From record `n` on there are the records from `n` on. -/
theorem slice_records (n : Nat) :
    (slice (logicalBlock interval recs) (offsetOf recs n) (offsetOf recs recs.length) :
      Attempt ε Bytes) = .ok (recordsBytes (recs.drop n)) := by
  rw [logicalBlock_split n]
  refine slice_append _ _ _ ?_ ?_
  · rw [List.length_append, toLE_length]
    rfl
  · have hsplit := congrArg (fun rs => (recordsBytes rs).length) (List.take_append_drop n recs)
    rw [recordsBytes_append, List.length_append] at hsplit
    rw [offsetOf_length, List.length_append, toLE_length]
    omega

/-- A cursor in front of the bytes of record `n` gives it. -/
theorem next_of_slice (h : BlockFits interval recs) {n : Nat} {r : Record} (hr : recs[n]? = some r)
    {c : LogicalBlockCursor} (herr : c.err = none) (hcount : c.count = recs.length)
    (hindex : c.index = n) (hoffset : c.offset = offsetOf recs n) {tail : Bytes}
    (hslice : (slice c.data c.offset c.recordsEnd : Attempt ε Bytes) =
      .ok (recordsBytes (recs.drop n) ++ tail)) :
    (c.next : Attempt ε _) =
      .ok (some r.plain, { c with offset := offsetOf recs (n + 1), index := n + 1 }) := by
  obtain ⟨hn, rfl⟩ := List.getElem?_eq_some_iff.mp hr
  have hfits := h.records_fit _ (List.getElem_mem hn)
  have hlt := offsetOf_lt hn le_rfl
  have hle : offsetOf recs (n + 1) ≤ offsetOf recs recs.length := by
    rcases Nat.lt_or_eq_of_le (Nat.succ_le_of_lt hn) with hlt' | heq
    · exact (offsetOf_lt hlt' le_rfl).le
    · rw [← heq]
  have hbounds := h.bounds
  have hsucc := offsetOf_succ hr
  unfold maxBlockSize headerSize at hbounds
  unfold LogicalBlockCursor.next
  rw [if_neg (by rw [herr]; decide), if_neg (by omega), hslice, ok_bind,
    List.drop_eq_getElem_cons hn, recordsBytes_cons, List.append_assoc,
    decodeRecordView_encodeBinary hfits, handle_ok]
  dsimp only
  rw [fits_eq (by omega), ok_bind, fits_eq (by omega), ok_bind, hoffset, hindex, hsucc]
  rfl

/-- **The next record**, and the cursor behind it. -/
theorem next_cursorAt (h : BlockFits interval recs) {n : Nat} {r : Record}
    (hr : recs[n]? = some r) :
    ((cursorAt interval recs n).next : Attempt ε _) =
      .ok (some r.plain, cursorAt interval recs (n + 1)) := by
  have hslice : (slice (logicalBlock interval recs) (offsetOf recs n)
      (offsetOf recs recs.length) : Attempt ε Bytes) = .ok (recordsBytes (recs.drop n) ++ []) := by
    rw [slice_records, List.append_nil]
  exact next_of_slice h hr rfl rfl rfl rfl hslice

/-- The same in either format. -/
theorem next_cursorIn (h : BlockFits interval recs) (legacy : Bool) {n : Nat} {r : Record}
    (hr : recs[n]? = some r) :
    ((cursorIn legacy interval recs n).next : Attempt ε _) =
      .ok (some r.plain, cursorIn legacy interval recs (n + 1)) := by
  cases legacy with
  | false => exact next_cursorAt h hr
  | true =>
      have hslice : (slice (logicalBlock interval recs) (offsetOf recs n)
          (logicalBlock interval recs).length : Attempt ε Bytes) =
          .ok (recordsBytes (recs.drop n) ++ blockTail interval recs) := by
        have hpre : (toLE 4 recs.length ++ recordsBytes (recs.take n)).length =
            offsetOf recs n := by
          rw [List.length_append, toLE_length]
          rfl
        rw [logicalBlock_split n, List.append_assoc (_ ++ recordsBytes (recs.take n)), ← hpre,
          slice_to_end (by simp only [List.length_append]; omega), List.drop_left]
      exact next_of_slice h hr rfl rfl rfl rfl hslice

/-- A block ends behind its last record. -/
theorem next_cursorAt_length :
    ((cursorAt interval recs recs.length).next : Attempt ε _) =
      .ok (none, cursorAt interval recs recs.length) := by
  have hindex : (cursorAt interval recs recs.length).index =
      (cursorAt interval recs recs.length).count := rfl
  have hoffset : (cursorAt interval recs recs.length).offset =
      (cursorAt interval recs recs.length).recordsEnd := rfl
  unfold LogicalBlockCursor.next
  rw [if_neg (by simp [cursorAt]), if_pos hindex, if_neg (not_not.mpr hoffset)]
  rfl

/-- In the legacy format the restarts are left over at the end. -/
theorem next_legacy_length :
    ∃ c, ((cursorIn true interval recs recs.length).next : Attempt ε _) = .ok (none, c) ∧
      c.err.isSome = true := by
  have hlen := logicalBlock_length interval recs
  have hindex : (cursorIn true interval recs recs.length).index =
      (cursorIn true interval recs recs.length).count := rfl
  have hoffset : (cursorIn true interval recs recs.length).offset = offsetOf recs recs.length := rfl
  have hend : (cursorIn true interval recs recs.length).recordsEnd =
      (logicalBlock interval recs).length := rfl
  unfold LogicalBlockCursor.next
  rw [if_neg (by simp [cursorIn]), if_pos hindex, if_pos (by omega), sub_eq (by omega), ok_bind]
  exact ⟨_, rfl, rfl⟩

/-- Keys that do not descend. -/
def KeysAscend (recs : List Record) : Prop := recs.Pairwise fun a b => a.key ≤ b.key

theorem KeysAscend.le (h : KeysAscend recs) {i j : Nat} {a b : Record} (ha : recs[i]? = some a)
    (hb : recs[j]? = some b) (hij : i ≤ j) : a.key ≤ b.key := by
  obtain ⟨hi, rfl⟩ := List.getElem?_eq_some_iff.mp ha
  obtain ⟨hj, rfl⟩ := List.getElem?_eq_some_iff.mp hb
  rcases Nat.lt_or_eq_of_le hij with hlt | rfl
  · exact List.pairwise_iff_getElem.mp h i j hi hj hlt
  · exact le_rfl

/-- A restart leads to its record. -/
theorem restartOffset_cursorAt (h : BlockFits interval recs) {n j : Nat}
    (hj : j < restartCount interval recs.length) :
    ((cursorAt interval recs n).restartOffset j : Attempt ε Nat) =
      .ok (offsetOf recs (j * interval)) := by
  have hbounds := h.bounds
  unfold maxBlockSize headerSize at hbounds
  have hlen : ((restarts interval recs).flatMap (toLE 4)).length =
      restartCount interval recs.length * 4 := by
    rw [flatMap_toLE_length, restarts_length]
  have hread := h.readLE_restart (ε := ε) hj
  rw [readLE_eq (by rw [List.length_drop]; omega)] at hread
  unfold LogicalBlockCursor.restartOffset
  simp only [cursorAt]
  rw [fits_eq (by omega), ok_bind, fits_eq (by omega), ok_bind, slice_eq (by omega) (by omega),
    ok_bind, Nat.add_sub_cancel_left, readLE_eq (by
      rw [List.length_take, List.length_drop]
      omega), List.take_take, Nat.min_self]
  exact hread

/-- What the binary search of `seek` asks. -/
theorem restartReached_cursorAt (h : BlockFits interval recs) {n j : Nat} {r : Record} (key : Key)
    (hj : j < restartCount interval recs.length) (hr : recs[j * interval]? = some r) :
    (cursorAt interval recs n).restartReached key j = .ok (decide (key ≤ r.key)) := by
  obtain ⟨hlt, rfl⟩ := List.getElem?_eq_some_iff.mp hr
  unfold LogicalBlockCursor.restartReached
  rw [restartOffset_cursorAt h hj, ok_bind]
  simp only [cursorAt]
  rw [slice_records (j * interval), ok_bind, List.drop_eq_getElem_cons hlt, recordsBytes_cons,
    decodeRecordView_encodeBinary (h.records_fit _ (List.getElem_mem hlt)), ok_bind]
  rfl

/-- **`seek` goes to a record that only records of smaller keys lie before.** -/
theorem seek_cursorAt (h : BlockFits interval recs) (hasc : KeysAscend recs) (n : Nat)
    (key : Key) :
    ∃ m, m ≤ recs.length ∧
      ((cursorAt interval recs n).seek key : Attempt ε LogicalBlockCursor) =
        .ok (cursorAt interval recs m) ∧
      ∀ r ∈ recs.take m, r.key < key := by
  have hpos := h.interval_pos
  have hbounds := h.bounds
  unfold maxBlockSize headerSize at hbounds
  have hcount := restartCount_pos hpos h.length_pos
  have hlen : ((restarts interval recs).flatMap (toLE 4)).length =
      restartCount interval recs.length * 4 := by
    rw [flatMap_toLE_length, restarts_length]
  have hrecord : ∀ j, j < restartCount interval recs.length →
      ∃ r, recs[j * interval]? = some r := fun j hj =>
    ⟨_, List.getElem?_eq_getElem (mul_lt_of_lt_restartCount hpos hj)⟩
  let reached : Nat → Bool := fun j =>
    recs[j * interval]?.elim true fun r => decide (key ≤ r.key)
  have hprobe : ∀ j, j < restartCount interval recs.length →
      (cursorAt interval recs n).restartReached key j = .ok (reached j) := by
    intro j hj
    obtain ⟨r, hr⟩ := hrecord j hj
    rw [restartReached_cursorAt h key hj hr]
    simp only [reached, hr, Option.elim_some]
  have hmono : ∀ a b, a ≤ b → b < restartCount interval recs.length → reached a = true →
      reached b = true := by
    intro a b hab hb ha
    obtain ⟨r, hr⟩ := hrecord a (by omega)
    obtain ⟨r', hr'⟩ := hrecord b hb
    simp only [reached, hr, hr', Option.elim_some, decide_eq_true_eq] at ha ⊢
    exact ha.trans (hasc.le hr hr' (Nat.mul_le_mul_right interval hab))
  obtain ⟨k, hsearch, hk, hbelow, -⟩ := search_eq hprobe hmono
  have hi : k - 1 < restartCount interval recs.length := by omega
  have hlt := mul_lt_of_lt_restartCount hpos hi
  refine ⟨(k - 1) * interval, hlt.le, ?_, ?_⟩
  · have hback : (if k = restartCount interval recs.length then
        sub (restartCount interval recs.length) 1 else pure (k - 1) : Attempt ε Nat) =
        .ok (k - 1) := by
      split
      · rw [sub_eq (by omega)]
        congr 2
        omega
      · rfl
    have hindex : (k - 1) * interval < 2 ^ 32 := by omega
    unfold LogicalBlockCursor.seek
    rw [if_neg (by simp only [cursorAt, hlen]; simp; omega)]
    dsimp only
    rw [show (cursorAt interval recs n).restartOffsets.length / 4 =
        restartCount interval recs.length by simp only [cursorAt, hlen]; omega, hsearch, handle_ok,
      hback, ok_bind, restartOffset_cursorAt h hi, ok_bind, fits_eq (by omega), ok_bind]
    simp only [cursorAt]
    rw [fits_eq hindex]
    rfl
  · intro r hr
    obtain ⟨i, hi', hri⟩ := List.mem_take_iff_getElem.mp hr
    by_cases hzero : k = 0
    · rw [hzero] at hi'
      simp at hi'
    · obtain ⟨r', hr'⟩ := hrecord (k - 1) hi
      have hfalse := hbelow (k - 1) (by omega)
      simp only [reached, hr', Option.elim_some, decide_eq_false_iff_not, not_le] at hfalse
      refine lt_of_le_of_lt (hasc.le (i := i) ?_ hr' (by omega)) hfalse
      rw [← hri]
      exact List.getElem?_eq_getElem _

end Moving

end HyphaDB.Table
