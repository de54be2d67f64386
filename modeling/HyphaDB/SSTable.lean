import HyphaDB.Memtable
import HyphaDB.Manifest

/-!
# HyphaDB.SSTable

An SSTable (`internal/sstable`) at the level of its **records in file order**. The writer
accepts records in key order with the sequences of one key descending, and reports the
first and last key; a point read scans from the first place the key can be and stops
behind it.
-/

namespace HyphaDB.SSTable

/-- The writer's order check, on neighbours. -/
def writable : List Record → Bool
  | a :: b :: recs =>
      !(b.key < a.key) && !(a.key = b.key && a.seq < b.seq) && writable (b :: recs)
  | _ => true

/-- The writer reports the first key it saw, or the empty key. -/
def smallestKey (recs : List Record) : Key :=
  match recs.head? with
  | some r => r.key
  | none => []

def largestKey (recs : List Record) : Key :=
  match recs.getLast? with
  | some r => r.key
  | none => []

/-- `SSTable.GetRecordAt`. -/
def getRecordAt : List Record → Key → UInt64 → Option Record
  | [], _, _ => none
  | r :: recs, key, maxSeq =>
      if r.key = key ∧ r.seq ≤ maxSeq then some r
      else if key < r.key then none
      else getRecordAt recs key maxSeq

/-- `SSTable.MaxSeq`. -/
def maxSeq (recs : List Record) : UInt64 := recs.foldl (fun m r => max m r.seq) 0

theorem writable_cons {a b : Record} {recs : List Record} :
    writable (a :: b :: recs) = true ↔ less b a = false ∧ writable (b :: recs) = true := by
  simp only [writable, less_eq_false, Bool.and_eq_true, Bool.not_eq_true', decide_eq_false_iff_not,
    Bool.and_eq_false_iff, not_lt]
  refine and_congr_left fun _ => ?_
  constructor
  · rintro ⟨hk, hne | hs⟩
    · exact Or.inl (lt_of_le_of_ne hk hne)
    · rcases hk.lt_or_eq with h | h
      · exact Or.inl h
      · exact Or.inr ⟨h, hs⟩
  · rintro (h | ⟨h, hs⟩)
    · exact ⟨h.le, Or.inl h.ne⟩
    · exact ⟨h.le, Or.inr hs⟩

/-- The check on neighbours is the order on all records. -/
theorem writable_iff {recs : List Record} : writable recs = true ↔ InOrder recs := by
  induction recs with
  | nil => simp [writable, InOrder]
  | cons a recs ih =>
      cases recs with
      | nil => simp [writable, InOrder]
      | cons b recs =>
          rw [writable_cons, ih]
          unfold InOrder
          rw [List.pairwise_cons (a := a)]
          refine and_congr_left fun hb => ⟨?_, fun h => h b List.mem_cons_self⟩
          intro hab r hr
          rcases List.mem_cons.mp hr with rfl | hr
          · exact hab
          · have hbr := (List.pairwise_cons.mp hb).1 r hr
            rw [less_eq_false] at hab hbr ⊢
            rcases hab with h | ⟨h, hs⟩ <;> rcases hbr with h' | ⟨h', hs'⟩
            · exact Or.inl (h.trans h')
            · exact Or.inl (h' ▸ h)
            · exact Or.inl (h ▸ h')
            · exact Or.inr ⟨h.trans h', hs'.trans hs⟩

theorem getRecordAt_eq_find {recs : List Record} (h : InOrder recs) (k : Key) (s : UInt64) :
    getRecordAt recs k s = recs.find? (visible k s) := by
  induction recs with
  | nil => rfl
  | cons x xs ih =>
      obtain ⟨hx, hxs⟩ := List.pairwise_cons.mp h
      unfold getRecordAt
      by_cases hv : x.key = k ∧ x.seq ≤ s
      · rw [if_pos hv, List.find?_cons_of_pos (visible_iff.mpr hv)]
      · rw [if_neg hv, List.find?_cons_of_neg (fun h => hv (visible_iff.mp h))]
        by_cases hgt : k < x.key
        · rw [if_pos hgt, eq_comm, List.find?_eq_none]
          intro r hr
          have hle : x.key ≤ r.key := by
            rcases less_eq_false.mp (hx r hr) with h | ⟨h, -⟩
            · exact h.le
            · exact h.le
          simp [(hgt.trans_le hle).ne']
        · rw [if_neg hgt, ih hxs]

/-- A point read finds the newest visible version. -/
theorem getRecordAt_reads {recs : List Record} (h : InOrder recs) (k : Key) (s : UInt64) :
    ReadsAt (recordsOf recs) k s (getRecordAt recs k s) := by
  rw [getRecordAt_eq_find h]
  exact find_reads h k s

theorem le_foldl_maxSeq (recs : List Record) (m : UInt64) :
    m ≤ recs.foldl (fun m r => max m r.seq) m ∧
      ∀ r ∈ recs, r.seq ≤ recs.foldl (fun m r => max m r.seq) m := by
  induction recs generalizing m with
  | nil => exact ⟨le_refl _, by simp⟩
  | cons x xs ih =>
      obtain ⟨hm, hxs⟩ := ih (max m x.seq)
      rw [List.foldl_cons]
      refine ⟨(le_max_left _ _).trans hm, ?_⟩
      intro r hr
      rcases List.mem_cons.mp hr with rfl | hr
      · exact (le_max_right _ _).trans hm
      · exact hxs r hr

theorem le_maxSeq {recs : List Record} {r : Record} (h : r ∈ recs) : r.seq ≤ maxSeq recs :=
  (le_foldl_maxSeq recs 0).2 r h

theorem smallestKey_mem {recs : List Record} (h : recs ≠ []) :
    ∃ r ∈ recs, r.key = smallestKey recs := by
  cases recs with
  | nil => exact absurd rfl h
  | cons r recs => exact ⟨r, List.mem_cons_self, rfl⟩

theorem largestKey_mem {recs : List Record} (h : recs ≠ []) :
    ∃ r ∈ recs, r.key = largestKey recs := by
  refine ⟨recs.getLast h, List.getLast_mem h, ?_⟩
  unfold largestKey
  rw [List.getLast?_eq_some_getLast h]

/-- The keys of records in order lie between the first and the last. -/
theorem key_bounds {recs : List Record} (h : InOrder recs) {r : Record} (hr : r ∈ recs) :
    smallestKey recs ≤ r.key ∧ r.key ≤ largestKey recs := by
  have hkey : ∀ a b : Record, less b a = false → a.key ≤ b.key := by
    intro a b hab
    rcases less_eq_false.mp hab with h | ⟨h, -⟩
    · exact h.le
    · exact h.le
  constructor
  · cases recs with
    | nil => cases hr
    | cons x xs =>
        rcases List.mem_cons.mp hr with rfl | hr
        · exact le_refl _
        · exact hkey x r ((List.pairwise_cons.mp h).1 r hr)
  · rcases List.eq_nil_or_concat recs with rfl | ⟨xs, x, rfl⟩
    · cases hr
    · rw [List.concat_eq_append] at h hr ⊢
      unfold InOrder at h
      rw [List.pairwise_append] at h
      simp only [largestKey, List.getLast?_append, List.getLast?_singleton, Option.some_or]
      rcases List.mem_append.mp hr with hr | hr
      · exact hkey r x (h.2.2 r hr x List.mem_cons_self)
      · exact le_of_eq (congrArg Record.key (List.mem_singleton.mp hr))

end HyphaDB.SSTable
