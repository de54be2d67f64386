import HyphaDB.Lib.Merge
import HyphaDB.SSTable

/-!
# HyphaDB.Compaction.Merge

`MergeSSTablesWithOptions`: the records of the input tables in key order, newest first,
and for each key the versions that are still needed.

* Without a reader only the newest version of a key is kept, and not even that when it is
  a tombstone and tombstones may be dropped.
* With an oldest reader at `R`, every version above `R` is kept and the newest one at or
  below it.

The loop decides from its last key and one flag; `mem_retain` says what that amounts to:
a record is kept or not according to the records popped before it.
-/

namespace HyphaDB.Compaction

/-- `MinHeap.Less`: key, then newest first, then the later table. -/
def heapLess (a b : Record × Nat) : Bool :=
  if a.1.key ≠ b.1.key then a.1.key < b.1.key
  else if a.1.seq ≠ b.1.seq then b.1.seq < a.1.seq
  else b.2 < a.2

/-- The records of the inputs in the order the heap hands them out. -/
def popAll (tables : List (List Record)) : List Record :=
  (Merge.merge heapLess (tables.zipIdx.map fun (recs, i) => recs.map (·, i))).map Prod.fst

structure MergeOptions where
  oldestReader : Option UInt64
  dropTombstones : Bool
  deriving Repr, DecidableEq

/-- The merge loop's variables; no last key stands for `firstKey`. -/
structure Retention where
  lastKey : Option Key := none
  retainedVisible : Bool := false
  deriving Repr, DecidableEq

/-- Whether the loop keeps a record, and its variables afterwards. -/
def Retention.next (options : MergeOptions) (st : Retention) (rec : Record) : Bool × Retention :=
  let retained := st.lastKey = some rec.key && st.retainedVisible
  match options.oldestReader with
  | none =>
      if retained then (false, ⟨some rec.key, true⟩)
      else (!rec.deleted || !options.dropTombstones, ⟨some rec.key, true⟩)
  | some reader =>
      if reader < rec.seq then (true, ⟨some rec.key, retained⟩)
      else (!retained, ⟨some rec.key, true⟩)

/-- The records the loop keeps. -/
def retain (options : MergeOptions) : Retention → List Record → List Record
  | _, [] => []
  | st, rec :: recs =>
      let (keep, st) := st.next options rec
      if keep then rec :: retain options st recs else retain options st recs

/-- The records of the merged table. -/
def mergeRecords (options : MergeOptions) (tables : List (List Record)) : List Record :=
  retain options {} (popAll tables)

/-! ### The order of the heap -/

theorem heapLess_eq_false {a b : Record × Nat} : heapLess b a = false ↔
    a.1.key < b.1.key ∨ a.1.key = b.1.key ∧
      (b.1.seq < a.1.seq ∨ b.1.seq = a.1.seq ∧ b.2 ≤ a.2) := by
  unfold heapLess
  rcases lt_trichotomy a.1.key b.1.key with hk | hk | hk
  · simp [hk, hk.ne', hk.le]
  · rw [if_neg (by simp [hk])]
    rcases lt_trichotomy b.1.seq a.1.seq with hs | hs | hs
    · simp [hk, hs, hs.ne, hs.le]
    · simp [hk, hs]
    · simp [hk, hs, hs.ne', not_lt.mpr hs.le]
  · simp [hk, hk.ne, hk.ne', not_lt.mpr hk.le]

theorem heapLess_asymm (a b : Record × Nat) (h : heapLess a b = true) : heapLess b a = false := by
  by_contra hne
  have hba : heapLess b a = true := by simpa using hne
  unfold heapLess at h hba
  split at h
  · rename_i hk
    rw [if_pos (Ne.symm hk)] at hba
    simp only [decide_eq_true_eq] at h hba
    exact lt_asymm h hba
  · rename_i hk
    have hk' : a.1.key = b.1.key := not_not.mp hk
    rw [if_neg (by simp [hk'])] at hba
    split at h
    · rename_i hs
      rw [if_pos (Ne.symm hs)] at hba
      simp only [decide_eq_true_eq] at h hba
      exact lt_asymm h hba
    · rename_i hs
      have hs' : a.1.seq = b.1.seq := not_not.mp hs
      rw [if_neg (by simp [hs'])] at hba
      simp only [decide_eq_true_eq] at h hba
      omega

theorem heapLess_trans (a b c : Record × Nat) (hab : heapLess b a = false)
    (hbc : heapLess c b = false) : heapLess c a = false := by
  rw [heapLess_eq_false] at *
  rcases hab with hab | ⟨hk, hab⟩
  · rcases hbc with hbc | ⟨hk', -⟩
    · exact Or.inl (hab.trans hbc)
    · exact Or.inl (hk' ▸ hab)
  · rcases hbc with hbc | ⟨hk', hbc⟩
    · exact Or.inl (hk ▸ hbc)
    · refine Or.inr ⟨hk.trans hk', ?_⟩
      rcases hab with hs | ⟨hs, hi⟩ <;> rcases hbc with hs' | ⟨hs', hi'⟩
      · exact Or.inl (hs'.trans hs)
      · exact Or.inl (hs' ▸ hs)
      · exact Or.inl (hs ▸ hs')
      · exact Or.inr ⟨hs'.trans hs, hi'.trans hi⟩

/-- A table in order is a sorted source for the heap. -/
theorem indexed_sorted {recs : List Record} (h : InOrder recs) (i : Nat) :
    (recs.map (·, i)).Pairwise (fun a b => heapLess b a = false) := by
  rw [List.pairwise_map]
  refine h.imp ?_
  intro a b hab
  rw [heapLess_eq_false]
  rcases less_eq_false.mp hab with hk | ⟨hk, hs⟩
  · exact Or.inl hk
  · rcases hs.lt_or_eq with hs | hs
    · exact Or.inr ⟨hk, Or.inl hs⟩
    · exact Or.inr ⟨hk, Or.inr ⟨hs, Nat.le_refl _⟩⟩

/-- The heap hands out exactly the records of the inputs. -/
theorem mem_popAll {tables : List (List Record)} {r : Record} :
    r ∈ popAll tables ↔ ∃ recs ∈ tables, r ∈ recs := by
  unfold popAll
  rw [((Merge.merge_perm _).map Prod.fst).mem_iff]
  simp only [List.map_flatten, List.map_map, List.mem_flatten, List.mem_map]
  constructor
  · rintro ⟨_, ⟨⟨recs, i⟩, hmem, rfl⟩, hr⟩
    simp only [Function.comp_apply, List.map_map, List.mem_map] at hr
    obtain ⟨r', hr', rfl⟩ := hr
    exact ⟨recs, List.fst_mem_of_mem_zipIdx hmem, hr'⟩
  · rintro ⟨recs, hmem, hr⟩
    obtain ⟨i, hi, rfl⟩ := List.mem_iff_getElem.mp hmem
    refine ⟨_, ⟨(tables[i], i), ?_, rfl⟩, ?_⟩
    · rw [List.mem_zipIdx_iff_getElem?]
      simp [hi]
    · simpa using hr

section PopAll

variable {tables : List (List Record)} (h : ∀ recs ∈ tables, InOrder recs)

include h

theorem sources_sorted : ∀ as ∈ tables.zipIdx.map (fun (recs, i) => recs.map (·, i)),
    as.Pairwise (fun a b => heapLess b a = false) := by
  intro as has
  obtain ⟨⟨recs, i⟩, hmem, rfl⟩ := List.mem_map.mp has
  exact indexed_sorted (h recs (List.fst_mem_of_mem_zipIdx hmem)) i

/-- The heap hands records out in order. -/
theorem popAll_inOrder : InOrder (popAll tables) := by
  have hsorted := Merge.merge_sorted heapLess_asymm heapLess_trans (sources_sorted h)
  unfold popAll InOrder
  rw [List.pairwise_map]
  refine hsorted.imp ?_
  intro a b hab
  rw [less_eq_false]
  rcases heapLess_eq_false.mp hab with hk | ⟨hk, hs | ⟨hs, -⟩⟩
  · exact Or.inl hk
  · exact Or.inr ⟨hk, hs.le⟩
  · exact Or.inr ⟨hk, hs.le⟩

end PopAll

/-! ### What the loop keeps -/

theorem retain_sublist (options : MergeOptions) (st : Retention) (recs : List Record) :
    (retain options st recs).Sublist recs := by
  induction recs generalizing st with
  | nil => exact List.Sublist.slnil
  | cons r recs ih =>
      rw [retain]
      dsimp only
      split
      · exact (ih _).cons_cons r
      · exact (ih _).cons r

/-- Whether a record is kept, given the records popped before it. -/
def Keeps (options : MergeOptions) (before : List Record) (r : Record) : Prop :=
  match options.oldestReader with
  | none => (∀ x ∈ before, x.key ≠ r.key) ∧ (r.deleted = true → options.dropTombstones = false)
  | some reader => reader < r.seq ∨ ∀ x ∈ before, x.key = r.key → reader < x.seq

/-- A record after which the loop's flag is set. -/
def Passes (options : MergeOptions) (x : Record) : Prop :=
  ∀ reader, options.oldestReader = some reader → x.seq ≤ reader

/-- The loop's variables describe the records popped so far. -/
structure Tracks (options : MergeOptions) (before : List Record) (st : Retention) : Prop where
  lastKey : st.lastKey = before.getLast?.map (·.key)
  retained : st.retainedVisible = true ↔
    ∃ x ∈ before, some x.key = st.lastKey ∧ Passes options x

theorem Tracks.start (options : MergeOptions) : Tracks options [] {} := ⟨rfl, by simp⟩

/-- Records in order hold a key in one run, so an earlier record of a key shows in the
last one. -/
theorem lastKey_of_mem {before : List Record} {r x : Record} (h : InOrder (before ++ [r]))
    (hx : x ∈ before) (hk : x.key = r.key) : before.getLast?.map (·.key) = some r.key := by
  rcases List.eq_nil_or_concat before with rfl | ⟨ys, y, rfl⟩
  · cases hx
  · rw [List.concat_eq_append] at hx h ⊢
    unfold InOrder at h
    rw [List.pairwise_append, List.pairwise_append] at h
    have hyr : y.key ≤ r.key := by
      rcases less_eq_false.mp (h.2.2 y (by simp) r (by simp)) with h | ⟨h, -⟩
      · exact h.le
      · exact h.le
    have hxy : x.key ≤ y.key := by
      rcases List.mem_append.mp hx with hx | hx
      · rcases less_eq_false.mp (h.1.2.2 x hx y (by simp)) with h | ⟨h, -⟩
        · exact h.le
        · exact h.le
      · exact le_of_eq (congrArg Record.key (List.mem_singleton.mp hx))
    simp only [List.getLast?_append, List.getLast?_singleton, Option.some_or, Option.map_some,
      Option.some.injEq]
    exact le_antisymm hyr (hk ▸ hxy)

/-- The flag, seen from a record: an earlier record of its key has set it. -/
theorem Tracks.retained_iff {options : MergeOptions} {before : List Record} {st : Retention}
    (ht : Tracks options before st) {r : Record} (h : InOrder (before ++ [r])) :
    (decide (st.lastKey = some r.key) && st.retainedVisible) = true ↔
      ∃ x ∈ before, x.key = r.key ∧ Passes options x := by
  rw [Bool.and_eq_true, decide_eq_true_iff, ht.retained]
  constructor
  · rintro ⟨hlast, x, hx, hk, hp⟩
    exact ⟨x, hx, Option.some.inj (hk.trans hlast), hp⟩
  · rintro ⟨x, hx, hk, hp⟩
    have hlast := ht.lastKey.trans (lastKey_of_mem h hx hk)
    exact ⟨hlast, x, hx, by rw [hlast, hk], hp⟩

/-- One turn of the loop. -/
theorem Tracks.next {options : MergeOptions} {before : List Record} {st : Retention}
    (ht : Tracks options before st) {r : Record} (h : InOrder (before ++ [r])) :
    ((st.next options r).1 = true ↔ Keeps options before r) ∧
      Tracks options (before ++ [r]) (st.next options r).2 := by
  have hret := ht.retained_iff h
  have hlast : (before ++ [r]).getLast?.map (·.key) = some r.key := by simp
  unfold Retention.next Keeps
  cases hreader : options.oldestReader with
  | none =>
      have hpass : ∀ x, Passes options x := by
        intro x reader hr
        rw [hreader] at hr
        cases hr
      have hnew : Tracks options (before ++ [r]) ⟨some r.key, true⟩ :=
        ⟨hlast.symm, by simp only [true_iff]; exact ⟨r, by simp, rfl, hpass r⟩⟩
      dsimp only
      by_cases hc : (decide (st.lastKey = some r.key) && st.retainedVisible) = true
      · obtain ⟨x, hx, hk, -⟩ := hret.mp hc
        rw [if_pos hc]
        exact ⟨⟨fun h => (by cases h), fun h => absurd hk (h.1 x hx)⟩, hnew⟩
      · rw [if_neg hc]
        refine ⟨?_, hnew⟩
        have hfirst : ∀ x ∈ before, x.key ≠ r.key :=
          fun x hx hk => hc (hret.mpr ⟨x, hx, hk, hpass x⟩)
        simp only [Bool.or_eq_true, Bool.not_eq_true']
        constructor
        · rintro (hd | hd)
          · exact ⟨hfirst, fun h => by rw [hd] at h; cases h⟩
          · exact ⟨hfirst, fun _ => hd⟩
        · rintro ⟨-, hd⟩
          cases hdel : r.deleted with
          | false => exact Or.inl rfl
          | true => exact Or.inr (hd hdel)
  | some reader =>
      have hpass : ∀ x, Passes options x ↔ x.seq ≤ reader := by
        intro x
        unfold Passes
        rw [hreader]
        exact ⟨fun h => h reader rfl, fun h _ he => Option.some.inj he ▸ h⟩
      dsimp only
      by_cases hnew : reader < r.seq
      · rw [if_pos hnew]
        refine ⟨⟨fun _ => Or.inl hnew, fun _ => rfl⟩, hlast.symm, ?_⟩
        rw [hret]
        constructor
        · rintro ⟨x, hx, hk, hp⟩
          exact ⟨x, List.mem_append_left _ hx, congrArg some hk, hp⟩
        · rintro ⟨x, hx, hk, hp⟩
          rcases List.mem_append.mp hx with hx | hx
          · exact ⟨x, hx, Option.some.inj hk, hp⟩
          · obtain rfl := List.mem_singleton.mp hx
            exact absurd ((hpass x).mp hp) (not_le.mpr hnew)
      · rw [if_neg hnew]
        refine ⟨?_, hlast.symm, ?_⟩
        · rw [Bool.not_eq_true', ← Bool.not_eq_true, hret]
          constructor
          · intro hno
            refine Or.inr fun x hx hk => ?_
            by_contra hle
            exact hno ⟨x, hx, hk, (hpass x).mpr (not_lt.mp hle)⟩
          · rintro (hlt | hall) ⟨x, hx, hk, hp⟩
            · exact hnew hlt
            · exact absurd ((hpass x).mp hp) (not_le.mpr (hall x hx hk))
        · simp only [true_iff]
          exact ⟨r, by simp, rfl, (hpass r).mpr (not_lt.mp hnew)⟩

/-- A record is in the output exactly when it stands somewhere in the input and is kept
there. -/
theorem mem_retain {options : MergeOptions} {before recs : List Record} {st : Retention}
    (ht : Tracks options before st) (h : InOrder (before ++ recs)) {r : Record} :
    r ∈ retain options st recs ↔
      ∃ pre post, recs = pre ++ r :: post ∧ Keeps options (before ++ pre) r := by
  induction recs generalizing before st with
  | nil => simp [retain]
  | cons x recs ih =>
      have hx : InOrder (before ++ [x]) := by
        refine List.Pairwise.sublist ?_ h
        exact List.Sublist.append_left (List.Sublist.cons_cons x (List.nil_sublist _)) before
      obtain ⟨hkeep, hnext⟩ := ht.next hx
      have hrest := ih hnext (by rw [List.append_assoc]; exact h)
      have hmem : r ∈ retain options st (x :: recs) ↔
          (r = x ∧ Keeps options before x) ∨
            r ∈ retain options (st.next options x).2 recs := by
        rw [retain]
        dsimp only
        by_cases hk : (st.next options x).1 = true
        · rw [if_pos hk, List.mem_cons]
          simp [hkeep.mp hk]
        · have hno : ¬ Keeps options before x := fun h => hk (hkeep.mpr h)
          rw [if_neg hk]
          simp [hno]
      rw [hmem, hrest]
      constructor
      · rintro (⟨rfl, hk⟩ | ⟨pre, post, rfl, hk⟩)
        · exact ⟨[], recs, rfl, by simpa using hk⟩
        · exact ⟨x :: pre, post, rfl, by simpa using hk⟩
      · rintro ⟨pre, post, heq, hk⟩
        cases pre with
        | nil =>
            obtain ⟨rfl, rfl⟩ := List.cons.inj heq
            exact Or.inl ⟨rfl, by simpa using hk⟩
        | cons y pre =>
            obtain ⟨rfl, rfl⟩ := List.cons.inj heq
            exact Or.inr ⟨pre, post, rfl, by simpa using hk⟩

/-! ### Reads of the merged table -/

/-- The largest sequence number, the bound of a read without a snapshot. -/
def newest : UInt64 := ~~~0

theorem le_newest (s : UInt64) : s ≤ newest := by
  rw [UInt64.le_iff_toNat_le]
  have h : newest.toNat = 2 ^ 64 - 1 := by decide
  have := s.toNat_lt
  omega

/-- The bounds at which a merge must keep reads: every bound from the oldest reader on, or
only the newest state when there is no reader. -/
def Protected (options : MergeOptions) (s : UInt64) : Prop :=
  match options.oldestReader with
  | none => s = newest
  | some reader => reader ≤ s

section Reads

variable {options : MergeOptions} {tables : List (List Record)}
  (h : ∀ recs ∈ tables, InOrder recs)

include h

omit h in
theorem mem_mergeRecords {r : Record} (hr : r ∈ mergeRecords options tables) :
    ∃ recs ∈ tables, r ∈ recs :=
  mem_popAll.mp ((retain_sublist options {} _).subset hr)

theorem mergeRecords_inOrder : InOrder (mergeRecords options tables) :=
  List.Pairwise.sublist (retain_sublist options {} _) (popAll_inOrder h)

/-- The newest tombstone of a key is dropped together with everything below it. -/
def DropsAt (options : MergeOptions) (tables : List (List Record)) (k : Key) (t : Record) : Prop :=
  options.oldestReader = none ∧ options.dropTombstones = true ∧ t.deleted = true ∧
    ∀ r ∈ mergeRecords options tables, r.key ≠ k

/-- **A merge keeps every protected read**, up to a dropped tombstone that is the newest
version of its key. -/
theorem mergeRecords_reads (k : Key) {s : UInt64} (hs : Protected options s) :
    ∃ o, ReadsAt {r | ∃ recs ∈ tables, r ∈ recs} k s o ∧
      (ReadsAt (recordsOf (mergeRecords options tables)) k s o ∨
        ∃ t, o = some t ∧ DropsAt options tables k t) := by
  have hord := popAll_inOrder h
  have hsub : ∀ r ∈ recordsOf (mergeRecords options tables), r.key = k →
      r ∈ recordsOf (popAll tables) :=
    fun r hr _ => (retain_sublist options {} _).subset hr
  have hin : ReadsAt {r | ∃ recs ∈ tables, r ∈ recs} k s ((popAll tables).find? (visible k s)) :=
    (find_reads hord k s).congr fun r _ => mem_popAll.symm
  have hfind := find_reads hord k s
  have hmem : ∀ r, r ∈ mergeRecords options tables ↔
      ∃ pre post, popAll tables = pre ++ r :: post ∧ Keeps options pre r := by
    intro r
    exact mem_retain (Tracks.start options) hord
  refine ⟨_, hin, ?_⟩
  cases hf : (popAll tables).find? (visible k s) with
  | none =>
      rw [hf] at hfind
      exact Or.inl fun r hr hk => hfind r (hsub r hr hk) hk
  | some t =>
      rw [hf] at hfind
      obtain ⟨hv, pre, post, hsplit, hpre⟩ := List.find?_eq_some_iff_append.mp hf
      obtain ⟨htk, hts⟩ := visible_iff.mp hv
      have hbefore : ∀ x ∈ pre, x.key = k → s < x.seq := by
        intro x hx hxk
        by_contra hle
        have : visible k s x = true := visible_iff.mpr ⟨hxk, not_lt.mp hle⟩
        have hno := hpre x hx
        rw [this] at hno
        cases hno
      by_cases hkeep : Keeps options pre t
      · exact Or.inl (hfind.anti hsub ((hmem t).mpr ⟨pre, post, hsplit, hkeep⟩))
      · right
        unfold Keeps Protected at *
        cases hreader : options.oldestReader with
        | some reader =>
            rw [hreader] at hkeep hs
            exact absurd (Or.inr fun x hx hxk => lt_of_le_of_lt hs (hbefore x hx (hxk.trans htk)))
              hkeep
        | none =>
            rw [hreader] at hkeep hs
            have hfirst : ∀ x ∈ pre, x.key ≠ t.key := by
              intro x hx hxk
              exact absurd (hbefore x hx (hxk.trans htk)) (not_lt.mpr (hs ▸ le_newest _))
            have hdrop : t.deleted = true ∧ options.dropTombstones = true := by
              by_contra hno
              refine hkeep ⟨hfirst, fun hd => ?_⟩
              cases hdt : options.dropTombstones with
              | false => rfl
              | true => exact absurd ⟨hd, hdt⟩ hno
            refine ⟨t, rfl, hreader, hdrop.2, hdrop.1, ?_⟩
            -- a kept record of the key would be its first one, which is `t`
            intro r hr hrk
            obtain ⟨pre', post', hsplit', hkeep'⟩ := (hmem r).mp hr
            simp only [hreader] at hkeep'
            have hfr : (popAll tables).find? (visible k s) = some r := by
              refine List.find?_eq_some_iff_append.mpr
                ⟨visible_iff.mpr ⟨hrk, hs ▸ le_newest _⟩, pre', post', hsplit', ?_⟩
              intro x hx
              simp [visible, hrk ▸ hkeep'.1 x hx]
            obtain rfl := Option.some.inj (hf.symm.trans hfr)
            have := hkeep'.2 hdrop.1
            rw [hdrop.2] at this
            cases this

end Reads

end HyphaDB.Compaction
