import HyphaDB.SSTable
import HyphaDB.Lib.Checked

/-!
# HyphaDB.Compaction.Picker

Which tables a compaction takes (`compaction.PickCompaction`): all of level 0, or the
largest table of a higher level, and every table of the next level that may share a key
with them. A table whose bounds are not known counts as overlapping everything; the empty
key is a legal key, so a table that starts with it has no known bounds. The largest of no
tables is an index out of range, which the byte target of a higher level keeps away.

The two facts the rest needs are `gives_pickCompaction` (the choice does not fault, and what is
taken from the source level) and `overlapping_apart` (what is left behind of the target level
lies beside the range of the source tables).
-/

namespace HyphaDB.Compaction

open Checked

def L0 : Nat := 0
def highestSupportedLevel : Nat := L0 + 2
def baseLevelTargetBytes : Nat := 64 * 1024 * 1024
def maxUint64 : Nat := 2 ^ 64 - 1

structure CompactionPlan where
  sourceLevel : Nat
  targetLevel : Nat
  inputs : List SSTableMetadata
  deriving Repr, DecidableEq

def hasKeyRange (table : SSTableMetadata) : Bool :=
  table.smallestKey ≠ [] && table.largestKey ≠ []

/-- The tables of a level. -/
def levelTables (level : Nat) (tables : List SSTableMetadata) : List SSTableMetadata :=
  tables.filter (·.level = level)

/-- Widen a range by a table. A table without known bounds makes the range unknown. -/
def widen (range : Option (Key × Key)) (t : SSTableMetadata) : Option (Key × Key) :=
  match range with
  | none => none
  | some (minKey, maxKey) =>
      if !hasKeyRange t then none
      else
        some (if t.smallestKey < minKey then t.smallestKey else minKey,
          if maxKey < t.largestKey then t.largestKey else maxKey)

/-- The smallest and largest key of tables with known bounds. -/
def combinedRange : List SSTableMetadata → Option (Key × Key)
  | [] => none
  | table :: tables =>
      if !hasKeyRange table then none
      else tables.foldl widen (some (table.smallestKey, table.largestKey))

/-- The byte target of a level: ten times that of the level above, up to the largest
64-bit value. -/
def levelTargetBytes : Nat → Nat
  | 0 => 0
  | 1 => baseLevelTargetBytes
  | level + 2 =>
      let target := levelTargetBytes (level + 1)
      if maxUint64 / 10 < target then maxUint64 else target * 10

section Sizes

variable (stat : TablePath → Option Nat)

/-- The recorded size of a table, or the size of its file when none is recorded. -/
def tableBytes (table : SSTableMetadata) : Nat :=
  if table.sizeBytes ≠ 0 then table.sizeBytes else (stat table.path).getD 0

def totalTableBytes (tables : List SSTableMetadata) : Nat :=
  tables.foldl
    (fun total t =>
      if maxUint64 - total < tableBytes stat t then maxUint64 else total + tableBytes stat t)
    0

/-- The first table of the largest size. -/
def largestTable (tables : List SSTableMetadata) : Attempt Empty SSTableMetadata := do
  let first ← Checked.get tables 0
  pure ((tables.drop 1).foldl
    (fun largest t => if tableBytes stat largest < tableBytes stat t then t else largest) first)

def rangesOverlap (leftMin leftMax rightMin rightMax : Key) : Bool :=
  leftMin ≤ rightMax && rightMin ≤ leftMax

/-- The tables of the target level that join a compaction of `selected`. -/
def overlapping (tables selected : List SSTableMetadata) (targetLevel : Nat) :
    List SSTableMetadata :=
  let target := tables.filter (·.level = targetLevel)
  let allTargetRangesKnown := target.all hasKeyRange
  match combinedRange selected with
  | none => target
  | some (minKey, maxKey) =>
      target.filter fun t =>
        !allTargetRangesKnown || rangesOverlap minKey maxKey t.smallestKey t.largestKey

/-- `PickCompaction`. -/
def pickCompaction (tables : List SSTableMetadata) (sourceLevel threshold : Nat) :
    Attempt Empty (Option CompactionPlan) :=
  let source := levelTables sourceLevel tables
  if threshold = 0 then pure none
  else if sourceLevel = L0 ∧ source.length < threshold then pure none
  else if L0 < sourceLevel ∧ source.length < threshold ∧
      totalTableBytes stat source < levelTargetBytes sourceLevel then pure none
  else do
    let selected ← (if sourceLevel = L0 then pure source else do pure [← largestTable stat source])
    pure (some ⟨sourceLevel, sourceLevel + 1,
      selected ++ overlapping tables selected (sourceLevel + 1)⟩)

/-- What `compactLocked` takes: level 0 first, then one table of level 1. -/
def pickWork (tables : List SSTableMetadata) (threshold : Nat) :
    Attempt Empty (Option CompactionPlan) := do
  match ← pickCompaction stat tables L0 threshold with
  | some plan => pure (some plan)
  | none => pickCompaction stat tables (L0 + 1) threshold

/-- A level that is below its limits. -/
def Idle (tables : List SSTableMetadata) (level threshold : Nat) : Prop :=
  (levelTables level tables).length < threshold ∧
    (level = L0 ∨ totalTableBytes stat (levelTables level tables) < levelTargetBytes level)

end Sizes

/-! ### What is taken -/

section Taken

variable {stat : TablePath → Option Nat} {tables : List SSTableMetadata}

/-- The choice is made among the tables. -/
theorem gives_largestTable (hne : tables ≠ []) :
    Gives (largestTable stat tables) (· ∈ tables) := by
  obtain ⟨first, rest, rfl⟩ := List.exists_cons_of_ne_nil hne
  show List.foldl _ first rest ∈ first :: rest
  induction rest generalizing first with
  | nil => exact List.mem_cons_self
  | cons t ts ih =>
      rw [List.foldl_cons]
      rcases List.mem_cons.mp
        (ih (if tableBytes stat first < tableBytes stat t then t else first) (List.cons_ne_nil _ _))
        with h | h
      · rw [h]
        split
        · exact List.mem_cons_of_mem _ List.mem_cons_self
        · exact List.mem_cons_self
      · exact List.mem_cons_of_mem _ (List.mem_cons_of_mem _ h)

theorem levelTargetBytes_pos (level : Nat) : 0 < levelTargetBytes (level + 1) := by
  induction level with
  | zero => decide
  | succ level ih =>
      unfold levelTargetBytes
      dsimp only
      split
      · decide
      · omega

/-- A plan takes its source tables from the source level, all of it at level 0 and a
single table above, and then what overlaps from the next level. -/
structure PlanFrom (tables : List SSTableMetadata) (sourceLevel : Nat) (plan : CompactionPlan) :
    Prop where
  source : plan.sourceLevel = sourceLevel
  target : plan.targetLevel = sourceLevel + 1
  inputs : ∃ selected, plan.inputs = selected ++ overlapping tables selected (sourceLevel + 1) ∧
    selected ≠ [] ∧
    ((sourceLevel = L0 ∧ selected = levelTables sourceLevel tables) ∨
      sourceLevel ≠ L0 ∧ ∃ t ∈ tables, t.level = sourceLevel ∧ selected = [t])

/-- **The choice of a compaction.** It is not made from an empty level, and there is none exactly
when the level is below its limits. -/
theorem gives_pickCompaction {sourceLevel threshold : Nat} (hpos : 0 < threshold) :
    Gives (pickCompaction stat tables sourceLevel threshold) fun plan? =>
      (plan? = none ↔ Idle stat tables sourceLevel threshold) ∧
        ∀ plan, plan? = some plan → PlanFrom tables sourceLevel plan := by
  unfold pickCompaction Idle
  dsimp only
  generalize hsource : levelTables sourceLevel tables = source
  rw [if_neg (by omega)]
  refine gives_ite (fun h => ⟨iff_of_true rfl ⟨h.2, Or.inl h.1⟩, by simp⟩) fun hzero => ?_
  refine gives_ite (fun h => ⟨iff_of_true rfl ⟨h.2.1, Or.inr h.2.2⟩, by simp⟩) fun hhigher => ?_
  have hbusy : ¬ (source.length < threshold ∧
      (sourceLevel = L0 ∨ totalTableBytes stat source < levelTargetBytes sourceLevel)) := by
    rintro ⟨hlen, hlevel | hbytes⟩
    · exact hzero ⟨hlevel, hlen⟩
    · by_cases hlevel : sourceLevel = L0
      · exact hzero ⟨hlevel, hlen⟩
      · exact hhigher ⟨Nat.pos_of_ne_zero hlevel, hlen, hbytes⟩
  -- an empty level has neither the tables nor the bytes
  have hne : source ≠ [] := by
    rintro rfl
    refine hbusy ⟨hpos, ?_⟩
    cases sourceLevel with
    | zero => exact Or.inl rfl
    | succ level => exact Or.inr (levelTargetBytes_pos level)
  refine gives_bind (P := fun selected => selected ≠ [] ∧
    ((sourceLevel = L0 ∧ selected = source) ∨
      sourceLevel ≠ L0 ∧ ∃ t ∈ tables, t.level = sourceLevel ∧ selected = [t]))
    (gives_ite (fun h => ⟨hne, Or.inl ⟨h, rfl⟩⟩) fun hlevel => ?_) fun selected hsel => ?_
  · refine gives_bind (gives_largestTable hne) fun t ht =>
      ⟨List.cons_ne_nil _ _, Or.inr ⟨hlevel, t, ?_⟩⟩
    rw [← hsource] at ht
    obtain ⟨hmem, ht⟩ := List.mem_filter.mp ht
    exact ⟨hmem, by simpa using ht, rfl⟩
  · refine ⟨iff_of_false (by simp) hbusy, fun plan hplan => ?_⟩
    obtain rfl := Option.some.inj hplan
    subst hsource
    exact ⟨rfl, rfl, selected, rfl, hsel⟩

/-- A choice is made among the tables of the level it names. -/
theorem PlanFrom.exists_source {level : Nat} {plan : CompactionPlan}
    (h : PlanFrom tables level plan) :
    ∃ t ∈ plan.inputs, t ∈ tables ∧ t.level = plan.sourceLevel := by
  obtain ⟨hsource, -, selected, hinputs, hne, hsel⟩ := h
  obtain ⟨t, ht⟩ := List.exists_mem_of_ne_nil selected hne
  refine ⟨t, hinputs ▸ List.mem_append_left _ ht, ?_⟩
  rw [hsource]
  rcases hsel with ⟨-, rfl⟩ | ⟨-, u, hu, hlevel, rfl⟩
  · obtain ⟨hmem, hlevel⟩ := List.mem_filter.mp ht
    exact ⟨hmem, of_decide_eq_true hlevel⟩
  · obtain rfl := List.mem_singleton.mp ht
    exact ⟨hu, hlevel⟩

/-- Without a threshold nothing is chosen. -/
theorem pickCompaction_zero (sourceLevel : Nat) :
    pickCompaction stat tables sourceLevel 0 = .ok none := by
  rfl

theorem pickCompaction_source {sourceLevel threshold : Nat} {plan : CompactionPlan}
    (h : pickCompaction stat tables sourceLevel threshold = .ok (some plan)) :
    PlanFrom tables sourceLevel plan := by
  rcases Nat.eq_zero_or_pos threshold with rfl | hpos
  · rw [pickCompaction_zero] at h
    cases h
  · exact ((gives_pickCompaction hpos).of_ok h).2 plan rfl

theorem safe_pickCompaction (sourceLevel threshold : Nat) :
    Safe (pickCompaction stat tables sourceLevel threshold) := by
  rcases Nat.eq_zero_or_pos threshold with rfl | hpos
  · rw [pickCompaction_zero]
    trivial
  · exact (gives_pickCompaction hpos).safe

theorem safe_pickWork (threshold : Nat) : Safe (pickWork stat tables threshold) := by
  refine gives_bind (safe_pickCompaction L0 threshold) fun plan? _ => ?_
  cases plan? with
  | some plan => trivial
  | none => exact safe_pickCompaction (L0 + 1) threshold

end Taken

theorem overlapping_sub {tables selected : List SSTableMetadata} {level : Nat}
    {t : SSTableMetadata} (h : t ∈ overlapping tables selected level) :
    t ∈ tables ∧ t.level = level := by
  unfold overlapping at h
  dsimp only at h
  split at h
  · simpa using h
  · simpa using (List.mem_filter.mp h).1

/-- Every input is a table of the source or the target level. -/
theorem pickCompaction_inputs {stat : TablePath → Option Nat} {tables : List SSTableMetadata}
    {sourceLevel threshold : Nat} {plan : CompactionPlan}
    (h : pickCompaction stat tables sourceLevel threshold = .ok (some plan)) {t : SSTableMetadata}
    (ht : t ∈ plan.inputs) :
    t ∈ tables ∧ (t.level = sourceLevel ∨ t.level = sourceLevel + 1) := by
  obtain ⟨selected, hinputs, -, hsel⟩ := (pickCompaction_source h).inputs
  rw [hinputs, List.mem_append] at ht
  rcases ht with ht | ht
  · rcases hsel with ⟨-, rfl⟩ | ⟨-, u, hu, hlevel, rfl⟩
    · obtain ⟨hmem, hlevel⟩ := List.mem_filter.mp ht
      exact ⟨hmem, Or.inl (by simpa using hlevel)⟩
    · obtain rfl := List.mem_singleton.mp ht
      exact ⟨hu, Or.inl hlevel⟩
  · obtain ⟨hmem, hlevel⟩ := overlapping_sub ht
    exact ⟨hmem, Or.inr hlevel⟩

/-! ### What is left behind -/

theorem foldl_widen_none (tables : List SSTableMetadata) : tables.foldl widen none = none := by
  induction tables with
  | nil => rfl
  | cons t ts ih => exact ih

theorem foldl_widen_covers {tables : List SSTableMetadata} {lo hi minKey maxKey : Key}
    (h : tables.foldl widen (some (lo, hi)) = some (minKey, maxKey)) :
    minKey ≤ lo ∧ hi ≤ maxKey ∧
      ∀ t ∈ tables, minKey ≤ t.smallestKey ∧ t.largestKey ≤ maxKey := by
  induction tables generalizing lo hi with
  | nil =>
      obtain ⟨rfl, rfl⟩ := Prod.mk.inj (Option.some.inj h)
      exact ⟨le_refl _, le_refl _, by simp⟩
  | cons t ts ih =>
      rw [List.foldl_cons] at h
      by_cases hr : hasKeyRange t = true
      · have hw : widen (some (lo, hi)) t =
            some (min t.smallestKey lo, max hi t.largestKey) := by
          simp only [widen, hr, Bool.not_true, Bool.false_eq_true, if_false]
          rw [min_def_lt, max_def_lt]
          congr
        rw [hw] at h
        obtain ⟨hlo, hhi, hts⟩ := ih h
        refine ⟨hlo.trans (min_le_right _ _), (le_max_left _ _).trans hhi, ?_⟩
        intro u hu
        rcases List.mem_cons.mp hu with rfl | hu
        · exact ⟨hlo.trans (min_le_left _ _), (le_max_right _ _).trans hhi⟩
        · exact hts u hu
      · have hw : widen (some (lo, hi)) t = none := by simp [widen, hr]
        rw [hw, foldl_widen_none] at h
        cases h

/-- A known combined range contains the range of each table. -/
theorem combinedRange_covers {tables : List SSTableMetadata} {minKey maxKey : Key}
    (h : combinedRange tables = some (minKey, maxKey)) :
    ∀ t ∈ tables, minKey ≤ t.smallestKey ∧ t.largestKey ≤ maxKey := by
  cases tables with
  | nil => cases h
  | cons t ts =>
      rw [combinedRange] at h
      split at h
      · cases h
      · obtain ⟨hlo, hhi, hts⟩ := foldl_widen_covers h
        intro u hu
        rcases List.mem_cons.mp hu with rfl | hu
        · exact ⟨hlo, hhi⟩
        · exact hts u hu

/-- What is left behind of the target level lies beside a range that holds the selected tables
and meets every table that joins them. -/
theorem overlapping_apart {tables selected : List SSTableMetadata} {level : Nat}
    {t : SSTableMetadata} (ht : t ∈ tables) (hlevel : t.level = level)
    (hleft : t ∉ overlapping tables selected level) :
    ∃ minKey maxKey, (∀ s ∈ selected, minKey ≤ s.smallestKey ∧ s.largestKey ≤ maxKey) ∧
      (∀ s ∈ overlapping tables selected level, minKey ≤ s.largestKey ∧ s.smallestKey ≤ maxKey) ∧
      (t.largestKey < minKey ∨ maxKey < t.smallestKey) := by
  have htarget : t ∈ tables.filter (·.level = level) := List.mem_filter.mpr ⟨ht, by simpa⟩
  unfold overlapping at hleft ⊢
  dsimp only at hleft ⊢
  split at hleft
  · exact absurd htarget hleft
  · rename_i minKey maxKey hrange
    rw [List.mem_filter, not_and, Bool.or_eq_true, not_or] at hleft
    obtain ⟨hknown, hno⟩ := hleft htarget
    refine ⟨minKey, maxKey, combinedRange_covers hrange, fun s hs => ?_, ?_⟩
    · rcases Bool.or_eq_true_iff.mp (List.mem_filter.mp hs).2 with h | h
      · exact absurd h hknown
      · unfold rangesOverlap at h
        rwa [Bool.and_eq_true, decide_eq_true_iff, decide_eq_true_iff] at h
    · unfold rangesOverlap at hno
      rw [Bool.and_eq_true, decide_eq_true_iff, decide_eq_true_iff, not_and_or, not_le,
        not_le] at hno
      exact hno

end HyphaDB.Compaction
