import HyphaDB.Engine.Catalog

/-!
# HyphaDB.Engine.CompactionLoop

**The compaction worker comes to rest.** While there is work the worker compacts, holding the
lock all the time. What it does next depends on the tables of the manifest alone, and of a
compaction on the table it puts in, whose size and bounds are left open here.

A compaction of level 0 empties that level and adds at most one table to level 1; one of
level 1 takes a table away from it. So the number of tables in level 1, plus two as long as
level 0 is full, goes down with every turn (`compactTables_measure`), and the worker stops
when neither level has work. `Compacted.turn` says that a successful `compactLocked` of the
engine is such a turn, so `compactionLoop_ends` speaks of both.
-/

namespace HyphaDB

open Faults Compaction Checked

/-! ### The loop on the metadata -/

def hasCompactionWork (stat : TablePath → Option Nat) (tables : List SSTableMetadata)
    (threshold : Nat) : Attempt Empty Bool := do
  if (← pickCompaction stat tables L0 threshold).isSome then pure true
  else do pure (← pickCompaction stat tables (L0 + 1) threshold).isSome

/-- The metadata behind a compaction that put in `table`, at the level of its plan. -/
def compactTables (stat : TablePath → Option Nat) (table : SSTableMetadata) (threshold : Nat)
    (tables : List SSTableMetadata) : Attempt Empty (List SSTableMetadata) := do
  match ← pickWork stat tables threshold with
  | none => pure tables
  | some plan =>
      pure (replaceSelected (plan.inputs.map SSTableMetadata.id)
        { table with level := plan.targetLevel } tables)

/-- The loop of `compactionLoop`, where every compaction succeeds: the number of compactions
and the tables it ends with. In turn `n` the files have the sizes `stat n`, and the
compaction puts in the table `out n`. -/
def compactionLoop (stat : Nat → TablePath → Option Nat) (out : Nat → SSTableMetadata)
    (threshold : Nat) :
    Nat → Nat → List SSTableMetadata → Attempt Empty (Nat × List SSTableMetadata)
  | 0, _, _ => .error (.fault .endless)
  | fuel + 1, turn, tables => do
      if ← hasCompactionWork (stat turn) tables threshold then
        compactionLoop stat out threshold fuel (turn + 1)
          (← compactTables (stat turn) (out turn) threshold tables)
      else pure (turn, tables)

/-- Both levels are small. -/
structure Rested (stat : TablePath → Option Nat) (threshold : Nat)
    (tables : List SSTableMetadata) : Prop where
  level0 : (levelTables 0 tables).length < threshold
  level1 : (levelTables 1 tables).length < threshold
  bytes : ((levelTables 1 tables).map (tableBytes stat)).sum < levelTargetBytes 1

/-! ### Work -/

/-- The sum of the sizes stops at the largest 64-bit value. -/
theorem totalTableBytes_eq (stat : TablePath → Option Nat) (tables : List SSTableMetadata) :
    totalTableBytes stat tables = min (tables.map (tableBytes stat)).sum maxUint64 := by
  have hfrom : ∀ total, total ≤ maxUint64 →
      tables.foldl (fun total t =>
        if maxUint64 - total < tableBytes stat t then maxUint64 else total + tableBytes stat t)
        total = min (total + (tables.map (tableBytes stat)).sum) maxUint64 := by
    induction tables with
    | nil =>
        intro total htotal
        simp [htotal]
    | cons t tables ih =>
        intro total htotal
        rw [List.foldl_cons, List.map_cons, List.sum_cons]
        split
        · rw [ih _ (le_refl _)]
          omega
        · rw [ih _ (by omega)]
          omega
  unfold totalTableBytes
  rw [hfrom 0 (Nat.zero_le _), Nat.zero_add]

section Work

variable {stat : TablePath → Option Nat} {tables : List SSTableMetadata} {threshold : Nat}

/-- **There is work, or both levels are small.** Level 1 has its turn when level 0 is not full. -/
theorem work_cases (stat : TablePath → Option Nat) (tables : List SSTableMetadata)
    (hpos : 0 < threshold) :
    (pickWork stat tables threshold = .ok none ∧
      hasCompactionWork stat tables threshold = .ok false ∧ Rested stat threshold tables) ∨
    ∃ plan, pickWork stat tables threshold = .ok (some plan) ∧
      hasCompactionWork stat tables threshold = .ok true ∧
      (threshold ≤ (levelTables 0 tables).length ∧ PlanFrom tables 0 plan ∨
        (levelTables 0 tables).length < threshold ∧ PlanFrom tables 1 plan) := by
  obtain ⟨plan0, h0, hidle0, hplan0⟩ := (@gives_pickCompaction stat tables L0 _ hpos).exists_ok
  obtain ⟨plan1, h1, hidle1, hplan1⟩ :=
    (@gives_pickCompaction stat tables (L0 + 1) _ hpos).exists_ok
  have hwork : pickWork stat tables threshold = .ok (plan0.or plan1) := by
    unfold pickWork
    rw [h0, ok_bind, h1]
    cases plan0 <;> rfl
  have hhas : hasCompactionWork stat tables threshold = .ok (plan0.or plan1).isSome := by
    unfold hasCompactionWork
    rw [h0, ok_bind, h1]
    cases plan0 <;> rfl
  rw [hwork, hhas]
  cases plan0 with
  | some plan =>
      refine Or.inr ⟨plan, rfl, rfl, Or.inl ⟨not_lt.mp fun hlt => ?_, hplan0 plan rfl⟩⟩
      cases hidle0.mpr ⟨hlt, Or.inl rfl⟩
  | none =>
      have hless := (hidle0.mp rfl).1
      cases plan1 with
      | some plan => exact Or.inr ⟨plan, rfl, rfl, Or.inr ⟨hless, hplan1 plan rfl⟩⟩
      | none =>
          obtain ⟨hlen, hbytes⟩ := hidle1.mp rfl
          refine Or.inl ⟨rfl, rfl, hless, hlen, ?_⟩
          have hmax : levelTargetBytes 1 < maxUint64 := by decide
          have hsum := hbytes.resolve_left (by decide)
          rw [totalTableBytes_eq] at hsum
          exact (min_lt_iff.mp hsum).resolve_right hmax.not_gt

theorem safe_hasCompactionWork (stat : TablePath → Option Nat) (tables : List SSTableMetadata)
    (threshold : Nat) : Safe (hasCompactionWork stat tables threshold) :=
  gives_bind (safe_pickCompaction L0 threshold) fun _ _ => gives_ite (fun _ => trivial)
    fun _ => gives_bind (safe_pickCompaction (L0 + 1) threshold) fun _ _ => trivial

/-- Without work both levels are small. -/
theorem rested_of_no_work (hpos : 0 < threshold)
    (hrest : hasCompactionWork stat tables threshold = .ok false) :
    Rested stat threshold tables := by
  rcases work_cases stat tables hpos with ⟨-, -, h⟩ | ⟨_, -, hwork, -⟩
  · exact h
  · rw [hwork] at hrest
    cases hrest

end Work

/-! ### One turn -/

/-- What is left of a level: what was not selected, and the new table if it is of the level. -/
theorem levelTables_replaceSelected (level : Nat) (selected : List Nat) (table : SSTableMetadata)
    (tables : List SSTableMetadata) :
    (levelTables level (replaceSelected selected table tables)).length ≤
      ((levelTables level tables).filter (·.id ∉ selected)).length +
        if table.level = level then 1 else 0 := by
  unfold levelTables
  induction tables with
  | nil => exact Nat.zero_le _
  | cons t tables ih =>
      unfold replaceSelected
      by_cases hsel : t.id ∈ selected
      · rw [if_pos hsel]
        have hcomm : (tables.filter (·.id ∉ selected)).filter (·.level = level) =
            (tables.filter (·.level = level)).filter (·.id ∉ selected) := List.filter_comm _ _ _
        have hmono : ((tables.filter (·.level = level)).filter (·.id ∉ selected)).length ≤
            (((t :: tables).filter (·.level = level)).filter (·.id ∉ selected)).length :=
          (((List.sublist_cons_self t tables).filter _).filter _).length_le
        by_cases htable : table.level = level
        · rw [List.filter_cons_of_pos (by simpa using htable), hcomm, if_pos htable,
            List.length_cons]
          omega
        · rw [List.filter_cons_of_neg (by simpa using htable), hcomm, if_neg htable]
          omega
      · rw [if_neg hsel]
        by_cases hlevel : t.level = level
        · rw [List.filter_cons_of_pos (by simpa using hlevel),
            List.filter_cons_of_pos (by simpa using hlevel),
            List.filter_cons_of_pos (by simpa using hsel), List.length_cons, List.length_cons]
          omega
        · rw [List.filter_cons_of_neg (by simpa using hlevel),
            List.filter_cons_of_neg (by simpa using hlevel)]
          exact ih

theorem length_unselected_lt {selected : List Nat} {tables : List SSTableMetadata}
    {t : SSTableMetadata} (ht : t ∈ tables) (hsel : t.id ∈ selected) :
    (tables.filter (·.id ∉ selected)).length < tables.length :=
  List.length_filter_lt_length_iff_exists.mpr ⟨t, ht, by simpa using hsel⟩

/-- The turns that may be left. -/
def turnsLeft (threshold : Nat) (tables : List SSTableMetadata) : Nat :=
  (levelTables 1 tables).length + if threshold ≤ (levelTables 0 tables).length then 2 else 0

section Turn

variable {stat : TablePath → Option Nat} {table : SSTableMetadata} {threshold : Nat}
  {tables tables' : List SSTableMetadata}

theorem safe_compactTables (stat : TablePath → Option Nat) (table : SSTableMetadata)
    (threshold : Nat) (tables : List SSTableMetadata) :
    Safe (compactTables stat table threshold tables) := by
  refine gives_bind (safe_pickWork threshold) fun plan? _ => ?_
  cases plan? <;> trivial

/-- **Every turn brings the worker closer to its end.** -/
theorem compactTables_measure (hpos : 0 < threshold)
    (hwork : hasCompactionWork stat tables threshold = .ok true)
    (hturn : compactTables stat table threshold tables = .ok tables') :
    turnsLeft threshold tables' < turnsLeft threshold tables := by
  rcases work_cases stat tables hpos with ⟨-, hno, -⟩ | ⟨plan, hpick, -, hplan⟩
  · rw [hno] at hwork
    cases hwork
  unfold compactTables at hturn
  rw [hpick] at hturn
  cases hturn
  have hleft := fun level => levelTables_replaceSelected level
    (plan.inputs.map SSTableMetadata.id) { table with level := plan.targetLevel } tables
  have hfewer := fun level => List.length_filter_le (fun t : SSTableMetadata =>
    decide (t.id ∉ plan.inputs.map SSTableMetadata.id)) (levelTables level tables)
  have hzero := hleft 0
  have hone := hleft 1
  unfold turnsLeft
  rcases hplan with ⟨hfull, hsource⟩ | ⟨hless, hsource⟩ <;>
    obtain ⟨-, htarget, selected, hinputs, -, hsel⟩ := hsource <;>
    rw [htarget] at hzero hone <;> dsimp only at hzero hone
  · -- level 0 is emptied, and the new table goes to level 1
    have hall : selected = levelTables 0 tables := by
      rcases hsel with ⟨-, h⟩ | ⟨h, -⟩
      · exact h
      · exact absurd rfl h
    have hempty : (levelTables 0 tables).filter
        (·.id ∉ plan.inputs.map SSTableMetadata.id) = [] := by
      refine List.filter_eq_nil_iff.mpr fun t ht => ?_
      have hin : t ∈ plan.inputs := by
        rw [hinputs, hall]
        exact List.mem_append_left _ ht
      simpa using ⟨t, hin, rfl⟩
    rw [hempty, if_neg (by decide), List.length_nil] at hzero
    rw [if_pos rfl] at hone
    have hkept := hfewer 1
    rw [htarget, if_pos hfull, if_neg (by omega)]
    omega
  · -- a table leaves level 1, and the new one goes to level 2
    obtain ⟨t, ht, hlevel, rfl⟩ : ∃ t ∈ tables, t.level = 1 ∧ selected = [t] := by
      rcases hsel with ⟨h, -⟩ | ⟨-, h⟩
      · cases h
      · exact h
    have hmem : t ∈ levelTables 1 tables := List.mem_filter.mpr ⟨ht, by simpa using hlevel⟩
    have htaken : t.id ∈ plan.inputs.map SSTableMetadata.id := by
      refine List.mem_map_of_mem ?_
      rw [hinputs]
      exact List.mem_append_left _ List.mem_cons_self
    have hlt := length_unselected_lt hmem htaken
    rw [if_neg (by decide)] at hzero hone
    have hkept := hfewer 0
    rw [htarget, if_neg (not_le.mpr hless), if_neg (by omega)]
    omega

end Turn

/-! ### The whole run -/

section Run

variable {stat : Nat → TablePath → Option Nat} {out : Nat → SSTableMetadata} {threshold : Nat}
  {trail : Nat → List SSTableMetadata}

/-- A run that goes on by a turn whenever there is work comes to an end. -/
theorem trail_rests (hpos : 0 < threshold)
    (hturn : ∀ n, hasCompactionWork (stat n) (trail n) threshold = .ok true →
      compactTables (stat n) (out n) threshold (trail n) = .ok (trail (n + 1))) :
    ∃ turns ≤ turnsLeft threshold (trail 0),
      (∀ n < turns, hasCompactionWork (stat n) (trail n) threshold = .ok true) ∧
      hasCompactionWork (stat turns) (trail turns) threshold = .ok false := by
  induction hleft : turnsLeft threshold (trail 0) using Nat.strong_induction_on
    generalizing stat out trail with
  | h left ih =>
      subst hleft
      rcases work_cases (stat 0) (trail 0) hpos with ⟨-, hno, -⟩ | ⟨-, -, hwork, -⟩
      · exact ⟨0, Nat.zero_le _, fun _ h => absurd h (Nat.not_lt_zero _), hno⟩
      · have hless := compactTables_measure hpos hwork (hturn 0 hwork)
        obtain ⟨turns, hle, hbefore, hrest⟩ :=
          ih _ hless (fun n => hturn (n + 1)) rfl
        refine ⟨turns + 1, by omega, fun n hn => ?_, hrest⟩
        cases n with
        | zero => exact hwork
        | succ n => exact hbefore n (by omega)

/-- The loop follows the run. -/
theorem compactionLoop_trail {turns : Nat}
    (hwork : ∀ n < turns, hasCompactionWork (stat n) (trail n) threshold = .ok true)
    (hturn : ∀ n < turns, compactTables (stat n) (out n) threshold (trail n) = .ok (trail (n + 1)))
    (hrest : hasCompactionWork (stat turns) (trail turns) threshold = .ok false)
    {fuel n : Nat} (hn : n ≤ turns) (hfuel : turns - n < fuel) :
    compactionLoop stat out threshold fuel n (trail n) = .ok (turns, trail turns) := by
  induction fuel generalizing n with
  | zero => omega
  | succ fuel ih =>
      unfold compactionLoop
      rcases Nat.lt_or_eq_of_le hn with hlt | rfl
      · rw [hwork n hlt, ok_bind, if_pos rfl, hturn n hlt, ok_bind]
        exact ih hlt (by omega)
      · rw [hrest]
        rfl

end Run

/-- A successful `compactLocked` is a turn of the loop, for the table it wrote. -/
theorem Compacted.turn {cfg : Config} {s t : Sys} {threshold : Nat}
    (h : Compacted cfg s threshold .ok t) :
    ∃ table, compactTables (s.stat cfg) table threshold s.db.manifest.sstables =
      .ok t.db.manifest.sstables := by
  unfold compactTables
  rw [pickWork_eq]
  cases h with
  | idle hplan =>
      rw [hplan]
      exact ⟨⟨0, .compact 0, 0, 0, [], []⟩, rfl⟩
  | published hplan hlen hread hr ht =>
      rename_i plan sources
      refine ⟨tableMetadata cfg s.db.manifest.nextSSTableID (.compact s.db.manifest.nextSSTableID)
        plan.targetLevel (mergeRecords (mergeOptions s.db plan) sources), ?_⟩
      rw [hplan, ht.db]
      rfl

/-- **The compaction worker comes to rest.** Whatever tables the manifest lists, and whatever
table each compaction puts in, the loop makes one turn after the other while there is work, at
most two more than level 1 has tables. Every turn chooses from a level with tables, no choice
faults, and at the end both levels are below the threshold and level 1 is below its byte target.
The same holds of the states of the engine that successful calls of `compactLocked` lead to. -/
theorem compactionLoop_ends (stat : Nat → TablePath → Option Nat) (out : Nat → SSTableMetadata)
    (threshold : Nat) (hpos : 1 ≤ threshold) (tables : List SSTableMetadata) :
    (∀ n tables' level, Safe (pickCompaction (stat n) tables' level threshold)) ∧
    (∀ fuel, (levelTables 1 tables).length + 2 < fuel →
      ∃ (turns : Nat) (trail : Nat → List SSTableMetadata),
      compactionLoop stat out threshold fuel 0 tables = .ok (turns, trail turns) ∧
      trail 0 = tables ∧
      (∀ n < turns, hasCompactionWork (stat n) (trail n) threshold = .ok true ∧
        compactTables (stat n) (out n) threshold (trail n) = .ok (trail (n + 1)) ∧
        ∃ plan, pickWork (stat n) (trail n) threshold = .ok (some plan) ∧
          ∃ t ∈ plan.inputs, t ∈ trail n ∧ t.level = plan.sourceLevel) ∧
      turns ≤ (levelTables 1 tables).length + 2 ∧ Rested (stat turns) threshold (trail turns)) ∧
    ∀ (cfg : Config) (M : Model Call), Survives M → ∀ s : Nat → Sys,
      (s 0).db.manifest.sstables = tables →
      (∀ n, hasCompactionWork ((s n).stat cfg) (s n).db.manifest.sstables threshold = .ok true →
        ∃ fates rest, compactLocked cfg threshold M (s n) fates = .ret () (s (n + 1)) rest) →
      ∃ turns ≤ (levelTables 1 tables).length + 2,
        (∀ n < turns,
          hasCompactionWork ((s n).stat cfg) (s n).db.manifest.sstables threshold = .ok true) ∧
        Rested ((s turns).stat cfg) threshold (s turns).db.manifest.sstables := by
  have hleft : turnsLeft threshold tables ≤ (levelTables 1 tables).length + 2 := by
    unfold turnsLeft
    split
    · exact le_refl _
    · omega
  refine ⟨fun n tables' level => safe_pickCompaction _ _, fun fuel hfuel => ?_,
    fun cfg M hM s hstart hnext => ?_⟩
  · obtain ⟨trail, rfl, hturn⟩ : ∃ trail : Nat → List SSTableMetadata, trail 0 = tables ∧
        ∀ n, compactTables (stat n) (out n) threshold (trail n) = .ok (trail (n + 1)) :=
      ⟨Nat.rec tables fun n ts => value _ (safe_compactTables (stat n) (out n) threshold ts), rfl,
        fun _ => value_eq _⟩
    obtain ⟨turns, hturns, hwork, hrest⟩ := trail_rests hpos fun n _ => hturn n
    refine ⟨turns, trail, compactionLoop_trail hwork (fun n _ => hturn n) hrest (Nat.zero_le _)
      (by omega), rfl, fun n hn => ⟨hwork n hn, hturn n, ?_⟩, by omega,
      rested_of_no_work hpos hrest⟩
    rcases work_cases (stat n) (trail n) hpos with ⟨-, hno, -⟩ | ⟨plan, hpick, -, hplan⟩
    · rw [hwork n hn] at hno
      cases hno
    · exact ⟨plan, hpick, hplan.elim (fun h => h.2.exists_source) fun h => h.2.exists_source⟩
  · have hturn : ∀ n, ∃ table,
        hasCompactionWork ((s n).stat cfg) (s n).db.manifest.sstables threshold = .ok true →
        compactTables ((s n).stat cfg) table threshold (s n).db.manifest.sstables =
          .ok (s (n + 1)).db.manifest.sstables := by
      intro n
      by_cases hwork : hasCompactionWork ((s n).stat cfg) (s n).db.manifest.sstables threshold =
          .ok true
      · obtain ⟨fates, rest, hrun⟩ := hnext n hwork
        have hcompacted := @wp_compactLocked_any cfg M (s n) hM threshold fates
        rw [hrun] at hcompacted
        exact hcompacted.turn.imp fun _ h _ => h
      · exact ⟨⟨0, .compact 0, 0, 0, [], []⟩, fun h => absurd h hwork⟩
    choose out' hturn using hturn
    obtain ⟨turns, hturns, hwork, hrest⟩ := @trail_rests (fun n => (s n).stat cfg) out' threshold
      (fun n => (s n).db.manifest.sstables) hpos hturn
    rw [hstart] at hturns
    exact ⟨turns, hturns.trans hleft, hwork, rested_of_no_work hpos hrest⟩

/-- Three tables in level 0 and a large one in level 1: the loop ends within three turns. -/
theorem compactionLoop_ends_large :
    ∃ turns tables', compactionLoop (fun _ _ => none)
      (fun n => ⟨10 + n, .compact (10 + n), 0, baseLevelTargetBytes, [1], [9]⟩) 3 4 0
      [⟨1, .data 1, 0, 10, [1], [2]⟩, ⟨2, .data 2, 0, 10, [3], [4]⟩, ⟨3, .data 3, 0, 10, [5], [6]⟩,
        ⟨4, .compact 4, 1, 10, [7], [8]⟩] = .ok (turns, tables') ∧
      turns ≤ 3 ∧ Rested (fun _ => none) 3 tables' := by
  obtain ⟨turns, trail, hloop, -, -, hturns, hrested⟩ := (compactionLoop_ends (fun _ _ => none)
    (fun n => ⟨10 + n, .compact (10 + n), 0, baseLevelTargetBytes, [1], [9]⟩) 3 (by decide)
    [⟨1, .data 1, 0, 10, [1], [2]⟩, ⟨2, .data 2, 0, 10, [3], [4]⟩, ⟨3, .data 3, 0, 10, [5], [6]⟩,
      ⟨4, .compact 4, 1, 10, [7], [8]⟩]).2.1 4 (by decide)
  exact ⟨turns, trail turns, hloop, hturns, hrested⟩

end HyphaDB
