import HyphaDB.Refine.Flush

/-!
# HyphaDB.Refine.Compact

**A compaction is a move.** What `compactLocked` takes from the manifest, merges and puts in
its place is a compaction of the view (`compacts_plan`): the picker leaves nothing behind
that shares a key with the source tables, the merge protects every registered reader,
and the new table's ID is fresh. The manifest's rename is the moment of the move; the
files removed behind it belong to no table any more.
-/

namespace HyphaDB.Refine

open Faults Store Wal Compaction

variable {cfg : Config} {g : Guard} {M : Model Call} {used : Nat} {l : Ledger} {s : Sys}
  {d : Disk} {db : DB} {start : View × Ledger}

/-! ### The tables of a plan -/

theorem inputTables_eq {sstables inputs : List SSTableMetadata}
    (hids : (sstables.map SSTableMetadata.id).Nodup) (hsub : ∀ t ∈ inputs, t ∈ sstables) :
    inputTables sstables inputs = inputs := by
  have hfind : ∀ t ∈ sstables, sstables.find? (·.id = t.id) = some t := by
    intro t ht
    cases hu : sstables.find? (·.id = t.id) with
    | none => exact absurd (decide_eq_true rfl) (List.find?_eq_none.mp hu t ht)
    | some u =>
        have hmem := List.mem_of_find?_eq_some hu
        have hid : u.id = t.id := by simpa using List.find?_some hu
        rw [List.inj_on_of_nodup_map hids hmem ht hid]
  unfold inputTables
  induction inputs with
  | nil => rfl
  | cons t ts ih =>
      rw [List.filterMap_cons, hfind t (hsub t List.mem_cons_self),
        ih fun u hu => hsub u (List.mem_cons_of_mem _ hu)]

theorem readTables_eq {tables : List SSTableMetadata}
    (h : ∀ t ∈ tables, d.tables t.path = some (tableRecords d t)) :
    readTables d tables = .ok (tables.map (tableRecords d)) := by
  induction tables with
  | nil => rfl
  | cons t ts ih =>
      unfold readTables
      rw [h t List.mem_cons_self, ih fun u hu => h u (List.mem_cons_of_mem _ hu)]
      rfl

theorem mem_replaceSelected {selected : List Nat} {table t : SSTableMetadata}
    {tables : List SSTableMetadata} (hex : ∃ u ∈ tables, u.id ∈ selected) :
    t ∈ replaceSelected selected table tables ↔ t = table ∨ t ∈ tables ∧ t.id ∉ selected := by
  induction tables with
  | nil =>
      obtain ⟨u, hu, -⟩ := hex
      cases hu
  | cons u us ih =>
      unfold replaceSelected
      by_cases hsel : u.id ∈ selected
      · rw [if_pos hsel, List.mem_cons, List.mem_filter, List.mem_cons]
        refine or_congr_right ?_
        constructor
        · exact fun h => ⟨Or.inr h.1, by simpa using h.2⟩
        · intro h
          obtain ⟨h | h, hnot⟩ := h
          · exact absurd hsel (h ▸ hnot)
          · exact ⟨h, by simpa using hnot⟩
      · have hex' : ∃ x ∈ us, x.id ∈ selected := by
          obtain ⟨x, hx, hxs⟩ := hex
          rcases List.mem_cons.mp hx with rfl | hx
          · exact absurd hxs hsel
          · exact ⟨x, hx, hxs⟩
        rw [if_neg hsel, List.mem_cons, ih hex', List.mem_cons]
        constructor
        · intro h
          rcases h with rfl | h | ⟨h, hnot⟩
          · exact Or.inr ⟨Or.inl rfl, hsel⟩
          · exact Or.inl h
          · exact Or.inr ⟨Or.inr h, hnot⟩
        · intro h
          rcases h with h | ⟨rfl | h, hnot⟩
          · exact Or.inr (Or.inl h)
          · exact Or.inl rfl
          · exact Or.inr (Or.inr ⟨h, hnot⟩)

theorem replaceSelected_sub {selected : List Nat} {table t : SSTableMetadata}
    {tables : List SSTableMetadata} (ht : t ∈ replaceSelected selected table tables) :
    t = table ∨ t ∈ tables ∧ t.id ∉ selected := by
  induction tables with
  | nil => cases ht
  | cons u us ih =>
      unfold replaceSelected at ht
      by_cases hsel : u.id ∈ selected
      · rw [if_pos hsel] at ht
        refine (List.mem_cons.mp ht).imp_right fun h => ?_
        obtain ⟨hmem, hnot⟩ := List.mem_filter.mp h
        exact ⟨List.mem_cons_of_mem _ hmem, of_decide_eq_true hnot⟩
      · rw [if_neg hsel] at ht
        rcases List.mem_cons.mp ht with rfl | ht
        · exact Or.inr ⟨List.mem_cons_self, hsel⟩
        · exact (ih ht).imp_right fun h => ⟨List.mem_cons_of_mem _ h.1, h.2⟩

theorem replaceSelected_ids_nodup {selected : List Nat} {table : SSTableMetadata}
    {tables : List SSTableMetadata} (hids : (tables.map SSTableMetadata.id).Nodup)
    (hfresh : ∀ t ∈ tables, t.id ≠ table.id) :
    ((replaceSelected selected table tables).map SSTableMetadata.id).Nodup := by
  induction tables with
  | nil => exact List.nodup_nil
  | cons u us ih =>
      rw [List.map_cons, List.nodup_cons] at hids
      have hfresh' : ∀ t ∈ us, t.id ≠ table.id := fun t ht => hfresh t (List.mem_cons_of_mem _ ht)
      unfold replaceSelected
      by_cases hsel : u.id ∈ selected
      · rw [if_pos hsel, List.map_cons, List.nodup_cons]
        refine ⟨fun hmem => ?_, hids.2.sublist (List.filter_sublist.map _)⟩
        obtain ⟨t, ht, heq⟩ := List.mem_map.mp hmem
        exact hfresh' t (List.mem_filter.mp ht).1 heq
      · rw [if_neg hsel, List.map_cons, List.nodup_cons]
        refine ⟨fun hmem => ?_, ih hids.2 hfresh'⟩
        obtain ⟨t, ht, heq⟩ := List.mem_map.mp hmem
        rcases replaceSelected_sub ht with rfl | ⟨ht, -⟩
        · exact hfresh u List.mem_cons_self heq.symm
        · exact hids.1 (heq ▸ List.mem_map_of_mem ht)

/-! ### Readers -/

/-- A fold whose new value is at most the old one and at most the element ends below all. -/
theorem foldl_some_le {f : Option UInt64 → UInt64 → Option UInt64}
    (hf : ∀ o y, ∃ z, f o y = some z ∧ z ≤ y ∧ ∀ w, o = some w → z ≤ w) {readers : List UInt64}
    {o : Option UInt64} {x : UInt64} (hx : x ∈ readers ∨ o = some x) :
    ∃ oldest, readers.foldl f o = some oldest ∧ oldest ≤ x := by
  induction readers generalizing o x with
  | nil => exact ⟨x, hx.resolve_left (by simp), le_refl _⟩
  | cons y ys ih =>
      rw [List.foldl_cons]
      obtain ⟨z, hz, hzy, hzo⟩ := hf o y
      rw [hz]
      rcases hx with hx | hx
      · rcases List.mem_cons.mp hx with rfl | hx
        · obtain ⟨oldest, heq, hle⟩ := ih (x := z) (Or.inr rfl)
          exact ⟨oldest, heq, hle.trans hzy⟩
        · exact ih (Or.inl hx)
      · obtain ⟨oldest, heq, hle⟩ := ih (x := z) (Or.inr rfl)
        exact ⟨oldest, heq, hle.trans (hzo x hx)⟩

/-- The oldest reader is no newer than any. -/
theorem oldestReader_le {sequence : UInt64} (h : sequence ∈ db.activeReaders) :
    ∃ oldest, db.oldestReader = some oldest ∧ oldest ≤ sequence := by
  refine foldl_some_le (fun o y => ?_) (Or.inl h)
  cases o with
  | none => exact ⟨y, rfl, le_refl _, by simp⟩
  | some w =>
      by_cases hlt : y < w
      · exact ⟨y, if_pos hlt, le_refl _, fun v hv => Option.some.inj hv ▸ hlt.le⟩
      · exact ⟨w, if_neg hlt, not_lt.mp hlt, fun v hv => (Option.some.inj hv).le⟩

theorem protected_reader {sequence : UInt64} (h : sequence ∈ db.activeReaders)
    (plan : CompactionPlan) : Protected (mergeOptions db plan) sequence := by
  obtain ⟨oldest, heq, hle⟩ := oldestReader_le h
  unfold Protected
  rw [show (mergeOptions db plan).oldestReader = _ from heq]
  exact hle

/-! ### The plan as a compaction of the view -/

section Plan

variable {threshold : Nat} {plan : CompactionPlan} (hs : SysSound cfg g M used s)
  (hplan : compactionPlan cfg s threshold = some plan)

/-- A plan comes from level 0 or from level 1. -/
theorem plan_source (hplan : compactionPlan cfg s threshold = some plan) :
    ∃ stat level, (level = 0 ∨ level = 1) ∧
      pickCompaction stat s.db.manifest.sstables level threshold = .ok (some plan) := by
  have hpick := pickWork_eq cfg s threshold
  rw [hplan] at hpick
  obtain ⟨plan?, hzero, hpick⟩ := Checked.bind_eq_ok hpick
  cases plan? with
  | some plan' =>
      cases hpick
      exact ⟨_, _, Or.inl rfl, hzero⟩
  | none => exact ⟨_, _, Or.inr rfl, hpick⟩

include hs hplan

theorem plan_sub : ∀ t ∈ plan.inputs, t ∈ s.db.sstables := by
  obtain ⟨stat, level, -, hpick⟩ := plan_source hplan
  intro t ht
  rw [hs.proc.sstables]
  exact (pickCompaction_inputs hpick ht).1

theorem plan_inputs : inputTables s.db.sstables plan.inputs = plan.inputs :=
  inputTables_eq (hs.proc.ids_eq ▸ hs.disk.ids) (plan_sub hs hplan)

theorem plan_tables : ∀ t ∈ plan.inputs, TableSound used s.disk t :=
  fun t ht => hs.proc.tableSound hs.disk (plan_sub hs hplan t ht)

/-- Some table is replaced. -/
theorem plan_nonempty : ∃ t ∈ s.db.sstables, t.id ∈ plan.inputs.map SSTableMetadata.id := by
  obtain ⟨stat, level, -, hpick⟩ := plan_source hplan
  obtain ⟨t, hmem, -⟩ := (pickCompaction_source hpick).exists_source
  exact ⟨t, plan_sub hs hplan t hmem, List.mem_map_of_mem hmem⟩

/-- A table of the process is an input when its ID is selected. -/
theorem plan_selected {t : SSTableMetadata} (ht : t ∈ s.db.sstables) :
    t.id ∈ plan.inputs.map SSTableMetadata.id ↔ t ∈ plan.inputs := by
  constructor
  · intro hid
    obtain ⟨u, hu, heq⟩ := List.mem_map.mp hid
    have hids : (s.db.sstables.map SSTableMetadata.id).Nodup := hs.proc.ids_eq ▸ hs.disk.ids
    rwa [← List.inj_on_of_nodup_map hids (plan_sub hs hplan u hu) ht heq]
  · exact fun hmem => List.mem_map_of_mem hmem

/-- The same in the view. -/
theorem plan_selected_tab {t : SSTableMetadata} (ht : t ∈ s.db.sstables) :
    tabOf s.disk t ∈ plan.inputs.map (tabOf s.disk) ↔
      t.id ∈ plan.inputs.map SSTableMetadata.id := by
  constructor
  · intro hmem
    obtain ⟨u, hu, heq⟩ := List.mem_map.mp hmem
    have hid : u.id = t.id := by rw [← tabOf_id s.disk u, heq, tabOf_id]
    exact hid ▸ List.mem_map_of_mem hu
  · exact fun hid => List.mem_map_of_mem ((plan_selected hs hplan ht).mp hid)

/-- The contents of the merged table. -/
theorem plan_merged : InOrder (mergeRecords (mergeOptions s.db plan)
      (plan.inputs.map (tableRecords s.disk))) ∧
    ∀ r ∈ mergeRecords (mergeOptions s.db plan) (plan.inputs.map (tableRecords s.disk)),
      r.seq.toNat ≤ used := by
  have hin : ∀ recs ∈ plan.inputs.map (tableRecords s.disk), InOrder recs := by
    intro recs hrecs
    obtain ⟨t, ht, rfl⟩ := List.mem_map.mp hrecs
    exact (plan_tables hs hplan t ht).inOrder
  refine ⟨mergeRecords_inOrder hin, fun r hr => ?_⟩
  obtain ⟨recs, hrecs, hr⟩ := mem_mergeRecords hr
  obtain ⟨t, ht, rfl⟩ := List.mem_map.mp hrecs
  exact (plan_tables hs hplan t ht).seq_le r hr

/-! ### The merged table -/

/-- The directory with the merged table in it, before the manifest names it. -/
def mergedDisk (s : Sys) (plan : CompactionPlan) : Disk :=
  s.disk.putTable (.compact s.db.manifest.nextSSTableID)
    (mergeRecords (mergeOptions s.db plan) (plan.inputs.map (tableRecords s.disk)))

variable (cfg) in
def mergedTable (s : Sys) (plan : CompactionPlan) : SSTableMetadata :=
  tableMetadata cfg s.db.manifest.nextSSTableID (.compact s.db.manifest.nextSSTableID)
    plan.targetLevel
    (mergeRecords (mergeOptions s.db plan) (plan.inputs.map (tableRecords s.disk)))

variable (cfg) in
/-- The tables after the compaction. -/
def mergedTables (s : Sys) (plan : CompactionPlan) : List SSTableMetadata :=
  replaceSelected (plan.inputs.map SSTableMetadata.id) (mergedTable cfg s plan) s.db.sstables

omit hs hplan in
/-- Its file is a new one. -/
theorem mergedDisk_tables {t : SSTableMetadata} (hid : t.path.id < s.db.manifest.nextSSTableID) :
    (mergedDisk s plan).tables t.path = s.disk.tables t.path := by
  refine putTable_of_ne _ fun heq => ?_
  rw [heq] at hid
  exact lt_irrefl _ hid

omit hplan in
theorem mergedDisk_of_mem {t : SSTableMetadata} (ht : t ∈ s.db.sstables) :
    (mergedDisk s plan).tables t.path = s.disk.tables t.path := by
  refine mergedDisk_tables ?_
  rw [(hs.proc.tableSound hs.disk ht).path_id]
  exact hs.proc.below t ht

omit hplan in
theorem mergedDisk_of_live : ∀ t ∈ liveTables s.disk,
    (mergedDisk s plan).tables t.path = s.disk.tables t.path := by
  intro t ht
  obtain ⟨u, hu, heq⟩ := hs.proc.mem_of_live ht
  rw [← (SSTableMetadata.mk.inj heq).2.1]
  exact mergedDisk_of_mem hs hu

omit hs hplan in
theorem mergedTable_records : tableRecords (mergedDisk s plan) (mergedTable cfg s plan) =
    mergeRecords (mergeOptions s.db plan) (plan.inputs.map (tableRecords s.disk)) := by
  unfold tableRecords mergedDisk mergedTable tableMetadata Disk.putTable
  dsimp only
  rw [Function.update_self]
  rfl

theorem mergedTable_sound : TableSound used (mergedDisk s plan) (mergedTable cfg s plan) := by
  obtain ⟨hin, hseq⟩ := plan_merged hs hplan
  refine ⟨?_, ?_, rfl, ?_, ?_, ?_⟩
  · rw [mergedTable_records]
    exact Function.update_self _ _ _
  · rwa [mergedTable_records]
  · rw [mergedTable_records]
    rfl
  · rw [mergedTable_records]
    rfl
  · rwa [mergedTable_records]

omit hplan in
theorem mergedTable_fresh : ∀ t ∈ s.db.sstables, t.id ≠ (mergedTable cfg s plan).id :=
  fun t ht => (hs.proc.below t ht).ne

theorem mem_mergedTables {t : SSTableMetadata} : t ∈ mergedTables cfg s plan ↔
    t = mergedTable cfg s plan ∨
      t ∈ s.db.sstables ∧ t.id ∉ plan.inputs.map SSTableMetadata.id :=
  mem_replaceSelected (plan_nonempty hs hplan)

theorem mergedTables_sound :
    ∀ t ∈ mergedTables cfg s plan, TableSound used (mergedDisk s plan) t := by
  intro t ht
  rcases (mem_mergedTables hs hplan).mp ht with rfl | ⟨ht, -⟩
  · exact mergedTable_sound hs hplan
  · exact (hs.proc.tableSound hs.disk ht).congr (mergedDisk_of_mem hs ht)

/-- **The plan is a compaction of the view.** -/
theorem compacts_plan : Compacts s.db.activeReaders (tabsOf s.disk)
    ((mergedTables cfg s plan).map (tabOf (mergedDisk s plan)))
    (plan.inputs.map (tabOf s.disk)) (mergeOptions s.db plan)
    (tabOf (mergedDisk s plan) (mergedTable cfg s plan)) := by
  have hp := hs.proc
  obtain ⟨stat, level, hlevel, hpick⟩ := plan_source hplan
  obtain ⟨-, htarget, selected, hinputs, -, hsel⟩ := pickCompaction_source hpick
  rw [← hp.sstables] at hinputs hsel hpick
  have hout : (tabOf (mergedDisk s plan) (mergedTable cfg s plan)).level = level + 1 :=
    (tabOf_level _ _).trans htarget
  have htabs : ∀ t, t ∈ tabsOf s.disk ↔ ∃ u ∈ s.db.sstables, tabOf s.disk u = t := by
    intro t
    rw [← hp.tabs_eq, List.mem_map]
  have hbounds : ∀ u ∈ s.db.sstables, ∀ r ∈ (tabOf s.disk u).recs,
      u.smallestKey ≤ r.key ∧ r.key ≤ u.largestKey := by
    intro u hu r hr
    have hsound := hp.tableSound hs.disk hu
    rw [hsound.tabOf_recs] at hr
    rw [hsound.smallest, hsound.largest]
    exact SSTable.key_bounds hsound.inOrder hr
  refine ⟨?_, ?_, ?_, ?_, ?_, ?_, ?_, ?_, ?_⟩
  · intro t ht
    obtain ⟨u, hu, rfl⟩ := List.mem_map.mp ht
    exact (htabs _).mpr ⟨u, plan_sub hs hplan u hu, rfl⟩
  · rw [(mergedTable_sound hs hplan).tabOf_recs, mergedTable_records, List.map_map]
    congr 1
    refine List.map_congr_left fun u hu => ?_
    exact (plan_tables hs hplan u hu).tabOf_recs.symm
  · intro t
    rw [List.mem_map, htabs]
    constructor
    · intro h
      obtain ⟨u, hu, rfl⟩ := h
      rcases (mem_mergedTables hs hplan).mp hu with rfl | ⟨hu, hno⟩
      · exact Or.inl rfl
      · rw [tabOf_congr (mergedDisk_of_mem hs hu)]
        exact Or.inr ⟨⟨u, hu, rfl⟩, fun h => hno ((plan_selected_tab hs hplan hu).mp h)⟩
    · intro h
      rcases h with rfl | ⟨⟨u, hu, rfl⟩, hno⟩
      · exact ⟨_, (mem_mergedTables hs hplan).mpr (Or.inl rfl), rfl⟩
      · refine ⟨u, (mem_mergedTables hs hplan).mpr (Or.inr ⟨hu, fun h => ?_⟩),
          tabOf_congr (mergedDisk_of_mem hs hu)⟩
        exact hno ((plan_selected_tab hs hplan hu).mpr h)
  · intro t ht
    obtain ⟨u, hu, rfl⟩ := (htabs t).mp ht
    rw [tabOf_id, tabOf_id]
    exact mergedTable_fresh hs u hu
  · exact fun sequence hmem => protected_reader hmem plan
  · intro hdrop
    rw [tabOf_level]
    exact of_decide_eq_true hdrop
  · rw [hout]
    rcases hlevel with rfl | rfl
    · refine Or.inl ⟨rfl, fun t ht hzero => ?_⟩
      obtain ⟨u, hu, rfl⟩ := (htabs t).mp ht
      rw [tabOf_level] at hzero
      rcases hsel with ⟨-, rfl⟩ | ⟨hne, -⟩
      · refine List.mem_map_of_mem ?_
        rw [hinputs]
        exact List.mem_append_left _ (List.mem_filter.mpr ⟨hu, decide_eq_true hzero⟩)
      · exact absurd rfl hne
    · exact Or.inr rfl
  · intro t ht
    obtain ⟨u, hu, rfl⟩ := List.mem_map.mp ht
    rw [hout, tabOf_level]
    exact (pickCompaction_inputs hpick hu).2.imp (congrArg (· + 1)) id
  · intro t ht hno htlevel
    obtain ⟨u, hu, rfl⟩ := (htabs t).mp ht
    rw [tabOf_level, hout] at htlevel
    have hleft : u ∉ overlapping s.db.sstables selected (level + 1) := by
      refine fun h => hno (List.mem_map_of_mem ?_)
      rw [hinputs]
      exact List.mem_append_right _ h
    obtain ⟨lo, hi, hsource, hmeets, hside⟩ := overlapping_apart hu htlevel hleft
    refine ⟨lo, hi, ?_, ?_, ?_⟩
    · intro x hx hxlevel r hr
      obtain ⟨y, hy, rfl⟩ := List.mem_map.mp hx
      rw [tabOf_level, hout] at hxlevel
      obtain ⟨hlo, hhi⟩ := hbounds y (plan_sub hs hplan y hy) r hr
      rw [hinputs] at hy
      rcases List.mem_append.mp hy with hy | hy
      · exact ⟨(hsource y hy).1.trans hlo, hhi.trans (hsource y hy).2⟩
      · have := (overlapping_sub hy).2
        omega
    · intro x hx hxlevel hrecs
      obtain ⟨y, hy, rfl⟩ := List.mem_map.mp hx
      rw [tabOf_level, hout] at hxlevel
      have hsound := plan_tables hs hplan y hy
      rw [hsound.tabOf_recs] at hrecs ⊢
      have hjoins : y ∈ overlapping s.db.sstables selected (level + 1) := by
        rw [hinputs] at hy
        rcases List.mem_append.mp hy with hy | hy
        · have : y.level = level := by
            rcases hsel with ⟨-, rfl⟩ | ⟨-, z, -, hz, rfl⟩
            · simpa using (List.mem_filter.mp hy).2
            · rwa [List.mem_singleton.mp hy]
          omega
        · exact hy
      obtain ⟨hlo, hhi⟩ := hmeets y hjoins
      rw [hsound.largest] at hlo
      rw [hsound.smallest] at hhi
      obtain ⟨a, ha, hak⟩ := SSTable.largestKey_mem hrecs
      obtain ⟨b, hb, hbk⟩ := SSTable.smallestKey_mem hrecs
      exact ⟨⟨a, ha, hak ▸ hlo⟩, b, hb, hbk ▸ hhi⟩
    · refine hside.imp (fun h r hr => ?_) (fun h r hr => ?_)
      · exact (hbounds u hu r hr).2.trans_lt h
      · exact h.trans_le (hbounds u hu r hr).1

/-! ### The steps of a compaction -/

omit hplan in
/-- A new table beside the live ones. -/
theorem disk_merged : DiskSound cfg g used (mergedDisk s plan) ∧
    tabsOf (mergedDisk s plan) = tabsOf s.disk :=
  ⟨hs.disk.setTables _ (mergedDisk_of_live hs), tabsOf_setTables _ (mergedDisk_of_live hs)⟩

omit hplan in
/-- A kill before the manifest's rename leaves a file nobody names. -/
theorem stops_merged (hg : g.crash) :
    Stops cfg g used (viewSys cfg s, l) l (mergedDisk s plan) := by
  have hstay : Runs cfg g M used (viewSys cfg s, l) l s := ⟨hs, Relation.ReflTransGen.refl⟩
  refine ⟨(disk_merged hs).1, ?_⟩
  show Moves g _ (View.mk _ (tabsOf (mergedDisk s plan)) _, l)
  rw [(disk_merged hs).2]
  exact (hstay.stops hg).moves

omit hplan in
/-- The flush worker's table is another file. -/
theorem flusher_merged {imm : ImmutableMemTable} {table : SSTableMetadata}
    (hflusher : s.db.flusher = .written imm table) :
    (mergedDisk s plan).tables table.path = s.disk.tables table.path := by
  have hf := hs.proc.flusher
  unfold FlusherSound at hf
  rw [hflusher] at hf
  refine mergedDisk_tables ?_
  rw [hf.2.1.path_id]
  exact hf.1.1

variable (cfg) in
/-- The process that has taken over the merged table. -/
def mergedDB (s : Sys) (plan : CompactionPlan) : DB :=
  (s.db.setTables (mergedTables cfg s plan) (mergedTables cfg s plan)).setNextSSTableID
    (s.db.manifest.nextSSTableID + 1)

theorem reserved_merged {id : Nat} (h : Reserved s.db id) : Reserved (mergedDB cfg s plan) id := by
  refine ⟨Nat.lt_succ_of_lt h.1, fun t ht => ?_⟩
  rcases (mem_mergedTables hs hplan).mp ht with rfl | ⟨ht, -⟩
  · exact h.1.ne'
  · exact h.2 t ht

theorem flusherSound_merged : FlusherSound used (mergedDisk s plan) (mergedDB cfg s plan) := by
  have hf := hs.proc.flusher
  unfold FlusherSound at hf ⊢
  rw [show (mergedDB cfg s plan).flusher = s.db.flusher from rfl]
  cases hflusher : s.db.flusher with
  | reserved imm id =>
      rw [hflusher] at hf
      exact reserved_merged hs hplan hf
  | written imm table =>
      rw [hflusher] at hf
      exact ⟨reserved_merged hs hplan hf.1, hf.2.1.congr (flusher_merged hs hflusher), hf.2.2⟩
  | idle => trivial
  | removing w => trivial
  | failed =>
      rw [hflusher] at hf
      exact hf
  | cleanup path =>
      rw [hflusher] at hf
      exact hf

omit hplan in
/-- The handle is what it was. -/
theorem handleOf_merged (m : Manifest) :
    handleOf (setManifest (mergedDisk s plan) m) (mergedDB cfg s plan) = handleOf s.disk s.db := by
  have hstage : stageOf (setManifest (mergedDisk s plan) m) s.db.flusher =
      stageOf s.disk s.db.flusher := by
    cases hflusher : s.db.flusher with
    | written imm table =>
        show Stage.written imm (tabOf (mergedDisk s plan) table) = _
        rw [tabOf_congr (flusher_merged hs hflusher)]
        rfl
    | _ => rfl
  unfold handleOf
  rw [show (mergedDB cfg s plan).flusher = s.db.flusher from rfl, hstage]
  rfl

/-- **The manifest's rename is the compaction.** -/
theorem runs_compacted
    (hok : g.compact (viewSys cfg s) (plan.inputs.map (tabOf s.disk)) (mergeOptions s.db plan)) :
    Runs cfg g M used (viewSys cfg s, l) l
      ⟨setManifest (mergedDisk s plan) (mergedDB cfg s plan).manifest, mergedDB cfg s plan⟩ := by
  have hp := hs.proc
  have hids : (s.db.sstables.map SSTableMetadata.id).Nodup := hp.ids_eq ▸ hs.disk.ids
  refine ⟨⟨?_, ?_⟩, ?_⟩
  · refine (disk_merged hs).1.setManifest (mergedTables_sound hs hplan) ?_ hp.next_segment
    exact replaceSelected_ids_nodup hids (mergedTable_fresh hs)
  · refine { hp with
      sstables := rfl
      agree := ?_
      below := ?_
      flusher := (flusherSound_merged hs hplan).congr fun _ _ _ => rfl
      next_le := (next_setManifest _ _).le
      refs := ?_ }
    · rw [liveTables_setManifest]
      rfl
    · intro t ht
      rcases (mem_mergedTables hs hplan).mp ht with rfl | ⟨ht, -⟩
      · exact Nat.lt_succ_self _
      · exact Nat.lt_succ_of_lt (hp.below t ht)
    · rw [handleOf_merged hs]
      exact hp.refs
  · have hmove := Move.compact (g := g) (l := l) (v := viewSys cfg s)
      (h := handleOf s.disk s.db) rfl (compacts_plan hs hplan) hok
    refine Relation.ReflTransGen.single ?_
    show Move g _ (View.mk _ (tabsOf (setManifest (mergedDisk s plan) _))
      (some (handleOf (setManifest (mergedDisk s plan) _) (mergedDB cfg s plan))), l)
    rw [handleOf_merged hs, tabsOf_setManifest]
    exact hmove

end Plan

/-! ### Removing the replaced tables -/

/-- No table of the process has the ID, nor the one the flush worker is writing. -/
def Unused (db : DB) (id : Nat) : Prop :=
  (∀ t ∈ db.sstables, t.id ≠ id) ∧ ∀ imm table, db.flusher = .written imm table → table.id ≠ id

/-- The file of an unused ID may go. -/
theorem Runs.removeTable {start : View × Ledger} (h : Runs cfg g M used start l s)
    {path : TablePath} (hid : Unused s.db path.id) :
    Runs cfg g M used start l { s with disk := s.disk.removeTable path } := by
  have hlive : ∀ t ∈ liveTables s.disk,
      (s.disk.removeTable path).tables t.path = s.disk.tables t.path := by
    intro t ht
    exact Function.update_of_ne (h.sound.proc.path_ne h.sound.disk path hid.1 t ht) _ _
  have hflush : ∀ imm table, s.db.flusher = .written imm table →
      (s.disk.removeTable path).tables table.path = s.disk.tables table.path := by
    intro imm table hflusher
    have hf := h.sound.proc.flusher
    unfold FlusherSound at hf
    rw [hflusher] at hf
    refine Function.update_of_ne (fun heq => hid.2 imm table hflusher ?_) _ _
    rw [← heq, hf.2.1.path_id]
  have hhandle : handleOf (s.disk.removeTable path) s.db = handleOf s.disk s.db := by
    have hstage : stageOf (s.disk.removeTable path) s.db.flusher = stageOf s.disk s.db.flusher := by
      cases hflusher : s.db.flusher with
      | written imm table =>
          show Stage.written imm (tabOf (s.disk.removeTable path) table) = _
          rw [tabOf_congr (hflush imm table hflusher)]
          rfl
      | _ => rfl
    unfold handleOf
    rw [hstage]
  refine ⟨⟨h.sound.disk.setTables _ hlive, ?_⟩, ?_⟩
  · exact { h.sound.proc with
      flusher := h.sound.proc.flusher.congr hflush
      refs := hhandle ▸ h.sound.proc.refs }
  · have htabs : tabsOf (s.disk.removeTable path) = tabsOf s.disk := tabsOf_setTables _ hlive
    show Moves g _ (View.mk _ (tabsOf (s.disk.removeTable path))
      (some (handleOf (s.disk.removeTable path) s.db)), l)
    rw [hhandle, htabs]
    exact h.moves

theorem unused_replaced {threshold : Nat} {plan : CompactionPlan} (hs : SysSound cfg g M used s)
    (hplan : compactionPlan cfg s threshold = some plan) {t : SSTableMetadata}
    (ht : t ∈ s.db.sstables) (hsel : t.id ∈ plan.inputs.map SSTableMetadata.id) :
    Unused (mergedDB cfg s plan) t.path.id := by
  rw [(hs.proc.tableSound hs.disk ht).path_id]
  constructor
  · intro u hu heq
    rcases (mem_mergedTables hs hplan).mp hu with rfl | ⟨-, hno⟩
    · exact mergedTable_fresh hs t ht heq.symm
    · exact hno (heq ▸ hsel)
  · intro imm table hflusher heq
    have hf := hs.proc.flusher
    unfold FlusherSound at hf
    rw [show s.db.flusher = .written imm table from hflusher] at hf
    exact hf.1.2 t ht heq.symm

theorem wp_removeTables (ha : Allowed g M) {start : View × Ledger}
    {Q : Post Sys DBError (Except DBError Unit)} {tables : List SSTableMetadata}
    (h : Runs cfg g M used start l s) (hunused : ∀ t ∈ tables, Unused s.db t.path.id)
    (hret : ∀ s', Runs cfg g M used start l s' → Q.ret (.ok ()) s')
    (hkill : g.crash → ∀ s', Runs cfg g M used start l s' → Q.kill s') :
    wp M (removeTables tables) Q s := by
  induction tables generalizing s Q with
  | nil =>
      refine wp_attempt (wp_sync ha (fun n hM => by simpa using ha.other hM) (hret s h) ?_)
      exact fun hg => hkill hg s h
  | cons t ts ih =>
      have hremoved := h.removeTable (hunused t List.mem_cons_self)
      unfold removeTables HyphaDB.removeTable
      refine wp_bind (wp_attempt (wp_atomic ha (fun n hM => by simpa using ha.other hM) ?_ ?_))
      · refine wp_bind (ih hremoved (fun u hu => hunused u (List.mem_cons_of_mem _ hu)) ?_ ?_)
        · exact fun s' hs' => wp_pure (hret s' hs')
        · exact hkill
      · intro hg t' ht'
        rcases ht' with rfl | rfl
        · exact hkill hg _ h
        · exact hkill hg _ hremoved

/-! ### Compacting -/

/-- What is asked of a compaction. -/
def CompactOk (cfg : Config) (g : Guard) (s : Sys) (threshold : Nat) : Prop :=
  ∀ plan, compactionPlan cfg s threshold = some plan →
    g.compact (viewSys cfg s) (plan.inputs.map (tabOf s.disk)) (mergeOptions s.db plan)

theorem wp_compactLocked (ha : Allowed g M) (hs : SysSound cfg g M used s) {threshold : Nat}
    (hok : CompactOk cfg g s threshold) :
    wp M (compactLocked cfg threshold) (Refines cfg g M used (viewSys cfg s, l) []) s := by
  have hstay : Runs cfg g M used (viewSys cfg s, l) l s := ⟨hs, Relation.ReflTransGen.refl⟩
  unfold compactLocked
  refine wp_bind (wp_get ?_)
  dsimp only
  cases hplan : compactionPlan cfg s threshold with
  | none => exact wp_pure hstay
  | some plan =>
      have hcompacted := runs_compacted (l := l) hs hplan (hok plan hplan)
      have htables : replaceSelected (plan.inputs.map SSTableMetadata.id) (mergedTable cfg s plan)
          s.db.manifest.sstables = mergedTables cfg s plan := by
        rw [← hs.proc.sstables]
        rfl
      dsimp only
      rw [plan_inputs hs hplan, if_neg (by simp),
        readTables_eq fun t ht => (plan_tables hs hplan t ht).file]
      refine wp_bind (wp_pure (wp_bind (wp_createTable ha (plan_merged hs hplan).1 ?_ ?_)))
      · refine wp_bind (wp_modify ?_)
        show wp M _ _ (⟨mergedDisk s plan, (s.db.setTables s.db.sstables
          (replaceSelected (plan.inputs.map SSTableMetadata.id) (mergedTable cfg s plan)
            s.db.manifest.sstables)).setNextSSTableID (s.db.manifest.nextSSTableID + 1)⟩ : Sys)
        rw [htables]
        refine wp_bind (wp_attempt (wp_writeManifest ha ?_ ?_))
        · refine wp_bind (wp_modify (wp_bind (wp_removeTables ha hcompacted ?_ ?_ ?_)))
          · intro t ht
            obtain ⟨hmem, hsel⟩ := List.mem_filter.mp ht
            exact unused_replaced hs hplan hmem (of_decide_eq_true hsel)
          · exact fun s' hs' => wp_pure hs'
          · exact fun hg s' hs' => ⟨hg, hs'.stops hg⟩
        · intro hg t ht
          rcases ht with rfl | rfl
          · exact ⟨hg, stops_merged hs hg⟩
          · exact ⟨hg, hcompacted.stops hg⟩
      · intro hg t ht
        rcases ht with rfl | rfl
        · exact ⟨hg, hstay.stops hg⟩
        · exact ⟨hg, stops_merged hs hg⟩

theorem wp_compact (ha : Allowed g M) (hs : SysSound cfg g M used s) (hok : CompactOk cfg g s 1) :
    wp M (compact cfg) (Refines cfg g M used (viewSys cfg s, l) []) s :=
  wp_compactLocked ha hs hok

theorem wp_compactInBackground (ha : Allowed g M) (hs : SysSound cfg g M used s)
    (hok : CompactOk cfg g s s.db.compactionThreshold) :
    wp M (compactInBackground cfg) (Refines cfg g M used (viewSys cfg s, l) []) s :=
  wp_bind (wp_get (wp_compactLocked ha hs hok))

end HyphaDB.Refine
