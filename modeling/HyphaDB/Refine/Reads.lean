import HyphaDB.Refine.Step

/-!
# HyphaDB.Refine.Reads

**`Get` reads the view.** `findAt` asks the memtables and the tables one after the other and
keeps the newest candidate, so it reads their union: the versions a running process is said
to see. Where the versions are consistent the answer is the promised one (`get_answers`).

After a restart the log may hold two records of one version. The memtable is asked first and
holds the later of them, so the promise of the log is kept as well (`get_last`).
-/

namespace HyphaDB.Refine

open Faults Store Wal Versions Compaction

variable {cfg : Config} {g : Guard} {M : Model Call} {used : Nat} {s : Sys}

/-! ### The record a read settles on -/

/-- The tables of a process can be read, and each is sorted. -/
def TablesInOrder (s : Sys) : Prop :=
  ∀ t ∈ s.db.sstables, ∃ recs, s.disk.tables t.path = some recs ∧ InOrder recs

/-- The records of each source, in the order the sources are asked. -/
def sources (s : Sys) : List (List Record) :=
  (s.db.active.records ::
    s.db.immutableMemtables.reverse.map fun imm => (s.db.heap imm.memTable).records) ++
    s.db.sstables.reverse.map (tableRecords s.disk)

/-- The versions a process holds. -/
def held (s : Sys) : Set Record := {r | ∃ recs ∈ sources s, r ∈ recs}

theorem mem_held {r : Record} : r ∈ held s ↔
    (r ∈ s.db.active.records ∨
      ∃ imm ∈ s.db.immutableMemtables, r ∈ (s.db.heap imm.memTable).records) ∨
      ∃ t ∈ s.db.sstables, r ∈ tableRecords s.disk t := by
  unfold held sources
  simp [or_and_right, exists_or, or_assoc]

section Held

variable (hs : TablesInOrder s)

include hs

theorem TablesInOrder.file {t : SSTableMetadata} (ht : t ∈ s.db.sstables) :
    s.disk.tables t.path = some (tableRecords s.disk t) ∧ InOrder (tableRecords s.disk t) := by
  obtain ⟨recs, hfile, hord⟩ := hs t ht
  unfold tableRecords
  rw [hfile]
  exact ⟨rfl, hord⟩

theorem TablesInOrder.readTables : HyphaDB.readTables s.disk s.db.sstables.reverse =
    .ok (s.db.sstables.reverse.map (tableRecords s.disk)) :=
  readTables_eq fun _ ht => (hs.file (List.mem_reverse.mp ht)).1

theorem TablesInOrder.sources_inOrder : ∀ recs ∈ sources s, InOrder recs := by
  intro recs hrecs
  rcases List.mem_append.mp hrecs with hrecs | hrecs
  · rcases List.mem_cons.mp hrecs with rfl | hrecs
    · exact MemTable.inOrder _
    · obtain ⟨imm, -, rfl⟩ := List.mem_map.mp hrecs
      exact MemTable.inOrder _
  · obtain ⟨t, ht, rfl⟩ := List.mem_map.mp hrecs
    exact (hs.file (List.mem_reverse.mp ht)).2

/-- Each table answers for itself. -/
theorem TablesInOrder.table_reads (key : Key) (maxSeq : UInt64) :
    ∀ recs ∈ s.db.sstables.reverse.map (tableRecords s.disk),
      ReadsAt (recordsOf recs) key maxSeq (SSTable.getRecordAt recs key maxSeq) :=
  fun recs hrecs => SSTable.getRecordAt_reads
    (hs.sources_inOrder recs (List.mem_append_right _ hrecs)) key maxSeq

/-- **`findAt` reads what the process holds**: it asks the memtables, then the tables. -/
theorem TablesInOrder.findAt (key : Key) (maxSeq : UInt64) :
    ∃ best, HyphaDB.findAt s key maxSeq = .ok best ∧ ReadsAt (held s) key maxSeq best := by
  unfold HyphaDB.findAt
  rw [hs.readTables]
  refine ⟨_, rfl, ?_⟩
  have hactive := MemTable.getAt_reads s.db.active key maxSeq
  have hqueued : ∀ imm ∈ s.db.immutableMemtables.reverse,
      ReadsAt (recordsOf (s.db.heap imm.memTable).records) key maxSeq
        ((s.db.heap imm.memTable).getAt key maxSeq) :=
    fun imm _ => MemTable.getAt_reads _ key maxSeq
  refine (ReadsAt.foldl (hs.table_reads key maxSeq) (ReadsAt.foldl hqueued hactive)).congr
    fun r _ => ?_
  rw [mem_held]
  simp only [Set.mem_union, Set.mem_ofPred_eq, mem_recordsOf, List.mem_reverse, List.mem_map,
    exists_exists_and_eq_and]

end Held

section Tables

variable (hs : SysSound cfg g M used s)

include hs

theorem tablesInOrder : TablesInOrder s :=
  fun _ ht => ⟨_, (hs.proc.tableSound hs.disk ht).file, (hs.proc.tableSound hs.disk ht).inOrder⟩

/-- The records of the tables are those of the view. -/
theorem mem_tables_iff {r : Record} :
    (∃ t ∈ s.db.sstables, r ∈ tableRecords s.disk t) ↔ r ∈ tabRecs (tabsOf s.disk) := by
  rw [← hs.proc.tabs_eq]
  constructor
  · intro h
    obtain ⟨t, ht, hr⟩ := h
    refine ⟨tabOf s.disk t, List.mem_map_of_mem ht, ?_⟩
    rw [(hs.proc.tableSound hs.disk ht).tabOf_recs]
    exact hr
  · intro h
    obtain ⟨tab, htab, hr⟩ := h
    obtain ⟨t, ht, rfl⟩ := List.mem_map.mp htab
    rw [(hs.proc.tableSound hs.disk ht).tabOf_recs] at hr
    exact ⟨t, ht, hr⟩

/-- What a process holds is what it is said to see. -/
theorem held_eq : held s = (viewSys cfg s).live (handleOf s.disk s.db) := by
  ext r
  rw [mem_held]
  refine or_congr ?_ (mem_tables_iff hs)
  constructor
  · intro h
    rcases h with hr | ⟨imm, himm, hr⟩
    · exact ⟨_, Handle.active_mem_entries _, hr⟩
    · exact ⟨imm, List.mem_append_left _ himm, hr⟩
  · intro h
    obtain ⟨e, he, hr⟩ := h
    rcases List.mem_append.mp he with he | he
    · exact Or.inr ⟨e, he, hr⟩
    · rw [List.mem_singleton.mp he] at hr
      exact Or.inl hr

/-- **`findAt` reads what the process sees.** -/
theorem findAt_reads (key : Key) (maxSeq : UInt64) :
    ∃ best, findAt s key maxSeq = .ok best ∧
      ReadsAt ((viewSys cfg s).live (handleOf s.disk s.db)) key maxSeq best := by
  rw [← held_eq hs]
  exact (tablesInOrder hs).findAt key maxSeq

end Tables

/-! ### Answers -/

/-- A read at a sequence, where the versions are consistent. -/
theorem getAt_reads (hs : SysSound cfg g M used s)
    (hc : Consistent ((viewSys cfg s).live (handleOf s.disk s.db))) {k : Key} {q : UInt64}
    {o : Option Record}
    (ho : ReadsAt ((viewSys cfg s).live (handleOf s.disk s.db)) k q o) :
    getAt s k q = answer o := by
  obtain ⟨best, hfind, hbest⟩ := findAt_reads hs k q
  unfold getAt
  rw [hfind, ReadsAt.unique hc hbest ho]

theorem answer_eq (o : Option Record) : answer o = promised (visibleOf o) := by
  cases o with
  | none => rfl
  | some r =>
      show (if r.deleted then _ else _) = promised (if r.deleted then _ else _)
      split
      · rfl
      · rfl

/-- A `Get` that is admitted. -/
theorem get_eq_getAt {key : Key} (hopen : s.db.closed = false)
    (hkey : key.length ≤ s.db.limits.maxKeyBytes) : get s key = getAt s key newest := by
  unfold get
  rw [if_neg (by simp [hopen]), validateKey_eq_ok.mpr hkey]
  rfl

theorem get_answers (hs : SysSound cfg g M used s) {key : Key} {m : Option Bytes}
    (hopen : s.db.closed = false) (hkey : key.length ≤ s.db.limits.maxKeyBytes)
    (hc : Consistent ((viewSys cfg s).live (handleOf s.disk s.db)))
    (hm : Answers ((viewSys cfg s).live (handleOf s.disk s.db)) key m) :
    get s key = promised m := by
  obtain ⟨o, ho, rfl⟩ := hm
  rw [get_eq_getAt hopen hkey, getAt_reads hs hc ho]
  exact answer_eq o

/-- **After a restart the log's promise is kept**, without consistency: the memtable holds
the last record of the key, and no table exceeds it. -/
theorem get_last (hs : SysSound cfg g M used s) {key : Key} {m : Option Bytes}
    {logs : List (Nat × List Record)} (hopen : s.db.closed = false)
    (hkey : key.length ≤ s.db.limits.maxKeyBytes) (hqueue : s.db.immutableMemtables = [])
    (hactive : s.db.active = replayed logs) (hc : Consistent (tabRecs (tabsOf s.disk)))
    (hm : LastAnswers (flatten logs) (tabsOf s.disk) key m) : get s key = promised m := by
  have hreads := MemTable.getAt_reads s.db.active key newest
  rw [get_eq_getAt hopen hkey]
  unfold getAt findAt
  rw [(tablesInOrder hs).readTables, hqueue]
  dsimp only [List.reverse_nil, List.foldl_nil]
  rw [answer_eq]
  cases hm with
  | absent hno hm =>
      have hnone : s.db.active.getAt key newest = none := by
        cases hget : s.db.active.getAt key newest with
        | none => rfl
        | some r =>
            rw [hget, hactive] at hreads
            exact absurd hreads.key_eq (hno r (mem_flatten.mpr (mem_replayed hreads.mem)))
      rw [hnone] at hreads ⊢
      have hfold := ReadsAt.foldl ((tablesInOrder hs).table_reads key newest)
        (show ReadsAt (∅ : Set Record) key newest none from fun r hr => absurd hr (by simp))
      have htabs := hfold.congr (T := tabRecs (tabsOf s.disk)) fun r _ => by
        rw [Set.mem_union, ← mem_tables_iff hs]
        simp
      obtain ⟨o, ho, rfl⟩ := hm
      rw [ReadsAt.unique hc htabs ho]
  | last pre r post hflat hk hpost hmax htabs hm =>
      subst hk
      have hnew := replayed_newest hflat hpost hmax
      rw [hactive] at hreads ⊢
      have hget : (replayed logs).getAt r.key newest = some r :=
        ReadsAt.unique (consistent_recordsOf _) hreads hnew
      rw [hget, foldl_better_of_le, ← hm]
      · rfl
      · intro recs hrecs c hcand
        have hread := (tablesInOrder hs).table_reads r.key newest recs hrecs
        rw [hcand] at hread
        obtain ⟨t, ht, rfl⟩ := List.mem_map.mp hrecs
        exact htabs c ((mem_tables_iff hs).mp ⟨t, List.mem_reverse.mp ht, hread.mem⟩) hread.key_eq

/-- `Get` in a world. -/
theorem serves_iff {w : World} {key : Key} : w.serves key = true ↔
    ∃ db, w.proc = some db ∧ db.closed = false ∧ key.length ≤ db.limits.maxKeyBytes := by
  unfold World.serves
  cases w.proc with
  | none => simp
  | some db => simp

theorem get_running {w : World} {db : DB} (hdb : w.proc = some db) (key : Key) :
    w.get key = HyphaDB.get ⟨w.disk, db⟩ key := by
  unfold World.get
  rw [hdb]

end HyphaDB.Refine
