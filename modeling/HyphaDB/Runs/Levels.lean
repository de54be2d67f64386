import HyphaDB.Runs.FaultFree

/-!
# HyphaDB.Runs.Levels

**The shape of the levels.** Without crashes and faults the tables of level 1 lie beside each
other, and so do those of level 2, and of two versions of a key the one that lies higher is the
newer one: memtables above tables, level 0 above level 1 above level 2. The abstract store says
so of its layers; here it is read off the files and the memtables of the process.
-/

namespace HyphaDB.Runs

open Faults Store Wal Refine

variable {cfg : Config} {used : Nat}

/-- Of two versions of a key, one in `xs` and one in `ys`, that in `xs` is the newer one. -/
def Newer (xs ys : List Record) : Prop := ∀ a ∈ xs, ∀ b ∈ ys, a.key = b.key → b.seq < a.seq

/-- The key ranges of two lists of records, from the first to the last key, are disjoint. -/
def RangesApart (xs ys : List Record) : Prop :=
  SSTable.largestKey xs < SSTable.smallestKey ys ∨ SSTable.largestKey ys < SSTable.smallestKey xs

/-- The levels of `tables` in directory `d`, below the memtables `mems`. -/
structure Leveled (d : Disk) (tables : List SSTableMetadata) (mems : List (List Record)) :
    Prop where
  file : ∀ t ∈ tables, d.tables t.path = some (tableRecords d t)
  level_le : ∀ t ∈ tables, t.level ≤ 2
  ranges : tables.Pairwise fun t u => t.level = u.level → 1 ≤ t.level →
    tableRecords d t ≠ [] → tableRecords d u ≠ [] →
    RangesApart (tableRecords d t) (tableRecords d u)
  memtables : ∀ m ∈ mems, ∀ t ∈ tables, Newer m (tableRecords d t)
  levels : ∀ t ∈ tables, ∀ u ∈ tables, t.level < u.level →
    Newer (tableRecords d t) (tableRecords d u)

/-- The memtables of a process, the active one last. -/
def memtables (db : DB) : List (List Record) :=
  (db.immutableMemtables.map ImmutableMemTable.memTable ++ [db.memtable]).map fun ref =>
    (db.heap ref).records

theorem rangesApart_of_beside {xs ys : List Record} (h : Beside xs ys) (hxs : xs ≠ [])
    (hys : ys ≠ []) : RangesApart xs ys := by
  obtain ⟨a, ha, hak⟩ := SSTable.largestKey_mem hxs
  obtain ⟨a', ha', hak'⟩ := SSTable.smallestKey_mem hxs
  obtain ⟨b, hb, hbk⟩ := SSTable.smallestKey_mem hys
  obtain ⟨b', hb', hbk'⟩ := SSTable.largestKey_mem hys
  refine h.imp (fun h => ?_) (fun h => ?_)
  · rw [← hak, ← hbk]
    exact h a ha b hb
  · rw [← hak', ← hbk']
    exact h a' ha' b' hb'

/-- The layers of the view are those of the files. -/
theorem leveled_of_layers {d : Disk} {tables : List SSTableMetadata} {mems : List (List Record)}
    (hsound : ∀ t ∈ tables, TableSound used d t) (hids : (tables.map SSTableMetadata.id).Nodup)
    (hlayers : Layers mems (tables.map (tabOf d))) : Leveled d tables mems := by
  have hmem : ∀ t ∈ tables, tabOf d t ∈ tables.map (tabOf d) := fun t ht =>
    List.mem_map_of_mem ht
  have hlevel : ∀ t, (tabOf d t).level = t.level := tabOf_level d
  have hrecs : ∀ t ∈ tables, (tabOf d t).recs = tableRecords d t := fun t ht =>
    (hsound t ht).tabOf_recs
  refine ⟨fun t ht => (hsound t ht).file, ?_, ?_, ?_, ?_⟩
  · exact fun t ht => hlevel t ▸ hlayers.level_le _ (hmem t ht)
  · refine (List.pairwise_map.mp hids).imp_of_mem ?_
    intro t u ht hu hid hl hpos hxs hys
    have hne : tabOf d t ≠ tabOf d u := fun heq => hid (by
      rw [← tabOf_id d t, ← tabOf_id d u, heq])
    have hbeside := hlayers.beside _ (hmem t ht) _ (hmem u hu) hne (by rwa [hlevel, hlevel])
      (by rwa [hlevel])
    rw [hrecs t ht, hrecs u hu] at hbeside
    exact rangesApart_of_beside hbeside hxs hys
  · intro m hm t ht a ha b hb hk
    exact hlayers.mem_above m hm a ha b ⟨_, hmem t ht, (hrecs t ht).symm ▸ hb⟩ hk
  · intro t ht u hu hlt a ha b hb hk
    refine hlayers.level_above _ (hmem t ht) _ (hmem u hu) (by rwa [hlevel, hlevel]) a ?_ b ?_ hk
    · exact (hrecs t ht).symm ▸ ha
    · exact (hrecs u hu).symm ▸ hb

/-- **The levels keep their shape.** In every state of a run without crashes and faults, and with
fewer mutations than there are sequence numbers, for the tables the manifest names and for the
tables and memtables of the process. -/
theorem leveled_run (cfg : Config) {inputs : List Input}
    (hkill : ∀ input ∈ inputs, input.1 ≠ .kill)
    (hused : sequencesUsed cfg noFaults blank inputs < 2 ^ 64 - 1) :
    Leveled (run cfg noFaults blank inputs).1.disk
        (liveTables (run cfg noFaults blank inputs).1.disk) [] ∧
      ∀ db, (run cfg noFaults blank inputs).1.proc = some db →
        Leveled (run cfg noFaults blank inputs).1.disk db.sstables (memtables db) := by
  obtain ⟨hw, hv, -⟩ := run_quiet hkill hused
  generalize (run cfg noFaults blank inputs).1 = w at hw hv ⊢
  have hrunning : ∀ db, w.proc = some db → Layers (memtables db) (tabsOf w.disk) := by
    intro db hdb
    rw [viewWorld_running hdb] at hv
    obtain ⟨hlive, -⟩ := (CrashFree.running rfl).mp hv
    have hmems : (handleOf w.disk db).entries.map (handleOf w.disk db).recsOf = memtables db := by
      unfold memtables Handle.entries
      rw [List.map_append, List.map_append, List.map_map]
      rfl
    exact hmems ▸ hlive.layers
  refine ⟨leveled_of_layers hw.disk.tables hw.disk.ids ?_, fun db hdb => ?_⟩
  · cases hdb : w.proc with
    | none => exact ((CrashFree.stopped (by rw [viewWorld, viewOf, hdb]; rfl)).mp hv).layers
    | some db =>
        have h := hrunning db hdb
        exact ⟨h.level_le, by simp, List.Pairwise.nil, h.level_above, h.beside⟩
  · have hp := hw.proc db hdb
    refine leveled_of_layers (fun t ht => hp.tableSound hw.disk ht) (hp.ids_eq ▸ hw.disk.ids) ?_
    rw [hp.tabs_eq]
    exact hrunning db hdb

/-- The empty key at level 2, two tables beside each other at level 1, a newer version of one of
their keys at level 0 and of the other in a memtable. -/
def threeLevels : List Input :=
  (.openDB { maxEntries := 1 }, []) ::
    ((.put [] [1], []) :: flushOnce ++ [(.compact, []), (.compact, [])] ++
      (.put [0x61] [1], []) :: flushOnce ++ [(.compact, [])] ++
      (.put [0x63] [1], []) :: flushOnce ++ [(.compact, [])] ++
      (.put [0x61] [2], []) :: flushOnce ++ [(.put [0x63] [2], [])])

/-- The levels of that run. -/
theorem leveled_run_threeLevels :
    (liveTables (run sample noFaults blank threeLevels).1.disk).map SSTableMetadata.level =
        [2, 1, 1, 0] ∧
      Leveled (run sample noFaults blank threeLevels).1.disk
        (liveTables (run sample noFaults blank threeLevels).1.disk) [] ∧
      ∀ db, (run sample noFaults blank threeLevels).1.proc = some db →
        Leveled (run sample noFaults blank threeLevels).1.disk db.sstables (memtables db) :=
  ⟨by decide +kernel, leveled_run sample (by decide +kernel) (by decide +kernel)⟩

end HyphaDB.Runs
