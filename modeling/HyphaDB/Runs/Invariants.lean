import HyphaDB.Runs.Crashes
import HyphaDB.Runs.Snapshots

/-!
# HyphaDB.Runs.Invariants

**What holds in every state**, however the process came there: scans agree with point reads, the
directory is one that `Open` can read, and compactions retain what the open readers need.
-/

namespace HyphaDB.Runs

open Faults Store Wal Refine

/-- An iterator over any range, at any sequence, lists the keys of the range that `getAt` has a
value for, by ascending key, each once and with that value. -/
def ScansAgree (s : Sys) : Prop :=
  ∀ opts maxSeq, ∃ it, newIterator s opts maxSeq = .ok it ∧
    it.output.Pairwise (fun a b => a.key < b.key) ∧
    ∀ k v, (∃ r ∈ it.output, r.key = k ∧ r.value = v) ↔
      (opts.start ≤ k ∧ (opts.stop = [] ∨ k < opts.stop)) ∧ getAt s k maxSeq = .ok v

/-- **Scans agree with point reads** in every state of a run in which the process dies any number of
times: no two sources have different records of one version. -/
theorem scans_agree_after_crashes (cfg : Config) {inputs : List Input}
    (hused : sequencesUsed cfg kills blank inputs < 2 ^ 64 - 1) {db : DB}
    (hdb : (run cfg kills blank inputs).1.proc = some db) :
    ScansAgree ⟨(run cfg kills blank inputs).1.disk, db⟩ := by
  intro opts maxSeq
  obtain ⟨hw, hv⟩ := run_crashing hused
  rw [viewWorld_running hdb] at hv
  have hc := consistent_live rfl hv.structural
  rw [← held_eq (hw.sys hdb)] at hc
  obtain ⟨it, hit, -, -, -, hasc, hmem⟩ :=
    (tablesInOrder (hw.sys hdb)).scan_getAt hc opts maxSeq
  exact ⟨it, hit, hasc, hmem⟩

theorem scans_agree_after_crashes_interrupted :
    ∃ db, (run sample kills blank interrupted).1.proc = some db ∧
      ScansAgree ⟨(run sample kills blank interrupted).1.disk, db⟩ := by
  have hsome : (run sample kills blank interrupted).1.proc.isSome = true := by decide +kernel
  obtain ⟨db, hdb⟩ := Option.isSome_iff_exists.mp hsome
  exact ⟨db, hdb, scans_agree_after_crashes sample (by decide +kernel) hdb⟩

/-- **The next `Open` finds what it looks for**: in every state of such a run the tables of the
manifest have IDs of their own and files that are what their metadata say, and the segments can be
replayed in their order. -/
theorem directory_sound_after_crashes (cfg : Config) {inputs : List Input}
    (hused : sequencesUsed cfg kills blank inputs < 2 ^ 64 - 1) :
    let d := (run cfg kills blank inputs).1.disk
    let used := sequencesUsed cfg kills blank inputs
    (∀ t ∈ liveTables d, TableSound used d t) ∧ ((liveTables d).map SSTableMetadata.id).Nodup ∧
      (∀ p ∈ d.wals, Segment cfg.crc used p.2) ∧ d.wals.Pairwise (fun p q => p.1 < q.1) := by
  have hd := (run_crashing hused).1.disk
  exact ⟨hd.tables, hd.ids, hd.segments, hd.sorted⟩

/-- A table that was flushed and compacted, and a put the process dies in. -/
theorem directory_sound_after_crashes_rewritten :
    let inputs := rewritten ++ [(.put [0x6C] [2], [.kill 7])]
    let d := (run sample kills blank inputs).1.disk
    let used := sequencesUsed sample kills blank inputs
    (liveTables d ≠ [] ∧ d.wals ≠ []) ∧ (∀ t ∈ liveTables d, TableSound used d t) ∧
      (∀ p ∈ d.wals, Segment sample.crc used p.2) ∧ d.wals.Pairwise (fun p q => p.1 < q.1) := by
  intro inputs d used
  obtain ⟨htables, -, hsegments, hsorted⟩ :=
    @directory_sound_after_crashes sample inputs (by decide +kernel)
  exact ⟨by decide +kernel, htables, hsegments, hsorted⟩

/-! ### Readers -/

theorem oldestReader_mem (db : DB) : ∀ q, db.oldestReader = some q → q ∈ db.activeReaders := by
  refine List.foldlRecOn (motive := fun o => ∀ q, o = some q → q ∈ db.activeReaders) _ _
    (by simp) ?_
  intro o ih r hr q hq
  cases o with
  | none => exact Option.some.inj hq ▸ hr
  | some w =>
      dsimp only at hq
      split at hq
      · exact Option.some.inj hq ▸ hr
      · exact ih q hq

/-- **No reader is forgotten and none is left over.** Whatever fails and whenever the process dies,
what it has registered are the sequences of its open snapshots and iterators, and compactions retain
versions for the least of them. -/
theorem oldest_reader_open (cfg : Config) (M : Model Call) (inputs : List Input) {db : DB}
    (hdb : (run cfg M blank inputs).1.proc = some db) :
    let sequences := openSequences (registrations (run cfg M blank inputs).1)
    db.activeReaders.Perm sequences ∧ (∀ q, db.oldestReader = some q → q ∈ sequences) ∧
      ∀ q ∈ sequences, ∃ oldest, db.oldestReader = some oldest ∧ oldest ≤ q := by
  have hrun : Registered (run cfg M blank inputs).1 := registered_run inputs fun _ h => by cases h
  have hperm := hrun db hdb
  exact ⟨hperm, fun q hq => hperm.mem_iff.mp (oldestReader_mem db q hq),
    fun q hq => oldestReader_le (hperm.mem_iff.mpr hq)⟩

theorem oldest_reader_open_overwriting :
    let w := (run sample noFaults blank (overwriting.1 ++ [(.newSnapshot, [])])).1
    ∃ db, w.proc = some db ∧ db.activeReaders.Perm [1] ∧ db.oldestReader = some 1 := by
  intro w
  have hsome : w.proc.isSome = true := by decide +kernel
  have hsequences : openSequences (registrations w) = [1] := by decide +kernel
  obtain ⟨db, hdb⟩ := Option.isSome_iff_exists.mp hsome
  obtain ⟨hperm, hmem, holdest⟩ := oldest_reader_open sample noFaults _ hdb
  rw [show openSequences (registrations _) = [1] from hsequences] at hperm hmem holdest
  obtain ⟨oldest, hdbOldest, -⟩ := holdest 1 List.mem_cons_self
  obtain rfl := List.mem_singleton.mp (hmem oldest hdbOldest)
  exact ⟨db, hdb, hperm, hdbOldest⟩

end HyphaDB.Runs
