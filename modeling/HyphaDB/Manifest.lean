import HyphaDB.Record

/-!
# HyphaDB.Manifest

The table of contents of a data directory (`internal/manifest`): which SSTables are live,
and the next free table and segment identifiers. Identifiers are counters and modelled as
natural numbers.
-/

namespace HyphaDB

/-- The file name of an SSTable: `data-N.sst` for a flushed memtable, `compact-N.sst` for
the output of a compaction. -/
inductive TablePath
  | data (id : Nat)
  | compact (id : Nat)
  deriving Repr, DecidableEq

def TablePath.id : TablePath → Nat
  | data id => id
  | compact id => id

structure SSTableMetadata where
  id : Nat
  path : TablePath
  level : Nat
  sizeBytes : Nat
  smallestKey : Key
  largestKey : Key
  deriving Repr, DecidableEq

structure Manifest where
  nextSSTableID : Nat := 0
  nextWALSegmentID : Nat := 0
  sstables : List SSTableMetadata := []
  deriving Repr, DecidableEq

namespace Manifest

/-- The largest table ID, if there is a table. -/
def maxID : List SSTableMetadata → Option Nat
  | [] => none
  | table :: tables =>
      match maxID tables with
      | none => some table.id
      | some id => some (max table.id id)

/-- A manifest must not hand out an ID that one of its tables has. -/
def ensureSafeNextSSTableID (m : Manifest) : Manifest :=
  match maxID m.sstables with
  | none => m
  | some id => if m.nextSSTableID ≤ id then { m with nextSSTableID := id + 1 } else m

/-- `manifest.Read` on a readable file, or on none. -/
def read : Option Manifest → Manifest
  | none => {}
  | some m => ensureSafeNextSSTableID m

theorem le_maxID {tables : List SSTableMetadata} {t : SSTableMetadata} (h : t ∈ tables) :
    ∃ id, maxID tables = some id ∧ t.id ≤ id := by
  induction tables with
  | nil => cases h
  | cons u us ih =>
      unfold maxID
      rcases List.mem_cons.mp h with rfl | h
      · cases maxID us with
        | none => exact ⟨t.id, rfl, Nat.le_refl _⟩
        | some id => exact ⟨max t.id id, rfl, Nat.le_max_left _ _⟩
      · obtain ⟨id, hid, hle⟩ := ih h
        rw [hid]
        exact ⟨max u.id id, rfl, Nat.le_trans hle (Nat.le_max_right _ _)⟩

@[simp] theorem ensureSafeNextSSTableID_sstables (m : Manifest) :
    (ensureSafeNextSSTableID m).sstables = m.sstables := by
  unfold ensureSafeNextSSTableID
  split
  · rfl
  · split <;> rfl

@[simp] theorem ensureSafeNextSSTableID_nextWALSegmentID (m : Manifest) :
    (ensureSafeNextSSTableID m).nextWALSegmentID = m.nextWALSegmentID := by
  unfold ensureSafeNextSSTableID
  split
  · rfl
  · split <;> rfl

/-- What is read hands out IDs above those of its tables. -/
theorem lt_ensureSafeNextSSTableID {m : Manifest} {t : SSTableMetadata} (h : t ∈ m.sstables) :
    t.id < (ensureSafeNextSSTableID m).nextSSTableID := by
  obtain ⟨id, hid, hle⟩ := le_maxID h
  unfold ensureSafeNextSSTableID
  rw [hid]
  dsimp only
  split
  · exact Nat.lt_succ_of_le hle
  · omega

end Manifest

end HyphaDB
