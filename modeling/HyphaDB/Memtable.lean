import HyphaDB.Record
import HyphaDB.Lib.Versions
import Mathlib.Data.List.Pairwise
import Mathlib.Data.List.Dedup

/-!
# HyphaDB.Memtable

The in-memory table of `internal/memtable`, at the level of the skip list's **bottom
chain**: the records in the order `skiplist.less` gives them, keys ascending and, for
one key, sequences descending. The upper levels only speed up the search.

`MemTable` carries the order as a field, so a table out of order cannot be built. What
the rest of the development uses is `mem_put` (a put replaces the record of the same
version and touches no other) and `getAt_reads` (a read finds the newest visible
version). The latter rests on a fact about any list in this order, which tables on disk
share (`find_reads`).
-/

namespace HyphaDB

/-- `skiplist.less`: key ascending, then sequence descending. -/
def less (a b : Record) : Bool :=
  if a.key ≠ b.key then a.key < b.key else b.seq < a.seq

/-- Two records of one key and sequence are the same version. -/
def SameVersion (a b : Record) : Prop := a.key = b.key ∧ a.seq = b.seq

instance (a b : Record) : Decidable (SameVersion a b) := inferInstanceAs (Decidable (_ ∧ _))

theorem less_iff {a b : Record} :
    less a b = true ↔ a.key < b.key ∨ a.key = b.key ∧ b.seq < a.seq := by
  unfold less
  by_cases h : a.key = b.key
  · simp [h]
  · simp [h]

theorem less_trans {a b c : Record} (hab : less a b = true) (hbc : less b c = true) :
    less a c = true := by
  rw [less_iff] at *
  rcases hab with hab | ⟨hab, hs⟩ <;> rcases hbc with hbc | ⟨hbc, hs'⟩
  · exact Or.inl (hab.trans hbc)
  · exact Or.inl (hbc ▸ hab)
  · exact Or.inl (hab ▸ hbc)
  · exact Or.inr ⟨hab.trans hbc, hs'.trans hs⟩

theorem less_irrefl (a : Record) : less a a = false := by
  simp [less]

/-- Two records are ordered one way, the other, or are one version. -/
theorem less_trichotomy (a b : Record) :
    less a b = true ∨ SameVersion a b ∨ less b a = true := by
  simp only [less_iff, SameVersion]
  rcases lt_trichotomy a.key b.key with h | h | h
  · exact Or.inl (Or.inl h)
  · rcases lt_trichotomy b.seq a.seq with hs | hs | hs
    · exact Or.inl (Or.inr ⟨h, hs⟩)
    · exact Or.inr (Or.inl ⟨h, hs.symm⟩)
    · exact Or.inr (Or.inr (Or.inr ⟨h.symm, hs⟩))
  · exact Or.inr (Or.inr (Or.inl h))

theorem not_sameVersion_of_less {a b : Record} (h : less a b = true) : ¬ SameVersion a b := by
  rintro ⟨hk, hs⟩
  rw [less_iff] at h
  rcases h with h | ⟨-, h⟩
  · exact absurd hk h.ne
  · exact absurd hs h.ne'

/-! ### Reading records in order -/

/-- What a read of `k` at `s` may return from a set of records. -/
abbrev ReadsAt (S : Set Record) (k : Key) (s : UInt64) (o : Option Record) : Prop :=
  Versions.ReadsAt Record.key Record.seq S k s o

/-- The newest version of `k` at or below `s`. -/
abbrev NewestAt (S : Set Record) (k : Key) (s : UInt64) (r : Record) : Prop :=
  Versions.NewestAt Record.key Record.seq S k s r

/-- One record a version. -/
abbrev Consistent (S : Set Record) : Prop := Versions.Consistent Record.key Record.seq S

/-- The records of a list. -/
def recordsOf (recs : List Record) : Set Record := {r | r ∈ recs}

@[simp] theorem mem_recordsOf {r : Record} {recs : List Record} :
    r ∈ recordsOf recs ↔ r ∈ recs := Iff.rfl

/-- No record stands behind one that is smaller. Records of one version may repeat. -/
def InOrder (recs : List Record) : Prop := recs.Pairwise (fun a b => less b a = false)

theorem less_eq_false {a b : Record} :
    less b a = false ↔ a.key < b.key ∨ a.key = b.key ∧ b.seq ≤ a.seq := by
  rw [← Bool.not_eq_true, less_iff]
  constructor
  · intro h
    rcases lt_trichotomy a.key b.key with hk | hk | hk
    · exact Or.inl hk
    · refine Or.inr ⟨hk, ?_⟩
      by_contra hs
      exact h (Or.inr ⟨hk.symm, not_le.mp hs⟩)
    · exact absurd (Or.inl hk) h
  · rintro (hk | ⟨hk, hs⟩) (hk' | ⟨hk', hs'⟩)
    · exact absurd (hk.trans hk') (lt_irrefl _)
    · exact absurd hk'.symm hk.ne
    · exact absurd hk.symm hk'.ne
    · exact absurd hs' (not_lt.mpr hs)

/-- The visible versions of a key. -/
def visible (k : Key) (s : UInt64) (r : Record) : Bool := r.key = k && r.seq ≤ s

@[simp] theorem visible_iff {k : Key} {s : UInt64} {r : Record} :
    visible k s r = true ↔ r.key = k ∧ r.seq ≤ s := by
  simp [visible]

/-- The first visible record of records in order is the newest visible version. -/
theorem find_reads {recs : List Record} (h : InOrder recs) (k : Key) (s : UInt64) :
    ReadsAt (recordsOf recs) k s (recs.find? (visible k s)) := by
  induction recs with
  | nil => exact fun r hr => absurd hr (by simp)
  | cons x xs ih =>
      obtain ⟨hx, hxs⟩ := List.pairwise_cons.mp h
      by_cases hv : visible k s x = true
      · rw [List.find?_cons_of_pos hv]
        obtain ⟨hk, hs⟩ := visible_iff.mp hv
        refine ⟨List.mem_cons_self, hk, hs, ?_⟩
        intro r hr hrk _
        rcases List.mem_cons.mp hr with rfl | hr
        · exact le_refl _
        · rcases less_eq_false.mp (hx r hr) with hlt | ⟨-, hle⟩
          · rw [hk, hrk] at hlt
            exact absurd hlt (lt_irrefl _)
          · exact hle
      · rw [List.find?_cons_of_neg hv]
        -- the head is not visible, so the tail reads the same
        have hne : ∀ r, r.key = k → r.seq ≤ s → r ∈ recordsOf (x :: xs) → r ∈ recordsOf xs := by
          intro r hrk hrs hr
          rcases List.mem_cons.mp hr with rfl | hr
          · exact absurd (visible_iff.mpr ⟨hrk, hrs⟩) hv
          · exact hr
        have htail := ih hxs
        cases hf : xs.find? (visible k s) with
        | none =>
            rw [hf] at htail
            exact fun r hr hrk hrs => htail r (hne r hrk hrs hr) hrk hrs
        | some y =>
            rw [hf] at htail
            refine ⟨List.mem_cons_of_mem _ htail.mem, htail.key_eq, htail.seq_le, ?_⟩
            exact fun r hr hrk hrs => htail.max r (hne r hrk hrs hr) hrk hrs

/-! ### The table -/

/-- The bottom chain: strictly ordered by `less`. -/
structure MemTable where
  records : List Record
  sorted : records.Pairwise (fun a b => less a b = true)

namespace MemTable

/-- `memtable.New`. -/
def new : MemTable := ⟨[], List.Pairwise.nil⟩

/-- Link `rec` into the chain: before the first record that is not smaller, or in the
place of the record of the same version. -/
def insert (rec : Record) : List Record → List Record
  | [] => [rec]
  | x :: xs =>
      if less x rec then x :: insert rec xs
      else if SameVersion x rec then rec :: xs
      else rec :: x :: xs

theorem mem_insert {rec : Record} {xs : List Record}
    (hs : xs.Pairwise (fun a b => less a b = true)) {r : Record} :
    r ∈ insert rec xs ↔ r = rec ∨ r ∈ xs ∧ ¬ SameVersion r rec := by
  induction xs with
  | nil => simp [insert]
  | cons x xs ih =>
      have hx := List.pairwise_cons.mp hs
      unfold insert
      by_cases hlt : less x rec = true
      · have hne := not_sameVersion_of_less hlt
        simp only [hlt, if_true, List.mem_cons, ih hx.2]
        constructor
        · rintro (rfl | rfl | ⟨h, hv⟩)
          · exact Or.inr ⟨Or.inl rfl, hne⟩
          · exact Or.inl rfl
          · exact Or.inr ⟨Or.inr h, hv⟩
        · rintro (rfl | ⟨rfl | h, hv⟩)
          · exact Or.inr (Or.inl rfl)
          · exact Or.inl rfl
          · exact Or.inr (Or.inr ⟨h, hv⟩)
      · -- from here on every record of the tail lies behind `rec`
        by_cases hv : SameVersion x rec
        · have htail : ∀ y ∈ xs, ¬ SameVersion y rec := by
            intro y hy hyv
            have hyx : SameVersion x y := ⟨hv.1.trans hyv.1.symm, hv.2.trans hyv.2.symm⟩
            exact not_sameVersion_of_less (hx.1 y hy) hyx
          rw [if_neg hlt, if_pos hv, List.mem_cons, List.mem_cons]
          constructor
          · rintro (rfl | h)
            · exact Or.inl rfl
            · exact Or.inr ⟨Or.inr h, htail r h⟩
          · rintro (rfl | ⟨rfl | h, hr⟩)
            · exact Or.inl rfl
            · exact absurd hv hr
            · exact Or.inr h
        · have hrec : less rec x = true := by
            rcases less_trichotomy x rec with h | h | h
            · exact absurd h hlt
            · exact absurd h hv
            · exact h
          have htail : ∀ y ∈ xs, ¬ SameVersion y rec := by
            intro y hy hyv
            exact not_sameVersion_of_less (less_trans hrec (hx.1 y hy)) ⟨hyv.1.symm, hyv.2.symm⟩
          rw [if_neg hlt, if_neg hv, List.mem_cons, List.mem_cons]
          constructor
          · rintro (rfl | rfl | h)
            · exact Or.inl rfl
            · exact Or.inr ⟨Or.inl rfl, hv⟩
            · exact Or.inr ⟨Or.inr h, htail r h⟩
          · rintro (rfl | ⟨rfl | h, -⟩)
            · exact Or.inl rfl
            · exact Or.inr (Or.inl rfl)
            · exact Or.inr (Or.inr h)

theorem insert_sorted {rec : Record} {xs : List Record}
    (hs : xs.Pairwise (fun a b => less a b = true)) :
    (insert rec xs).Pairwise (fun a b => less a b = true) := by
  induction xs with
  | nil => simp [insert]
  | cons x xs ih =>
      have hx := List.pairwise_cons.mp hs
      unfold insert
      by_cases hlt : less x rec = true
      · rw [if_pos hlt, List.pairwise_cons]
        refine ⟨?_, ih hx.2⟩
        intro y hy
        rcases (mem_insert hx.2).mp hy with rfl | ⟨hy, -⟩
        · exact hlt
        · exact hx.1 y hy
      · rw [if_neg hlt]
        by_cases hv : SameVersion x rec
        · rw [if_pos hv, List.pairwise_cons]
          refine ⟨?_, hx.2⟩
          intro y hy
          have := hx.1 y hy
          rw [less_iff] at this ⊢
          rwa [← hv.1, ← hv.2]
        · have hrec : less rec x = true := by
            rcases less_trichotomy x rec with h | h | h
            · exact absurd h hlt
            · exact absurd h hv
            · exact h
          rw [if_neg hv, List.pairwise_cons]
          refine ⟨?_, hs⟩
          intro y hy
          rcases List.mem_cons.mp hy with rfl | hy
          · exact hrec
          · exact less_trans hrec (hx.1 y hy)

/-- An insertion leaves what is smaller where it is. -/
theorem insert_append {rec : Record} {pre post : List Record}
    (h : ∀ x ∈ pre, less x rec = true) : insert rec (pre ++ post) = pre ++ insert rec post := by
  induction pre with
  | nil => rfl
  | cons x pre ih =>
      rw [List.cons_append, insert, if_pos (h x List.mem_cons_self),
        ih fun y hy => h y (List.mem_cons_of_mem x hy), List.cons_append]

theorem mem_keys_insert {rec : Record} {xs : List Record}
    (hs : xs.Pairwise (fun a b => less a b = true)) {k : Key} :
    k ∈ (insert rec xs).map (·.key) ↔ k = rec.key ∨ k ∈ xs.map (·.key) := by
  simp only [List.mem_map, mem_insert hs]
  constructor
  · rintro ⟨r, rfl | ⟨hr, -⟩, rfl⟩
    · exact Or.inl rfl
    · exact Or.inr ⟨r, hr, rfl⟩
  · rintro (rfl | ⟨r, hr, rfl⟩)
    · exact ⟨rec, Or.inl rfl, rfl⟩
    · by_cases hv : SameVersion r rec
      · exact ⟨rec, Or.inl rfl, hv.1.symm⟩
      · exact ⟨r, Or.inr ⟨hr, hv⟩, rfl⟩

/-- An insertion adds its key to the keys there are. -/
theorem length_keys_insert {rec : Record} {xs : List Record}
    (hs : xs.Pairwise (fun a b => less a b = true)) :
    ((insert rec xs).map (·.key)).dedup.length =
      if rec.key ∈ xs.map (·.key) then (xs.map (·.key)).dedup.length
      else (xs.map (·.key)).dedup.length + 1 := by
  have hkeys : ((insert rec xs).map (·.key)).toFinset =
      Insert.insert rec.key (xs.map (·.key)).toFinset := by
    ext k
    simp only [List.mem_toFinset, Finset.mem_insert, mem_keys_insert hs]
  rw [← List.card_toFinset, ← List.card_toFinset, hkeys]
  split
  · next hmem => rw [Finset.insert_eq_of_mem (List.mem_toFinset.mpr hmem)]
  · next hmem => rw [Finset.card_insert_of_notMem fun hc => hmem (List.mem_toFinset.mp hc)]

/-- `MemTable.Put`. -/
def put (mt : MemTable) (rec : Record) : MemTable :=
  ⟨insert rec mt.records, insert_sorted mt.sorted⟩

/-- Put a list of records, first to last. -/
def putAll (mt : MemTable) (recs : List Record) : MemTable := recs.foldl put mt

/-- `MemTable.GetAt`: skip to the key, then take its first version at or below
`maxSeq`. -/
def getAt (mt : MemTable) (key : Key) (maxSeq : UInt64) : Option Record :=
  ((mt.records.dropWhile (fun r => r.key < key)).takeWhile (fun r => r.key = key)).find?
    (fun r => r.seq ≤ maxSeq)

/-- `MemTable.Len`: the number of distinct keys. -/
def len (mt : MemTable) : Nat := (mt.records.map (·.key)).dedup.length

@[simp] theorem new_records : new.records = [] := rfl

@[simp] theorem putAll_nil (mt : MemTable) : mt.putAll [] = mt := rfl

theorem putAll_append (mt : MemTable) (xs ys : List Record) :
    mt.putAll (xs ++ ys) = (mt.putAll xs).putAll ys := by
  simp [putAll]

theorem putAll_cons (mt : MemTable) (x : Record) (xs : List Record) :
    mt.putAll (x :: xs) = (mt.put x).putAll xs := rfl

/-- A put replaces the record of its version and touches no other. -/
theorem mem_put {mt : MemTable} {rec r : Record} :
    r ∈ (mt.put rec).records ↔ r = rec ∨ r ∈ mt.records ∧ ¬ SameVersion r rec :=
  mem_insert mt.sorted

/-- A table holds one record a version. -/
theorem eq_of_sameVersion {mt : MemTable} {a b : Record} (ha : a ∈ mt.records)
    (hb : b ∈ mt.records) (h : SameVersion a b) : a = b := by
  by_contra hne
  have hp := mt.sorted.imp (fun {x y} hxy => not_sameVersion_of_less hxy)
  have hsym : Std.Symm fun x y : Record => ¬ SameVersion x y :=
    ⟨fun x y hxy hyx => hxy ⟨hyx.1.symm, hyx.2.symm⟩⟩
  exact hp.forall ha hb hne h

/-- What a run of puts leaves was there before or was put. -/
theorem mem_of_mem_putAll {mt : MemTable} {recs : List Record} {r : Record}
    (h : r ∈ (mt.putAll recs).records) : r ∈ mt.records ∨ r ∈ recs := by
  induction recs generalizing mt with
  | nil => exact Or.inl h
  | cons x xs ih =>
      rcases ih h with h | h
      · rcases mem_put.mp h with rfl | ⟨h, -⟩
        · exact Or.inr List.mem_cons_self
        · exact Or.inl h
      · exact Or.inr (List.mem_cons_of_mem _ h)

/-- Puts lose no version. -/
theorem exists_sameVersion_putAll {mt : MemTable} {recs : List Record} {r : Record}
    (h : r ∈ mt.records ∨ r ∈ recs) : ∃ x ∈ (mt.putAll recs).records, SameVersion x r := by
  induction recs generalizing mt r with
  | nil => exact ⟨r, h.resolve_right (by simp), rfl, rfl⟩
  | cons rec recs ih =>
      rw [putAll_cons]
      have hold : r ∈ mt.records ∨ r = rec → ∃ x ∈ ((mt.put rec).putAll recs).records,
          SameVersion x r := by
        intro hr
        by_cases hsame : SameVersion r rec
        · obtain ⟨y, hy, hkey, hseq⟩ := ih (Or.inl (mem_put.mpr (Or.inl rfl)))
          exact ⟨y, hy, hkey.trans hsame.1.symm, hseq.trans hsame.2.symm⟩
        · rcases hr with hr | rfl
          · exact ih (Or.inl (mem_put.mpr (Or.inr ⟨hr, hsame⟩)))
          · exact absurd ⟨rfl, rfl⟩ hsame
      rcases h with h | h
      · exact hold (Or.inl h)
      · rcases List.mem_cons.mp h with h | h
        · exact hold (Or.inr h)
        · exact ih (Or.inr h)

/-- Puts lose no sequence number. -/
theorem exists_seq_putAll {mt : MemTable} {recs : List Record} {r : Record}
    (h : r ∈ mt.records ∨ r ∈ recs) : ∃ x ∈ (mt.putAll recs).records, x.seq = r.seq := by
  obtain ⟨x, hx, -, hseq⟩ := exists_sameVersion_putAll h
  exact ⟨x, hx, hseq⟩

/-- A record survives a run of puts that does not put its version. -/
theorem mem_putAll_of_not_sameVersion {mt : MemTable} {recs : List Record} {r : Record}
    (h : r ∈ mt.records) (hno : ∀ x ∈ recs, ¬ SameVersion r x) : r ∈ (mt.putAll recs).records := by
  induction recs generalizing mt with
  | nil => exact h
  | cons x xs ih =>
      refine ih (mem_put.mpr (Or.inr ⟨h, hno x List.mem_cons_self⟩)) ?_
      exact fun y hy => hno y (List.mem_cons_of_mem _ hy)

/-- The last put of a version stays. -/
theorem mem_putAll_of_last {mt : MemTable} {pre post : List Record} {r : Record}
    (hno : ∀ x ∈ post, ¬ SameVersion r x) : r ∈ (mt.putAll (pre ++ r :: post)).records := by
  rw [putAll_append, putAll_cons]
  exact mem_putAll_of_not_sameVersion (mem_put.mpr (Or.inl rfl)) hno

/-- `r` is the last of `recs` with its key and sequence. -/
def LastPut (recs : List Record) (r : Record) : Prop :=
  ∃ earlier later, recs = earlier ++ r :: later ∧ ∀ x ∈ later, ¬ SameVersion r x

/-- A run of puts leaves the last record of each version. -/
theorem mem_putAll_new {recs : List Record} {r : Record} :
    r ∈ (new.putAll recs).records ↔ LastPut recs r := by
  constructor
  · intro h
    induction recs using List.reverseRecOn with
    | nil => exact absurd h (by simp)
    | append_singleton recs x ih =>
        rw [putAll_append, putAll_cons, putAll_nil] at h
        rcases mem_put.mp h with rfl | ⟨h, hne⟩
        · exact ⟨recs, [], rfl, by simp⟩
        · obtain ⟨earlier, later, rfl, hlater⟩ := ih h
          refine ⟨earlier, later ++ [x], by simp, ?_⟩
          intro y hy
          rcases List.mem_append.mp hy with hy | hy
          · exact hlater y hy
          · rw [List.mem_singleton.mp hy]
            exact hne
  · rintro ⟨earlier, later, rfl, hlater⟩
    exact mem_putAll_of_last hlater

/-- The keys of a run of puts. -/
theorem len_putAll_new (recs : List Record) :
    (new.putAll recs).len = (recs.map (·.key)).dedup.length := by
  have hkeys : ((new.putAll recs).records.map (·.key)).toFinset = (recs.map (·.key)).toFinset := by
    ext k
    simp only [List.mem_toFinset, List.mem_map]
    constructor
    · rintro ⟨r, hr, rfl⟩
      exact ⟨r, (mem_of_mem_putAll hr).resolve_left (by simp), rfl⟩
    · rintro ⟨r, hr, rfl⟩
      obtain ⟨x, hx, hkey, -⟩ := @exists_sameVersion_putAll new recs r (Or.inr hr)
      exact ⟨x, hx, hkey⟩
  rw [len, ← List.card_toFinset, ← List.card_toFinset, hkeys]

/-- Puts of records that agree with each other and with the table lose nothing. -/
theorem mem_putAll_of_consistent {mt : MemTable} {recs : List Record}
    (hc : Consistent (recordsOf mt.records ∪ recordsOf recs)) {r : Record} :
    r ∈ (mt.putAll recs).records ↔ r ∈ mt.records ∨ r ∈ recs := by
  refine ⟨mem_of_mem_putAll, ?_⟩
  induction recs generalizing mt with
  | nil => simp
  | cons x xs ih =>
      intro hr
      rw [putAll_cons]
      have hsub : recordsOf (mt.put x).records ∪ recordsOf xs ⊆
          recordsOf mt.records ∪ recordsOf (x :: xs) := by
        intro y hy
        rcases hy with hy | hy
        · rcases mem_put.mp hy with rfl | ⟨hy, -⟩
          · exact Or.inr List.mem_cons_self
          · exact Or.inl hy
        · exact Or.inr (List.mem_cons_of_mem _ hy)
      refine ih (hc.mono hsub) ?_
      rcases hr with hr | hr
      · by_cases hv : SameVersion r x
        · have heq : r = x := hc r (Or.inl hr) x (Or.inr List.mem_cons_self) hv.1 hv.2
          exact Or.inl (mem_put.mpr (Or.inl heq))
        · exact Or.inl (mem_put.mpr (Or.inr ⟨hr, hv⟩))
      · rcases List.mem_cons.mp hr with rfl | hr
        · exact Or.inl (mem_put.mpr (Or.inl rfl))
        · exact Or.inr hr

theorem inOrder (mt : MemTable) : InOrder mt.records := by
  refine mt.sorted.imp ?_
  intro a b hab
  rw [less_eq_false]
  rcases less_iff.mp hab with h | ⟨hk, hs⟩
  · exact Or.inl h
  · exact Or.inr ⟨hk, hs.le⟩

/-- Skipping to the key and stopping behind it loses no visible version. -/
theorem getAt_eq_find (mt : MemTable) (k : Key) (s : UInt64) :
    mt.getAt k s = mt.records.find? (visible k s) := by
  have hord := mt.inOrder
  unfold getAt
  generalize mt.records = recs at hord ⊢
  induction recs with
  | nil => rfl
  | cons x xs ih =>
      obtain ⟨hx, hxs⟩ := List.pairwise_cons.mp hord
      rcases lt_trichotomy x.key k with hlt | heq | hgt
      · rw [List.dropWhile_cons_of_pos (by simpa using hlt), ih hxs,
          List.find?_cons_of_neg (by simp [hlt.ne])]
      · rw [List.dropWhile_cons_of_neg (by simp [heq])]
        by_cases hs : x.seq ≤ s
        · rw [List.takeWhile_cons_of_pos (by simpa using heq), List.find?_cons_of_pos (by simpa),
            List.find?_cons_of_pos (by simp [heq, hs])]
        · rw [List.takeWhile_cons_of_pos (by simpa using heq),
            List.find?_cons_of_neg (by simpa using hs), List.find?_cons_of_neg (by simp [hs]),
            ← ih hxs]
          -- every record of the tail is at or behind the key already
          have hdrop : xs.dropWhile (fun r => r.key < k) = xs := by
            cases xs with
            | nil => rfl
            | cons y ys =>
                rw [List.dropWhile_cons_of_neg]
                rcases less_eq_false.mp (hx y List.mem_cons_self) with h | ⟨h, -⟩
                · simpa [heq] using h.le
                · simp [← h, heq]
          rw [hdrop]
      · have hnone : xs.find? (visible k s) = none := by
          rw [List.find?_eq_none]
          intro r hr
          have hle : x.key ≤ r.key := by
            rcases less_eq_false.mp (hx r hr) with h | ⟨h, -⟩
            · exact h.le
            · exact h.le
          simp [(hgt.trans_le hle).ne']
        rw [List.dropWhile_cons_of_neg (by simpa using hgt.le),
          List.takeWhile_cons_of_neg (by simpa using hgt.ne'),
          List.find?_cons_of_neg (by simp [hgt.ne']), hnone]
        rfl

/-- A read finds the newest visible version. -/
theorem getAt_reads (mt : MemTable) (k : Key) (s : UInt64) :
    ReadsAt (recordsOf mt.records) k s (mt.getAt k s) := by
  rw [getAt_eq_find]
  exact find_reads mt.inOrder k s

end MemTable

end HyphaDB
