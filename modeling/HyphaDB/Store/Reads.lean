import HyphaDB.Store.View

/-!
# HyphaDB.Store.Reads

What the sets of versions of a view say about reads: when a set **answers** a key with a
promised value, when one set lies **above** another, and what a compaction keeps.
-/

namespace HyphaDB.Store

open Compaction Versions

/-! ### Answers -/

/-- What a caller sees of the record a read found. -/
def visibleOf : Option Record → Option Bytes
  | none => none
  | some r => r.toEntry.visible

/-- A read of `k` in `S` gives `m`. -/
def Answers (S : Set Record) (k : Key) (m : Option Bytes) : Prop :=
  ∃ o, ReadsAt S k newest o ∧ visibleOf o = m

theorem Answers.congr {S T : Set Record} {k : Key} {m : Option Bytes} (h : Answers S k m)
    (hiff : ∀ r, r.key = k → (r ∈ T ↔ r ∈ S)) : Answers T k m := by
  obtain ⟨o, ho, hm⟩ := h
  exact ⟨o, ho.congr hiff, hm⟩

/-- A version nothing exceeds is the answer. -/
theorem Answers.of_top {S : Set Record} {r : Record} (hr : r ∈ S)
    (htop : ∀ r' ∈ S, r'.key = r.key → r'.seq ≤ r.seq) : Answers S r.key r.toEntry.visible :=
  ⟨some r, ⟨hr, rfl, le_newest _, fun r' hr' hk _ => htop r' hr' hk⟩, rfl⟩

theorem reads_eq_none {S : Set Record} {k : Key} :
    ReadsAt S k newest none ↔ ∀ r ∈ S, r.key ≠ k :=
  ⟨fun h r hr hk => h r hr hk (le_newest _), fun h r hr hk => absurd hk (h r hr)⟩

/-! ### Above -/

/-- Every version in `A` is newer than every version of its key in `B`. -/
def Above (A B : Set Record) : Prop := ∀ a ∈ A, ∀ b ∈ B, a.key = b.key → b.seq < a.seq

theorem Above.mono {A A' B B' : Set Record} (h : Above A B) (ha : A' ⊆ A) (hb : B' ⊆ B) :
    Above A' B' :=
  fun a haa b hbb hk => h a (ha haa) b (hb hbb) hk

/-- Layers, each consistent and one above the other, are consistent together. -/
theorem Above.consistent_union {A B : Set Record} (h : Above A B) (ha : Consistent A)
    (hb : Consistent B) : Consistent (A ∪ B) := by
  intro r hr r' hr' hk hs
  rcases hr with hr | hr
  · rcases hr' with hr' | hr'
    · exact ha r hr r' hr' hk hs
    · exact absurd hs.symm (h r hr r' hr' hk).ne
  · rcases hr' with hr' | hr'
    · exact absurd hs (h r' hr' r hr hk.symm).ne
    · exact hb r hr r' hr' hk hs

theorem consistent_recordsOf (mt : MemTable) : Consistent (recordsOf mt.records) :=
  fun _ hr _ hr' hk hs => MemTable.eq_of_sameVersion hr hr' ⟨hk, hs⟩

/-! ### Tables and segments -/

theorem mem_tabRecs_append {tabs : List Tab} {tab : Tab} {r : Record} :
    r ∈ tabRecs (tabs ++ [tab]) ↔ r ∈ tabRecs tabs ∨ r ∈ tab.recs := by
  constructor
  · intro h
    obtain ⟨t, ht, hr⟩ := h
    rcases List.mem_append.mp ht with ht | ht
    · exact Or.inl ⟨t, ht, hr⟩
    · exact Or.inr (List.mem_singleton.mp ht ▸ hr)
  · intro h
    rcases h with ⟨t, ht, hr⟩ | hr
    · exact ⟨t, List.mem_append_left _ ht, hr⟩
    · exact ⟨tab, List.mem_append_right _ List.mem_cons_self, hr⟩

/-- The records of `inputs` as the merge sees them. -/
theorem mem_inputs {inputs : List Tab} {r : Record} :
    (∃ recs ∈ inputs.map Tab.recs, r ∈ recs) ↔ r ∈ tabRecs inputs := by
  simp [tabRecs]

theorem inputs_inOrder (inputs : List Tab) : ∀ recs ∈ inputs.map Tab.recs, InOrder recs := by
  intro recs hrecs
  obtain ⟨t, -, rfl⟩ := List.mem_map.mp hrecs
  exact t.inOrder

/-- Reads without a snapshot are protected whatever the readers. -/
theorem protected_newest (options : MergeOptions) : Protected options newest := by
  unfold Protected
  cases options.oldestReader with
  | none => rfl
  | some reader => exact le_newest reader

section Compacts

variable {readers : List UInt64} {tabs tabs' inputs : List Tab} {options : MergeOptions}
  {out : Tab} (hc : Compacts readers tabs tabs' inputs options out)

include hc

/-- The output holds only records of the inputs. -/
theorem Compacts.out_sub {r : Record} (hr : r ∈ out.recs) : r ∈ tabRecs inputs := by
  rw [hc.recs] at hr
  exact mem_inputs.mp (mem_mergeRecords hr)

/-- A compaction adds no record. -/
theorem Compacts.tabRecs_sub : tabRecs tabs' ⊆ tabRecs tabs := by
  intro r hr
  obtain ⟨t, ht, hr⟩ := hr
  rcases (hc.mem_iff t).mp ht with rfl | ⟨ht, -⟩
  · obtain ⟨s, hs, hr⟩ := hc.out_sub hr
    exact ⟨s, hc.sub s hs, hr⟩
  · exact ⟨t, ht, hr⟩

theorem Compacts.out_mem : out ∈ tabs' := (hc.mem_iff out).mpr (Or.inl rfl)

/-- A record stays or belongs to an input. -/
theorem Compacts.stays_or_input {r : Record} (hr : r ∈ tabRecs tabs) :
    r ∈ tabRecs tabs' ∨ r ∈ tabRecs inputs := by
  obtain ⟨t, ht, hr⟩ := hr
  by_cases hin : t ∈ inputs
  · exact Or.inr ⟨t, hin, hr⟩
  · exact Or.inl ⟨t, (hc.mem_iff t).mpr (Or.inr ⟨ht, hin⟩), hr⟩

/-- The newest version of a key at a protected bound is kept, or it is a tombstone that is
dropped with all of its key in the inputs. -/
theorem Compacts.newest_kept {k : Key} {s : UInt64} {t : Record} (hs : Protected options s)
    (hcons : Consistent (tabRecs inputs)) (ht : NewestAt (tabRecs inputs) k s t) :
    t ∈ out.recs ∨ (options.oldestReader = none ∧ options.dropTombstones = true ∧
      t.deleted = true ∧ ∀ r ∈ out.recs, r.key ≠ k) := by
  have hset : {r | ∃ recs ∈ inputs.map Tab.recs, r ∈ recs} = tabRecs inputs :=
    Set.ext fun r => mem_inputs
  obtain ⟨o, ho, hkeep⟩ := mergeRecords_reads (inputs_inOrder inputs) k hs
  rw [hset] at ho
  have hread : ReadsAt (tabRecs inputs) k s (some t) := ht
  obtain rfl := hread.unique hcons ho
  rw [← hc.recs] at hkeep
  rcases hkeep with hkeep | ⟨t', heq, hdrop⟩
  · exact Or.inl hkeep.mem
  · obtain rfl := Option.some.inj heq
    obtain ⟨hreader, hdt, hdel, hnone⟩ := hdrop
    rw [← hc.recs] at hnone
    exact Or.inr ⟨hreader, hdt, hdel, hnone⟩

/-- The newest version of a larger set of versions, kept or dropped. -/
theorem Compacts.newest_stays {S : Set Record} {k : Key} {s : UInt64} {t : Record}
    (hsub : tabRecs tabs ⊆ S) (hcons : Consistent S) (hs : Protected options s)
    (ht : NewestAt S k s t) (htab : t ∈ tabRecs tabs) :
    t ∈ tabRecs tabs' ∨ (options.oldestReader = none ∧ options.dropTombstones = true ∧
      t.deleted = true ∧ t ∈ tabRecs inputs ∧ ∀ r ∈ out.recs, r.key ≠ k) := by
  have hin : tabRecs inputs ⊆ S := by
    intro r hr
    obtain ⟨u, hu, hr⟩ := hr
    exact hsub ⟨u, hc.sub u hu, hr⟩
  rcases hc.stays_or_input htab with h | h
  · exact Or.inl h
  · have hnew : NewestAt (tabRecs inputs) k s t := ht.anti (fun r hr _ => hin hr) h
    rcases hc.newest_kept hs (hcons.mono hin) hnew with hout | ⟨h1, h2, h3, h4⟩
    · exact Or.inl ⟨out, hc.out_mem, hout⟩
    · exact Or.inr ⟨h1, h2, h3, h, h4⟩

end Compacts

/-! ### Writing -/

theorem Sequenced.newer {s : UInt64} {n : Nat} {recs : List Record} (h : Sequenced s n recs)
    {r x : Record} (hr : r ∈ recs) (hx : x.seq < s) : x.seq < r.seq :=
  lt_of_lt_of_le hx (h.bounds r hr).1

/-- Sequenced records differ in their sequence numbers. -/
theorem Sequenced.inj {s : UInt64} {n : Nat} {recs : List Record} (h : Sequenced s n recs)
    {r r' : Record} (hr : r ∈ recs) (hr' : r' ∈ recs) (heq : r.seq = r'.seq) : r = r' := by
  by_contra hne
  have hp : recs.Pairwise (fun a b => a.seq ≠ b.seq) := h.ascending.imp fun hab => hab.ne
  have hsymm : Std.Symm fun a b : Record => a.seq ≠ b.seq := ⟨fun _ _ hab => hab.symm⟩
  exact hp.forall hr hr' hne heq

theorem Sequenced.toNat_next {s : UInt64} {n : Nat} {recs : List Record}
    (h : Sequenced s n recs) : (s + UInt64.ofNat n).toNat = s.toNat + n :=
  toNat_add_ofNat h.room

/-- The counter moves past everything before it and past the new records. -/
theorem Sequenced.lt_next {s : UInt64} {n : Nat} {recs : List Record} (h : Sequenced s n recs)
    {r : Record} (hr : r.seq < s ∨ r ∈ recs) : r.seq < s + UInt64.ofNat n := by
  rw [UInt64.lt_iff_toNat_lt, h.toNat_next]
  rcases hr with hr | hr
  · rw [UInt64.lt_iff_toNat_lt] at hr
    omega
  · exact (h.bounds r hr).2

/-- Versions below the counter agree with new ones. -/
theorem Sequenced.consistent {s : UInt64} {n : Nat} {recs : List Record} (h : Sequenced s n recs)
    {S : Set Record} (hS : Consistent S) (hlt : ∀ r ∈ S, r.seq < s) :
    Consistent (S ∪ recordsOf recs) := by
  have habove : Above (recordsOf recs) S := fun a ha b hb _ => h.newer ha (hlt b hb)
  have hrecs : Consistent (recordsOf recs) := fun r hr r' hr' _ heq => h.inj hr hr' heq
  have := habove.consistent_union hrecs hS
  rwa [Set.union_comm] at this

namespace Handle

@[simp] theorem entries_write (h : Handle) (recs : List Record) (n : Nat) :
    (h.write recs n).entries = h.entries := rfl

theorem active_mem_entries (h : Handle) : (⟨h.memtable, h.wal⟩ : ImmutableMemTable) ∈ h.entries :=
  List.mem_append_right _ List.mem_cons_self

theorem recsOf_write_of_ne {h : Handle} {recs : List Record} {n : Nat} {e : ImmutableMemTable}
    (he : e.memTable ≠ h.memtable) : (h.write recs n).recsOf e = h.recsOf e := by
  simp [recsOf, write, Function.update_of_ne he]

theorem recsOf_write_of_eq {h : Handle} {recs : List Record} {n : Nat} {e : ImmutableMemTable}
    (he : e.memTable = h.memtable) :
    (h.write recs n).recsOf e = ((h.heap h.memtable).putAll recs).records := by
  simp [recsOf, write, he]

/-- What a write leaves in a memtable. -/
theorem mem_recsOf_write {h : Handle} {recs : List Record} {n : Nat} {e : ImmutableMemTable}
    {r : Record} (hr : r ∈ (h.write recs n).recsOf e) :
    r ∈ h.recsOf e ∨ e.memTable = h.memtable ∧ r ∈ recs := by
  by_cases he : e.memTable = h.memtable
  · rw [recsOf_write_of_eq he] at hr
    rcases MemTable.mem_of_mem_putAll hr with hr | hr
    · exact Or.inl (by rwa [recsOf, he])
    · exact Or.inr ⟨he, hr⟩
  · rw [recsOf_write_of_ne he] at hr
    exact Or.inl hr

section Fresh

variable {h : Handle} {recs : List Record} {n : Nat} (hs : Sequenced h.nextSeq n recs)
  (hlt : ∀ r ∈ h.memRecs, r.seq < h.nextSeq)

include hs hlt

/-- New versions replace nothing. -/
theorem mem_recsOf_write_iff {e : ImmutableMemTable} (he : e ∈ h.entries) {r : Record} :
    r ∈ (h.write recs n).recsOf e ↔ r ∈ h.recsOf e ∨ e.memTable = h.memtable ∧ r ∈ recs := by
  refine ⟨mem_recsOf_write, ?_⟩
  by_cases hm : e.memTable = h.memtable
  · have hold : ∀ x ∈ recordsOf (h.heap h.memtable).records, x.seq < h.nextSeq := by
      intro x hx
      exact hlt x ⟨e, he, by rwa [recsOf, hm]⟩
    have hc := hs.consistent (consistent_recordsOf (h.heap h.memtable)) hold
    intro hr
    rw [recsOf_write_of_eq hm, MemTable.mem_putAll_of_consistent hc]
    rcases hr with hr | ⟨-, hr⟩
    · exact Or.inl (by rwa [recsOf, hm] at hr)
    · exact Or.inr hr
  · intro hr
    rw [recsOf_write_of_ne hm]
    exact hr.resolve_right fun hr => hm hr.1

theorem mem_memRecs_write {r : Record} :
    r ∈ (h.write recs n).memRecs ↔ r ∈ h.memRecs ∨ r ∈ recs := by
  constructor
  · intro hr
    obtain ⟨e, he, hr⟩ := hr
    rcases mem_recsOf_write hr with hr | ⟨-, hr⟩
    · exact Or.inl ⟨e, he, hr⟩
    · exact Or.inr hr
  · intro hr
    rcases hr with ⟨e, he, hr⟩ | hr
    · exact ⟨e, he, (mem_recsOf_write_iff hs hlt he).mpr (Or.inl hr)⟩
    · exact ⟨_, h.active_mem_entries,
        (mem_recsOf_write_iff hs hlt h.active_mem_entries).mpr (Or.inr ⟨rfl, hr⟩)⟩

end Fresh

@[simp] theorem entries_rotate (h : Handle) (ref id : Nat) :
    (h.enqueue.switch ref id).entries = h.entries ++ [⟨ref, id⟩] := rfl

theorem recsOf_rotate_of_mem {h : Handle} {ref id : Nat} (href : ∀ e ∈ h.entries, e.memTable ≠ ref)
    {e : ImmutableMemTable} (he : e ∈ h.entries) :
    (h.enqueue.switch ref id).recsOf e = h.recsOf e := by
  simp [recsOf, switch, enqueue, Function.update_of_ne (href e he)]

theorem recsOf_rotate_new (h : Handle) (ref id : Nat) :
    (h.enqueue.switch ref id).recsOf ⟨ref, id⟩ = [] := by
  simp [recsOf, switch, enqueue]

theorem memRecs_rotate {h : Handle} {ref id : Nat} (href : ∀ e ∈ h.entries, e.memTable ≠ ref) :
    (h.enqueue.switch ref id).memRecs = h.memRecs := by
  apply Set.ext
  intro r
  constructor
  · intro hr
    obtain ⟨e, he, hr⟩ := hr
    rw [entries_rotate, List.mem_append, List.mem_singleton] at he
    rcases he with he | rfl
    · exact ⟨e, he, by rwa [recsOf_rotate_of_mem href he] at hr⟩
    · rw [recsOf_rotate_new] at hr
      cases hr
  · intro hr
    obtain ⟨e, he, hr⟩ := hr
    exact ⟨e, List.mem_append_left _ he, by rwa [recsOf_rotate_of_mem href he]⟩

end Handle

/-! ### The ledger -/

theorem record_cons (l : Ledger) (r : Record) (recs : List Record) :
    record l (r :: recs) =
      record (Function.update l r.key (some r.toEntry.visible)) recs := rfl

/-- A key that is not written keeps its promise; a written key has that of its last
record. -/
theorem record_cases (l : Ledger) (recs : List Record) (k : Key) :
    ((∀ r ∈ recs, r.key ≠ k) ∧ record l recs k = l k) ∨
      ∃ pre r post, recs = pre ++ r :: post ∧ r.key = k ∧ (∀ x ∈ post, x.key ≠ k) ∧
        record l recs k = some r.toEntry.visible := by
  induction recs generalizing l with
  | nil => exact Or.inl ⟨by simp, rfl⟩
  | cons x xs ih =>
      rw [record_cons]
      rcases ih (Function.update l x.key (some x.toEntry.visible)) with ⟨hno, heq⟩ | h
      · by_cases hk : x.key = k
        · refine Or.inr ⟨[], x, xs, rfl, hk, hno, ?_⟩
          rw [heq, ← hk, Function.update_self]
        · refine Or.inl ⟨?_, ?_⟩
          · intro r hr
            rcases List.mem_cons.mp hr with rfl | hr
            · exact hk
            · exact hno r hr
          · rw [heq, Function.update_of_ne (Ne.symm hk)]
      · obtain ⟨pre, r, post, rfl, hk, hno, heq⟩ := h
        exact Or.inr ⟨x :: pre, r, post, rfl, hk, hno, heq⟩

end HyphaDB.Store
