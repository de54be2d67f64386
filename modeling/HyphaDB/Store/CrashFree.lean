import HyphaDB.Store.Layers

/-!
# HyphaDB.Store.CrashFree

**Invariants of runs without a crash.** Two halves, kept by every move that is neither a
crash nor a failed rotation:

* `LiveSound`: the layers are in order, every version is below the sequence counter, and
  what the process reads is what its callers were promised.
* `LogSound`: the segments are those of the memtables in memory, and for every promised
  key the **last** record in the segments, in log order, is the newest one and the answer;
  when there is none, the tables answer. So the promises survive a restart at any point.

The second half does not say that the segments hold the records of the memtables and
nothing else: a batch whose final sync failed is in the log and in no memtable, with
sequence numbers that are handed out again.
-/

namespace HyphaDB.Store

open Compaction

/-! ### The process -/

/-- What the stage of the flush worker says about the queue. -/
def StageSound (h : Handle) : Prop :=
  match h.stage with
  | .reserved imm => ∃ qs, h.queue = imm :: qs
  | .written imm tab => (∃ qs, h.queue = imm :: qs) ∧ tab.recs = h.recsOf imm ∧ tab.level = 0
  | _ => True

theorem StageSound.written_mem {h : Handle} (hs : StageSound h) {imm : ImmutableMemTable}
    {tab : Tab} (heq : h.stage = .written imm tab) : imm ∈ h.queue := by
  unfold StageSound at hs
  rw [heq] at hs
  obtain ⟨⟨qs, hq⟩, -⟩ := hs
  exact hq ▸ List.mem_cons_self

/-- Queueing leaves the head of the queue where it is. -/
theorem queue_enqueue {h : Handle} {imm : ImmutableMemTable}
    (hq : ∃ qs, h.queue = imm :: qs) : ∃ qs, h.enqueue.queue = imm :: qs := by
  obtain ⟨qs, hq⟩ := hq
  refine ⟨qs ++ [⟨h.memtable, h.wal⟩], ?_⟩
  show h.queue ++ [_] = _
  rw [hq, List.cons_append]

/-- A write leaves the table of another memtable up to date. -/
theorem StageSound.write {h : Handle} (hs : StageSound h)
    (hne : ∀ imm tab, h.stage = .written imm tab → imm.memTable ≠ h.memtable)
    {recs : List Record} {n : Nat} : StageSound (h.write recs n) := by
  unfold StageSound at hs ⊢
  rw [show (h.write recs n).stage = h.stage from rfl]
  cases hstage : h.stage with
  | idle => trivial
  | reserved imm =>
      rw [hstage] at hs
      exact hs
  | written imm tab =>
      rw [hstage] at hs
      obtain ⟨hq, hrecs, hlevel⟩ := hs
      exact ⟨hq, hrecs.trans (Handle.recsOf_write_of_ne (hne imm tab hstage)).symm, hlevel⟩
  | removing w => trivial

theorem StageSound.rotate {h : Handle} (hs : StageSound h) {ref id : Nat}
    (href : ∀ e ∈ h.entries, e.memTable ≠ ref) : StageSound (h.enqueue.switch ref id) := by
  unfold StageSound at hs ⊢
  rw [show (h.enqueue.switch ref id).stage = h.stage from rfl]
  cases hstage : h.stage with
  | idle => trivial
  | reserved imm =>
      rw [hstage] at hs
      exact queue_enqueue hs
  | written imm tab =>
      rw [hstage] at hs
      obtain ⟨hq, hrecs, hlevel⟩ := hs
      have himm : imm ∈ h.entries := by
        obtain ⟨qs, hq⟩ := hq
        exact List.mem_append_left _ (hq ▸ List.mem_cons_self)
      exact ⟨queue_enqueue hq, hrecs.trans (Handle.recsOf_rotate_of_mem href himm).symm, hlevel⟩
  | removing w => trivial

theorem StageSound.enqueue {h : Handle} (hs : StageSound h) : StageSound h.enqueue := by
  unfold StageSound at hs ⊢
  rw [show h.enqueue.stage = h.stage from rfl]
  cases hstage : h.stage with
  | idle => trivial
  | reserved imm =>
      rw [hstage] at hs
      exact queue_enqueue hs
  | written imm tab =>
      rw [hstage] at hs
      exact ⟨queue_enqueue hs.1, hs.2⟩
  | removing w => trivial

structure LiveSound (v : View) (h : Handle) (l : Ledger) : Prop where
  layers : Layers (h.entries.map h.recsOf) v.tabs
  refs : (h.entries.map ImmutableMemTable.memTable).Nodup
  stage : StageSound h
  consistent : Consistent (v.live h)
  seq_lt : ∀ r ∈ v.live h, r.seq < h.nextSeq
  answers : ∀ k m, l k = some m → Answers (v.live h) k m

theorem queue_ref_ne {h : Handle} (hrefs : (h.entries.map ImmutableMemTable.memTable).Nodup)
    {e : ImmutableMemTable} (he : e ∈ h.queue) : e.memTable ≠ h.memtable := by
  unfold Handle.entries at hrefs
  rw [List.map_append, List.nodup_append] at hrefs
  exact hrefs.2.2 e.memTable (List.mem_map_of_mem he) h.memtable (by simp)

/-- Only the active entry refers to the active memtable. -/
theorem entry_wal {h : Handle} (hrefs : (h.entries.map ImmutableMemTable.memTable).Nodup)
    {e : ImmutableMemTable} (he : e ∈ h.entries) (hm : e.memTable = h.memtable) :
    e.walID = h.wal := by
  rcases List.mem_append.mp he with he | he
  · exact absurd hm (queue_ref_ne hrefs he)
  · rw [List.mem_singleton.mp he]

theorem mem_live_of_entry {v : View} {h : Handle} {e : ImmutableMemTable} (he : e ∈ h.entries)
    {r : Record} (hr : r ∈ h.recsOf e) : r ∈ v.live h := Or.inl ⟨e, he, hr⟩

/-- The last record of a key among sequenced ones is the newest. -/
theorem Sequenced.le_last {s : UInt64} {n : Nat} {pre post : List Record} {r x : Record}
    (h : Sequenced s n (pre ++ r :: post)) (hpost : ∀ y ∈ post, y.key ≠ r.key)
    (hx : x ∈ pre ++ r :: post) (hk : x.key = r.key) : x.seq ≤ r.seq := by
  have hasc := List.pairwise_append.mp h.ascending
  rcases List.mem_append.mp hx with hx | hx
  · exact (hasc.2.2 x hx r List.mem_cons_self).le
  · rcases List.mem_cons.mp hx with rfl | hx
    · exact le_refl _
    · exact absurd hk (hpost x hx)

theorem live_rotate {v : View} {h : Handle} {ref : Nat} (id : Nat)
    (href : ∀ e ∈ h.entries, e.memTable ≠ ref) (logs : List (Nat × List Record))
    (handle : Option Handle) :
    View.live { v with logs, handle } (h.enqueue.switch ref id) = v.live h := by
  unfold View.live
  rw [Handle.memRecs_rotate href]

/-- Publishing moves records from a memtable to a table. -/
theorem live_publish {v : View} {h : Handle} {imm : ImmutableMemTable} {tab : Tab}
    {qs : List ImmutableMemTable}
    (hq : h.queue = imm :: qs) (hrecs : tab.recs = h.recsOf imm) (stage : Stage)
    (handle : Option Handle) :
    View.live { v with tabs := v.tabs ++ [tab], handle } { h with queue := qs, stage } =
      v.live h := by
  apply Set.ext
  intro r
  have hentries : h.entries = imm :: ({ h with queue := qs, stage } : Handle).entries := by
    unfold Handle.entries
    rw [hq, List.cons_append]
  constructor
  · intro hr
    rcases hr with ⟨e, he, hr⟩ | hr
    · exact Or.inl ⟨e, hentries ▸ List.mem_cons_of_mem _ he, hr⟩
    · rcases mem_tabRecs_append.mp hr with hr | hr
      · exact Or.inr hr
      · exact Or.inl ⟨imm, hentries ▸ List.mem_cons_self, hrecs ▸ hr⟩
  · intro hr
    rcases hr with ⟨e, he, hr⟩ | hr
    · rw [hentries] at he
      rcases List.mem_cons.mp he with rfl | he
      · exact Or.inr (mem_tabRecs_append.mpr (Or.inr (hrecs ▸ hr)))
      · exact Or.inl ⟨e, he, hr⟩
    · exact Or.inr (mem_tabRecs_append.mpr (Or.inl hr))

section LiveMoves

variable {v : View} {h : Handle} {l : Ledger} (hv : LiveSound v h l)

include hv

theorem LiveSound.weaken {l' : Ledger} (hl : Weaker l' l) : LiveSound v h l' :=
  { hv with answers := fun k m hk => hv.answers k m (hl k m hk) }

/-- What a write adds to the live versions. -/
theorem LiveSound.mem_live_write {recs : List Record} {n : Nat} (hs : Sequenced h.nextSeq n recs)
    {logs : List (Nat × List Record)} {handle : Option Handle} {r : Record} :
    r ∈ View.live { v with logs, handle } (h.write recs n) ↔ r ∈ v.live h ∨ r ∈ recs := by
  have hmem := Handle.mem_memRecs_write hs (fun r hr => hv.seq_lt r (Or.inl hr)) (r := r)
  unfold View.live
  rw [Set.mem_union, Set.mem_union, hmem]
  exact ⟨fun hr => by tauto, fun hr => by tauto⟩

theorem LiveSound.write {recs : List Record} {n : Nat} (hs : Sequenced h.nextSeq n recs)
    (logs : List (Nat × List Record)) (handle : Option Handle) :
    LiveSound { v with logs, handle } (h.write recs n) (record l recs) := by
  have hlive : ∀ r, r ∈ View.live { v with logs, handle } (h.write recs n) ↔
      r ∈ v.live h ∨ r ∈ recs := fun r => hv.mem_live_write hs
  have hmap : (h.write recs n).entries.map (h.write recs n).recsOf =
      h.queue.map h.recsOf ++ [(h.write recs n).recsOf ⟨h.memtable, h.wal⟩] := by
    rw [Handle.entries_write]
    unfold Handle.entries
    rw [List.map_append, List.map_singleton]
    congr 1
    exact List.map_congr_left fun e he =>
      Handle.recsOf_write_of_ne (queue_ref_ne hv.refs he)
  refine ⟨?_, hv.refs, ?_, ?_, ?_, ?_⟩
  · rw [hmap]
    have hold := hv.layers
    unfold Handle.entries at hold
    rw [List.map_append, List.map_singleton] at hold
    have hsub : ∀ r ∈ (h.write recs n).recsOf ⟨h.memtable, h.wal⟩,
        r ∈ h.recsOf ⟨h.memtable, h.wal⟩ ∨ r ∈ recs := by
      intro r hr
      rcases Handle.mem_recsOf_write hr with hr | ⟨-, hr⟩
      · exact Or.inl hr
      · exact Or.inr hr
    refine hold.write hsub ?_ ?_
    · exact fun a ha b hb _ => hs.newer ha (hv.seq_lt b (Or.inr hb))
    · intro m hm a ha b hb _
      obtain ⟨e, he, rfl⟩ := List.mem_map.mp hm
      exact hs.newer ha (hv.seq_lt b (mem_live_of_entry (List.mem_append_left _ he) hb))
  · exact hv.stage.write fun imm tab heq => queue_ref_ne hv.refs (hv.stage.written_mem heq)
  · exact (hs.consistent hv.consistent hv.seq_lt).mono fun r hr => (hlive r).mp hr
  · intro r hr
    rcases (hlive r).mp hr with hr | hr
    · exact hs.lt_next (Or.inl (hv.seq_lt r hr))
    · exact hs.lt_next (Or.inr hr)
  · intro k m hk
    rcases record_cases l recs k with ⟨hno, heq⟩ | ⟨pre, r, post, rfl, rfl, hpost, heq⟩
    · rw [heq] at hk
      refine (hv.answers k m hk).congr fun r hrk => ?_
      rw [hlive]
      exact or_iff_left fun hr => hno r hr hrk
    · rw [heq] at hk
      obtain rfl := Option.some.inj hk
      refine Answers.of_top ((hlive r).mpr (Or.inr (by simp))) ?_
      intro x hx hxk
      rcases (hlive x).mp hx with hx | hx
      · exact (hs.newer (by simp) (hv.seq_lt x hx)).le
      · exact hs.le_last hpost hx hxk

theorem LiveSound.rotate {ref id : Nat} (href : ∀ e ∈ h.entries, e.memTable ≠ ref)
    (logs : List (Nat × List Record)) (handle : Option Handle) :
    LiveSound { v with logs, handle } (h.enqueue.switch ref id) l := by
  have hlive := live_rotate (v := v) id href logs handle
  refine ⟨?_, ?_, ?_, hlive ▸ hv.consistent, hlive ▸ hv.seq_lt, ?_⟩
  · have hmap : (h.enqueue.switch ref id).entries.map (h.enqueue.switch ref id).recsOf =
        h.entries.map h.recsOf ++ [[]] := by
      rw [Handle.entries_rotate, List.map_append, List.map_singleton, Handle.recsOf_rotate_new]
      congr 1
      exact List.map_congr_left fun e he => Handle.recsOf_rotate_of_mem href he
    rw [hmap]
    exact hv.layers.rotate
  · rw [Handle.entries_rotate, List.map_append, List.nodup_append]
    refine ⟨hv.refs, by simp, ?_⟩
    intro a ha b hb
    obtain ⟨e, he, rfl⟩ := List.mem_map.mp ha
    rw [List.map_singleton, List.mem_singleton] at hb
    exact hb ▸ href e he
  · exact hv.stage.rotate href
  · exact hlive ▸ hv.answers

/-- A step of the flush worker that changes neither memtables nor tables. -/
theorem LiveSound.setStage (stage : Stage) (hstage : StageSound { h with stage })
    (logs : List (Nat × List Record)) (handle : Option Handle) :
    LiveSound { v with logs, handle } { h with stage } l :=
  ⟨hv.layers, hv.refs, hstage, hv.consistent, hv.seq_lt, hv.answers⟩

theorem LiveSound.setLogs (logs : List (Nat × List Record)) : LiveSound { v with logs } h l :=
  ⟨hv.layers, hv.refs, hv.stage, hv.consistent, hv.seq_lt, hv.answers⟩

theorem LiveSound.setReaders (readers : List UInt64) (handle : Option Handle) :
    LiveSound { v with handle } { h with readers } l :=
  ⟨hv.layers, hv.refs, hv.stage, hv.consistent, hv.seq_lt, hv.answers⟩

theorem LiveSound.publish {imm : ImmutableMemTable} {tab : Tab} {qs : List ImmutableMemTable}
    (hstage : h.stage = .written imm tab) (hq : h.queue = imm :: qs) (walID : Nat)
    (handle : Option Handle) :
    LiveSound { v with tabs := v.tabs ++ [tab], handle }
      { h with queue := qs, stage := .removing walID } l := by
  have hsound := hv.stage
  unfold StageSound at hsound
  rw [hstage] at hsound
  obtain ⟨-, hrecs, hlevel⟩ := hsound
  have hlive := live_publish (v := v) hq hrecs (.removing walID) handle
  have hlayers := hv.layers
  have hrefs := hv.refs
  unfold Handle.entries at hlayers hrefs
  rw [hq, List.cons_append, List.map_cons] at hlayers hrefs
  exact ⟨hlayers.publish hrecs hlevel, (List.nodup_cons.mp hrefs).2, trivial,
    hlive ▸ hv.consistent, hlive ▸ hv.seq_lt, hlive ▸ hv.answers⟩

/-- A compaction keeps every protected read, up to a dropped tombstone, after which the key
is gone. -/
theorem LiveSound.compact_reads {tabs inputs : List Tab} {options : MergeOptions} {out : Tab}
    (hc : Compacts h.readers v.tabs tabs inputs options out) {k : Key} {s : UInt64}
    (hs : Protected options s) {o : Option Record} (ho : ReadsAt (v.live h) k s o) :
    ReadsAt (View.live { v with tabs } h) k s o ∨
      options.oldestReader = none ∧ visibleOf o = none ∧
        ReadsAt (View.live { v with tabs } h) k s none := by
  have hsub : ∀ r ∈ View.live { v with tabs } h, r.key = k → r ∈ v.live h := by
    intro r hr _
    rcases hr with hr | hr
    · exact Or.inl hr
    · exact Or.inr (hc.tabRecs_sub hr)
  cases o with
  | none => exact Or.inl fun r hr hk => ho r (hsub r hr hk) hk
  | some t =>
      rcases ho.mem with ht | ht
      · exact Or.inl (ho.anti hsub (Or.inl ht))
      · rcases hc.newest_stays Set.subset_union_right hv.consistent hs ho ht with
          hstay | ⟨hreader, hdrop, hdel, hin, hout⟩
        · exact Or.inl (ho.anti hsub (Or.inr hstay))
        · have hs' : s = newest := by
            unfold Protected at hs
            rwa [hreader] at hs
          have hmax : ∀ r ∈ v.live h, r.key = k → r.seq ≤ t.seq :=
            fun r hr hk => ho.max r hr hk (hs' ▸ le_newest _)
          refine Or.inr ⟨hreader, by simp [visibleOf, Entry.visible, hdel], ?_⟩
          rw [hs', reads_eq_none]
          intro r hr hk
          rcases hr with ⟨e, he, hr⟩ | hr
          · -- a version in a memtable would be newer than the newest
            have hnewer := hv.layers.mem_above (h.recsOf e) (List.mem_map_of_mem he) r hr t ht
              (hk.trans ho.key_eq.symm)
            exact absurd hnewer (not_lt.mpr (hmax r (mem_live_of_entry he hr) hk))
          · exact hv.layers.nothing_below hc hin ho.key_eq hdrop hout
              (fun x hx hxk => hmax x (Or.inr hx) hxk) r hr hk

theorem LiveSound.compact {tabs inputs : List Tab} {options : MergeOptions} {out : Tab}
    (hc : Compacts h.readers v.tabs tabs inputs options out) : LiveSound { v with tabs } h l := by
  have hsub : View.live { v with tabs } h ⊆ v.live h :=
    Set.union_subset_union_right _ hc.tabRecs_sub
  refine ⟨hv.layers.compact hc, hv.refs, hv.stage, hv.consistent.mono hsub,
    fun r hr => hv.seq_lt r (hsub hr), ?_⟩
  intro k m hk
  obtain ⟨o, ho, hm⟩ := hv.answers k m hk
  rcases hv.compact_reads hc (protected_newest options) ho with ho' | ⟨-, hnone, ho'⟩
  · exact ⟨o, ho', hm⟩
  · exact ⟨none, ho', hnone.symm.trans hm⟩

end LiveMoves

end HyphaDB.Store
