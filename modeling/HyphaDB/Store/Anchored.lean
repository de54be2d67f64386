import HyphaDB.Store.CrashFree

/-!
# HyphaDB.Store.Anchored

**What crashes leave intact.** After a crash `Open` replays all segments into one memtable, so
old versions come back on top and the layers are no longer ordered by recency. What stays
true is about places: the segment of a memtable holds no record the memtable lacks, a
segment is given up only when the table of its memtable is published, and no two
versions ever share key and sequence.

`Anchored` collects this for a running process; `Structural` is the invariant with the
stopped case, and `Structural.move` shows that every move keeps it. The promises to the
callers are proved on top of it, puts in `HyphaDB.Store.Durable`, deletes in
`HyphaDB.Store.Deleted`.
-/

namespace HyphaDB.Store

open Compaction

/-- The records of all segments but the pending one. -/
def View.keptLogs (v : View) (h : Handle) : Set Record :=
  {r | ∃ p ∈ v.logs, h.stage.pending ≠ some p.1 ∧ r ∈ p.2}

/-- What the next `Open` finds once the pending segment is removed. -/
def View.kept (v : View) (h : Handle) : Set Record := v.keptLogs h ∪ tabRecs v.tabs

theorem View.kept_sub (v : View) (h : Handle) : v.kept h ⊆ v.durable := by
  intro r hr
  rcases hr with ⟨p, hp, -, hr⟩ | hr
  · exact Or.inl ⟨p, hp, hr⟩
  · exact Or.inr hr

/-- Only the pending segment of the stage matters. -/
theorem kept_setStage (v : View) {h : Handle} (stage : Stage)
    (hpend : stage.pending = h.stage.pending) (handle : Option Handle) :
    View.kept { v with handle } { h with stage } = v.kept h := by
  unfold View.kept View.keptLogs
  rw [show Handle.stage _ = stage from rfl, hpend]

/-! ### Segments -/

theorem mem_appendLog {id : Nat} {recs : List Record} {logs : List (Nat × List Record)}
    {q : Nat × List Record} (hq : q ∈ appendLog id recs logs) :
    ∃ p ∈ logs, p.1 = q.1 ∧ ∀ r, r ∈ q.2 ↔ r ∈ p.2 ∨ p.1 = id ∧ r ∈ recs := by
  obtain ⟨p, hp, rfl⟩ := List.mem_map.mp hq
  refine ⟨p, hp, ?_⟩
  by_cases hid : p.1 = id
  · rw [if_pos hid]
    exact ⟨rfl, fun r => by simp [hid]⟩
  · rw [if_neg hid]
    exact ⟨rfl, fun r => by simp [hid]⟩

theorem appendLog_of_mem {id : Nat} (recs : List Record) {logs : List (Nat × List Record)}
    {p : Nat × List Record} (hp : p ∈ logs) :
    ∃ q ∈ appendLog id recs logs, q.1 = p.1 ∧ ∀ r, r ∈ q.2 ↔ r ∈ p.2 ∨ p.1 = id ∧ r ∈ recs := by
  refine ⟨_, List.mem_map_of_mem hp, ?_⟩
  by_cases hid : p.1 = id
  · rw [if_pos hid]
    exact ⟨rfl, fun r => by simp [hid]⟩
  · rw [if_neg hid]
    exact ⟨rfl, fun r => by simp [hid]⟩

/-- The records of the segments for which `P` holds, after an append. -/
theorem exists_mem_appendLog {id : Nat} (recs : List Record) {logs : List (Nat × List Record)}
    (hex : ∃ p ∈ logs, p.1 = id) {P : Nat → Prop} (hP : P id) {r : Record} :
    (∃ p ∈ appendLog id recs logs, P p.1 ∧ r ∈ p.2) ↔
      (∃ p ∈ logs, P p.1 ∧ r ∈ p.2) ∨ r ∈ recs := by
  constructor
  · intro h
    obtain ⟨q, hq, hPq, hr⟩ := h
    obtain ⟨p, hp, hid, hmem⟩ := mem_appendLog hq
    rcases (hmem r).mp hr with hr | ⟨-, hr⟩
    · exact Or.inl ⟨p, hp, hid ▸ hPq, hr⟩
    · exact Or.inr hr
  · intro h
    rcases h with ⟨p, hp, hPp, hr⟩ | hr
    · obtain ⟨q, hq, hid, hmem⟩ := appendLog_of_mem recs hp
      exact ⟨q, hq, hid ▸ hPp, (hmem r).mpr (Or.inl hr)⟩
    · obtain ⟨p, hp, rfl⟩ := hex
      obtain ⟨q, hq, hid, hmem⟩ := appendLog_of_mem recs hp
      exact ⟨q, hq, hid ▸ hP, (hmem r).mpr (Or.inr ⟨rfl, hr⟩)⟩

theorem mem_removeLog {id : Nat} {logs : List (Nat × List Record)} {p : Nat × List Record} :
    p ∈ removeLog id logs ↔ p ∈ logs ∧ p.1 ≠ id := by
  simp [removeLog]

/-! ### The invariant -/

/-- What holds as long as no rotation fails: no memtable is queued twice, and each record of
a memtable is in a segment that no other memtable will take away. -/
structure Distinct (v : View) (h : Handle) : Prop where
  refs : ∀ e ∈ h.queue, e.memTable ≠ h.memtable
  nodup : h.entries.Nodup
  owned : ∀ e ∈ h.entries, ∀ r ∈ h.recsOf e, ∃ p ∈ v.logs, r ∈ p.2 ∧
    h.stage.pending ≠ some p.1 ∧ ∀ e' ∈ h.entries, p.1 = e'.walID → e' = e

structure Anchored (g : Guard) (v : View) (h : Handle) : Prop where
  consistent : Consistent (v.live h ∪ v.durable)
  seq_lt : ∀ r ∈ v.live h ∪ v.durable, r.seq < h.nextSeq
  /-- A memtable holds what its segment holds. -/
  owner : ∀ e ∈ h.entries, ∀ p ∈ v.logs, p.1 = e.walID → ∀ r ∈ p.2, r ∈ h.recsOf e
  stage : StageSound h
  written_ne : ∀ imm tab, h.stage = .written imm tab → imm.memTable ≠ h.memtable
  pending_lt : ∀ w, h.stage.pending = some w → w < h.wal
  active : ∃ p ∈ v.logs, p.1 = h.wal
  le_wal : ∀ e ∈ h.queue, e.walID ≤ h.wal
  active_ref : ∀ e ∈ h.queue, e.walID = h.wal → e.memTable = h.memtable
  distinct : ¬ g.rotateFail → Distinct v h

/-- The active memtable takes writes, so its table must not be written: asked of every flush
once a rotation may have failed. -/
structure Guard.Anchored (g : Guard) : Prop where
  logOnly : ¬ g.logOnly
  flush : g.rotateFail → ∀ h imm, g.flush h imm → imm.memTable ≠ h.memtable

def Structural (g : Guard) (v : View) : Prop :=
  match v.handle with
  | some h => Anchored g v h
  | none => Consistent v.durable

theorem Structural.running {g : Guard} {v : View} {h : Handle} (hh : v.handle = some h) :
    Structural g v ↔ Anchored g v h := by
  unfold Structural
  rw [hh]

theorem Structural.stopped {g : Guard} {v : View} (hh : v.handle = none) :
    Structural g v ↔ Consistent v.durable := by
  unfold Structural
  rw [hh]

/-- Of the guard only matters whether a rotation may fail. -/
theorem Structural.guard {g g' : Guard} (h : ¬ g'.rotateFail → ¬ g.rotateFail) {v : View}
    (hv : Structural g v) : Structural g' v := by
  unfold Structural at hv ⊢
  split
  · rename_i hh
    rw [hh] at hv
    exact { hv with distinct := fun hg => hv.distinct (h hg) }
  · rename_i hh
    rw [hh] at hv
    exact hv

section Moves

variable {g : Guard} {v : View} {h : Handle} (hv : Anchored g v h)

include hv

theorem Anchored.entry_le {e : ImmutableMemTable} (he : e ∈ h.entries) : e.walID ≤ h.wal := by
  rcases List.mem_append.mp he with he | he
  · exact hv.le_wal e he
  · rw [List.mem_singleton.mp he]

theorem Anchored.entry_active {e : ImmutableMemTable} (he : e ∈ h.entries)
    (hw : e.walID = h.wal) : e.memTable = h.memtable := by
  rcases List.mem_append.mp he with he | he
  · exact hv.active_ref e he hw
  · rw [List.mem_singleton.mp he]

theorem Anchored.pending_ne : h.stage.pending ≠ some h.wal :=
  fun heq => absurd (hv.pending_lt _ heq) (lt_irrefl _)

/-! #### Writing -/

theorem Anchored.mem_live_write {recs : List Record} {n : Nat} (hs : Sequenced h.nextSeq n recs)
    (logs : List (Nat × List Record)) (handle : Option Handle) {r : Record} :
    r ∈ View.live { v with logs, handle } (h.write recs n) ↔ r ∈ v.live h ∨ r ∈ recs := by
  have hmem := Handle.mem_memRecs_write hs (fun r hr => hv.seq_lt r (Or.inl (Or.inl hr))) (r := r)
  unfold View.live
  rw [Set.mem_union, Set.mem_union, hmem]
  exact or_right_comm

theorem Anchored.mem_durable_append (recs : List Record) (handle : Option Handle) {r : Record} :
    r ∈ View.durable { v with logs := appendLog h.wal recs v.logs, handle } ↔
      r ∈ v.durable ∨ r ∈ recs := by
  have hlog := exists_mem_appendLog recs hv.active (P := fun _ => True) trivial (r := r)
  unfold View.durable logRecs
  simp only [Set.mem_union, Set.mem_ofPred_eq]
  simp only [true_and] at hlog
  rw [hlog]
  exact or_right_comm

theorem Anchored.mem_kept_write (recs : List Record) (n : Nat) (handle : Option Handle)
    {r : Record} :
    r ∈ View.kept { v with logs := appendLog h.wal recs v.logs, handle } (h.write recs n) ↔
      r ∈ v.kept h ∨ r ∈ recs := by
  have hlog := exists_mem_appendLog recs hv.active
    (P := fun id => h.stage.pending ≠ some id) hv.pending_ne (r := r)
  unfold View.kept View.keptLogs
  simp only [Set.mem_union, Set.mem_ofPred_eq]
  rw [show (h.write recs n).stage = h.stage from rfl, hlog]
  exact or_right_comm

theorem Anchored.mem_recsOf_write {recs : List Record} {n : Nat} (hs : Sequenced h.nextSeq n recs)
    {e : ImmutableMemTable} (he : e ∈ h.entries) {r : Record} :
    r ∈ (h.write recs n).recsOf e ↔ r ∈ h.recsOf e ∨ e.memTable = h.memtable ∧ r ∈ recs :=
  Handle.mem_recsOf_write_iff hs (fun r hr => hv.seq_lt r (Or.inl (Or.inl hr))) he

theorem Anchored.write {recs : List Record} {n : Nat} (hs : Sequenced h.nextSeq n recs)
    (handle : Option Handle) :
    Anchored g { v with logs := appendLog h.wal recs v.logs, handle } (h.write recs n) := by
  have hmem : ∀ r, r ∈ View.live { v with logs := appendLog h.wal recs v.logs, handle }
      (h.write recs n) ∪ View.durable { v with logs := appendLog h.wal recs v.logs, handle } ↔
      r ∈ v.live h ∪ v.durable ∨ r ∈ recs := by
    intro r
    rw [Set.mem_union, Set.mem_union, hv.mem_live_write hs, hv.mem_durable_append recs]
    exact ⟨fun hr => by tauto, fun hr => by tauto⟩
  refine ⟨?_, ?_, ?_, hv.stage.write hv.written_ne, hv.written_ne, hv.pending_lt, ?_, hv.le_wal,
    hv.active_ref, ?_⟩
  · exact (hs.consistent hv.consistent hv.seq_lt).mono fun r hr => (hmem r).mp hr
  · intro r hr
    exact hs.lt_next ((hmem r).mp hr |>.imp_left (hv.seq_lt r))
  · intro e he q hq hid r hr
    obtain ⟨p, hp, hpid, hq⟩ := mem_appendLog hq
    rw [hv.mem_recsOf_write hs he]
    rcases (hq r).mp hr with hr | ⟨hw, hr⟩
    · exact Or.inl (hv.owner e he p hp (hpid.trans hid) r hr)
    · exact Or.inr ⟨hv.entry_active he (hid.symm.trans (hpid.symm.trans hw)), hr⟩
  · obtain ⟨p, hp, hid⟩ := hv.active
    obtain ⟨q, hq, hqid, -⟩ := appendLog_of_mem recs hp
    exact ⟨q, hq, hqid.trans hid⟩
  · intro hg
    obtain ⟨hrefs, hnodup, howned⟩ := hv.distinct hg
    refine ⟨hrefs, hnodup, fun e he r hr => ?_⟩
    rcases (hv.mem_recsOf_write hs he).mp hr with hr | ⟨hm, hr⟩
    · obtain ⟨p, hp, hr, hpend, hown⟩ := howned e he r hr
      obtain ⟨q, hq, hqid, hmem⟩ := appendLog_of_mem recs hp
      exact ⟨q, hq, (hmem r).mpr (Or.inl hr), hqid ▸ hpend, hqid ▸ hown⟩
    · obtain ⟨p, hp, hid⟩ := hv.active
      obtain ⟨q, hq, hqid, hmem⟩ := appendLog_of_mem recs hp
      refine ⟨q, hq, (hmem r).mpr (Or.inr ⟨hid, hr⟩), ?_, ?_⟩
      · rw [hqid, hid]
        exact hv.pending_ne
      · -- the active segment belongs to the active entry alone
        have hactive : ∀ x ∈ h.entries, x.memTable = h.memtable → x = ⟨h.memtable, h.wal⟩ := by
          intro x hx hxm
          rcases List.mem_append.mp hx with hx | hx
          · exact absurd hxm (hrefs x hx)
          · exact List.mem_singleton.mp hx
        intro e' he' hw
        rw [hqid, hid] at hw
        rw [hactive e he hm, hactive e' he' (hv.entry_active he' hw.symm)]

/-! #### Rotating -/

omit hv in
theorem durable_segment (id : Nat) (handle : Option Handle) :
    View.durable { v with logs := v.logs ++ [(id, [])], handle } = v.durable := by
  apply Set.ext
  intro r
  unfold View.durable logRecs
  simp

omit hv in
theorem kept_segment (id : Nat) (handle : Option Handle) (h h' : Handle)
    (hstage : h'.stage = h.stage) :
    View.kept { v with logs := v.logs ++ [(id, [])], handle } h' = v.kept h := by
  apply Set.ext
  intro r
  unfold View.kept View.keptLogs
  rw [hstage]
  simp

/-- The active segment is older than a new one. -/
theorem Anchored.wal_lt {id : Nat} (hid : ∀ p ∈ v.logs, p.1 < id) : h.wal < id := by
  obtain ⟨p, hp, hw⟩ := hv.active
  exact hw ▸ hid p hp

theorem Anchored.rotate {ref id : Nat} (href : ∀ e ∈ h.entries, e.memTable ≠ ref)
    (hid : ∀ p ∈ v.logs, p.1 < id) (handle : Option Handle) :
    Anchored g { v with logs := v.logs ++ [(id, [])], handle } (h.enqueue.switch ref id) := by
  have hlive := live_rotate (v := v) id href (v.logs ++ [(id, [])]) handle
  have hwal := hv.wal_lt hid
  have hlt : ∀ e ∈ h.entries, e.walID < id := fun e he => lt_of_le_of_lt (hv.entry_le he) hwal
  refine ⟨?_, ?_, ?_, hv.stage.rotate href, ?_, ?_, ?_, ?_, ?_, ?_⟩
  · rw [hlive, durable_segment]
    exact hv.consistent
  · rw [hlive, durable_segment]
    exact hv.seq_lt
  · intro e he p hp hpid r hr
    rw [Handle.entries_rotate, List.mem_append, List.mem_singleton] at he
    rcases List.mem_append.mp hp with hp | hp
    · rcases he with he | rfl
      · rw [Handle.recsOf_rotate_of_mem href he]
        exact hv.owner e he p hp hpid r hr
      · exact absurd hpid (hid p hp).ne
    · rw [List.mem_singleton.mp hp] at hr
      cases hr
  · intro imm tab hstage
    exact href imm (List.mem_append_left _ (hv.stage.written_mem hstage))
  · exact fun w hw => (hv.pending_lt w hw).trans hwal
  · exact ⟨_, List.mem_append_right _ List.mem_cons_self, rfl⟩
  · exact fun e he => (hlt e he).le
  · exact fun e he hw => absurd hw (hlt e he).ne
  · intro hg
    obtain ⟨-, hnodup, howned⟩ := hv.distinct hg
    refine ⟨href, ?_, ?_⟩
    · rw [Handle.entries_rotate, List.nodup_append]
      refine ⟨hnodup, List.nodup_singleton _, fun e he e' he' heq => ?_⟩
      rw [List.mem_singleton] at he'
      exact (hlt e he).ne (congrArg ImmutableMemTable.walID (heq.trans he'))
    · intro e he r hr
      rw [Handle.entries_rotate, List.mem_append, List.mem_singleton] at he
      rcases he with he | rfl
      · rw [Handle.recsOf_rotate_of_mem href he] at hr
        obtain ⟨p, hp, hr, hpend, hown⟩ := howned e he r hr
        refine ⟨p, List.mem_append_left _ hp, hr, hpend, fun e' he' hw => ?_⟩
        rw [Handle.entries_rotate, List.mem_append, List.mem_singleton] at he'
        rcases he' with he' | rfl
        · exact hown e' he' hw
        · exact absurd hw (hid p hp).ne
      · rw [Handle.recsOf_rotate_new] at hr
        cases hr

omit hv in
/-- Queueing the active memtable a second time adds no entry. -/
theorem mem_entries_enqueue {e : ImmutableMemTable} : e ∈ h.enqueue.entries ↔ e ∈ h.entries := by
  show e ∈ h.entries ++ [⟨h.memtable, h.wal⟩] ↔ e ∈ h.entries
  rw [List.mem_append, List.mem_singleton]
  exact or_iff_left_of_imp fun heq => heq ▸ h.active_mem_entries

omit hv in
theorem live_enqueue (logs : List (Nat × List Record)) (handle : Option Handle) :
    View.live { v with logs, handle } h.enqueue = v.live h := by
  apply Set.ext
  intro r
  unfold View.live Handle.memRecs
  simp only [Set.mem_union, Set.mem_ofPred_eq, mem_entries_enqueue]
  rfl

theorem Anchored.rotateFail {logs : List (Nat × List Record)}
    (hlogs : logs = v.logs ∨ ∃ id, (∀ p ∈ v.logs, p.1 < id) ∧ logs = v.logs ++ [(id, [])])
    (hg : g.rotateFail) (handle : Option Handle) :
    Anchored g { v with logs, handle } h.enqueue := by
  have hsub : ∀ p ∈ v.logs, p ∈ logs := by
    rcases hlogs with rfl | ⟨id, -, rfl⟩
    · exact fun p hp => hp
    · exact fun p hp => List.mem_append_left _ hp
  have hmem : ∀ p ∈ logs, p ∈ v.logs ∨ p.2 = [] := by
    rcases hlogs with rfl | ⟨id, -, rfl⟩
    · exact fun p hp => Or.inl hp
    · intro p hp
      rcases List.mem_append.mp hp with hp | hp
      · exact Or.inl hp
      · rw [List.mem_singleton.mp hp]
        exact Or.inr rfl
  have hdurable : View.durable { v with logs, handle } = v.durable := by
    rcases hlogs with rfl | ⟨id, -, rfl⟩
    · rfl
    · exact durable_segment id handle
  refine ⟨?_, ?_, ?_, hv.stage.enqueue, hv.written_ne, hv.pending_lt, ?_, ?_, ?_,
    fun hno => absurd hg hno⟩
  · rw [live_enqueue, hdurable]
    exact hv.consistent
  · rw [live_enqueue, hdurable]
    exact hv.seq_lt
  · intro e he p hp hpid r hr
    rcases hmem p hp with hp | hnil
    · exact hv.owner e (mem_entries_enqueue.mp he) p hp hpid r hr
    · rw [hnil] at hr
      cases hr
  · obtain ⟨p, hp, hw⟩ := hv.active
    exact ⟨p, hsub p hp, hw⟩
  · exact fun e he => hv.entry_le he
  · exact fun e he hw => hv.entry_active he hw

/-! #### Flushing -/

/-- A step of the flush worker that changes neither memtables nor tables nor segments. -/
theorem Anchored.setStage (stage : Stage) (hstage : StageSound { h with stage })
    (hpend : stage.pending = none)
    (hne : ∀ imm tab, stage = .written imm tab → imm.memTable ≠ h.memtable)
    (handle : Option Handle) : Anchored g { v with handle } { h with stage } := by
  refine ⟨hv.consistent, hv.seq_lt, hv.owner, hstage, hne, ?_, hv.active, hv.le_wal,
    hv.active_ref, ?_⟩
  · intro w hw
    rw [show Handle.stage _ = stage from rfl, hpend] at hw
    cases hw
  · intro hg
    obtain ⟨hrefs, hnodup, howned⟩ := hv.distinct hg
    refine ⟨hrefs, hnodup, fun e he r hr => ?_⟩
    obtain ⟨p, hp, hr, -, hown⟩ := howned e he r hr
    refine ⟨p, hp, hr, ?_, hown⟩
    rw [show Handle.stage _ = stage from rfl, hpend]
    exact Option.some_ne_none _ ∘ Eq.symm

theorem Anchored.setReaders (readers : List UInt64) (handle : Option Handle) :
    Anchored g { v with handle } { h with readers } :=
  ⟨hv.consistent, hv.seq_lt, hv.owner, hv.stage, hv.written_ne, hv.pending_lt, hv.active,
    hv.le_wal, hv.active_ref, fun hg =>
      ⟨(hv.distinct hg).refs, (hv.distinct hg).nodup, (hv.distinct hg).owned⟩⟩

section Publish

variable {imm : ImmutableMemTable} {tab : Tab} {qs : List ImmutableMemTable}
  (hstage : h.stage = .written imm tab) (hq : h.queue = imm :: qs)

include hstage

theorem Anchored.written_recs : tab.recs = h.recsOf imm := by
  have hsound := hv.stage
  unfold StageSound at hsound
  rw [hstage] at hsound
  exact hsound.2.1

include hq

omit hv hstage in
theorem entries_publish (stage : Stage) :
    h.entries = imm :: ({ h with queue := qs, stage } : Handle).entries := by
  unfold Handle.entries
  rw [hq, List.cons_append]

theorem Anchored.tab_sub : recordsOf tab.recs ⊆ v.live h := by
  intro r hr
  refine mem_live_of_entry (e := imm) (List.mem_append_left _ (hq ▸ List.mem_cons_self)) ?_
  rw [← hv.written_recs hstage]
  exact hr

omit hv hstage hq in
theorem durable_publish (handle : Option Handle) :
    View.durable { v with tabs := v.tabs ++ [tab], handle } = v.durable ∪ recordsOf tab.recs := by
  apply Set.ext
  intro r
  unfold View.durable
  simp only [Set.mem_union, mem_tabRecs_append, or_assoc]
  rfl

theorem Anchored.publish (handle : Option Handle) :
    Anchored g { v with tabs := v.tabs ++ [tab], handle }
      { h with queue := qs, stage := .removing imm.walID } := by
  have hrecs := hv.written_recs hstage
  have hentries := entries_publish hq (.removing imm.walID)
  have hmem : ∀ e ∈ ({ h with queue := qs, stage := .removing imm.walID } : Handle).entries,
      e ∈ h.entries := fun e he => hentries ▸ List.mem_cons_of_mem _ he
  have hqmem : ∀ e ∈ qs, e ∈ h.queue := fun e he => hq ▸ List.mem_cons_of_mem _ he
  have himm : imm ∈ h.queue := hq ▸ List.mem_cons_self
  have hsub : View.live { v with tabs := v.tabs ++ [tab], handle }
      { h with queue := qs, stage := .removing imm.walID } ∪
        View.durable { v with tabs := v.tabs ++ [tab], handle } ⊆ v.live h ∪ v.durable := by
    rw [live_publish hq hrecs, durable_publish]
    refine Set.union_subset Set.subset_union_left (Set.union_subset Set.subset_union_right ?_)
    exact (hv.tab_sub hstage hq).trans Set.subset_union_left
  refine ⟨hv.consistent.mono hsub, fun r hr => hv.seq_lt r (hsub hr), ?_, trivial, ?_, ?_,
    hv.active, fun e he => hv.le_wal e (hqmem e he), fun e he => hv.active_ref e (hqmem e he), ?_⟩
  · exact fun e he => hv.owner e (hmem e he)
  · exact fun _ _ hno => by cases hno
  · intro w hw
    obtain rfl := Option.some.inj hw
    refine lt_of_le_of_ne (hv.le_wal imm himm) fun heq => ?_
    exact hv.written_ne imm tab hstage (hv.active_ref imm himm heq)
  · intro hg
    obtain ⟨hrefs, hnodup, howned⟩ := hv.distinct hg
    rw [hentries, List.nodup_cons] at hnodup
    refine ⟨fun e he => hrefs e (hqmem e he), hnodup.2, fun e he r hr => ?_⟩
    obtain ⟨p, hp, hr, -, hown⟩ := howned e (hmem e he) r hr
    refine ⟨p, hp, hr, fun hpend => ?_, fun e' he' => hown e' (hmem e' he')⟩
    have heq := hown imm (List.mem_append_left _ himm) (Option.some.inj hpend).symm
    exact hnodup.1 (heq ▸ he)

end Publish

theorem Anchored.removeSegment {id : Nat} (hstage : h.stage = .removing id)
    (handle : Option Handle) :
    Anchored g { v with logs := removeLog id v.logs, handle } { h with stage := .idle } := by
  have hmem : ∀ p ∈ removeLog id v.logs, p ∈ v.logs := fun p hp => (mem_removeLog.mp hp).1
  have hsub : View.live { v with logs := removeLog id v.logs, handle } { h with stage := .idle } ∪
      View.durable { v with logs := removeLog id v.logs, handle } ⊆ v.live h ∪ v.durable := by
    refine Set.union_subset_union (Set.Subset.refl _) (Set.union_subset_union_left _ ?_)
    intro r hr
    obtain ⟨p, hp, hr⟩ := hr
    exact ⟨p, hmem p hp, hr⟩
  refine ⟨hv.consistent.mono hsub, fun r hr => hv.seq_lt r (hsub hr),
    fun e he p hp => hv.owner e he p (hmem p hp), trivial, ?_, ?_, ?_, hv.le_wal,
    hv.active_ref, ?_⟩
  · exact fun _ _ hno => by cases hno
  · exact fun _ hno => by cases hno
  · obtain ⟨p, hp, hw⟩ := hv.active
    refine ⟨p, mem_removeLog.mpr ⟨hp, fun heq => ?_⟩, hw⟩
    exact hv.pending_ne (by rw [hstage, ← hw, heq]; rfl)
  · intro hg
    obtain ⟨hrefs, hnodup, howned⟩ := hv.distinct hg
    refine ⟨hrefs, hnodup, fun e he r hr => ?_⟩
    obtain ⟨p, hp, hr, hpend, hown⟩ := howned e he r hr
    rw [hstage] at hpend
    have hne : p.1 ≠ id := fun heq => hpend (congrArg some heq.symm)
    exact ⟨p, mem_removeLog.mpr ⟨hp, hne⟩, hr, Option.some_ne_none _ ∘ Eq.symm, hown⟩

theorem Anchored.compact {tabs inputs : List Tab} {options : MergeOptions} {out : Tab}
    (hc : Compacts h.readers v.tabs tabs inputs options out) : Anchored g { v with tabs } h := by
  have hsub : View.live { v with tabs } h ∪ View.durable { v with tabs } ⊆
      v.live h ∪ v.durable :=
    Set.union_subset_union (Set.union_subset_union_right _ hc.tabRecs_sub)
      (Set.union_subset_union_right _ hc.tabRecs_sub)
  exact ⟨hv.consistent.mono hsub, fun r hr => hv.seq_lt r (hsub hr), hv.owner, hv.stage,
    hv.written_ne, hv.pending_lt, hv.active, hv.le_wal, hv.active_ref, fun hg =>
      ⟨(hv.distinct hg).refs, (hv.distinct hg).nodup, (hv.distinct hg).owned⟩⟩

end Moves

/-! ### Opening -/

section Opening

variable {g : Guard} {v : View} {h : Handle} {logs : List (Nat × List Record)} {id : Nat}
  (hv : Consistent v.durable)
  (hlogs : (logs = v.logs ∧ ∃ p ∈ v.logs, p.1 = id) ∨
    logs = v.logs ++ [(id, [])] ∧ (∀ p ∈ v.logs, p.1 < id) ∧ (g.rotateFail ∨ v.logs = []))
  (hmem : h.heap h.memtable = replayed v.logs) (hqueue : h.queue = []) (hwal : h.wal = id)
  (hstage : h.stage = .idle) (hseq : ∀ r ∈ v.durable, r.seq < h.nextSeq)

include hv

/-- With consistent versions a replay keeps every record. -/
theorem mem_replayed_iff {r : Record} : r ∈ (replayed v.logs).records ↔ r ∈ logRecs v.logs := by
  have hc : Consistent (recordsOf MemTable.new.records ∪
      recordsOf (v.logs.flatMap Prod.snd)) := by
    refine hv.mono fun r hr => ?_
    rcases hr with hr | hr
    · cases hr
    · obtain ⟨p, hp, hr⟩ := List.mem_flatMap.mp hr
      exact Or.inl ⟨p, hp, hr⟩
  unfold replayed
  rw [MemTable.mem_putAll_of_consistent hc, List.mem_flatMap]
  exact or_iff_right (by simp [MemTable.new])

omit hv in
include hqueue in
theorem entries_open : h.entries = [⟨h.memtable, h.wal⟩] := by
  unfold Handle.entries
  rw [hqueue, List.nil_append]

include hmem hqueue in
/-- A fresh process reads what is durable. -/
theorem live_open (logs : List (Nat × List Record)) (handle : Option Handle) :
    View.live { v with logs, handle } h = v.durable := by
  apply Set.ext
  intro r
  unfold View.live View.durable Handle.memRecs
  rw [entries_open hqueue]
  simp only [Set.mem_union, Set.mem_ofPred_eq, List.mem_singleton, exists_eq_left]
  unfold Handle.recsOf
  rw [hmem, mem_replayed_iff hv]

omit hv in
include hlogs in
theorem durable_open (handle : Option Handle) :
    View.durable { v with logs, handle } = v.durable := by
  rcases hlogs with ⟨rfl, -⟩ | ⟨rfl, -⟩
  · rfl
  · exact durable_segment id handle

include hlogs hmem hqueue hwal hstage hseq in
theorem Anchored.open (handle : Option Handle) : Anchored g { v with logs, handle } h := by
  have hentries := entries_open hqueue
  have hlogged : ∀ p ∈ logs, ∀ r ∈ p.2, r ∈ logRecs v.logs := by
    intro p hp r hr
    rcases hlogs with ⟨rfl, -⟩ | ⟨rfl, -⟩
    · exact ⟨p, hp, hr⟩
    · rcases List.mem_append.mp hp with hp | hp
      · exact ⟨p, hp, hr⟩
      · rw [List.mem_singleton.mp hp] at hr
        cases hr
  have hsub : ∀ p ∈ v.logs, p ∈ logs := by
    rcases hlogs with ⟨rfl, -⟩ | ⟨rfl, -⟩
    · exact fun p hp => hp
    · exact fun p hp => List.mem_append_left _ hp
  refine ⟨?_, ?_, ?_, ?_, ?_, ?_, ?_, ?_, ?_, ?_⟩
  · rw [live_open hv hmem hqueue, durable_open hlogs, Set.union_self]
    exact hv
  · rw [live_open hv hmem hqueue, durable_open hlogs, Set.union_self]
    exact hseq
  · intro e he p hp _ r hr
    rw [hentries, List.mem_singleton] at he
    subst he
    show r ∈ (h.heap h.memtable).records
    rw [hmem, mem_replayed_iff hv]
    exact hlogged p hp r hr
  · unfold StageSound
    rw [hstage]
    trivial
  · exact fun imm tab heq => by simp [hstage] at heq
  · exact fun w hw => by simp [hstage, Stage.pending] at hw
  · rcases hlogs with ⟨rfl, p, hp, hid⟩ | ⟨rfl, -⟩
    · exact ⟨p, hp, hid.trans hwal.symm⟩
    · exact ⟨_, List.mem_append_right _ List.mem_cons_self, hwal.symm⟩
  · exact fun e he => by simp [hqueue] at he
  · exact fun e he => by simp [hqueue] at he
  · intro _
    refine ⟨fun e he => by simp [hqueue] at he, by simp [hentries], fun e he r hr => ?_⟩
    rw [hentries, List.mem_singleton] at he
    subst he
    have hr' : r ∈ (replayed v.logs).records := hmem ▸ hr
    obtain ⟨p, hp, hr'⟩ := (mem_replayed_iff hv).mp hr'
    refine ⟨p, hsub p hp, hr', by simp [hstage, Stage.pending], fun e' he' _ => ?_⟩
    rw [hentries, List.mem_singleton] at he'
    exact he'

end Opening

/-! ### Every move -/

/-- What holds while the process runs holds of what it leaves behind. -/
theorem Structural.durable {g : Guard} {v : View} (hv : Structural g v) :
    Consistent v.durable := by
  cases hh : v.handle with
  | none => exact (Structural.stopped hh).mp hv
  | some h => exact ((Structural.running hh).mp hv).consistent.mono Set.subset_union_right

theorem Structural.move {g : Guard} (hg : g.Anchored) {s s' : View × Ledger} (hm : Move g s s')
    (hs : Structural g s.1) : Structural g s'.1 := by
  cases hm with
  | forget _ => exact hs
  | @write v l h recs n hh hseq _ => exact ((Structural.running hh).mp hs).write hseq _
  | logOnly _ _ _ hlo => exact absurd hlo hg.logOnly
  | @crashLogged v l l' h recs n hh hseq _ _ =>
      have hv := (Structural.running hh).mp hs
      have hc := hseq.consistent hs.durable fun r hr => hv.seq_lt r (Or.inr hr)
      exact (Structural.stopped rfl).mpr
        (hc.mono fun r hr => (hv.mem_durable_append recs none).mp hr)
  | @rotate v l h ref id hh hid href => exact ((Structural.running hh).mp hs).rotate href hid _
  | @rotateFail v l h logs hh hlogs hr =>
      exact ((Structural.running hh).mp hs).rotateFail hlogs hr _
  | @segment v l id hh hid _ =>
      refine (Structural.stopped (by exact hh)).mpr ?_
      rw [durable_segment]
      exact hs.durable
  | @reserve v l h imm qs hh hstage hq =>
      exact ((Structural.running hh).mp hs).setStage (.reserved imm) ⟨qs, hq⟩ rfl
        (fun _ _ hno => by cases hno) _
  | @writeTable v l h imm tab hh hstage hrecs hlevel hflush =>
      have hv := (Structural.running hh).mp hs
      have hsound := hv.stage
      unfold StageSound at hsound
      rw [hstage] at hsound
      refine hv.setStage (.written imm tab) ⟨hsound, hrecs, hlevel⟩ rfl ?_ _
      intro imm' tab' heq
      obtain ⟨rfl, rfl⟩ := Stage.written.inj heq
      by_cases hr : g.rotateFail
      · exact hg.flush hr h imm hflush
      · obtain ⟨qs, hq⟩ := hsound
        exact (hv.distinct hr).refs imm (hq ▸ List.mem_cons_self)
  | @publish v l h imm tab qs hh hstage hq _ =>
      exact ((Structural.running hh).mp hs).publish hstage hq _
  | @removeSegment v l h id hh hstage =>
      exact ((Structural.running hh).mp hs).removeSegment hstage _
  | @compact v l h tabs inputs options out hh hc _ =>
      exact (Structural.running (by exact hh)).mpr (((Structural.running hh).mp hs).compact hc)
  | @readers v l h readers hh => exact ((Structural.running hh).mp hs).setReaders _ _
  | crash _ => exact hs.durable
  | close _ _ _ => exact hs.durable
  | @openAt v l h logs id hh hid hlogs hmem hqueue hwal hstage hseq =>
      exact Anchored.open hs.durable hlogs hmem hqueue hwal hstage hseq _

end HyphaDB.Store
