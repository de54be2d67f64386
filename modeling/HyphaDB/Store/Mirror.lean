import HyphaDB.Store.Restart

/-!
# HyphaDB.Store.Mirror

**Segments and memtables hold the same.** In a run without crashes, failed writes and compactions a
segment holds the records of its memtable and no others, and a segment that is about to be removed
holds nothing that is not in a table. So the directory alone holds what the process reads
(`Mirrors.durable_eq`), and a part of a segment that is lost takes away nothing but the newest
records of its memtable.
-/

namespace HyphaDB.Store

/-- What the segments of a process hold. -/
structure Mirrored (v : View) (h : Handle) : Prop where
  entries : ∀ e ∈ h.entries, ∀ p ∈ v.logs, p.1 = e.walID → ∀ r ∈ p.2, r ∈ h.recsOf e
  pending : ∀ p ∈ v.logs, h.stage.pending = some p.1 → ∀ r ∈ p.2, r ∈ tabRecs v.tabs

/-- The same without a process: no version is there twice. -/
def Mirrors (v : View) : Prop :=
  match v.handle with
  | some h => Mirrored v h
  | none => Consistent (logRecs v.logs)

theorem Mirrors.running {v : View} {h : Handle} (hh : v.handle = some h) :
    Mirrors v ↔ Mirrored v h := by
  unfold Mirrors
  rw [hh]

theorem Mirrors.stopped {v : View} (hh : v.handle = none) :
    Mirrors v ↔ Consistent (logRecs v.logs) := by
  unfold Mirrors
  rw [hh]

section Moves

variable {g : Guard} {v : View} {h : Handle} {l : Ledger} (hlog : LogSound g v h l)

include hlog

/-- A segment belongs to one memtable. -/
theorem LogSound.entry_of_wal {e : ImmutableMemTable} (he : e ∈ h.entries) (hw : e.walID = h.wal) :
    e.memTable = h.memtable := by
  have hids : (h.entries.map ImmutableMemTable.walID).Nodup := by
    have hsorted : (v.logs.map Prod.fst).Pairwise (· < ·) := List.pairwise_map.mpr hlog.sorted
    rw [hlog.ids] at hsorted
    exact (List.pairwise_append.mp hsorted).2.1.imp fun hlt => hlt.ne
  rw [List.inj_on_of_nodup_map hids he h.active_mem_entries hw]

theorem LogSound.pending_ne_wal : h.stage.pending ≠ some h.wal := by
  intro hpend
  have hids : (v.logs.map Prod.fst).Pairwise (· < ·) := List.pairwise_map.mpr hlog.sorted
  rw [hlog.ids, hpend, Option.toList_some, List.singleton_append, List.pairwise_cons] at hids
  exact lt_irrefl _ (hids.1 h.wal (List.mem_map.mpr ⟨_, h.active_mem_entries, rfl⟩))

variable (hm : Mirrored v h)

include hm

/-- The directory holds what the process reads. -/
theorem Mirrored.durable_eq : v.durable = v.live h := by
  apply Set.ext
  intro r
  constructor
  · rintro (⟨p, hp, hr⟩ | hr)
    · have hid : p.1 ∈ v.logs.map Prod.fst := List.mem_map_of_mem hp
      rw [hlog.ids, List.mem_append] at hid
      rcases hid with hid | hid
      · exact Or.inr (hm.pending p hp (Option.mem_toList.mp hid) r hr)
      · obtain ⟨e, he, heq⟩ := List.mem_map.mp hid
        exact Or.inl ⟨e, he, hm.entries e he p hp heq.symm r hr⟩
    · exact Or.inr hr
  · rintro (⟨e, he, hr⟩ | hr)
    · obtain ⟨p, hp, -, hr⟩ := hlog.logged e he r hr
      exact Or.inl ⟨p, hp, hr⟩
    · exact Or.inr hr

theorem Mirrored.write (hlive : LiveSound v h l) {recs : List Record} {n : Nat}
    (hs : Sequenced h.nextSeq n recs) (handle : Option Handle) :
    Mirrored { v with logs := appendLog h.wal recs v.logs, handle } (h.write recs n) := by
  have hlt : ∀ r ∈ h.memRecs, r.seq < h.nextSeq := fun r hr => hlive.seq_lt r (Or.inl hr)
  refine ⟨fun e he q hq hid r hr => ?_, fun q hq hpend r hr => ?_⟩
  · rw [Handle.mem_recsOf_write_iff hs hlt he]
    obtain ⟨p, hp, rfl⟩ := List.mem_map.mp hq
    by_cases hw : p.1 = h.wal
    · rw [if_pos hw] at hid hr
      rcases List.mem_append.mp hr with hr | hr
      · exact Or.inl (hm.entries e he p hp hid r hr)
      · exact Or.inr ⟨hlog.entry_of_wal he (hid.symm.trans hw), hr⟩
    · rw [if_neg hw] at hid hr
      exact Or.inl (hm.entries e he p hp hid r hr)
  · obtain ⟨p, hp, rfl⟩ := List.mem_map.mp hq
    by_cases hw : p.1 = h.wal
    · rw [if_pos hw] at hpend
      exact absurd (hpend.trans (congrArg some hw)) hlog.pending_ne_wal
    · rw [if_neg hw] at hpend hr
      exact hm.pending p hp hpend r hr

omit hlog in
theorem Mirrored.rotate {ref id : Nat} (hid : ∀ p ∈ v.logs, p.1 < id)
    (href : ∀ e ∈ h.entries, e.memTable ≠ ref) (handle : Option Handle) :
    Mirrored { v with logs := v.logs ++ [(id, [])], handle } (h.enqueue.switch ref id) := by
  refine ⟨fun e he p hp hpid r hr => ?_, fun p hp hpend r hr => ?_⟩
  · rcases List.mem_append.mp hp with hp | hp
    · rw [Handle.entries_rotate, List.mem_append, List.mem_singleton] at he
      rcases he with he | rfl
      · rw [Handle.recsOf_rotate_of_mem href he]
        exact hm.entries e he p hp hpid r hr
      · exact absurd hpid (hid p hp).ne
    · rw [List.mem_singleton.mp hp] at hr
      cases hr
  · rcases List.mem_append.mp hp with hp | hp
    · exact hm.pending p hp hpend r hr
    · rw [List.mem_singleton.mp hp] at hr
      cases hr

omit hlog in
theorem Mirrored.publish {imm : ImmutableMemTable} {tab : Tab} {qs : List ImmutableMemTable}
    (hrecs : tab.recs = h.recsOf imm) (hq : h.queue = imm :: qs) (handle : Option Handle) :
    Mirrored { v with tabs := v.tabs ++ [tab], handle }
      { h with queue := qs, stage := .removing imm.walID } := by
  have hentries : h.entries =
      imm :: ({ h with queue := qs, stage := .removing imm.walID } : Handle).entries := by
    unfold Handle.entries
    rw [hq, List.cons_append]
  refine ⟨fun e he => hm.entries e (hentries ▸ List.mem_cons_of_mem _ he),
    fun p hp hpend r hr => mem_tabRecs_append.mpr (Or.inr ?_)⟩
  rw [hrecs]
  exact hm.entries imm (hentries ▸ List.mem_cons_self) p hp (Option.some.inj hpend).symm r hr

end Moves

/-! ### Every move -/

/-- The conditions under which segments mirror memtables. -/
structure Guard.Mirrors (g : Guard) : Prop where
  crashFree : g.CrashFree
  logOnly : ¬ g.logOnly
  compact : ∀ v inputs options, ¬ g.compact v inputs options

theorem Mirrors.move {g : Guard} (hg : g.Mirrors) {s s' : View × Ledger} (hmove : Move g s s')
    (hs : CrashFree g s) (hm : Mirrors s.1) : Mirrors s'.1 := by
  cases hmove with
  | forget hl => exact hm
  | @write v l h recs n hh hseq hw =>
      obtain ⟨hlive, hlog⟩ := (CrashFree.running hh).mp hs
      exact ((Mirrors.running hh).mp hm).write hlog hlive hseq _
  | logOnly _ _ _ hlo => exact absurd hlo hg.logOnly
  | crashLogged _ _ _ hc => exact absurd hc hg.crashFree.crash
  | @rotate v l h ref id hh hid href => exact ((Mirrors.running hh).mp hm).rotate hid href _
  | rotateFail _ _ hr => exact absurd hr hg.crashFree.rotateFail
  | segment _ _ hc => exact (hc.elim hg.crashFree.crash hg.crashFree.rotateFail).elim
  | @reserve v l h imm qs hh hstage hq =>
      exact ⟨((Mirrors.running hh).mp hm).entries, fun p hp hpend => by cases hpend⟩
  | @writeTable v l h imm tab hh hstage hrecs hlevel _ =>
      exact ⟨((Mirrors.running hh).mp hm).entries, fun p hp hpend => by cases hpend⟩
  | @publish v l h imm tab qs hh hstage hq _ =>
      obtain ⟨hlive, -⟩ := (CrashFree.running hh).mp hs
      have hsound := hlive.stage
      unfold StageSound at hsound
      rw [hstage] at hsound
      exact ((Mirrors.running hh).mp hm).publish hsound.2.1 hq _
  | @removeSegment v l h id hh hstage =>
      have hv := (Mirrors.running hh).mp hm
      refine ⟨fun e he p hp => hv.entries e he p (List.mem_filter.mp hp).1,
        fun p hp hpend => by cases hpend⟩
  | @compact v l h tabs inputs options out hh hc hno => exact absurd hno (hg.compact _ _ _)
  | @readers v l h readers hh =>
      have hv := (Mirrors.running hh).mp hm
      exact ⟨hv.entries, hv.pending⟩
  | crash hc => exact absurd hc hg.crashFree.crash
  | @close v l h hh hq hstage =>
      obtain ⟨hlive, hlog⟩ := (CrashFree.running hh).mp hs
      have hdurable := ((Mirrors.running hh).mp hm).durable_eq hlog
      exact hlive.consistent.mono (hdurable ▸ Set.subset_union_left)
  | @openAt v l h logs id hh hid hlogs hmem hqueue hwal hstage hseq =>
      have hc : Consistent (logRecs v.logs) := (Mirrors.stopped hh).mp hm
      refine ⟨fun e he p hp hpid r hr => ?_, fun p hp hpend => ?_⟩
      · -- the one memtable holds everything that was replayed
        have hr' : r ∈ logRecs v.logs := by
          rcases hlogs with ⟨rfl, -⟩ | ⟨rfl, -⟩
          · exact ⟨p, hp, hr⟩
          · rcases List.mem_append.mp hp with hp | hp
            · exact ⟨p, hp, hr⟩
            · rw [List.mem_singleton.mp hp] at hr
              cases hr
        have hmemtable : e.memTable = h.memtable := by
          unfold Handle.entries at he
          rw [hqueue, List.nil_append] at he
          rw [List.mem_singleton.mp he]
        unfold Handle.recsOf
        rw [hmemtable, hmem]
        refine (MemTable.mem_putAll_of_consistent (hc.mono ?_)).mpr (Or.inr (mem_flatten.mpr hr'))
        rintro x (hx | hx)
        · cases hx
        · exact mem_flatten.mp hx
      · rw [show h.stage = .idle from hstage] at hpend
        cases hpend

/-- Both invariants along any number of moves. -/
theorem Mirrors.moves {g : Guard} (hg : g.Mirrors) {s s' : View × Ledger} (hmoves : Moves g s s')
    (hs : CrashFree g s) (hm : Mirrors s.1) : CrashFree g s' ∧ Mirrors s'.1 := by
  induction hmoves with
  | refl => exact ⟨hs, hm⟩
  | tail _ hmove ih => exact ⟨ih.1.move hg.crashFree hmove, Mirrors.move hg hmove ih.1 ih.2⟩

end HyphaDB.Store
