import HyphaDB.Store.Restart

/-!
# HyphaDB.Store.Remembered

**What the store remembers of its sequence counter.** The counter itself is nowhere on disk: a
process that opens the directory starts behind the largest sequence number it finds. So a number
is remembered as long as some record has it or a larger one, in the memtables and tables while a
process runs and in the segments and tables after it was closed. Every move keeps a remembered
number except a compaction, which may drop the only tombstone that has it.
-/

namespace HyphaDB.Store

open Compaction

/-- Some record has the sequence number `top` or a larger one. -/
def Attains (top : Nat) (recs : Set Record) : Prop := ∃ r ∈ recs, top ≤ r.seq.toNat

/-- The records that count: those a process has, or those on disk. -/
def Remembers (top : Nat) (v : View) : Prop :=
  match v.handle with
  | some h => Attains top (v.live h)
  | none => Attains top v.durable

/-- The compactions that keep `top`. -/
def KeepsTop (top : Nat) (inputs : List Tab) (options : MergeOptions) : Prop :=
  Attains top (tabRecs inputs) →
    Attains top (recordsOf (mergeRecords options (inputs.map Tab.recs)))

theorem remembers_running {top : Nat} {v : View} {h : Handle} (hh : v.handle = some h) :
    Remembers top v ↔ Attains top (v.live h) := by
  unfold Remembers
  rw [hh]

theorem remembers_stopped {top : Nat} {v : View} (hh : v.handle = none) :
    Remembers top v ↔ Attains top v.durable := by
  unfold Remembers
  rw [hh]

section Moves

variable {top : Nat} {v : View} {h : Handle} {l : Ledger}

/-- A handle whose memtables hold at least as much. -/
theorem Attains.live_mono {v' : View} {h' : Handle} (hr : Attains top (v.live h))
    (hmems : ∀ e ∈ h.entries, ∀ r ∈ h.recsOf e, ∃ x ∈ v'.live h', x.seq = r.seq)
    (htabs : ∀ r ∈ tabRecs v.tabs, ∃ x ∈ v'.live h', x.seq = r.seq) :
    Attains top (v'.live h') := by
  obtain ⟨r, hr, hle⟩ := hr
  have hx : ∃ x ∈ v'.live h', x.seq = r.seq := by
    rcases hr with ⟨e, he, hr⟩ | hr
    · exact hmems e he r hr
    · exact htabs r hr
  obtain ⟨x, hx, hseq⟩ := hx
  exact ⟨x, hx, hseq ▸ hle⟩

theorem Attains.write (hr : Attains top (v.live h)) (recs : List Record) (n : Nat)
    (logs : List (Nat × List Record)) (handle : Option Handle) :
    Attains top (View.live { v with logs, handle } (h.write recs n)) := by
  refine hr.live_mono (fun e he r hr => ?_) fun r hr => ⟨r, Or.inr hr, rfl⟩
  by_cases hm : e.memTable = h.memtable
  · obtain ⟨x, hx, hseq⟩ : ∃ x ∈ ((h.heap e.memTable).putAll recs).records, x.seq = r.seq :=
      MemTable.exists_seq_putAll (Or.inl hr)
    refine ⟨x, Or.inl ⟨e, he, ?_⟩, hseq⟩
    show x ∈ (Function.update h.heap h.memtable
      ((h.heap h.memtable).putAll recs) e.memTable).records
    rw [hm, Function.update_self]
    rwa [hm] at hx
  · refine ⟨r, Or.inl ⟨e, he, ?_⟩, rfl⟩
    rwa [Handle.recsOf_write_of_ne hm]

theorem Attains.rotate (hr : Attains top (v.live h)) {ref id : Nat}
    (href : ∀ e ∈ h.entries, e.memTable ≠ ref) (logs : List (Nat × List Record))
    (handle : Option Handle) :
    Attains top (View.live { v with logs, handle } (h.enqueue.switch ref id)) := by
  refine hr.live_mono (fun e he r hr => ?_) fun r hr => ⟨r, Or.inr hr, rfl⟩
  refine ⟨r, Or.inl ⟨e, ?_, ?_⟩, rfl⟩
  · rw [Handle.entries_rotate]
    exact List.mem_append_left _ he
  · rwa [Handle.recsOf_rotate_of_mem href he]

/-- The published table holds what the memtable held. -/
theorem Attains.publish (hr : Attains top (v.live h)) (hlive : LiveSound v h l)
    {imm : ImmutableMemTable} {tab : Tab} {qs : List ImmutableMemTable}
    (hstage : h.stage = .written imm tab) (hq : h.queue = imm :: qs) (stage : Stage)
    (handle : Option Handle) :
    Attains top (View.live { v with tabs := v.tabs ++ [tab], handle }
      { h with queue := qs, stage }) := by
  have htab : tab.recs = h.recsOf imm := by
    have hs := hlive.stage
    unfold StageSound at hs
    rw [hstage] at hs
    exact hs.2.1
  refine hr.live_mono (fun e he r hr => ?_) fun r hr =>
    ⟨r, Or.inr (mem_tabRecs_append.mpr (Or.inl hr)), rfl⟩
  unfold Handle.entries at he
  rw [hq, List.cons_append] at he
  rcases List.mem_cons.mp he with rfl | he
  · exact ⟨r, Or.inr (mem_tabRecs_append.mpr (Or.inr (htab ▸ hr))), rfl⟩
  · exact ⟨r, Or.inl ⟨e, he, hr⟩, rfl⟩

theorem Attains.compact {tabs inputs : List Tab} {options : MergeOptions} {out : Tab}
    (hr : Attains top (v.live h)) (hc : Compacts h.readers v.tabs tabs inputs options out)
    (hkeeps : KeepsTop top inputs options) : Attains top (View.live { v with tabs } h) := by
  obtain ⟨r, hr, hle⟩ := hr
  rcases hr with hr | ⟨t, ht, hr⟩
  · exact ⟨r, Or.inl hr, hle⟩
  · by_cases hin : t ∈ inputs
    · obtain ⟨x, hx, hle'⟩ := hkeeps ⟨r, ⟨t, hin, hr⟩, hle⟩
      exact ⟨x, Or.inr ⟨out, (hc.mem_iff out).mpr (Or.inl rfl), hc.recs ▸ hx⟩, hle'⟩
    · exact ⟨r, Or.inr ⟨t, (hc.mem_iff t).mpr (Or.inr ⟨ht, hin⟩), hr⟩, hle⟩

/-- What the memtables of a process held is in its segments. -/
theorem Attains.close {g : Guard} (hr : Attains top (v.live h)) (hlog : LogSound g v h l) :
    Attains top v.durable := by
  obtain ⟨r, hr, hle⟩ := hr
  rcases hr with ⟨e, he, hr⟩ | hr
  · obtain ⟨p, hp, -, hr⟩ := hlog.logged e he r hr
    exact ⟨r, Or.inl ⟨p, hp, hr⟩, hle⟩
  · exact ⟨r, Or.inr hr, hle⟩

/-- A replay finds what the segments hold. -/
theorem Attains.openAt (hr : Attains top v.durable) (hmem : h.heap h.memtable = replayed v.logs)
    (logs : List (Nat × List Record)) (handle : Option Handle) :
    Attains top (View.live { v with logs, handle } h) := by
  obtain ⟨r, hr, hle⟩ := hr
  rcases hr with ⟨p, hp, hr⟩ | hr
  · have hflat : r ∈ v.logs.flatMap Prod.snd := List.mem_flatMap.mpr ⟨p, hp, hr⟩
    obtain ⟨x, hx, hseq⟩ : ∃ x ∈ (replayed v.logs).records, x.seq = r.seq :=
      MemTable.exists_seq_putAll (Or.inr hflat)
    refine ⟨x, Or.inl ⟨⟨h.memtable, h.wal⟩, List.mem_append_right _ List.mem_cons_self, ?_⟩,
      hseq ▸ hle⟩
    show x ∈ (h.heap h.memtable).records
    rw [hmem]
    exact hx
  · exact ⟨r, Or.inr hr, hle⟩

end Moves

/-- No crash, no failed rotation, nothing left in the log only, and compactions keep `top`. -/
structure Guard.Remembering (g : Guard) (top : Nat) : Prop where
  crash : ¬ g.crash
  rotateFail : ¬ g.rotateFail
  logOnly : ¬ g.logOnly
  compact : ∀ v inputs options, g.compact v inputs options → KeepsTop top inputs options

theorem Remembers.move {g : Guard} {top : Nat} (hg : g.Remembering top) {s s' : View × Ledger}
    (hm : Move g s s') (hs : CrashFree g s) (hr : Remembers top s.1) : Remembers top s'.1 := by
  cases hm with
  | forget hl => exact hr
  | write hh hseq hw => exact ((remembers_running hh).mp hr).write _ _ _ _
  | logOnly hh hseq hl hlo => exact absurd hlo hg.logOnly
  | crashLogged hh hseq hl hcrash => exact absurd hcrash hg.crash
  | rotate hh hid href => exact ((remembers_running hh).mp hr).rotate href _ _
  | rotateFail hh hlogs hfail => exact absurd hfail hg.rotateFail
  | segment hh hid hfault => exact absurd hfault (not_or.mpr ⟨hg.crash, hg.rotateFail⟩)
  | reserve hh hstage hq => exact (remembers_running hh).mp hr
  | writeTable hh hstage hrecs hlevel hflush => exact (remembers_running hh).mp hr
  | publish hh hstage hq hfresh =>
      exact ((remembers_running hh).mp hr).publish ((CrashFree.running hh).mp hs).1 hstage hq _ _
  | removeSegment hh hstage => exact (remembers_running hh).mp hr
  | @compact v l h tabs inputs options out hh hc hcompact =>
      refine (remembers_running (v := { v with tabs }) hh).mpr ?_
      exact ((remembers_running hh).mp hr).compact hc (hg.compact _ _ _ hcompact)
  | readers hh => exact (remembers_running hh).mp hr
  | crash hcrash => exact absurd hcrash hg.crash
  | close hh hq hstage =>
      exact ((remembers_running hh).mp hr).close ((CrashFree.running hh).mp hs).2
  | openAt hh hid hlogs hmem hqueue hwal hstage hseq =>
      exact ((remembers_stopped hh).mp hr).openAt hmem _ _

theorem Remembers.moves {g : Guard} {top : Nat} (hg : g.Remembering top) (hcf : g.CrashFree)
    {s s' : View × Ledger} (hm : Moves g s s') (hs : CrashFree g s) (hr : Remembers top s.1) :
    Remembers top s'.1 := by
  induction hm with
  | refl => exact hr
  | tail hms hm ih => exact ih.move hg hm (hs.moves hcf hms)

end HyphaDB.Store
