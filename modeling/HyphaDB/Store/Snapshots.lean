import HyphaDB.Store.Anchored
import HyphaDB.Store.Restart

/-!
# HyphaDB.Store.Snapshots

**Reads at an earlier sequence.** A snapshot is a number `q`, and what it shows is what reads at
`q` find. Later writes have larger numbers, a flush moves records without changing them, and a
compaction keeps the newest version at or below every registered number. So as long as `q` is
registered at each compaction, no move changes what it shows (`Serves.move`).
-/

namespace HyphaDB.Store

open Compaction Versions

/-- The versions there are to read: those of the process, or those it would start with. -/
def View.readable (v : View) : Set Record :=
  match v.handle with
  | some h => v.live h
  | none => v.durable

/-- A read of each key at `q` finds what `o` says. -/
def Serves (q : UInt64) (o : Key → Option Record) (v : View) : Prop :=
  ∀ k, ReadsAt v.readable k q (o k)

/-- The conditions under which reads at `q` are kept: no fault, a counter beyond `q` at every
write, and a registered reader that keeps compactions from its versions. -/
structure Guard.Serving (g : Guard) (q : UInt64) : Prop where
  crash : ¬ g.crash
  rotateFail : ¬ g.rotateFail
  logOnly : ¬ g.logOnly
  write : ∀ v h recs, g.write v recs → v.handle = some h → q < h.nextSeq
  compact : ∀ v inputs options, g.compact v inputs options →
    options.oldestReader ≠ none ∧ Protected options q

theorem Guard.Serving.crashFree {g : Guard} {q : UInt64} (hg : g.Serving q) : g.CrashFree :=
  ⟨hg.crash, hg.rotateFail, fun h => absurd h hg.logOnly⟩

theorem Guard.Serving.anchored {g : Guard} {q : UInt64} (hg : g.Serving q) : g.Anchored :=
  ⟨hg.logOnly, fun h => absurd h hg.rotateFail⟩

theorem readable_running {v : View} {h : Handle} (hh : v.handle = some h) :
    v.readable = v.live h := by
  unfold View.readable
  rw [hh]

theorem readable_stopped {v : View} (hh : v.handle = none) : v.readable = v.durable := by
  unfold View.readable
  rw [hh]

theorem Serves.congr {q : UInt64} {o : Key → Option Record} {v v' : View} (h : Serves q o v)
    (heq : v'.readable = v.readable) : Serves q o v' :=
  fun k => heq ▸ h k

/-- A database that can be closed has in its segments what it has in memory. -/
theorem durable_of_close {g : Guard} {v : View} {h : Handle} {l : Ledger} (hv : Anchored g v h)
    (hlog : LogSound g v h l) (hq : h.queue = []) (hstage : h.stage = .idle) :
    v.durable = v.live h := by
  have hentries : h.entries = [⟨h.memtable, h.wal⟩] := by
    unfold Handle.entries
    rw [hq, List.nil_append]
  have hids : v.logs.map Prod.fst = [h.wal] := by
    have := hlog.ids
    rw [hstage, hentries] at this
    exact this
  refine Set.ext fun r => or_congr_left ⟨fun hr => ?_, fun hr => ?_⟩
  · obtain ⟨p, hp, hr⟩ := hr
    have hid : p.1 = h.wal := List.mem_singleton.mp (hids ▸ List.mem_map_of_mem hp)
    exact ⟨_, h.active_mem_entries, hv.owner _ h.active_mem_entries p hp hid r hr⟩
  · obtain ⟨e, he, hr⟩ := hr
    obtain ⟨p, hp, -, hr⟩ := hlog.logged e he r hr
    exact ⟨p, hp, hr⟩

/-- **No move changes what a registered sequence shows.** -/
theorem Serves.move {g : Guard} {q : UInt64} (hg : g.Serving q) {o : Key → Option Record}
    {s s' : View × Ledger} (hm : Move g s s') (hc : CrashFree g s) (hv : Structural g s.1)
    (hs : Serves q o s.1) : Serves q o s'.1 := by
  cases hm with
  | forget _ => exact hs
  | @write v l h recs n hh hseq hw =>
      obtain ⟨hlive, -⟩ := (CrashFree.running hh).mp hc
      intro k
      have hold : ReadsAt (v.live h) k q (o k) := readable_running hh ▸ hs k
      rw [readable_running rfl]
      refine hold.add_above (fun r hr => (hlive.mem_live_write hseq).mpr (Or.inl hr)) ?_
      have hlt := hg.write v h recs hw hh
      exact fun r hr => ((hlive.mem_live_write hseq).mp hr).imp_right
        fun hr => hlt.trans_le (hseq.bounds r hr).1
  | logOnly _ _ _ hlo => exact absurd hlo hg.logOnly
  | crashLogged _ _ _ hcr => exact absurd hcr hg.crash
  | @rotate v l h ref id hh hid href =>
      refine hs.congr ?_
      rw [readable_running hh, readable_running rfl, live_rotate id href]
  | rotateFail _ _ hr => exact absurd hr hg.rotateFail
  | segment _ _ hcr => exact (hcr.elim hg.crash hg.rotateFail).elim
  | @reserve v l h imm qs hh hstage hq => exact hs.congr (readable_running hh).symm
  | @writeTable v l h imm tab hh hstage hrecs hlevel _ =>
      exact hs.congr (readable_running hh).symm
  | @publish v l h imm tab qs hh hstage hq _ =>
      have hrecs := ((Structural.running hh).mp hv).written_recs hstage
      refine hs.congr ?_
      rw [readable_running hh, readable_running rfl, live_publish hq hrecs]
  | @removeSegment v l h id hh hstage => exact hs.congr (readable_running hh).symm
  | @compact v l h tabs inputs options out hh hcomp hg' =>
      obtain ⟨hlive, -⟩ := (CrashFree.running hh).mp hc
      obtain ⟨hreader, hprot⟩ := hg.compact v inputs options hg'
      intro k
      have hold : ReadsAt (v.live h) k q (o k) := readable_running hh ▸ hs k
      rw [readable_running (v := { v with tabs }) hh]
      rcases hlive.compact_reads hcomp hprot hold with hkept | ⟨hnone, -⟩
      · exact hkept
      · exact absurd hnone hreader
  | @readers v l h readers hh => exact hs.congr (readable_running hh).symm
  | crash hcr => exact absurd hcr hg.crash
  | @close v l h hh hq hstage =>
      obtain ⟨-, hlog⟩ := (CrashFree.running hh).mp hc
      have heq := durable_of_close ((Structural.running hh).mp hv) hlog hq hstage
      refine hs.congr ?_
      rw [readable_running hh, readable_stopped rfl]
      exact heq
  | @openAt v l h logs id hh hid hlogs hmem hqueue hwal hstage hseq =>
      refine hs.congr ?_
      rw [readable_stopped hh, readable_running rfl]
      exact live_open hv.durable hmem hqueue _ _

/-- The invariant of runs that a snapshot at `q` watches. -/
structure Watched (g : Guard) (q : UInt64) (o : Key → Option Record) (s : View × Ledger) :
    Prop where
  crashFree : CrashFree g s
  structural : Structural g s.1
  serves : Serves q o s.1

theorem Watched.moves {g : Guard} {q : UInt64} (hg : g.Serving q) {o : Key → Option Record}
    {s s' : View × Ledger} (hm : Moves g s s') (hs : Watched g q o s) : Watched g q o s' := by
  induction hm with
  | refl => exact hs
  | tail _ hm ih =>
      exact ⟨ih.crashFree.move hg.crashFree hm, ih.structural.move hg.anchored hm,
        ih.serves.move hg hm ih.crashFree ih.structural⟩

end HyphaDB.Store
