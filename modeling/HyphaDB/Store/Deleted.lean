import HyphaDB.Store.Durable

/-!
# HyphaDB.Store.Deleted

**Deleted keys and dropped tombstones.** A key whose delete was acknowledged reads as absent
from memory and from disk, with and without the segment that is about to be removed
(`Gone`). Every move keeps that except one: a compaction into the last level drops
tombstones without a look at the memtables, the segments and the tables of other
levels, where a crash may have left an older put. `KeepsDeleted` is what it would have
to look at, and under it deletes survive (`Deletes.move`).
-/

namespace HyphaDB.Store

open Compaction

/-- The places next to the tables where versions are: the memtables, the segments, and the
segments without the pending one. -/
def View.bases (v : View) : List (Set Record) :=
  match v.handle with
  | some h => [h.memRecs, logRecs v.logs, v.keptLogs h]
  | none => [logRecs v.logs]

/-- The key reads as absent, now and after a restart. -/
def View.Gone (v : View) (k : Key) : Prop :=
  ∀ B ∈ v.bases, Answers (B ∪ tabRecs v.tabs) k none

def Deletes (s : View × Ledger) : Prop := ∀ k, s.2 k = some none → s.1.Gone k

/-- The records of the tables a compaction leaves alone. -/
def restRecs (tabs inputs : List Tab) : Set Record := {r | ∃ t ∈ tabs, t ∉ inputs ∧ r ∈ t.recs}

/-- The newest version of the tombstone's key in `S` is not an older put. -/
def Covered (S : Set Record) (t : Record) : Prop :=
  ∀ r, NewestAt S t.key newest r → r.seq < t.seq → r.deleted = true

/-- A compaction drops a tombstone only when no older put comes to light by it. -/
def KeepsDeleted (v : View) (inputs : List Tab) (options : MergeOptions) : Prop :=
  options.dropTombstones = true → options.oldestReader = none →
    ∀ t, NewestAt (tabRecs inputs) t.key newest t → t.deleted = true →
      ∀ B ∈ v.bases, Covered (B ∪ restRecs v.tabs inputs) t

/-! ### Places -/

theorem gone_running {v : View} {h : Handle} (hh : v.handle = some h) {k : Key} :
    v.Gone k ↔ Answers (v.live h) k none ∧ Answers v.durable k none ∧
      Answers (v.kept h) k none := by
  unfold View.Gone View.bases
  rw [hh]
  simp only [List.mem_cons, List.not_mem_nil, or_false, forall_eq_or_imp, forall_eq]
  rfl

theorem gone_stopped {v : View} (hh : v.handle = none) {k : Key} :
    v.Gone k ↔ Answers v.durable k none := by
  unfold View.Gone View.bases
  rw [hh]
  simp only [List.mem_singleton, forall_eq]
  rfl

theorem gone_durable {v : View} {k : Key} (hk : v.Gone k) : Answers v.durable k none := by
  cases hh : v.handle with
  | none => exact (gone_stopped hh).mp hk
  | some h => exact ((gone_running hh).mp hk).2.1

theorem finite_exists_mem {ι : Type} (is : List ι) (f : ι → List Record) :
    {r | ∃ i ∈ is, r ∈ f i}.Finite :=
  (List.finite_toSet (is.flatMap f)).subset fun _ hr => List.mem_flatMap.mpr hr

theorem finite_base {v : View} {B : Set Record} (hB : B ∈ v.bases) : B.Finite := by
  have hlogs : (logRecs v.logs).Finite := finite_exists_mem v.logs Prod.snd
  unfold View.bases at hB
  split at hB
  · rename_i h hh
    simp only [List.mem_cons, List.not_mem_nil, or_false] at hB
    rcases hB with rfl | rfl | rfl
    · exact finite_exists_mem h.entries h.recsOf
    · exact hlogs
    · refine hlogs.subset fun r hr => ?_
      obtain ⟨p, hp, -, hr⟩ := hr
      exact ⟨p, hp, hr⟩
  · rw [List.mem_singleton.mp hB]
    exact hlogs

/-- All places hold versions of one consistent set. -/
theorem base_sub {g : Guard} {v : View} (hv : Structural g v) {B : Set Record}
    (hB : B ∈ v.bases) : Consistent (B ∪ tabRecs v.tabs) := by
  unfold View.bases at hB
  split at hB
  · rename_i h hh
    have hc := ((Structural.running hh).mp hv).consistent
    simp only [List.mem_cons, List.not_mem_nil, or_false] at hB
    rcases hB with rfl | rfl | rfl
    · exact hc.mono Set.subset_union_left
    · exact hc.mono Set.subset_union_right
    · exact hc.mono ((v.kept_sub h).trans Set.subset_union_right)
  · rename_i hh
    rw [List.mem_singleton.mp hB]
    exact (Structural.stopped hh).mp hv

/-! ### Compaction -/

/-- A compaction that keeps deletes lets a key that is absent stay absent. -/
theorem answers_compact {readers : List UInt64} {v : View} {tabs inputs : List Tab}
    {options : MergeOptions} {out : Tab} {B : Set Record} {k : Key}
    (hc : Compacts readers v.tabs tabs inputs options out)
    (hcons : Consistent (B ∪ tabRecs v.tabs)) (hfin : B.Finite)
    (hcov : options.dropTombstones = true → options.oldestReader = none →
      ∀ t, NewestAt (tabRecs inputs) t.key newest t → t.deleted = true →
        Covered (B ∪ restRecs v.tabs inputs) t)
    (h : Answers (B ∪ tabRecs v.tabs) k none) : Answers (B ∪ tabRecs tabs) k none := by
  obtain ⟨o, ho, hm⟩ := h
  have hsub : B ∪ tabRecs tabs ⊆ B ∪ tabRecs v.tabs :=
    Set.union_subset_union_right _ hc.tabRecs_sub
  cases o with
  | none => exact ⟨none, fun r hr hk => ho r (hsub hr) hk, rfl⟩
  | some t =>
      have hstill : t ∈ B ∪ tabRecs tabs → Answers (B ∪ tabRecs tabs) k none :=
        fun ht => ⟨some t, ho.anti (fun r hr _ => hsub hr) ht, hm⟩
      rcases ho.mem with ht | ht
      · exact hstill (Or.inl ht)
      · rcases hc.newest_stays Set.subset_union_right hcons (protected_newest options) ho ht with
          hstay | ⟨hreader, hdrop, hdel, hin, hout⟩
        · exact hstill (Or.inr hstay)
        · -- the tombstone is dropped, and with it all of its key in the inputs
          obtain rfl := ho.key_eq
          have hnewest : NewestAt (tabRecs inputs) t.key newest t := by
            refine ho.anti (fun r hr _ => Or.inr ?_) hin
            obtain ⟨u, hu, hr⟩ := hr
            exact ⟨u, hc.sub u hu, hr⟩
          have hrest : ∀ r : Record, r.key = t.key →
              (r ∈ B ∪ tabRecs tabs ↔ r ∈ B ∪ restRecs v.tabs inputs) := by
            intro r hr
            refine or_congr_right ⟨fun hrt => ?_, fun hrt => ?_⟩
            · obtain ⟨u, hu, hru⟩ := hrt
              rcases (hc.mem_iff u).mp hu with rfl | ⟨hu, hnot⟩
              · exact absurd hr (hout r hru)
              · exact ⟨u, hu, hnot, hru⟩
            · obtain ⟨u, hu, hnot, hru⟩ := hrt
              exact ⟨u, (hc.mem_iff u).mpr (Or.inr ⟨hu, hnot⟩), hru⟩
          have hfinite : (B ∪ tabRecs tabs).Finite := hfin.union (finite_exists_mem tabs Tab.recs)
          obtain ⟨o', ho'⟩ := Versions.exists_readsAt Record.key Record.seq
            hfinite t.key newest
          refine ⟨o', ho', ?_⟩
          cases o' with
          | none => rfl
          | some r =>
              have hr : NewestAt (B ∪ tabRecs tabs) t.key newest r := ho'
              have hle := ho.max r (hsub hr.mem) hr.key_eq hr.seq_le
              have hrdel : r.deleted = true := by
                rcases hle.lt_or_eq with hlt | heq
                · refine hcov hdrop hreader t hnewest hdel r ?_ hlt
                  exact hr.anti (fun x hx hxk => (hrest x hxk).mpr hx)
                    ((hrest r hr.key_eq).mp hr.mem)
                · rw [hcons r (hsub hr.mem) t ho.mem hr.key_eq heq]
                  exact hdel
              simp [visibleOf, Entry.visible, hrdel]

/-! ### Every move -/

section Moves

variable {g : Guard} {v : View} {h : Handle} {l : Ledger} (hdel : Deletes (v, l))
  (hh : v.handle = some h) (hv : Anchored g v h)

include hdel hh hv

theorem Deletes.write {recs : List Record} {n : Nat} (hs : Sequenced h.nextSeq n recs) :
    Deletes ({ v with logs := appendLog h.wal recs v.logs, handle := some (h.write recs n) },
      record l recs) := by
  intro k hk
  -- each place gains the records
  have hplace : ∀ S S' : Set Record, (∀ r, r ∈ S' ↔ r ∈ S ∨ r ∈ recs) →
      (∀ r ∈ S, r.seq < h.nextSeq) → (l k = some none → Answers S k none) →
      Answers S' k none := by
    intro S S' hmem hlt hold
    rcases record_cases l recs k with ⟨hno, heq⟩ | ⟨pre, r, post, rfl, rfl, hpost, heq⟩
    · refine (hold (heq.symm.trans hk)).congr fun r hrk => ?_
      rw [hmem]
      exact or_iff_left fun hr => hno r hr hrk
    · have hvis : r.toEntry.visible = none := Option.some.inj (heq.symm.trans hk)
      have hr : r ∈ pre ++ r :: post := List.mem_append_right _ List.mem_cons_self
      rw [← hvis]
      refine Answers.of_top ((hmem r).mpr (Or.inr hr)) fun x hx hxk => ?_
      rcases (hmem x).mp hx with hx | hx
      · exact (hs.newer hr (hlt x hx)).le
      · exact hs.le_last hpost hx hxk
  have hold := fun hk => (gone_running hh).mp (hdel k hk)
  refine (gone_running rfl).mpr ⟨?_, ?_, ?_⟩
  · exact hplace _ _ (fun r => hv.mem_live_write hs _ _) (fun r hr => hv.seq_lt r (Or.inl hr))
      fun hk => (hold hk).1
  · exact hplace _ _ (fun r => hv.mem_durable_append recs _) (fun r hr => hv.seq_lt r (Or.inr hr))
      fun hk => (hold hk).2.1
  · exact hplace _ _ (fun r => hv.mem_kept_write recs n _)
      (fun r hr => hv.seq_lt r (Or.inr (v.kept_sub h hr))) fun hk => (hold hk).2.2

/-- Publishing moves the records of a memtable from its segment to a table. -/
theorem Deletes.publish (hdistinct : Distinct v h) {imm : ImmutableMemTable} {tab : Tab}
    {qs : List ImmutableMemTable} (hstage : h.stage = .written imm tab)
    (hq : h.queue = imm :: qs) :
    Deletes ({ v with
      tabs := v.tabs ++ [tab]
      handle := some { h with queue := qs, stage := .removing imm.walID } }, l) := by
  intro k hk
  obtain ⟨hlive, hdurable, -⟩ := (gone_running hh).mp (hdel k hk)
  have hrecs := hv.written_recs hstage
  have himm : imm ∈ h.entries := List.mem_append_left _ (hq ▸ List.mem_cons_self)
  have hlogged : ∀ r ∈ tab.recs, r ∈ logRecs v.logs := by
    intro r hr
    obtain ⟨p, hp, hr, -⟩ := hdistinct.owned imm himm r (hrecs ▸ hr)
    exact ⟨p, hp, hr⟩
  have hdurable' : View.durable { v with
      tabs := v.tabs ++ [tab]
      handle := some { h with queue := qs, stage := .removing imm.walID } } = v.durable := by
    rw [durable_publish]
    exact Set.union_eq_self_of_subset_right fun r hr => Or.inl (hlogged r hr)
  refine (gone_running rfl).mpr ⟨?_, ?_, ?_⟩
  · rw [live_publish hq hrecs]
    exact hlive
  · rw [hdurable']
    exact hdurable
  · refine hdurable.congr fun r _ => ⟨fun hr => hdurable' ▸ View.kept_sub _ _ hr, fun hr => ?_⟩
    rcases hr with ⟨p, hp, hr⟩ | hr
    · by_cases hid : p.1 = imm.walID
      · have hmem := hv.owner imm himm p hp hid r hr
        exact Or.inr (mem_tabRecs_append.mpr (Or.inr (hrecs ▸ hmem)))
      · exact Or.inl ⟨p, hp, fun heq => hid (Option.some.inj heq).symm, hr⟩
    · exact Or.inr (mem_tabRecs_append.mpr (Or.inl hr))

end Moves

/-- The guard of the runs in which deletes survive. -/
structure Guard.KeepsDeleted (g : Guard) : Prop extends g.Anchored where
  rotateFail : ¬ g.rotateFail
  compact : ∀ v inputs options, g.compact v inputs options → Store.KeepsDeleted v inputs options

theorem Deletes.move {g : Guard} (hg : g.KeepsDeleted) {s s' : View × Ledger} (hm : Move g s s')
    (hv : Structural g s.1) (hs : Deletes s) : Deletes s' := by
  cases hm with
  | forget hl => exact fun k hk => hs k (hl k _ hk)
  | @write v l h recs n hh hseq _ => exact hs.write hh ((Structural.running hh).mp hv) hseq
  | logOnly _ _ _ hlo => exact absurd hlo hg.logOnly
  | @crashLogged v l l' h recs n hh _ hl _ =>
      intro k hk
      obtain ⟨hk, hno⟩ := hl k _ hk
      refine (gone_stopped rfl).mpr ((gone_durable (hs k hk)).congr fun r hrk => ?_)
      rw [((Structural.running hh).mp hv).mem_durable_append recs]
      exact or_iff_left fun hr => hno r hr hrk
  | @rotate v l h ref id hh hid href =>
      intro k hk
      obtain ⟨hlive, hdurable, hkept⟩ := (gone_running hh).mp (hs k hk)
      refine (gone_running rfl).mpr ⟨?_, ?_, ?_⟩
      · rw [live_rotate id href]
        exact hlive
      · rw [durable_segment]
        exact hdurable
      · rw [kept_segment id _ h (h.enqueue.switch ref id) rfl]
        exact hkept
  | rotateFail _ _ hr => exact absurd hr hg.rotateFail
  | @segment v l id hh hid _ =>
      intro k hk
      refine (gone_stopped (by exact hh)).mpr ?_
      rw [durable_segment]
      exact gone_durable (hs k hk)
  | @reserve v l h imm qs hh hstage hq =>
      intro k hk
      obtain ⟨hlive, hdurable, hkept⟩ := (gone_running hh).mp (hs k hk)
      refine (gone_running rfl).mpr ⟨?_, ?_, ?_⟩
      · exact hlive
      · exact hdurable
      · rw [kept_setStage v (.reserved imm) (by simp [hstage, Stage.pending])]
        exact hkept
  | @writeTable v l h imm tab hh hstage hrecs hlevel _ =>
      intro k hk
      obtain ⟨hlive, hdurable, hkept⟩ := (gone_running hh).mp (hs k hk)
      refine (gone_running rfl).mpr ⟨?_, ?_, ?_⟩
      · exact hlive
      · exact hdurable
      · rw [kept_setStage v (.written imm tab) (by simp [hstage, Stage.pending])]
        exact hkept
  | @publish v l h imm tab qs hh hstage hq _ =>
      have ha := (Structural.running hh).mp hv
      exact hs.publish hh ha (ha.distinct hg.rotateFail) hstage hq
  | @removeSegment v l h id hh hstage =>
      intro k hk
      obtain ⟨hlive, -, hkept⟩ := (gone_running hh).mp (hs k hk)
      unfold View.kept View.keptLogs at hkept
      rw [hstage] at hkept
      have hiff : ∀ r, (∃ p ∈ removeLog id v.logs, r ∈ p.2) ↔
          ∃ p ∈ v.logs, (Stage.removing id).pending ≠ some p.1 ∧ r ∈ p.2 := by
        intro r
        simp only [mem_removeLog, Stage.pending, ne_eq, Option.some.injEq, and_assoc,
          eq_comm (a := id)]
      refine (gone_running rfl).mpr ⟨?_, hkept.congr fun r _ => ?_, hkept.congr fun r _ => ?_⟩
      · exact hlive
      · exact or_congr_left (hiff r)
      · refine or_congr_left
          (Iff.trans (exists_congr fun p => and_congr_right fun _ => ?_) (hiff r))
        exact and_iff_right (Option.some_ne_none _ ∘ Eq.symm)
  | @compact v l h tabs inputs options out hh hc hcompact =>
      intro k hk B hB
      exact answers_compact hc (base_sub hv hB) (finite_base hB)
        (fun hdrop hreader t ht hdel =>
          hg.compact v inputs options hcompact hdrop hreader t ht hdel B hB) (hs k hk B hB)
  | @readers v l h readers hh =>
      intro k hk
      obtain ⟨hlive, hdurable, hkept⟩ := (gone_running hh).mp (hs k hk)
      refine (gone_running rfl).mpr ⟨?_, ?_, ?_⟩
      · exact hlive
      · exact hdurable
      · exact hkept
  | @crash v l _ =>
      intro k hk
      have hold : Answers v.durable k none := gone_durable (hs k hk)
      exact (gone_stopped rfl).mpr hold
  | @close v l h _ _ _ =>
      intro k hk
      have hold : Answers v.durable k none := gone_durable (hs k hk)
      exact (gone_stopped rfl).mpr hold
  | @openAt v l h logs id hh hid hlogs hmem hqueue hwal hstage hseq =>
      intro k hk
      have hold := gone_durable (hs k hk)
      have hdurable := durable_open hlogs (some h)
      refine (gone_running rfl).mpr ⟨?_, ?_, ?_⟩
      · rw [live_open hv.durable hmem hqueue]
        exact hold
      · rw [hdurable]
        exact hold
      · refine (hdurable ▸ hold).congr fun r _ => or_congr_left ?_
        refine exists_congr fun p => and_congr_right fun _ => ?_
        exact and_iff_right (by simp [hstage, Stage.pending])

theorem Deletes.moves {g : Guard} (hg : g.KeepsDeleted) {s s' : View × Ledger}
    (hm : Moves g s s') (hv : Structural g s.1) (hs : Deletes s) :
    Structural g s'.1 ∧ Deletes s' := by
  induction hm with
  | refl => exact ⟨hv, hs⟩
  | tail _ hm ih => exact ⟨ih.1.move hg.toAnchored hm, ih.2.move hg hm ih.1⟩

end HyphaDB.Store
