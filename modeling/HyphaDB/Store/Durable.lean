import HyphaDB.Store.Anchored

/-!
# HyphaDB.Store.Durable

**Acknowledged puts survive.** The newest version of a key, when it is a put the caller was
told about, is at every moment in a published table or in a segment that will not be
removed before its table is published (`Puts`). Crashes, failed rotations, flushes and
compactions of any order keep that (`Puts.move`); only a tombstone may be dropped.
-/

namespace HyphaDB.Store

open Compaction

/-- The newest version of `k` in `T` is a put of `x`, and `S` holds it. -/
def Held (S T : Set Record) (k : Key) (x : Bytes) : Prop :=
  ∃ r ∈ S, r.key = k ∧ r.toEntry.visible = some x ∧ ∀ y ∈ T, y.key = k → y.seq ≤ r.seq

theorem Held.mono {S S' T T' : Set Record} {k : Key} {x : Bytes} (h : Held S T k x)
    (hS : S ⊆ S') (hT : ∀ y ∈ T', y.key = k → y ∈ T) : Held S' T' k x := by
  obtain ⟨r, hr, hk, hx, htop⟩ := h
  exact ⟨r, hS hr, hk, hx, fun y hy hyk => htop y (hT y hy hyk) hyk⟩

theorem Held.answers {S T : Set Record} {k : Key} {x : Bytes} (h : Held S T k x) (hS : S ⊆ T) :
    Answers T k (some x) := by
  obtain ⟨r, hr, rfl, hx, htop⟩ := h
  rw [← hx]
  exact Answers.of_top (hS hr) htop

/-- Where a promised version has to be: in memory, and on disk to stay. -/
def View.held (v : View) : Set Record :=
  match v.handle with
  | some h => v.kept h ∩ v.live h
  | none => v.durable

/-- All versions there are. -/
def View.versions (v : View) : Set Record :=
  match v.handle with
  | some h => v.live h ∪ v.durable
  | none => v.durable

def Puts (s : View × Ledger) : Prop :=
  ∀ k x, s.2 k = some (some x) → Held s.1.held s.1.versions k x

theorem View.held_running {v : View} {h : Handle} (hh : v.handle = some h) :
    v.held = v.kept h ∩ v.live h := by
  unfold View.held
  rw [hh]

theorem View.versions_running {v : View} {h : Handle} (hh : v.handle = some h) :
    v.versions = v.live h ∪ v.durable := by
  unfold View.versions
  rw [hh]

theorem View.held_sub (v : View) : v.held ⊆ v.durable := by
  cases hh : v.handle with
  | none =>
      unfold View.held
      rw [hh]
  | some h =>
      rw [View.held_running hh]
      exact Set.inter_subset_left.trans (v.kept_sub h)

theorem View.durable_sub (v : View) : v.durable ⊆ v.versions := by
  cases hh : v.handle with
  | none =>
      unfold View.versions
      rw [hh]
  | some h =>
      rw [View.versions_running hh]
      exact Set.subset_union_right

section Moves

variable {g : Guard} {v : View} {h : Handle} {l : Ledger} (hputs : Puts (v, l))

include hputs

/-- Promises are kept when nothing leaves its place and nothing is added. -/
theorem Puts.of_sub {v' : View} (hheld : v.held ⊆ v'.held) (hall : v'.versions ⊆ v.versions) :
    Puts (v', l) :=
  fun k x hk => (hputs k x hk).mono hheld fun _ hy _ => hall hy

theorem Puts.weaken {l' : Ledger} (hl : Weaker l' l) : Puts (v, l') :=
  fun k x hk => hputs k x (hl k _ hk)

/-- The process ends. -/
theorem Puts.stop : Puts ({ v with handle := none }, l) :=
  hputs.of_sub v.held_sub v.durable_sub

variable (hh : v.handle = some h) (hv : Anchored g v h)

include hh hv

theorem Puts.write {recs : List Record} {n : Nat} (hs : Sequenced h.nextSeq n recs) :
    Puts ({ v with logs := appendLog h.wal recs v.logs, handle := some (h.write recs n) },
      record l recs) := by
  intro k x hk
  have hkept := fun r => hv.mem_kept_write recs n (some (h.write recs n)) (r := r)
  have hlive := fun r => hv.mem_live_write hs (appendLog h.wal recs v.logs)
    (some (h.write recs n)) (r := r)
  have hdurable := fun r => hv.mem_durable_append recs (some (h.write recs n)) (r := r)
  have hall : ∀ y ∈ v.versions, y.seq < h.nextSeq := by
    rw [View.versions_running hh]
    exact hv.seq_lt
  have hnew : ∀ y ∈ View.versions
      { v with logs := appendLog h.wal recs v.logs, handle := some (h.write recs n) },
      y ∈ v.versions ∨ y ∈ recs := by
    intro y hy
    rw [View.versions_running hh]
    rcases hy with hy | hy
    · exact ((hlive y).mp hy).imp_left Or.inl
    · exact ((hdurable y).mp hy).imp_left Or.inr
  rcases record_cases l recs k with ⟨hno, heq⟩ | ⟨pre, r, post, rfl, rfl, hpost, heq⟩
  · rw [show (_, record l recs).2 k = l k from heq] at hk
    refine (hputs k x hk).mono ?_ ?_
    · intro r hr
      rw [show (v, l).1.held = _ from View.held_running hh] at hr
      exact ⟨(hkept r).mpr (Or.inl hr.1), (hlive r).mpr (Or.inl hr.2)⟩
    · exact fun y hy hyk => (hnew y hy).resolve_right fun hrec => hno y hrec hyk
  · have hx : r.toEntry.visible = some x := Option.some.inj (heq.symm.trans hk)
    have hr : r ∈ pre ++ r :: post := List.mem_append_right _ List.mem_cons_self
    refine ⟨r, ⟨(hkept r).mpr (Or.inr hr), (hlive r).mpr (Or.inr hr)⟩, rfl, hx, ?_⟩
    intro y hy hyk
    rcases hnew y hy with hy | hy
    · exact (hs.newer hr (hall y hy)).le
    · exact hs.le_last hpost hy hyk

omit hh in
/-- Records that reach the log as the process dies. -/
theorem Puts.crashLogged {recs : List Record} {l' : Ledger} (hl : WeakerWithout recs l' l) :
    Puts ({ v with logs := appendLog h.wal recs v.logs, handle := none }, l') := by
  intro k x hk
  obtain ⟨hk, hno⟩ := hl k _ hk
  have hdurable := fun r => hv.mem_durable_append recs none (r := r)
  refine (hputs k x hk).mono ?_ ?_
  · exact fun r hr => (hdurable r).mpr (Or.inl (v.held_sub hr))
  · intro y hy hyk
    refine v.durable_sub (((hdurable y).mp hy).resolve_right fun hrec => ?_)
    exact hno y hrec hyk

theorem Puts.publish {imm : ImmutableMemTable} {tab : Tab} {qs : List ImmutableMemTable}
    (hstage : h.stage = .written imm tab) (hq : h.queue = imm :: qs) :
    Puts ({ v with
      tabs := v.tabs ++ [tab]
      handle := some { h with queue := qs, stage := .removing imm.walID } }, l) := by
  have hrecs := hv.written_recs hstage
  have hlive := live_publish (v := v) hq hrecs (.removing imm.walID)
    (some { h with queue := qs, stage := .removing imm.walID })
  refine hputs.of_sub ?_ ?_
  · rw [View.held_running hh, View.held_running rfl, hlive]
    refine Set.inter_subset_inter_left _ fun r hr => ?_
    rcases hr with ⟨p, hp, -, hr⟩ | hr
    · by_cases hid : imm.walID = p.1
      · -- the segment that is given up belongs to the published memtable
        have himm : imm ∈ h.entries := List.mem_append_left _ (hq ▸ List.mem_cons_self)
        have hr := hv.owner imm himm p hp hid.symm r hr
        exact Or.inr (mem_tabRecs_append.mpr (Or.inr (hrecs ▸ hr)))
      · exact Or.inl ⟨p, hp, fun heq => hid (Option.some.inj heq), hr⟩
    · exact Or.inr (mem_tabRecs_append.mpr (Or.inl hr))
  · rw [View.versions_running hh, View.versions_running rfl, hlive, durable_publish]
    refine Set.union_subset Set.subset_union_left (Set.union_subset Set.subset_union_right ?_)
    exact (hv.tab_sub hstage hq).trans Set.subset_union_left

omit hv in
theorem Puts.removeSegment {id : Nat} (hstage : h.stage = .removing id) :
    Puts ({ v with
      logs := removeLog id v.logs, handle := some { h with stage := .idle } }, l) := by
  refine hputs.of_sub ?_ ?_
  · rw [View.held_running hh, View.held_running rfl]
    refine Set.inter_subset_inter_left _ (Set.union_subset_union_left _ fun r hr => ?_)
    obtain ⟨p, hp, hpend, hr⟩ := hr
    rw [hstage] at hpend
    have hne : p.1 ≠ id := fun heq => hpend (congrArg some heq.symm)
    exact ⟨p, mem_removeLog.mpr ⟨hp, hne⟩, Option.some_ne_none _ ∘ Eq.symm, hr⟩
  · rw [View.versions_running hh, View.versions_running rfl]
    refine Set.union_subset_union (Set.Subset.refl _) (Set.union_subset_union_left _ ?_)
    intro r hr
    obtain ⟨p, hp, hr⟩ := hr
    exact ⟨p, (mem_removeLog.mp hp).1, hr⟩

/-- A compaction drops old versions and tombstones, not the newest put. -/
theorem Puts.compact {tabs inputs : List Tab} {options : MergeOptions} {out : Tab}
    (hc : Compacts h.readers v.tabs tabs inputs options out) : Puts ({ v with tabs }, l) := by
  intro k x hk
  have hh' : View.handle { v with tabs } = some h := hh
  obtain ⟨r, hr, rfl, hx, htop⟩ := hputs k x hk
  rw [show (v, l).1.versions = _ from View.versions_running hh] at htop
  rw [show (v, l).1.held = _ from View.held_running hh] at hr
  rw [View.held_running hh', View.versions_running hh']
  have hnewest : NewestAt (v.live h ∪ v.durable) r.key newest r :=
    ⟨Or.inl hr.2, rfl, le_newest _, fun y hy hyk _ => htop y hy hyk⟩
  have hstays : r ∈ tabRecs v.tabs → r ∈ tabRecs tabs := by
    intro htab
    have hsub : tabRecs v.tabs ⊆ v.live h ∪ v.durable :=
      Set.subset_union_right.trans Set.subset_union_left
    rcases hc.newest_stays hsub hv.consistent (protected_newest options) hnewest htab with
      hin | ⟨-, -, hdel, -⟩
    · exact hin
    · simp [Entry.visible, hdel] at hx
  refine ⟨r, ⟨hr.1.imp_right hstays, hr.2.imp_right hstays⟩, rfl, hx, ?_⟩
  intro y hy
  exact htop y (hy.imp (Or.imp_right (hc.tabRecs_sub ·)) (Or.imp_right (hc.tabRecs_sub ·)))

end Moves

theorem Puts.move {g : Guard} (hg : g.Anchored) {s s' : View × Ledger} (hm : Move g s s')
    (hv : Structural g s.1) (hs : Puts s) : Puts s' := by
  cases hm with
  | forget hl => exact hs.weaken hl
  | @write v l h recs n hh hseq _ => exact hs.write hh ((Structural.running hh).mp hv) hseq
  | logOnly _ _ _ hlo => exact absurd hlo hg.logOnly
  | @crashLogged v l l' h recs n hh _ hl _ =>
      exact hs.crashLogged ((Structural.running hh).mp hv) hl
  | @rotate v l h ref id hh hid href =>
      have hlive := live_rotate (v := v) id href (v.logs ++ [(id, [])])
        (some (h.enqueue.switch ref id))
      refine hs.of_sub ?_ ?_
      · rw [View.held_running hh, View.held_running rfl, hlive,
          kept_segment id _ h (h.enqueue.switch ref id) rfl]
      · rw [View.versions_running hh, View.versions_running rfl, hlive, durable_segment]
  | @rotateFail v l h logs hh hlogs _ =>
      have hlive := live_enqueue (v := v) (h := h) logs (some h.enqueue)
      rcases hlogs with rfl | ⟨id, -, rfl⟩
      · refine hs.of_sub ?_ ?_
        · rw [View.held_running hh, View.held_running rfl, hlive]
          exact Set.Subset.refl _
        · rw [View.versions_running hh, View.versions_running rfl, hlive]
          exact Set.Subset.refl _
      · refine hs.of_sub ?_ ?_
        · rw [View.held_running hh, View.held_running rfl, hlive, kept_segment id _ h h.enqueue rfl]
        · rw [View.versions_running hh, View.versions_running rfl, hlive, durable_segment]
  | @segment v l id hh hid _ =>
      refine hs.of_sub ?_ ?_
      · unfold View.held
        rw [hh]
        exact (durable_segment id none).symm.subset
      · unfold View.versions
        rw [hh]
        exact (durable_segment id none).subset
  | @reserve v l h imm qs hh hstage hq =>
      refine hs.of_sub ?_ ?_
      · rw [View.held_running hh, View.held_running rfl,
          kept_setStage v (.reserved imm) (by simp [hstage, Stage.pending])]
        exact Set.Subset.refl _
      · rw [View.versions_running hh]
        exact Set.Subset.refl _
  | @writeTable v l h imm tab hh hstage hrecs hlevel _ =>
      refine hs.of_sub ?_ ?_
      · rw [View.held_running hh, View.held_running rfl,
          kept_setStage v (.written imm tab) (by simp [hstage, Stage.pending])]
        exact Set.Subset.refl _
      · rw [View.versions_running hh]
        exact Set.Subset.refl _
  | @publish v l h imm tab qs hh hstage hq _ =>
      exact hs.publish hh ((Structural.running hh).mp hv) hstage hq
  | @removeSegment v l h id hh hstage =>
      exact hs.removeSegment hh hstage
  | @compact v l h tabs inputs options out hh hc _ =>
      exact hs.compact hh ((Structural.running hh).mp hv) hc
  | @readers v l h readers hh =>
      refine hs.of_sub ?_ ?_
      · rw [View.held_running hh]
        exact Set.Subset.refl _
      · rw [View.versions_running hh]
        exact Set.Subset.refl _
  | crash _ => exact hs.stop
  | close _ _ _ => exact hs.stop
  | @openAt v l h logs id hh hid hlogs hmem hqueue hwal hstage hseq =>
      have hlive := live_open hv.durable hmem hqueue logs (some h)
      have hdurable := durable_open hlogs (some h)
      have hkept : v.durable ⊆ View.kept { v with logs, handle := some h } h := by
        rw [← hdurable]
        refine Set.union_subset_union_left _ fun r hr => ?_
        obtain ⟨p, hp, hr⟩ := hr
        exact ⟨p, hp, by simp [hstage, Stage.pending], hr⟩
      refine hs.of_sub ?_ ?_
      · rw [View.held_running (v := { v with logs, handle := some h }) rfl, hlive]
        exact v.held_sub.trans (Set.subset_inter hkept (Set.Subset.refl _))
      · rw [View.versions_running (v := { v with logs, handle := some h }) rfl, hlive, hdurable,
          Set.union_self]
        exact v.durable_sub

/-- The invariant of the runs in which acknowledged puts survive. -/
structure Durable (g : Guard) (s : View × Ledger) : Prop where
  structural : Structural g s.1
  puts : Puts s

theorem Durable.moves {g : Guard} (hg : g.Anchored) {s s' : View × Ledger} (hm : Moves g s s')
    (hs : Durable g s) : Durable g s' := by
  induction hm with
  | refl => exact hs
  | tail _ hm ih => exact ⟨ih.structural.move hg hm, ih.puts.move hg hm ih.structural⟩

end HyphaDB.Store
