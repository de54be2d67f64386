import HyphaDB.Store.CrashFree

/-!
# HyphaDB.Store.Restart

The log half of the invariant of runs without a crash, and the invariant as a whole:
`CrashFree` is kept by every move (`CrashFree.move`).

In log order the segments are those of the memtables, oldest first, in front of them the
one that is about to be removed. A write goes to the last segment and a removal takes the
first, so the concatenation of all records only grows at its end and shrinks at its
front, and `LastAnswers` is a statement about that one list.
-/

namespace HyphaDB.Store

open Compaction

/-- All records of the segments, in log order. -/
def flatten (logs : List (Nat × List Record)) : List Record := logs.flatMap Prod.snd

@[simp] theorem mem_flatten {logs : List (Nat × List Record)} {r : Record} :
    r ∈ flatten logs ↔ r ∈ logRecs logs := by
  simp [flatten, logRecs]

@[simp] theorem flatten_append (xs ys : List (Nat × List Record)) :
    flatten (xs ++ ys) = flatten xs ++ flatten ys := by
  simp [flatten]

@[simp] theorem flatten_nil : flatten [] = [] := rfl

@[simp] theorem flatten_singleton (p : Nat × List Record) : flatten [p] = p.2 := by
  simp [flatten]

@[simp] theorem flatten_cons (p : Nat × List Record) (ps : List (Nat × List Record)) :
    flatten (p :: ps) = p.2 ++ flatten ps := by
  simp [flatten]

/-! ### The last record of a key -/

/-- What a restart answers for a key: the last record in the log, which is also the newest,
or the tables when the log has none. -/
inductive LastAnswers (flat : List Record) (tabs : List Tab) (k : Key) (m : Option Bytes) : Prop
  | absent (hno : ∀ x ∈ flat, x.key ≠ k) (hm : Answers (tabRecs tabs) k m)
  | last (pre : List Record) (r : Record) (post : List Record)
      (hflat : flat = pre ++ r :: post) (hk : r.key = k)
      (hpost : ∀ x ∈ post, x.key ≠ k) (hmax : ∀ x ∈ flat, x.key = k → x.seq ≤ r.seq)
      (htabs : ∀ x ∈ tabRecs tabs, x.key = k → x.seq ≤ r.seq) (hm : r.toEntry.visible = m)

section LastAnswers

variable {flat recs : List Record} {tabs tabs' : List Tab} {k : Key} {m : Option Bytes}

/-- Records of other keys behind the log change nothing. -/
theorem LastAnswers.append_other (h : LastAnswers flat tabs k m) (hno : ∀ r ∈ recs, r.key ≠ k) :
    LastAnswers (flat ++ recs) tabs k m := by
  cases h with
  | absent hflat hm =>
      refine .absent ?_ hm
      intro x hx
      exact (List.mem_append.mp hx).elim (hflat x) (hno x)
  | last pre r post hflat hk hpost hmax htabs hm =>
      refine .last pre r (post ++ recs) ?_ hk ?_ ?_ htabs hm
      · rw [hflat, List.append_assoc, List.cons_append]
      · intro x hx
        exact (List.mem_append.mp hx).elim (hpost x) (hno x)
      · intro x hx hxk
        rcases List.mem_append.mp hx with hx | hx
        · exact hmax x hx hxk
        · exact absurd hxk (hno x hx)

/-- New records of the key answer for it. -/
theorem LastAnswers.append_last {pre post : List Record} {r : Record}
    (hpost : ∀ x ∈ post, x.key ≠ r.key)
    (hflat : ∀ x ∈ flat, x.key = r.key → x.seq ≤ r.seq)
    (hrecs : ∀ x ∈ pre ++ r :: post, x.key = r.key → x.seq ≤ r.seq)
    (htabs : ∀ x ∈ tabRecs tabs, x.key = r.key → x.seq ≤ r.seq) :
    LastAnswers (flat ++ (pre ++ r :: post)) tabs r.key r.toEntry.visible := by
  refine .last (flat ++ pre) r post (List.append_assoc _ _ _).symm rfl hpost
    ?_ htabs rfl
  intro x hx hxk
  rcases List.mem_append.mp hx with hx | hx
  · exact hflat x hx hxk
  · exact hrecs x hx hxk

/-- Records leave the front of the log; when the key leaves with them the tables must
answer. -/
theorem LastAnswers.drop_front {front : List Record} (h : LastAnswers (front ++ flat) tabs k m)
    (hm : (∀ x ∈ flat, x.key ≠ k) → Answers (tabRecs tabs) k m) : LastAnswers flat tabs k m := by
  by_cases hno : ∀ x ∈ flat, x.key ≠ k
  · exact .absent hno (hm hno)
  · cases h with
    | absent hflat _ => exact absurd (fun x hx => hflat x (List.mem_append_right _ hx)) hno
    | last pre r post hflat hk hpost hmax htabs hm' =>
          -- the last record of the key lies behind the front
        rcases List.append_eq_append_iff.mp hflat with ⟨mid, rfl, rfl⟩ | ⟨mid, rfl, hmid⟩
        · exact .last mid r post rfl hk hpost
            (fun x hx => hmax x (List.mem_append_right _ hx)) htabs hm'
        · cases mid with
          | nil =>
              rw [List.nil_append] at hmid
              subst hmid
              exact .last [] r post rfl hk hpost
                (fun x hx => hmax x (List.mem_append_right _ hx)) htabs hm'
          | cons y mid =>
              obtain ⟨-, rfl⟩ := List.cons.inj hmid
              exact absurd (fun x hx => hpost x (List.mem_append_right _ hx)) hno

/-- Other tables in the place of the old ones. -/
theorem LastAnswers.setTabs (h : LastAnswers flat tabs k m)
    (hle : ∀ r : Record, r ∈ flat → r.key = k →
      (∀ x ∈ flat, x.key = k → x.seq ≤ r.seq) → (∀ x ∈ tabRecs tabs, x.key = k → x.seq ≤ r.seq) →
      ∀ x ∈ tabRecs tabs', x.key = k → x.seq ≤ r.seq)
    (hm : (∀ x ∈ flat, x.key ≠ k) → Answers (tabRecs tabs) k m → Answers (tabRecs tabs') k m) :
    LastAnswers flat tabs' k m := by
  cases h with
  | absent hno hm' => exact .absent hno (hm hno hm')
  | last pre r post hflat hk hpost hmax htabs hm' =>
      exact .last pre r post hflat hk hpost hmax (hle r (by rw [hflat]; simp) hk hmax htabs) hm'

/-- The memtable a restart builds holds the last record of the key as its newest. -/
theorem replayed_newest {logs : List (Nat × List Record)} {pre post : List Record} {r : Record}
    (hflat : flatten logs = pre ++ r :: post) (hpost : ∀ x ∈ post, x.key ≠ r.key)
    (hmax : ∀ x ∈ flatten logs, x.key = r.key → x.seq ≤ r.seq) :
    NewestAt (recordsOf (replayed logs).records) r.key newest r := by
  refine ⟨?_, rfl, le_newest _, ?_⟩
  · have hlast : r ∈ (MemTable.new.putAll (pre ++ r :: post)).records :=
      MemTable.mem_putAll_of_last fun x hx hv => hpost x hx hv.1.symm
    unfold replayed
    rw [show logs.flatMap Prod.snd = pre ++ r :: post from hflat]
    exact hlast
  · intro x hx hxk _
    rcases MemTable.mem_of_mem_putAll hx with hx | hx
    · cases hx
    · exact hmax x hx hxk

theorem mem_replayed {logs : List (Nat × List Record)} {r : Record}
    (hr : r ∈ (replayed logs).records) : r ∈ logRecs logs := by
  rcases MemTable.mem_of_mem_putAll hr with hr | hr
  · cases hr
  · exact mem_flatten.mp hr

/-- A restart answers as promised. -/
theorem LastAnswers.answers {logs : List (Nat × List Record)}
    (h : LastAnswers (flatten logs) tabs k m) :
    Answers (recordsOf (replayed logs).records ∪ tabRecs tabs) k m := by
  cases h with
  | absent hno hm =>
      refine hm.congr fun r hrk => ?_
      refine ⟨fun hr => hr.resolve_left fun hr => ?_, Or.inr⟩
      exact hno r (mem_flatten.mpr (mem_replayed hr)) hrk
  | last pre r post hflat hk hpost hmax htabs hm =>
      subst hk
      have hnew := replayed_newest hflat hpost hmax
      subst hm
      refine Answers.of_top (Or.inl hnew.mem) ?_
      intro x hx hxk
      rcases hx with hx | hx
      · exact hnew.max x hx hxk (le_newest _)
      · exact htabs x hx hxk

end LastAnswers

/-! ### Segments in log order -/

structure LogSound (g : Guard) (v : View) (h : Handle) (l : Ledger) : Prop where
  sorted : v.logs.Pairwise (fun p q => p.1 < q.1)
  ids : v.logs.map Prod.fst =
    h.stage.pending.toList ++ h.entries.map ImmutableMemTable.walID
  /-- The records of a memtable are in its segment. -/
  logged : ∀ e ∈ h.entries, ∀ r ∈ h.recsOf e, ∃ p ∈ v.logs, p.1 = e.walID ∧ r ∈ p.2
  /-- What a segment holds is newer than the tables, and than older memtables. -/
  above_tabs : ∀ p ∈ v.logs, h.stage.pending ≠ some p.1 →
    Above (recordsOf p.2) (tabRecs v.tabs)
  above_mems : ∀ p ∈ v.logs, ∀ e ∈ h.entries, e.walID < p.1 →
    Above (recordsOf p.2) (recordsOf (h.recsOf e))
  /-- Unless a batch may be left in the log only. -/
  seq_lt : ¬ g.logOnly → ∀ r ∈ logRecs v.logs, r.seq < h.nextSeq
  last : ∀ k m, l k = some m → LastAnswers (flatten v.logs) v.tabs k m

/-- The active segment is the last one. -/
theorem LogSound.split {g : Guard} {v : View} {h : Handle} {l : Ledger} (hv : LogSound g v h l) :
    ∃ init rs, v.logs = init ++ [(h.wal, rs)] ∧ ∀ p ∈ init, p.1 < h.wal := by
  have hids := hv.ids
  unfold Handle.entries at hids
  rw [List.map_append, List.map_singleton, ← List.append_assoc] at hids
  obtain ⟨init, lst, hlogs, -, hlst⟩ := List.map_eq_append_iff.mp hids
  obtain ⟨⟨id, rs⟩, rfl, rfl⟩ := List.map_eq_singleton_iff.mp hlst
  refine ⟨init, rs, hlogs, fun p hp => ?_⟩
  have hsorted := hv.sorted
  rw [hlogs, List.pairwise_append] at hsorted
  exact hsorted.2.2 p hp _ List.mem_cons_self

theorem appendLog_split {id : Nat} {init : List (Nat × List Record)} {rs recs : List Record}
    (hinit : ∀ p ∈ init, p.1 < id) :
    appendLog id recs (init ++ [(id, rs)]) = init ++ [(id, rs ++ recs)] := by
  unfold appendLog
  rw [List.map_append, List.map_singleton, if_pos rfl]
  congr 1
  exact (List.map_congr_left fun p hp => if_neg (hinit p hp).ne).trans (List.map_id' init)

/-- What appending to the active segment does, for whatever becomes of the memtables. -/
structure Appended (v : View) (h : Handle) (recs : List Record)
    (logs : List (Nat × List Record)) : Prop where
  flat : flatten logs = flatten v.logs ++ recs
  ids : logs.map Prod.fst = v.logs.map Prod.fst
  le_wal : ∀ p ∈ logs, p.1 ≤ h.wal
  old : ∀ p ∈ v.logs, ∃ q ∈ logs, q.1 = p.1 ∧ ∀ r ∈ p.2, r ∈ q.2
  active : ∀ r ∈ recs, ∃ q ∈ logs, q.1 = h.wal ∧ r ∈ q.2
  mem : ∀ q ∈ logs, ∀ r ∈ q.2, (∃ p ∈ v.logs, p.1 = q.1 ∧ r ∈ p.2) ∨ q.1 = h.wal ∧ r ∈ recs

theorem LogSound.appended {g : Guard} {v : View} {h : Handle} {l : Ledger}
    (hv : LogSound g v h l) (recs : List Record) :
    Appended v h recs (appendLog h.wal recs v.logs) := by
  obtain ⟨init, rs, hlogs, hinit⟩ := hv.split
  rw [hlogs, appendLog_split hinit]
  refine ⟨?_, by simp [hlogs], ?_, ?_, ?_, ?_⟩
  · rw [hlogs, flatten_append, flatten_append, flatten_singleton, flatten_singleton,
      List.append_assoc]
  · intro p hp
    rcases List.mem_append.mp hp with hp | hp
    · exact (hinit p hp).le
    · rw [List.mem_singleton.mp hp]
  · intro p hp
    rw [hlogs] at hp
    rcases List.mem_append.mp hp with hp | hp
    · exact ⟨p, List.mem_append_left _ hp, rfl, fun r hr => hr⟩
    · rw [List.mem_singleton.mp hp]
      exact ⟨_, List.mem_append_right _ List.mem_cons_self, rfl,
        fun r hr => List.mem_append_left _ hr⟩
  · exact fun r hr =>
      ⟨_, List.mem_append_right _ List.mem_cons_self, rfl, List.mem_append_right _ hr⟩
  · intro q hq r hr
    rw [hlogs]
    rcases List.mem_append.mp hq with hq | hq
    · exact Or.inl ⟨q, List.mem_append_left _ hq, rfl, hr⟩
    · obtain rfl := List.mem_singleton.mp hq
      rcases List.mem_append.mp hr with hr | hr
      · exact Or.inl ⟨_, List.mem_append_right _ List.mem_cons_self, rfl, hr⟩
      · exact Or.inr ⟨rfl, hr⟩

section LogMoves

variable {g : Guard} {v : View} {h : Handle} {l : Ledger} (hlive : LiveSound v h l)
  (hlog : LogSound g v h l)

include hlog

theorem LogSound.weaken {l' : Ledger} (hl : Weaker l' l) : LogSound g v h l' :=
  { hlog with last := fun k m hk => hlog.last k m (hl k m hk) }

/-- The parts of the invariant that do not speak of promises, after an append. -/
theorem LogSound.append_above {recs : List Record} {n : Nat} (hs : Sequenced h.nextSeq n recs)
    (hlt : ∀ r ∈ v.live h, r.seq < h.nextSeq) {logs : List (Nat × List Record)}
    (ha : Appended v h recs logs) :
    (∀ p ∈ logs, h.stage.pending ≠ some p.1 → Above (recordsOf p.2) (tabRecs v.tabs)) ∧
      ∀ p ∈ logs, ∀ e ∈ h.entries, e.walID < p.1 →
        Above (recordsOf p.2) (recordsOf (h.recsOf e)) := by
  constructor
  · intro q hq hpend r hr b hb hk
    rcases ha.mem q hq r hr with ⟨p, hp, hid, hr⟩ | ⟨-, hr⟩
    · exact hlog.above_tabs p hp (hid ▸ hpend) r hr b hb hk
    · exact hs.newer hr (hlt b (Or.inr hb))
  · intro q hq e he hlt' r hr b hb hk
    rcases ha.mem q hq r hr with ⟨p, hp, hid, hr⟩ | ⟨-, hr⟩
    · exact hlog.above_mems p hp e he (hid ▸ hlt') r hr b hb hk
    · exact hs.newer hr (hlt b (mem_live_of_entry he hb))

omit hlog in
theorem sorted_of_ids {logs logs' : List (Nat × List Record)}
    (hids : logs'.map Prod.fst = logs.map Prod.fst)
    (hs : logs.Pairwise (fun p q => p.1 < q.1)) : logs'.Pairwise (fun p q => p.1 < q.1) := by
  have h1 : (logs.map Prod.fst).Pairwise (· < ·) := List.pairwise_map.mpr hs
  exact List.pairwise_map.mp (hids ▸ h1)

include hlive

theorem LogSound.write {recs : List Record} {n : Nat} (hs : Sequenced h.nextSeq n recs)
    (hguard : g.logOnly → ∀ r ∈ recs, ∀ x ∈ logRecs v.logs, x.key = r.key → x.seq ≤ r.seq)
    (handle : Option Handle) :
    LogSound g { v with logs := appendLog h.wal recs v.logs, handle } (h.write recs n)
      (record l recs) := by
  have ha := hlog.appended recs
  obtain ⟨htabs, hmems⟩ := hlog.append_above hs hlive.seq_lt ha
  have hold : ∀ r ∈ recs, ∀ x ∈ logRecs v.logs, x.key = r.key → x.seq ≤ r.seq := by
    intro r hr x hx hk
    by_cases hg : g.logOnly
    · exact hguard hg r hr x hx hk
    · exact (hs.newer hr (hlog.seq_lt hg x hx)).le
  refine ⟨sorted_of_ids ha.ids hlog.sorted, ha.ids.trans hlog.ids, ?_, htabs, ?_, ?_, ?_⟩
  · intro e he r hr
    rcases Handle.mem_recsOf_write hr with hr | ⟨hm, hr⟩
    · obtain ⟨p, hp, hid, hr⟩ := hlog.logged e he r hr
      obtain ⟨q, hq, hqid, hsub⟩ := ha.old p hp
      exact ⟨q, hq, hqid.trans hid, hsub r hr⟩
    · obtain ⟨q, hq, hqid, hr⟩ := ha.active r hr
      exact ⟨q, hq, hqid.trans (entry_wal hlive.refs he hm).symm, hr⟩
  · intro p hp e he hlt r hr b hb hk
    rcases Handle.mem_recsOf_write hb with hb | ⟨hm, -⟩
    · exact hmems p hp e he hlt r hr b hb hk
    · have hwal := entry_wal hlive.refs he hm
      exact absurd (ha.le_wal p hp) (by omega)
  · intro hg r hr
    rw [← mem_flatten] at hr
    rw [show flatten _ = _ from ha.flat, List.mem_append, mem_flatten] at hr
    rcases hr with hr | hr
    · exact hs.lt_next (Or.inl (hlog.seq_lt hg r hr))
    · exact hs.lt_next (Or.inr hr)
  · intro k m hk
    show LastAnswers (flatten (appendLog h.wal recs v.logs)) v.tabs k m
    rw [ha.flat]
    rcases record_cases l recs k with ⟨hno, heq⟩ | ⟨pre, r, post, rfl, rfl, hpost, heq⟩
    · rw [heq] at hk
      exact (hlog.last k m hk).append_other hno
    · rw [heq] at hk
      obtain rfl := Option.some.inj hk
      refine LastAnswers.append_last hpost ?_ (fun x hx hxk => hs.le_last hpost hx hxk) ?_
      · exact fun x hx hxk => hold r (by simp) x (mem_flatten.mp hx) hxk
      · exact fun x hx _ => (hs.newer (by simp) (hlive.seq_lt x (Or.inr hx))).le

/-- A batch that reaches the log only. -/
theorem LogSound.logOnly {recs : List Record} {n : Nat} (hs : Sequenced h.nextSeq n recs)
    {l' : Ledger} (hl : WeakerWithout recs l' l) (hg : g.logOnly) :
    LogSound g { v with logs := appendLog h.wal recs v.logs } h l' := by
  have ha := hlog.appended recs
  obtain ⟨htabs, hmems⟩ := hlog.append_above hs hlive.seq_lt ha
  refine ⟨sorted_of_ids ha.ids hlog.sorted, ha.ids.trans hlog.ids, ?_, htabs, hmems,
    fun hno => absurd hg hno, ?_⟩
  · intro e he r hr
    obtain ⟨p, hp, hid, hr⟩ := hlog.logged e he r hr
    obtain ⟨q, hq, hqid, hsub⟩ := ha.old p hp
    exact ⟨q, hq, hqid.trans hid, hsub r hr⟩
  · intro k m hk
    obtain ⟨hk, hno⟩ := hl k m hk
    show LastAnswers (flatten (appendLog h.wal recs v.logs)) v.tabs k m
    rw [ha.flat]
    exact (hlog.last k m hk).append_other hno

omit hlive in
theorem LogSound.rotate {ref id : Nat} (href : ∀ e ∈ h.entries, e.memTable ≠ ref)
    (hid : ∀ p ∈ v.logs, p.1 < id) (handle : Option Handle) :
    LogSound g { v with logs := v.logs ++ [(id, [])], handle } (h.enqueue.switch ref id) l := by
  have hflat : flatten (v.logs ++ [(id, [])]) = flatten v.logs := by simp
  refine ⟨?_, ?_, ?_, ?_, ?_, ?_, ?_⟩
  · refine List.pairwise_append.mpr ⟨hlog.sorted, List.pairwise_singleton _ _, ?_⟩
    intro p hp q hq
    rw [List.mem_singleton.mp hq]
    exact hid p hp
  · rw [Handle.entries_rotate, List.map_append, List.map_append, hlog.ids, List.append_assoc]
    rfl
  · intro e he r hr
    rw [Handle.entries_rotate, List.mem_append, List.mem_singleton] at he
    rcases he with he | rfl
    · rw [Handle.recsOf_rotate_of_mem href he] at hr
      obtain ⟨p, hp, hpid, hr⟩ := hlog.logged e he r hr
      exact ⟨p, List.mem_append_left _ hp, hpid, hr⟩
    · rw [Handle.recsOf_rotate_new] at hr
      cases hr
  · intro p hp hpend
    rcases List.mem_append.mp hp with hp | hp
    · exact hlog.above_tabs p hp hpend
    · rw [List.mem_singleton.mp hp]
      exact fun r hr => absurd hr (by simp)
  · intro p hp e he hlt
    rw [Handle.entries_rotate, List.mem_append, List.mem_singleton] at he
    rcases List.mem_append.mp hp with hp | hp
    · rcases he with he | rfl
      · rw [Handle.recsOf_rotate_of_mem href he]
        exact hlog.above_mems p hp e he hlt
      · exact absurd (hid p hp) (Nat.lt_asymm hlt)
    · rw [List.mem_singleton.mp hp]
      exact fun r hr => absurd hr (by simp)
  · intro hg r hr
    have hr' : r ∈ logRecs v.logs := by
      rwa [← mem_flatten, ← hflat, mem_flatten]
    exact hlog.seq_lt hg r hr'
  · intro k m hk
    show LastAnswers (flatten (v.logs ++ [(id, [])])) v.tabs k m
    rw [hflat]
    exact hlog.last k m hk

omit hlive in
/-- A step of the flush worker that touches no segment. -/
theorem LogSound.setStage {stage : Stage} (hpend : stage.pending = h.stage.pending)
    (handle : Option Handle) : LogSound g { v with handle } { h with stage } l := by
  refine ⟨hlog.sorted, ?_, hlog.logged, ?_, hlog.above_mems, hlog.seq_lt, hlog.last⟩
  · show _ = stage.pending.toList ++ _
    rw [hpend]
    exact hlog.ids
  · intro p hp hne
    rw [show Handle.stage _ = stage from rfl, hpend] at hne
    exact hlog.above_tabs p hp hne

omit hlive in
theorem LogSound.setReaders (readers : List UInt64) (handle : Option Handle) :
    LogSound g { v with handle } { h with readers } l :=
  ⟨hlog.sorted, hlog.ids, hlog.logged, hlog.above_tabs, hlog.above_mems, hlog.seq_lt, hlog.last⟩

/-- Published records were in the log. -/
theorem LogSound.publish {imm : ImmutableMemTable} {tab : Tab} {qs : List ImmutableMemTable}
    (hstage : h.stage = .written imm tab) (hq : h.queue = imm :: qs) (handle : Option Handle) :
    LogSound g { v with tabs := v.tabs ++ [tab], handle }
      { h with queue := qs, stage := .removing imm.walID } l := by
  have hsound := hlive.stage
  unfold StageSound at hsound
  rw [hstage] at hsound
  obtain ⟨-, hrecs, -⟩ := hsound
  have hentries : h.entries =
      imm :: ({ h with queue := qs, stage := .removing imm.walID } : Handle).entries := by
    unfold Handle.entries
    rw [hq, List.cons_append]
  have hids := hlog.ids
  rw [hstage, hentries] at hids
  have himm : imm ∈ h.entries := hentries ▸ List.mem_cons_self
  have hfirst : ∀ p ∈ v.logs, p.1 ≠ imm.walID → imm.walID < p.1 := by
    have hsorted : (v.logs.map Prod.fst).Pairwise (· < ·) := List.pairwise_map.mpr hlog.sorted
    rw [hids] at hsorted
    intro p hp hne
    have hmem : p.1 ∈ v.logs.map Prod.fst := List.mem_map_of_mem hp
    rw [hids] at hmem
    rcases List.mem_cons.mp hmem with heq | hmem
    · exact absurd heq hne
    · exact (List.pairwise_cons.mp hsorted).1 _ hmem
  refine ⟨hlog.sorted, hids, ?_, ?_, ?_, hlog.seq_lt, ?_⟩
  · exact fun e he => hlog.logged e (hentries ▸ List.mem_cons_of_mem _ he)
  · intro p hp hpend r hr b hb hk
    rcases mem_tabRecs_append.mp hb with hb | hb
    · exact hlog.above_tabs p hp (by simp [hstage, Stage.pending]) r hr b hb hk
    · have hlt := hfirst p hp fun heq => hpend (congrArg some heq.symm)
      exact hlog.above_mems p hp imm himm hlt r hr b (hrecs ▸ hb) hk
  · exact fun p hp e he => hlog.above_mems p hp e (hentries ▸ List.mem_cons_of_mem _ he)
  · intro k m hk
    have hlogged : ∀ x ∈ tab.recs, x ∈ flatten v.logs := by
      intro x hx
      obtain ⟨p, hp, -, hx⟩ := hlog.logged imm himm x (hrecs ▸ hx)
      exact mem_flatten.mpr ⟨p, hp, hx⟩
    refine (hlog.last k m hk).setTabs ?_ ?_
    · intro r hr hrk hmax htabs x hx hxk
      rcases mem_tabRecs_append.mp hx with hx | hx
      · exact htabs x hx hxk
      · exact hmax x (hlogged x hx) hxk
    · intro hno hm
      refine hm.congr fun r hrk => ?_
      rw [mem_tabRecs_append]
      exact or_iff_left fun hr => hno r (hlogged r hr) hrk

omit hlog in
/-- When the log says nothing about a key, memory says nothing about it. -/
theorem answers_of_not_logged {k : Key} {m : Option Bytes} (hk : l k = some m)
    (hno : ∀ e ∈ h.entries, ∀ r ∈ h.recsOf e, r.key ≠ k) : Answers (tabRecs v.tabs) k m := by
  refine (hlive.answers k m hk).congr fun r hrk => ?_
  refine ⟨Or.inr, fun hr => hr.resolve_left ?_⟩
  intro hmem
  obtain ⟨e, he, hr⟩ := hmem
  exact hno e he r hr hrk

theorem LogSound.removeSegment {id : Nat} (hstage : h.stage = .removing id)
    (handle : Option Handle) :
    LogSound g { v with logs := removeLog id v.logs, handle } { h with stage := .idle } l := by
  have hids := hlog.ids
  rw [hstage] at hids
  obtain ⟨⟨id', front⟩, rest, hlogs, rfl, hrest⟩ := List.map_eq_cons_iff.mp hids
  have hsorted := hlog.sorted
  rw [hlogs, List.pairwise_cons] at hsorted
  obtain ⟨hfirst, hsorted⟩ := hsorted
  have hremoved : removeLog id' v.logs = rest := by
    unfold removeLog
    rw [hlogs, List.filter_cons_of_neg (by simp)]
    exact List.filter_eq_self.mpr fun p hp => decide_eq_true (hfirst p hp).ne'
  have hmem : ∀ p ∈ rest, p ∈ v.logs := fun p hp => hlogs ▸ List.mem_cons_of_mem _ hp
  have hlogged : ∀ e ∈ h.entries, ∀ r ∈ h.recsOf e, ∃ p ∈ rest, p.1 = e.walID ∧ r ∈ p.2 := by
    intro e he r hr
    obtain ⟨p, hp, hpid, hr⟩ := hlog.logged e he r hr
    rw [hlogs] at hp
    rcases List.mem_cons.mp hp with rfl | hp
    · have hin : e.walID ∈ rest.map Prod.fst := hrest ▸ List.mem_map_of_mem he
      obtain ⟨q, hq, hqid⟩ := List.mem_map.mp hin
      exact absurd (hqid.trans hpid.symm) (hfirst q hq).ne'
    · exact ⟨p, hp, hpid, hr⟩
  rw [hremoved]
  refine ⟨hsorted, hrest, hlogged, ?_, fun p hp => hlog.above_mems p (hmem p hp), ?_, ?_⟩
  · intro p hp _
    refine hlog.above_tabs p (hmem p hp) ?_
    rw [hstage]
    exact fun heq => (hfirst p hp).ne (Option.some.inj heq)
  · intro hg r hr
    obtain ⟨p, hp, hr⟩ := hr
    exact hlog.seq_lt hg r ⟨p, hmem p hp, hr⟩
  · intro k m hk
    have hlast := hlog.last k m hk
    rw [hlogs, flatten_cons] at hlast
    refine hlast.drop_front fun hno => ?_
    refine answers_of_not_logged hlive hk fun e he r hr => ?_
    obtain ⟨p, hp, -, hr⟩ := hlogged e he r hr
    exact hno r (mem_flatten.mpr ⟨p, hp, hr⟩)

theorem LogSound.compact {tabs inputs : List Tab} {options : MergeOptions} {out : Tab}
    (hc : Compacts h.readers v.tabs tabs inputs options out) : LogSound g { v with tabs } h l := by
  have hsub := hc.tabRecs_sub
  refine ⟨hlog.sorted, hlog.ids, hlog.logged, ?_, hlog.above_mems, hlog.seq_lt, ?_⟩
  · exact fun p hp hpend => (hlog.above_tabs p hp hpend).mono (Set.Subset.refl _) hsub
  · intro k m hk
    refine (hlog.last k m hk).setTabs (fun r _ _ _ htabs x hx => htabs x (hsub hx)) ?_
    intro hno _
    refine answers_of_not_logged (hlive.compact hc) hk fun e he r hr => ?_
    obtain ⟨p, hp, -, hr⟩ := hlog.logged e he r hr
    exact hno r (mem_flatten.mpr ⟨p, hp, hr⟩)

end LogMoves

/-! ### Between processes -/

/-- A database that was closed: at most one segment, over the tables. -/
structure Closed (v : View) (l : Ledger) : Prop where
  single : v.logs.length ≤ 1
  above : Above (logRecs v.logs) (tabRecs v.tabs)
  layers : Layers [] v.tabs
  consistent : Consistent (tabRecs v.tabs)
  last : ∀ k m, l k = some m → LastAnswers (flatten v.logs) v.tabs k m

theorem Closed.of_close {g : Guard} {v : View} {h : Handle} {l : Ledger}
    (hlive : LiveSound v h l) (hlog : LogSound g v h l) (hq : h.queue = [])
    (hstage : h.stage = .idle) : Closed { v with handle := none } l := by
  have hids := hlog.ids
  unfold Handle.entries at hids
  rw [hstage, hq] at hids
  refine ⟨?_, ?_, ?_, hlive.consistent.mono Set.subset_union_right, hlog.last⟩
  · have hlen := congrArg List.length hids
    rw [List.length_map] at hlen
    exact hlen.le
  · intro r hr b hb hk
    obtain ⟨p, hp, hr⟩ := hr
    exact hlog.above_tabs p hp (by simp [hstage, Stage.pending]) r hr b hb hk
  · exact { hlive.layers with mem_above := by simp, mems_above := .nil }

section Opening

variable {g : Guard} {v : View} {h : Handle} {l : Ledger} (hv : Closed v l)
  (hmem : h.heap h.memtable = replayed v.logs) (hqueue : h.queue = []) (hstage : h.stage = .idle)
  (hseq : ∀ r ∈ v.durable, r.seq < h.nextSeq)

include hv hmem hqueue hstage hseq

theorem Closed.openLive (logs : List (Nat × List Record)) (handle : Option Handle) :
    LiveSound { v with logs, handle } h l := by
  have hentries : h.entries = [⟨h.memtable, h.wal⟩] := by
    unfold Handle.entries
    rw [hqueue, List.nil_append]
  have hrecs : h.recsOf ⟨h.memtable, h.wal⟩ = (replayed v.logs).records :=
    congrArg MemTable.records hmem
  have hmems : h.memRecs = recordsOf (replayed v.logs).records := by
    unfold Handle.memRecs
    rw [hentries]
    ext r
    simp [hrecs]
  have hlive : View.live { v with logs, handle } h =
      recordsOf (replayed v.logs).records ∪ tabRecs v.tabs := by
    unfold View.live
    rw [hmems]
  have habove : Above (recordsOf (replayed v.logs).records) (tabRecs v.tabs) :=
    hv.above.mono (fun r hr => mem_replayed hr) (Set.Subset.refl _)
  refine ⟨?_, by rw [hentries]; simp, ?_, ?_, ?_, ?_⟩
  · rw [hentries, List.map_singleton, hrecs]
    refine { hv.layers with mem_above := ?_, mems_above := List.pairwise_singleton _ _ }
    intro m hm
    rw [List.mem_singleton.mp hm]
    exact habove
  · unfold StageSound
    rw [hstage]
    trivial
  · rw [hlive]
    exact habove.consistent_union (consistent_recordsOf _) hv.consistent
  · intro r hr
    rw [hlive] at hr
    exact hseq r (hr.imp_left mem_replayed)
  · intro k m hk
    rw [hlive]
    exact (hv.last k m hk).answers

theorem Closed.openLog {id : Nat} {logs : List (Nat × List Record)} (hid : ∀ p ∈ v.logs, p.1 ≤ id)
    (hlogs : (logs = v.logs ∧ ∃ p ∈ v.logs, p.1 = id) ∨ logs = [(id, [])] ∧ v.logs = [])
    (hwal : h.wal = id) (handle : Option Handle) : LogSound g { v with logs, handle } h l := by
  have hentries : h.entries = [⟨h.memtable, id⟩] := by
    unfold Handle.entries
    rw [hqueue, hwal, List.nil_append]
  have hshape : ∃ recs, logs = [(id, recs)] ∧ flatten v.logs = recs := by
    rcases hlogs with ⟨rfl, p, hp, rfl⟩ | ⟨rfl, hnil⟩
    · have hsingle := hv.single
      obtain ⟨q, hq⟩ := List.length_eq_one_iff.mp
        (Nat.le_antisymm hsingle (List.length_pos_of_mem hp))
      rw [hq, List.mem_singleton] at hp
      exact ⟨p.2, by rw [hq, hp], by rw [hq, hp, flatten_singleton]⟩
    · exact ⟨[], rfl, by rw [hnil]; rfl⟩
  obtain ⟨recs, rfl, hflat⟩ := hshape
  have hlogRecs : ∀ r, r ∈ recs ↔ r ∈ logRecs v.logs := fun r => by rw [← mem_flatten, hflat]
  refine ⟨List.pairwise_singleton _ _, ?_, ?_, ?_, ?_, ?_, ?_⟩
  · rw [hstage, hentries]
    rfl
  · intro e he r hr
    rw [hentries, List.mem_singleton] at he
    subst he
    refine ⟨_, List.mem_cons_self, rfl, (hlogRecs r).mpr (mem_replayed ?_)⟩
    rw [← hmem]
    exact hr
  · intro p hp _ r hr
    rw [List.mem_singleton.mp hp] at hr
    exact hv.above r ((hlogRecs r).mp hr)
  · intro p hp e he hlt
    rw [List.mem_singleton.mp hp] at hlt
    rw [hentries, List.mem_singleton] at he
    subst he
    exact absurd hlt (lt_irrefl _)
  · intro _ r hr
    obtain ⟨p, hp, hr⟩ := hr
    rw [List.mem_singleton.mp hp] at hr
    exact hseq r (Or.inl ((hlogRecs r).mp hr))
  · intro k m hk
    show LastAnswers (flatten [(id, recs)]) v.tabs k m
    rw [flatten_singleton, ← hflat]
    exact hv.last k m hk

end Opening

/-! ### Every move -/

/-- The invariant of runs without a crash. -/
def CrashFree (g : Guard) (s : View × Ledger) : Prop :=
  match s.1.handle with
  | some h => LiveSound s.1 h s.2 ∧ LogSound g s.1 h s.2
  | none => Closed s.1 s.2

/-- The conditions under which `CrashFree` is kept: no crash, no failed rotation, and when a
batch may be left in the log only, no write under a newer version of its key in the log. -/
structure Guard.CrashFree (g : Guard) : Prop where
  crash : ¬ g.crash
  rotateFail : ¬ g.rotateFail
  write : g.logOnly → ∀ v recs, g.write v recs →
    ∀ r ∈ recs, ∀ x ∈ logRecs v.logs, x.key = r.key → x.seq ≤ r.seq

theorem CrashFree.running {g : Guard} {v : View} {h : Handle} {l : Ledger}
    (hh : v.handle = some h) : CrashFree g (v, l) ↔ LiveSound v h l ∧ LogSound g v h l := by
  unfold CrashFree
  rw [show (v, l).1.handle = some h from hh]

theorem CrashFree.stopped {g : Guard} {v : View} {l : Ledger} (hh : v.handle = none) :
    CrashFree g (v, l) ↔ Closed v l := by
  unfold CrashFree
  rw [show (v, l).1.handle = none from hh]

theorem CrashFree.move {g : Guard} (hg : g.CrashFree) {s s' : View × Ledger} (hm : Move g s s')
    (hs : CrashFree g s) : CrashFree g s' := by
  cases hm with
  | @forget v l l' hl =>
      cases hh : v.handle with
      | some h =>
          obtain ⟨hlive, hlog⟩ := (CrashFree.running hh).mp hs
          exact (CrashFree.running hh).mpr ⟨hlive.weaken hl, hlog.weaken hl⟩
      | none =>
          have hv := (CrashFree.stopped hh).mp hs
          exact (CrashFree.stopped hh).mpr
            { hv with last := fun k m hk => hv.last k m (hl k m hk) }
  | @write v l h recs n hh hseq hw =>
      obtain ⟨hlive, hlog⟩ := (CrashFree.running hh).mp hs
      exact ⟨hlive.write hseq _ _, hlog.write hlive hseq (fun hlo => hg.write hlo v recs hw) _⟩
  | @logOnly v l l' h recs n hh hseq hl hlo =>
      obtain ⟨hlive, hlog⟩ := (CrashFree.running hh).mp hs
      refine (CrashFree.running (h := h) (by exact hh)).mpr ⟨?_, hlog.logOnly hlive hseq hl hlo⟩
      exact (hlive.weaken fun k m hk => (hl k m hk).1).setLogs _
  | crashLogged _ _ _ hc => exact absurd hc hg.crash
  | @rotate v l h ref id hh hid href =>
      obtain ⟨hlive, hlog⟩ := (CrashFree.running hh).mp hs
      exact ⟨hlive.rotate href _ _, hlog.rotate href hid _⟩
  | rotateFail _ _ hr => exact absurd hr hg.rotateFail
  | segment _ _ hc => exact (hc.elim hg.crash hg.rotateFail).elim
  | @reserve v l h imm qs hh hstage hq =>
      obtain ⟨hlive, hlog⟩ := (CrashFree.running hh).mp hs
      exact ⟨hlive.setStage (.reserved imm) ⟨qs, hq⟩ _ _,
        hlog.setStage (by simp [hstage, Stage.pending]) _⟩
  | @writeTable v l h imm tab hh hstage hrecs hlevel _ =>
      obtain ⟨hlive, hlog⟩ := (CrashFree.running hh).mp hs
      have hsound := hlive.stage
      unfold StageSound at hsound
      rw [hstage] at hsound
      exact ⟨hlive.setStage (.written imm tab) ⟨hsound, hrecs, hlevel⟩ _ _,
        hlog.setStage (by simp [hstage, Stage.pending]) _⟩
  | @publish v l h imm tab qs hh hstage hq _ =>
      obtain ⟨hlive, hlog⟩ := (CrashFree.running hh).mp hs
      exact ⟨hlive.publish hstage hq _ _, hlog.publish hlive hstage hq _⟩
  | @removeSegment v l h id hh hstage =>
      obtain ⟨hlive, hlog⟩ := (CrashFree.running hh).mp hs
      exact ⟨hlive.setStage .idle trivial _ _, hlog.removeSegment hlive hstage _⟩
  | @compact v l h tabs inputs options out hh hc _ =>
      obtain ⟨hlive, hlog⟩ := (CrashFree.running hh).mp hs
      exact (CrashFree.running (h := h) (by exact hh)).mpr
        ⟨hlive.compact hc, hlog.compact hlive hc⟩
  | @readers v l h readers hh =>
      obtain ⟨hlive, hlog⟩ := (CrashFree.running hh).mp hs
      exact ⟨hlive.setReaders _ _, hlog.setReaders _ _⟩
  | crash hc => exact absurd hc hg.crash
  | @close v l h hh hq hstage =>
      obtain ⟨hlive, hlog⟩ := (CrashFree.running hh).mp hs
      exact Closed.of_close hlive hlog hq hstage
  | @openAt v l h logs id hh hid hlogs hmem hqueue hwal hstage hseq =>
      have hv := (CrashFree.stopped hh).mp hs
      refine ⟨hv.openLive hmem hqueue hstage hseq _ _,
        hv.openLog hmem hqueue hstage hseq hid (hlogs.imp_right ?_) hwal _⟩
      intro hnew
      obtain ⟨rfl, -, hnil⟩ := hnew
      have hnil := hnil.resolve_left hg.rotateFail
      exact ⟨by rw [hnil, List.nil_append], hnil⟩

theorem CrashFree.moves {g : Guard} (hg : g.CrashFree) {s s' : View × Ledger}
    (hm : Moves g s s') (hs : CrashFree g s) : CrashFree g s' := by
  induction hm with
  | refl => exact hs
  | tail _ hm ih => exact ih.move hg hm

/-- Of the guard only matters whether a batch may be left in the log. -/
theorem CrashFree.guard {g g' : Guard} (h : ¬ g'.logOnly → ¬ g.logOnly) {s : View × Ledger}
    (hs : CrashFree g s) : CrashFree g' s := by
  unfold CrashFree at hs ⊢
  split
  · rename_i hh
    rw [hh] at hs
    exact ⟨hs.1, { hs.2 with seq_lt := fun hg => hs.2.seq_lt (h hg) }⟩
  · rename_i hh
    rw [hh] at hs
    exact hs

/-- An empty directory. -/
theorem CrashFree.empty (g : Guard) :
    CrashFree g (⟨[], [], none⟩, fun _ => some none) := by
  refine ⟨Nat.zero_le _, ?_, Layers.empty, ?_, ?_⟩
  · exact fun r hr => by simp [logRecs] at hr
  · exact fun r hr => by simp [tabRecs] at hr
  · intro k m hk
    obtain rfl := Option.some.inj hk
    refine .absent (by simp) ⟨none, ?_, rfl⟩
    exact fun r hr => by simp [tabRecs] at hr

end HyphaDB.Store
