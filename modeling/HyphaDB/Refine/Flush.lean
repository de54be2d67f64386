import HyphaDB.Refine.Write

/-!
# HyphaDB.Refine.Flush

**The steps of the flush worker are moves.** Reserving and writing change the stage only;
the manifest's rename publishes the table, and the removal of the segment takes its log
away. A kill in the middle leaves the directory before or after one of these.
-/

namespace HyphaDB.Refine

open Faults Store Wal

variable {cfg : Config} {g : Guard} {M : Model Call} {used : Nat} {l : Ledger} {s : Sys}
  {d : Disk} {db : DB}

/-- What the invariants of views say of a process between two of its steps. -/
structure Ready (h : Handle) : Prop where
  stage : StageSound h
  pending : h.stage.pending ≠ some h.wal
  seq_lt : ∀ r ∈ h.memRecs, r.seq < h.nextSeq

/-! ### Tables of memory and of disk -/

theorem TableSound.of_unsized {t t' : SSTableMetadata} (h : TableSound used d t)
    (heq : unsized t' = unsized t) : TableSound used d t' := by
  obtain ⟨hid, hpath, -, -, hsmall, hlarge⟩ := SSTableMetadata.mk.inj heq
  have hrecs : tableRecords d t' = tableRecords d t := by
    unfold tableRecords
    rw [hpath]
  refine ⟨?_, ?_, ?_, ?_, ?_, ?_⟩
  · rw [hpath, hrecs]
    exact h.file
  · rw [hrecs]
    exact h.inOrder
  · rw [hpath, hid]
    exact h.path_id
  · rw [hsmall, hrecs]
    exact h.smallest
  · rw [hlarge, hrecs]
    exact h.largest
  · rw [hrecs]
    exact h.seq_le

/-- A function of tables that does not look at recorded sizes. -/
theorem map_eq_of_unsized {α : Type} (f : SSTableMetadata → α) (hf : ∀ t, f (unsized t) = f t)
    {xs ys : List SSTableMetadata} (h : xs.map unsized = ys.map unsized) : xs.map f = ys.map f := by
  have hx : ∀ zs : List SSTableMetadata, zs.map f = (zs.map unsized).map f := by
    intro zs
    rw [List.map_map]
    exact List.map_congr_left fun t _ => (hf t).symm
  rw [hx xs, hx ys, h]

section Agree

variable (hp : ProcSound cfg g M used d db)

include hp

theorem ProcSound.tabs_eq : db.sstables.map (tabOf d) = tabsOf d :=
  map_eq_of_unsized (tabOf d) (fun _ => rfl) hp.agree

theorem ProcSound.ids_eq :
    db.sstables.map SSTableMetadata.id = (liveTables d).map SSTableMetadata.id :=
  map_eq_of_unsized SSTableMetadata.id (fun _ => rfl) hp.agree

theorem ProcSound.live_of_mem {t : SSTableMetadata} (ht : t ∈ db.sstables) :
    ∃ u ∈ liveTables d, unsized t = unsized u := by
  have hmem : unsized t ∈ (liveTables d).map unsized := hp.agree ▸ List.mem_map_of_mem ht
  obtain ⟨u, hu, heq⟩ := List.mem_map.mp hmem
  exact ⟨u, hu, heq.symm⟩

theorem ProcSound.mem_of_live {t : SSTableMetadata} (ht : t ∈ liveTables d) :
    ∃ u ∈ db.sstables, unsized u = unsized t := by
  have hmem : unsized t ∈ db.sstables.map unsized := hp.agree ▸ List.mem_map_of_mem ht
  obtain ⟨u, hu, heq⟩ := List.mem_map.mp hmem
  exact ⟨u, hu, heq⟩

theorem ProcSound.tableSound (hd : DiskSound cfg g used d) {t : SSTableMetadata}
    (ht : t ∈ db.sstables) : TableSound used d t := by
  obtain ⟨u, hu, heq⟩ := hp.live_of_mem ht
  exact (hd.tables u hu).of_unsized heq

/-- A fresh ID belongs to no table of the view. -/
theorem ProcSound.tab_id_ne {id : Nat} (hfresh : ∀ t ∈ db.sstables, t.id ≠ id) :
    ∀ t ∈ tabsOf d, t.id ≠ id := by
  rw [← hp.tabs_eq]
  intro t ht
  obtain ⟨u, hu, rfl⟩ := List.mem_map.mp ht
  rw [tabOf_id]
  exact hfresh u hu

/-- The file of a fresh ID belongs to no table. -/
theorem ProcSound.path_ne (hd : DiskSound cfg g used d) (path : TablePath)
    (hfresh : ∀ t ∈ db.sstables, t.id ≠ path.id) : ∀ t ∈ liveTables d, t.path ≠ path := by
  intro t ht heq
  obtain ⟨u, hu, hut⟩ := hp.mem_of_live ht
  refine hfresh u hu ?_
  rw [← heq, (hd.tables t ht).path_id]
  exact (SSTableMetadata.mk.inj hut).1

end Agree

/-- A file that belongs to no table may come and go. -/
theorem DiskSound.setTables (hd : DiskSound cfg g used d)
    (tables : TablePath → Option (List Record))
    (h : ∀ t ∈ liveTables d, tables t.path = d.tables t.path) :
    DiskSound cfg g used { d with tables } :=
  ⟨hd.sorted, hd.segments, fun t ht => (hd.tables t ht).congr (h t ht), hd.ids, hd.next⟩

theorem tabsOf_setTables (tables : TablePath → Option (List Record))
    (h : ∀ t ∈ liveTables d, tables t.path = d.tables t.path) :
    tabsOf { d with tables } = tabsOf d :=
  List.map_congr_left fun t ht => tabOf_congr (h t ht)

theorem putTable_of_ne {path path' : TablePath} (recs : List Record) (h : path' ≠ path) :
    (d.putTable path recs).tables path' = d.tables path' := Function.update_of_ne h _ _

/-! ### Reserving -/

theorem wp_flushReserve (hs : SysSound cfg g M used s) :
    wp M flushReserve (Refines cfg g M used (viewSys cfg s, l) []) s := by
  have hstay : Runs cfg g M used (viewSys cfg s, l) l s := ⟨hs, Relation.ReflTransGen.refl⟩
  have hf := hs.proc.flusher
  unfold flushReserve
  refine wp_bind (wp_get ?_)
  dsimp only
  cases hflusher : s.db.flusher with
  | idle =>
      cases hq : s.db.immutableMemtables with
      | nil => exact wp_pure hstay
      | cons imm qs =>
          refine wp_modify ⟨⟨hs.disk, ?_⟩, ?_⟩
          · refine { hs.proc with below := ?_, flusher := ?_ }
            · exact fun t ht => Nat.lt_succ_of_lt (hs.proc.below t ht)
            · exact ⟨Nat.lt_succ_self _, fun t ht => (hs.proc.below t ht).ne⟩
          · have hmove := Move.reserve (g := g) (l := l) (v := viewSys cfg s)
              (h := handleOf s.disk s.db) rfl
              (by rw [show (handleOf s.disk s.db).stage = stageOf s.disk s.db.flusher from rfl,
                hflusher]; rfl) hq
            exact Relation.ReflTransGen.single hmove
  | failed =>
      unfold FlusherSound at hf
      rw [hflusher] at hf
      exact hf.elim
  | reserved imm id | written imm table | removing w | cleanup path => exact wp_pure hstay

/-! ### File operations that do not fail -/

section Files

variable {Q : Post Sys DBError Unit} (ha : Allowed g M)

include ha

/-- A call that is done, or the process dies before it or behind it. -/
theorem wp_atomic {c : Call} {e : DBError} {f : Sys → Sys}
    (hc : ∀ n, M c (.fail n) ≠ true) (hret : Q.ret () (f s))
    (hkill : g.crash → ∀ t, t = s ∨ t = f s → Q.kill t) :
    wp M (Prog.call c e fun s fate => atomically f s fate) Q s := by
  refine wp_call hret (fun n hM => absurd hM (hc n)) fun n hM => ?_
  cases n with
  | zero => exact hkill (ha.kill hM) s (Or.inl rfl)
  | succ n => exact hkill (ha.kill hM) (f s) (Or.inr rfl)

/-- A sync. -/
theorem wp_sync {c : Call} {e : DBError} (hc : ∀ n, M c (.fail n) ≠ true) (hret : Q.ret () s)
    (hkill : g.crash → Q.kill s) : wp M (Prog.call c e fun s _ => s) Q s :=
  wp_call hret (fun n hM => absurd hM (hc n)) fun _ hM => hkill (ha.kill hM)

theorem wp_createTable {path : TablePath} {recs : List Record} (hrecs : InOrder recs)
    (hret : Q.ret () { s with disk := s.disk.putTable path recs })
    (hkill : g.crash → ∀ t, t = s ∨ t = { s with disk := s.disk.putTable path recs } → Q.kill t) :
    wp M (createTable path recs) Q s := by
  unfold createTable
  rw [if_neg (by simp [SSTable.writable_iff.mpr hrecs])]
  refine wp_bind (wp_atomic ha (fun n hM => by simpa using ha.other hM) ?_ hkill)
  exact wp_sync ha (fun n hM => by simpa using ha.other hM) hret fun hg => hkill hg _ (Or.inr rfl)

theorem wp_writeManifest
    (hret : Q.ret () { s with disk := { s.disk with manifest := some s.db.manifest } })
    (hkill : g.crash → ∀ t,
      t = s ∨ t = { s with disk := { s.disk with manifest := some s.db.manifest } } → Q.kill t) :
    wp M writeManifest Q s := by
  unfold writeManifest
  refine wp_bind (wp_atomic ha (fun n hM => by simpa using ha.other hM) ?_ hkill)
  exact wp_sync ha (fun n hM => by simpa using ha.other hM) hret fun hg => hkill hg _ (Or.inr rfl)

end Files

/-! ### Writing -/

/-- What is asked of a step that writes a table. -/
def FlushOk (g : Guard) (s : Sys) : Prop :=
  ∀ imm id, s.db.flusher = .reserved imm id → g.flush (handleOf s.disk s.db) imm

section Write

variable {imm : ImmutableMemTable} {id : Nat} (hs : SysSound cfg g M used s)
  (hflusher : s.db.flusher = .reserved imm id)

include hs hflusher

theorem reserved_id : Reserved s.db id := by
  have hf := hs.proc.flusher
  unfold FlusherSound at hf
  rwa [hflusher] at hf

/-- The file of the reserved table is new. -/
theorem reserved_path : ∀ t ∈ liveTables s.disk, ∀ recs,
    (s.disk.putTable (.data id) recs).tables t.path = s.disk.tables t.path := by
  intro t ht recs
  exact putTable_of_ne recs (hs.proc.path_ne hs.disk (.data id) (reserved_id hs hflusher).2 t ht)

theorem disk_reserved (recs : List Record) :
    DiskSound cfg g used (s.disk.putTable (.data id) recs) ∧
      viewOf cfg (s.disk.putTable (.data id) recs) none = viewOf cfg s.disk none := by
  have hpath := fun t ht => reserved_path hs hflusher t ht recs
  refine ⟨hs.disk.setTables _ hpath, ?_⟩
  show View.mk _ (tabsOf (s.disk.putTable (.data id) recs)) _ = View.mk _ (tabsOf s.disk) _
  rw [show tabsOf (s.disk.putTable (.data id) recs) = _ from tabsOf_setTables _ hpath]
  rfl

theorem runs_tableWritten (hready : Ready (handleOf s.disk s.db)) (hok : FlushOk g s) :
    Runs cfg g M used (viewSys cfg s, l) l
      ⟨s.disk.putTable (.data id) (s.db.heap imm.memTable).records,
        s.db.setFlusher (.written imm (tableMetadata cfg id (.data id) Compaction.L0
          (s.db.heap imm.memTable).records))⟩ := by
  have hp := hs.proc
  have hstage : (handleOf s.disk s.db).stage = .reserved imm := by
    show stageOf s.disk s.db.flusher = _
    rw [hflusher]
    rfl
  have hqueue : ∃ qs, s.db.immutableMemtables = imm :: qs := by
    have hsound := hready.stage
    unfold StageSound at hsound
    rwa [hstage] at hsound
  have himm : imm ∈ (handleOf s.disk s.db).entries := by
    obtain ⟨qs, hq⟩ := hqueue
    refine List.mem_append_left _ ?_
    show imm ∈ s.db.immutableMemtables
    rw [hq]
    exact List.mem_cons_self
  generalize hrecs : (s.db.heap imm.memTable).records = recs
  have hin : InOrder recs := hrecs ▸ MemTable.inOrder _
  have hrecords : tableRecords (s.disk.putTable (.data id) recs)
      (tableMetadata cfg id (.data id) Compaction.L0 recs) = recs := by
    show (Function.update s.disk.tables (.data id) (some recs) (.data id)).getD [] = recs
    rw [Function.update_self]
    rfl
  have hseq : ∀ r ∈ recs, r.seq.toNat ≤ used := by
    intro r hr
    rw [← hrecs] at hr
    have hlt : r.seq < s.db.nextSeq := hready.seq_lt r ⟨imm, himm, hr⟩
    have hle := hp.seq_le
    rw [UInt64.lt_iff_toNat_lt] at hlt
    omega
  have htable : TableSound used (s.disk.putTable (.data id) recs)
      (tableMetadata cfg id (.data id) Compaction.L0 recs) := by
    refine ⟨?_, ?_, rfl, ?_, ?_, ?_⟩
    · rw [hrecords]
      exact Function.update_self _ _ _
    · rwa [hrecords]
    · rw [hrecords]
      rfl
    · rw [hrecords]
      rfl
    · rwa [hrecords]
  have hreserved := reserved_id hs hflusher
  obtain ⟨hdisk, hview⟩ := disk_reserved hs hflusher recs
  refine ⟨⟨hdisk, ?_⟩, ?_⟩
  · exact { hp with flusher := ⟨hreserved, htable, rfl⟩ }
  · have hsame : (tabOf (s.disk.putTable (.data id) recs)
        (tableMetadata cfg id (.data id) Compaction.L0 recs)).recs =
        (handleOf s.disk s.db).recsOf imm :=
      htable.tabOf_recs.trans (hrecords.trans hrecs.symm)
    have hmove := Move.writeTable (g := g) (l := l) (v := viewSys cfg s)
      (h := handleOf s.disk s.db) rfl hstage hsame
      (tabOf_level _ _) (hok imm id hflusher)
    refine Relation.ReflTransGen.single ?_
    have htabs := congrArg View.tabs hview
    show Move g _ (View.mk _ (tabsOf (s.disk.putTable (.data id) recs)) _, l)
    rw [show tabsOf (s.disk.putTable (.data id) recs) = tabsOf s.disk from htabs]
    exact hmove

end Write

theorem wp_flushWrite (ha : Allowed g M) (hs : SysSound cfg g M used s)
    (hready : Ready (handleOf s.disk s.db)) (hok : FlushOk g s) :
    wp M (flushWrite cfg) (Refines cfg g M used (viewSys cfg s, l) []) s := by
  have hstay : Runs cfg g M used (viewSys cfg s, l) l s := ⟨hs, Relation.ReflTransGen.refl⟩
  unfold flushWrite
  refine wp_bind (wp_get ?_)
  dsimp only
  cases hflusher : s.db.flusher with
  | reserved imm id =>
      refine wp_bind (wp_attempt (wp_createTable ha (MemTable.inOrder _) ?_ ?_))
      · exact wp_modify (runs_tableWritten hs hflusher hready hok)
      · intro hg t ht
        have hstop := hstay.stops hg
        rcases ht with rfl | rfl
        · exact ⟨hg, hstop⟩
        · obtain ⟨hdisk, hview⟩ := disk_reserved hs hflusher (s.db.heap imm.memTable).records
          exact ⟨hg, hdisk, hview ▸ hstop.moves⟩
  | idle | failed | written imm table | removing w | cleanup path => exact wp_pure hstay

/-! ### Publishing -/

/-- The directory with another manifest. -/
def setManifest (d : Disk) (m : Manifest) : Disk := { d with manifest := some m }

@[simp] theorem liveTables_setManifest (d : Disk) (m : Manifest) :
    liveTables (setManifest d m) = m.sstables := Manifest.ensureSafeNextSSTableID_sstables m

theorem tabsOf_setManifest (d : Disk) (m : Manifest) :
    tabsOf (setManifest d m) = m.sstables.map (tabOf d) := by
  unfold tabsOf
  rw [liveTables_setManifest]
  rfl

theorem next_setManifest (d : Disk) (m : Manifest) :
    (Manifest.read (setManifest d m).manifest).nextWALSegmentID = m.nextWALSegmentID :=
  Manifest.ensureSafeNextSSTableID_nextWALSegmentID m

theorem DiskSound.setManifest (hd : DiskSound cfg g used d) {m : Manifest}
    (htables : ∀ t ∈ m.sstables, TableSound used d t)
    (hids : (m.sstables.map SSTableMetadata.id).Nodup)
    (hnext : ¬ g.rotateFail → ∃ p ∈ d.wals, m.nextWALSegmentID ≤ p.1) :
    DiskSound cfg g used (setManifest d m) := by
  refine ⟨hd.sorted, hd.segments, ?_, ?_, fun hg => Or.inr ?_⟩
  · rw [liveTables_setManifest]
    exact fun t ht => (htables t ht).congr rfl
  · rw [liveTables_setManifest]
    exact hids
  · rw [next_setManifest]
    exact hnext hg

/-- The manifest of a process may be written. -/
theorem ProcSound.next_segment (hp : ProcSound cfg g M used d db) (hg : ¬ g.rotateFail) :
    ∃ p ∈ d.wals, db.manifest.nextWALSegmentID ≤ p.1 := by
  obtain ⟨p, hmem, hw⟩ := hp.active
  exact ⟨p, hmem, (hp.next_eq hg).trans_le hw.symm.le⟩

section Publish

variable {imm : ImmutableMemTable} {table : SSTableMetadata} (hs : SysSound cfg g M used s)
  (hflusher : s.db.flusher = .written imm table)

include hs hflusher

theorem runs_published (hready : Ready (handleOf s.disk s.db)) :
    Runs cfg g M used (viewSys cfg s, l) l
      ⟨setManifest s.disk { s.db.manifest with sstables := s.db.manifest.sstables ++ [table] },
        ((s.db.setTables (s.db.sstables ++ [table])
          (s.db.manifest.sstables ++ [table])).dequeue imm).setFlusher (.removing imm.walID)⟩ := by
  have hp := hs.proc
  have hf := hp.flusher
  unfold FlusherSound at hf
  rw [hflusher] at hf
  obtain ⟨⟨hbelow, hfresh⟩, htable, hlevel⟩ := hf
  have hstage : (handleOf s.disk s.db).stage = .written imm (tabOf s.disk table) := by
    show stageOf s.disk s.db.flusher = _
    rw [hflusher]
    rfl
  have hqueue : ∃ qs, s.db.immutableMemtables = imm :: qs := by
    have hsound := hready.stage
    unfold StageSound at hsound
    rw [hstage] at hsound
    exact hsound.1
  obtain ⟨qs, hq⟩ := hqueue
  have hdequeue : ∀ db : DB, db.immutableMemtables = imm :: qs →
      db.dequeue imm = { db with immutableMemtables := qs } := by
    intro db hdb
    unfold DB.dequeue
    rw [hdb]
    simp
  rw [hdequeue (s.db.setTables (s.db.sstables ++ [table]) (s.db.manifest.sstables ++ [table])) hq,
    ← hp.sstables]
  refine ⟨⟨?_, ?_⟩, ?_⟩
  · refine hs.disk.setManifest ?_ ?_ hp.next_segment
    · intro t ht
      rcases List.mem_append.mp ht with ht | ht
      · exact hp.tableSound hs.disk ht
      · rw [List.mem_singleton.mp ht]
        exact htable
    · rw [List.map_append, List.nodup_append, hp.ids_eq]
      refine ⟨hs.disk.ids, by simp, ?_⟩
      intro a ha b hb
      rw [← hp.ids_eq] at ha
      obtain ⟨t, ht, rfl⟩ := List.mem_map.mp ha
      rw [List.map_singleton, List.mem_singleton] at hb
      exact hb ▸ hfresh t ht
  · refine { hp with
      sstables := rfl, agree := ?_, below := ?_, flusher := trivial, next_le := ?_, refs := ?_ }
    · rw [liveTables_setManifest]
      rfl
    · intro t ht
      rcases List.mem_append.mp ht with ht | ht
      · exact hp.below t ht
      · rw [List.mem_singleton.mp ht]
        exact hbelow
    · exact (next_setManifest s.disk _).le
    · intro e he
      refine hp.refs e ?_
      rcases List.mem_append.mp he with he | he
      · refine List.mem_append_left _ ?_
        show e ∈ s.db.immutableMemtables
        rw [hq]
        exact List.mem_cons_of_mem _ he
      · exact List.mem_append_right _ he
  · have hmove := Move.publish (g := g) (l := l) (v := viewSys cfg s)
      (h := handleOf s.disk s.db) rfl hstage hq
      fun t ht => (tabOf_id s.disk table).symm ▸ hp.tab_id_ne hfresh t ht
    refine Relation.ReflTransGen.single ?_
    show Move g _ (View.mk _ (tabsOf (setManifest s.disk _)) _, l)
    rw [tabsOf_setManifest, List.map_append, hp.tabs_eq]
    exact hmove

end Publish

theorem wp_flushPublish (ha : Allowed g M) (hs : SysSound cfg g M used s)
    (hready : Ready (handleOf s.disk s.db)) :
    wp M flushPublish (Refines cfg g M used (viewSys cfg s, l) []) s := by
  have hstay : Runs cfg g M used (viewSys cfg s, l) l s := ⟨hs, Relation.ReflTransGen.refl⟩
  unfold flushPublish
  refine wp_bind (wp_get ?_)
  dsimp only
  cases hflusher : s.db.flusher with
  | written imm table =>
      have hpublished := runs_published (l := l) hs hflusher hready
      refine wp_bind (wp_modify (wp_bind (wp_attempt (wp_writeManifest ha ?_ ?_))))
      · exact wp_modify hpublished
      · intro hg t ht
        rcases ht with rfl | rfl
        · exact ⟨hg, hstay.stops hg⟩
        · exact ⟨hg, hpublished.stops hg⟩
  | idle | failed | reserved imm id | removing w | cleanup path => exact wp_pure hstay

/-! ### Removing the segment -/

theorem removeWal_wals (d : Disk) (id : Nat) :
    (d.removeWal id).wals = d.wals.filter fun p => p.1 ≠ id := rfl

theorem logsOf_removeWal (d : Disk) (id : Nat) :
    logsOf cfg (d.removeWal id) = removeLog id (logsOf cfg d) := by
  unfold logsOf removeLog
  rw [removeWal_wals, List.filter_map]
  rfl

theorem runs_segmentRemoved (hs : SysSound cfg g M used s) {w : Nat}
    (hflusher : s.db.flusher = .removing w) (hready : Ready (handleOf s.disk s.db)) :
    Runs cfg g M used (viewSys cfg s, l) l
      ⟨s.disk.removeWal w, s.db.setFlusher .idle⟩ := by
  have hp := hs.proc
  have hstage : (handleOf s.disk s.db).stage = .removing w := by
    show stageOf s.disk s.db.flusher = _
    rw [hflusher]
    rfl
  have hne : s.db.wal ≠ w := by
    intro heq
    refine hready.pending ?_
    rw [hstage]
    exact congrArg some heq.symm
  have hmem : ∀ p ∈ (s.disk.removeWal w).wals, p ∈ s.disk.wals :=
    fun p hp => (List.mem_filter.mp hp).1
  have hkeep : ∀ p ∈ s.disk.wals, p.1 = s.db.wal → p ∈ (s.disk.removeWal w).wals := by
    intro p hp hw
    refine List.mem_filter.mpr ⟨hp, ?_⟩
    simpa [hw] using hne
  refine ⟨⟨?_, ?_⟩, ?_⟩
  · refine hs.disk.setWals (s.disk.removeWal w).wals ?_ ?_ ?_
    · exact hs.disk.sorted.filter _
    · exact fun p hp => hs.disk.segments p (hmem p hp)
    · intro hg
      obtain ⟨p, hpmem, hw⟩ := hp.active
      refine Or.inr ⟨p, hkeep p hpmem hw, hp.next_le.trans ?_⟩
      rw [hp.next_eq hg, hw]
  · have hidle : ProcSound cfg g M used s.disk (s.db.setFlusher .idle) :=
      { hp with flusher := trivial }
    refine hidle.setWals (s.disk.removeWal w).wals ?_ ?_ ?_ ?_
    · exact fun p hpmem => hp.wals_le p (hmem p hpmem)
    · obtain ⟨p, hpmem, hw⟩ := hp.active
      exact ⟨p, hkeep p hpmem hw, hw⟩
    · exact fun p hpmem => hp.header p (hmem p hpmem)
    · exact hp.clean.imp_right fun hclean p hpmem => hclean p (hmem p hpmem)
  · have hmove := Move.removeSegment (g := g) (l := l) (v := viewSys cfg s)
      (h := handleOf s.disk s.db) rfl hstage
    refine Relation.ReflTransGen.single ?_
    show Move g _ (View.mk (logsOf cfg (s.disk.removeWal w)) _ _, l)
    rw [logsOf_removeWal]
    exact hmove

theorem wp_flushRemoveWAL (ha : Allowed g M) (hs : SysSound cfg g M used s)
    (hready : Ready (handleOf s.disk s.db)) :
    wp M flushRemoveWAL (Refines cfg g M used (viewSys cfg s, l) []) s := by
  have hstay : Runs cfg g M used (viewSys cfg s, l) l s := ⟨hs, Relation.ReflTransGen.refl⟩
  unfold flushRemoveWAL
  refine wp_bind (wp_get ?_)
  dsimp only
  cases hflusher : s.db.flusher with
  | removing w =>
      have hremoved := runs_segmentRemoved (l := l) hs hflusher hready
      refine wp_bind (wp_attempt ?_)
      unfold removeSegment
      refine wp_bind (wp_atomic ha (fun n hM => by simpa using ha.other hM) ?_ ?_)
      · refine wp_sync ha (fun n hM => by simpa using ha.other hM) (wp_modify hremoved) ?_
        exact fun hg => ⟨hg, hremoved.stops hg⟩
      · intro hg t ht
        rcases ht with rfl | rfl
        · exact ⟨hg, hstay.stops hg⟩
        · exact ⟨hg, hremoved.stops hg⟩
  | idle | failed | reserved imm id | written imm table | cleanup path => exact wp_pure hstay

/-- There is nothing to clean up after. -/
theorem wp_flushCleanup (hs : SysSound cfg g M used s) :
    wp M flushCleanup (Refines cfg g M used (viewSys cfg s, l) []) s := by
  have hstay : Runs cfg g M used (viewSys cfg s, l) l s := ⟨hs, Relation.ReflTransGen.refl⟩
  have hf := hs.proc.flusher
  unfold flushCleanup
  refine wp_bind (wp_get ?_)
  dsimp only
  cases hflusher : s.db.flusher with
  | cleanup path =>
      unfold FlusherSound at hf
      rw [hflusher] at hf
      exact hf.elim
  | idle | failed | reserved imm id | written imm table | removing w => exact wp_pure hstay

end HyphaDB.Refine
