import HyphaDB.Refine.Compact
import HyphaDB.Store.Restart

/-!
# HyphaDB.Refine.Open

**`Open` is a move.** The replay of the segments cuts torn tails off their files, which
changes no log, and puts the logs into one memtable. The last segment, or a new one, is
opened for appending, and the process starts with a sequence counter above every record it
found.

`Open` fails only on options it refuses, or where the creation of a segment may fail.
-/

namespace HyphaDB.Refine

open Faults Store Wal

variable {cfg : Config} {g : Guard} {M : Model Call} {used : Nat} {l : Ledger}
  {start : View × Ledger} {d : Disk}

/-! ### Cutting torn tails -/

/-- Segments after some of their torn tails are cut off. -/
structure Truncated (cfg : Config) (used : Nat) (wals wals' : List (Nat × Bytes)) : Prop where
  logs : wals'.map (fun p => (p.1, applied cfg.crc p.2)) =
    wals.map fun p => (p.1, applied cfg.crc p.2)
  segments : ∀ p ∈ wals', Segment cfg.crc used p.2

/-- A segment without a torn tail. -/
def Whole (cfg : Config) (used : Nat) (wals : List (Nat × Bytes)) : Prop :=
  ∀ p ∈ wals, p.2 = [] ∨ Clean cfg.crc used p.2

theorem Truncated.ids {wals wals' : List (Nat × Bytes)} (h : Truncated cfg used wals wals') :
    wals'.map Prod.fst = wals.map Prod.fst := by
  have := congrArg (List.map Prod.fst) h.logs
  rwa [List.map_map, List.map_map] at this

theorem Truncated.mem {wals wals' : List (Nat × Bytes)} (h : Truncated cfg used wals wals')
    {p : Nat × Bytes} (hp : p ∈ wals) : ∃ q ∈ wals', q.1 = p.1 := by
  have hmem : p.1 ∈ wals'.map Prod.fst := h.ids ▸ List.mem_map_of_mem hp
  obtain ⟨q, hq, heq⟩ := List.mem_map.mp hmem
  exact ⟨q, hq, heq⟩

theorem Truncated.disk {wals : List (Nat × Bytes)} (h : Truncated cfg used d.wals wals)
    (hd : DiskSound cfg g used d) : DiskSound cfg g used { d with wals } := by
  refine hd.setWals wals ?_ h.segments fun hg => ?_
  · have hsorted := List.pairwise_map.mpr hd.sorted
    rw [← h.ids] at hsorted
    exact List.pairwise_map.mp hsorted
  · rcases hd.next hg with hnil | ⟨p, hp, hle⟩
    · refine Or.inl (List.map_eq_nil_iff.mp (h.ids.trans ?_))
      rw [hnil]
      rfl
    · obtain ⟨q, hq, heq⟩ := h.mem hp
      exact Or.inr ⟨q, hq, hle.trans heq.ge⟩

theorem Truncated.logsOf {wals : List (Nat × Bytes)} (h : Truncated cfg used d.wals wals) :
    logsOf cfg { d with wals } = logsOf cfg d := h.logs

theorem Truncated.view {wals : List (Nat × Bytes)} (h : Truncated cfg used d.wals wals) :
    viewOf cfg { d with wals } none = viewOf cfg d none := by
  show View.mk (Refine.logsOf cfg { d with wals }) _ _ = View.mk (Refine.logsOf cfg d) _ _
  rw [h.logsOf]
  rfl

theorem Truncated.stops {wals : List (Nat × Bytes)} (h : Truncated cfg used d.wals wals)
    (hs : Stops cfg g used start l d) : Stops cfg g used start l { d with wals } := by
  refine ⟨h.disk hs.sound, ?_⟩
  rw [h.view]
  exact hs.moves

theorem putWal_middle {done rest : List (Nat × Bytes)} {id : Nat} {file file' : Bytes}
    (hlt : ∀ p ∈ done, p.1 < id) :
    Disk.putWal id file' (done ++ (id, file) :: rest) = done ++ (id, file') :: rest := by
  induction done with
  | nil =>
      show (if id < id then _ else if id = id then _ else _) = _
      rw [if_neg (lt_irrefl _), if_pos rfl]
      rfl
  | cons p ps ih =>
      have hp := hlt p List.mem_cons_self
      show (if id < p.1 then _ else if id = p.1 then _
        else p :: Disk.putWal id file' (ps ++ (id, file) :: rest)) = _
      rw [if_neg (not_lt.mpr hp.le), if_neg hp.ne',
        ih fun q hq => hlt q (List.mem_cons_of_mem _ hq)]
      rfl

/-- One segment is replayed and its torn tail is cut off. -/
theorem wp_truncate (ha : Allowed g M) {α : Type} {Q : Post Disk DBError α} {next : DiskOp α}
    {done rest : List (Nat × Bytes)} {id : Nat} {file : Bytes} {replay : Replay} {mt : MemTable}
    (hreplay : Replays cfg.crc used file mt replay) (hlt : ∀ p ∈ done, p.1 < id)
    (hnext : wp M next Q { d with wals := done ++ (id, replay.file) :: rest })
    (hkill : g.crash → ∀ file', file' = file ∨ file' = replay.file →
      Q.kill { d with wals := done ++ (id, file') :: rest }) :
    wp M (if replay.file.length < file.length then do
        Prog.call .segmentTruncate (.io .segmentTruncate) fun d fate =>
          atomically (fun d => d.setWal id replay.file) d fate
        next
      else next) Q { d with wals := done ++ (id, file) :: rest } := by
  by_cases hlen : replay.file.length < file.length
  · rw [if_pos hlen]
    have hset : ({ d with wals := done ++ (id, file) :: rest } : Disk).setWal id replay.file =
        { d with wals := done ++ (id, replay.file) :: rest } := by
      unfold Disk.setWal
      rw [putWal_middle hlt]
    refine wp_bind (wp_call ?_ (fun n hM => by simpa using ha.other hM) fun n hM => ?_)
    · show wp M next Q (Disk.setWal _ id replay.file)
      rw [hset]
      exact hnext
    · cases n with
      | zero => exact hkill (ha.kill hM) _ (Or.inl rfl)
      | succ n =>
          show Q.kill (Disk.setWal _ id replay.file)
          rw [hset]
          exact hkill (ha.kill hM) _ (Or.inr rfl)
  · rw [if_neg hlen]
    rwa [hreplay.kept hlen] at hnext

theorem wp_replaySegments (ha : Allowed g M) {Q : Post Disk DBError (MemTable × UInt64)}
    (done : List (Nat × Bytes)) {segments : List (Nat × Bytes)} {mt : MemTable} {maxSeq : UInt64}
    (hsegments : ∀ p ∈ done ++ segments, Segment cfg.crc used p.2)
    (hsorted : (done ++ segments).Pairwise (fun p q => p.1 < q.1))
    (hdone : Whole cfg used done) (hmax : maxSeq.toNat ≤ used)
    (hret : ∀ wals m, Truncated cfg used (done ++ segments) wals → Whole cfg used wals →
      m.toNat ≤ used → maxSeq ≤ m → (∀ p ∈ segments, ∀ r ∈ applied cfg.crc p.2, r.seq ≤ m) →
      Q.ret (mt.putAll (segments.flatMap fun p => applied cfg.crc p.2), m) { d with wals })
    (hkill : g.crash → ∀ wals, Truncated cfg used (done ++ segments) wals →
      Q.kill { d with wals }) :
    wp M (replaySegments cfg segments mt maxSeq) Q { d with wals := done ++ segments } := by
  induction segments generalizing done mt maxSeq with
  | nil =>
      rw [List.append_nil] at *
      exact wp_pure (hret done maxSeq ⟨rfl, hsegments⟩ hdone hmax (le_refl _) (by simp))
  | cons p rest ih =>
      obtain ⟨id, file⟩ := p
      have hreplay := (hsegments (id, file) (by simp)).replays mt
      have hlt : ∀ q ∈ done, q.1 < id := fun q hq =>
        (List.pairwise_append.mp hsorted).2.2 q hq (id, file) List.mem_cons_self
      -- the file of this segment may be cut at any time from here on
      have hcut : ∀ file', file' = file ∨ file' = (replayInto cfg.crc file mt).file →
          Truncated cfg used (done ++ (id, file) :: rest) (done ++ (id, file') :: rest) := by
        intro file' hfile'
        have hsound : Segment cfg.crc used file' ∧
            applied cfg.crc file' = applied cfg.crc file := by
          rcases hfile' with rfl | rfl
          · exact ⟨hsegments (id, file') (by simp), rfl⟩
          · refine ⟨?_, hreplay.applied⟩
            rcases hreplay.clean with hnil | hclean
            · rw [hnil]
              exact .empty
            · exact hclean.segment
        refine ⟨?_, fun q hq => ?_⟩
        · rw [List.map_append, List.map_append, List.map_cons, List.map_cons, hsound.2]
        · rcases List.mem_append.mp hq with hq | hq
          · exact hsegments q (List.mem_append_left _ hq)
          · rcases List.mem_cons.mp hq with rfl | hq
            · exact hsound.1
            · exact hsegments q (by simp [hq])
      obtain ⟨stats, hresult, hle, hbound⟩ := hreplay.result
      unfold replaySegments
      dsimp only
      refine wp_truncate ha hreplay hlt ?_ fun hg file' hf => hkill hg _ (hcut file' hf)
      have hnow : Truncated cfg used (done ++ (id, file) :: rest)
          (done ++ [(id, (replayInto cfg.crc file mt).file)] ++ rest) := by
        rw [← List.append_cons]
        exact hcut _ (Or.inr rfl)
      have hthen : ∀ {wals}, Truncated cfg used
          (done ++ [(id, (replayInto cfg.crc file mt).file)] ++ rest) wals →
          Truncated cfg used (done ++ (id, file) :: rest) wals :=
        fun h => ⟨h.logs.trans hnow.logs, h.segments⟩
      rw [hresult, List.append_cons]
      refine ih _ hnow.segments ?_ ?_ ?_ ?_ ?_
      · have hids := List.pairwise_map.mpr hsorted
        rw [← hnow.ids] at hids
        exact List.pairwise_map.mp hids
      · intro q hq
        rcases List.mem_append.mp hq with hq | hq
        · exact hdone q hq
        · rw [List.mem_singleton.mp hq]
          exact hreplay.clean
      · rw [UInt64.toNat_max]
        exact max_le hmax hle
      · intro wals m htrunc hwhole hm hle' hrest
        rw [hreplay.memtable, ← MemTable.putAll_append]
        refine hret wals m (hthen htrunc) hwhole hm ((le_max_left _ _).trans hle') ?_
        intro q hq r hr
        rcases List.mem_cons.mp hq with rfl | hq
        · exact (hbound r hr).trans ((le_max_right _ _).trans hle')
        · exact hrest q hq r hr
      · exact fun hg wals htrunc => hkill hg wals (hthen htrunc)

/-! ### The segment to append to -/

/-- The number of the segment `Open` appends to. -/
def segmentID (d : Disk) :
    Nat := (raiseSegmentID (Manifest.read d.manifest) d.wals).nextWALSegmentID

theorem next_le_segmentID (d : Disk) :
    (Manifest.read d.manifest).nextWALSegmentID ≤ segmentID d := by
  unfold segmentID raiseSegmentID
  split
  · exact le_refl _
  · exact le_max_left _ _

theorem le_segmentID (hsorted : d.wals.Pairwise (fun p q => p.1 < q.1)) :
    ∀ p ∈ d.wals, p.1 ≤ segmentID d := by
  intro p hp
  unfold segmentID raiseSegmentID
  rcases List.eq_nil_or_concat d.wals with hnil | ⟨init, last, heq⟩
  · rw [hnil] at hp
    cases hp
  · rw [List.concat_eq_append] at heq
    rw [heq] at hp hsorted ⊢
    rw [List.getLast?_append, List.getLast?_singleton, Option.some_or]
    refine le_trans ?_ (le_max_right _ _)
    rcases List.mem_append.mp hp with hp | hp
    · exact ((List.pairwise_append.mp hsorted).2.2 p hp last List.mem_cons_self).le
    · rw [List.mem_singleton.mp hp]

/-- It is there, or it is new; and without a failed rotation it is new only in an empty
directory. -/
theorem segmentID_cases (hd : DiskSound cfg g used d) :
    (∃ p ∈ d.wals, p.1 = segmentID d) ∨
      (∀ p ∈ d.wals, p.1 < segmentID d) ∧ (g.rotateFail ∨ d.wals = []) := by
  by_cases hex : ∃ p ∈ d.wals, p.1 = segmentID d
  · exact Or.inl hex
  · have hlt : ∀ p ∈ d.wals, p.1 < segmentID d := fun p hp =>
      lt_of_le_of_ne (le_segmentID hd.sorted p hp) fun heq => hex ⟨p, hp, heq⟩
    refine Or.inr ⟨hlt, ?_⟩
    by_contra hno
    rw [not_or] at hno
    rcases hd.next hno.1 with hnil | ⟨p, hp, hle⟩
    · exact hno.2 hnil
    · -- the last segment is at or above the manifest's number, so it is the one
      have hlast : segmentID d = (Manifest.read d.manifest).nextWALSegmentID ∨
          ∃ q ∈ d.wals, segmentID d = q.1 := by
        unfold segmentID raiseSegmentID
        cases hl : d.wals.getLast? with
        | none => exact Or.inl rfl
        | some q =>
            rcases max_choice (Manifest.read d.manifest).nextWALSegmentID q.1 with h | h
            · exact Or.inl h
            · exact Or.inr ⟨q, List.mem_of_getLast? hl, h⟩
      rcases hlast with heq | ⟨q, hq, heq⟩
      · exact absurd (hlt p hp) (not_lt.mpr (heq ▸ hle))
      · exact hex ⟨q, hq, heq.symm⟩

/-- The directory with its segment `id` open for appending. -/
structure Opened (cfg : Config) (g : Guard) (used : Nat) (d : Disk) (id : Nat) (d' : Disk) :
    Prop where
  disk : DiskSound cfg g used d'
  manifest : d'.manifest = d.manifest
  tables : d'.tables = d.tables
  le : ∀ p ∈ d'.wals, p.1 ≤ id
  active : ∃ p ∈ d'.wals, p.1 = id
  clean : ∀ p ∈ d'.wals, p.1 = id → Clean cfg.crc used p.2
  logs : (logsOf cfg d' = logsOf cfg d ∧ ∃ p ∈ logsOf cfg d, p.1 = id) ∨
    logsOf cfg d' = logsOf cfg d ++ [(id, [])] ∧ (∀ p ∈ logsOf cfg d, p.1 < id) ∧
      (g.rotateFail ∨ logsOf cfg d = [])

section Segment

variable (hd : DiskSound cfg g used d) (hwhole : Whole cfg used d.wals)

include hd hwhole

omit hwhole in
/-- An empty file gets its header. -/
theorem appendHeader {file : Bytes} (hmem : (segmentID d, file) ∈ d.wals) (hnil : file = []) :
    DiskSound cfg g used (d.appendWal (segmentID d) walHeader) ∧
      logsOf cfg (d.appendWal (segmentID d) walHeader) = logsOf cfg d ∧
      ∀ p ∈ (d.appendWal (segmentID d) walHeader).wals, p.1 = segmentID d → p.2 = walHeader := by
  have hempty : ∀ p ∈ d.wals, p.1 = segmentID d → p.2 = [] := by
    intro p hp hid
    have hone := wal?_eq_some hd.sorted hp
    rw [hid, wal?_eq_some hd.sorted hmem] at hone
    exact (Option.some.inj hone).symm.trans hnil
  refine ⟨hd.appendWal fun p hp hid => ?_, ?_, ?_⟩
  · rw [hempty p hp hid, List.nil_append]
    exact Clean.header.segment
  · have hnone : ∀ p ∈ d.wals, p.1 = segmentID d →
        applied cfg.crc (p.2 ++ walHeader) = applied cfg.crc p.2 ++ [] := by
      intro p hp hid
      rw [hempty p hp hid, List.nil_append, applied_header, applied_nil]
      rfl
    rw [logsOf_appendWal hnone, appendLog_nil]
  · intro q hq hid
    obtain ⟨p, hp, hpid, hfile⟩ := mem_appendWal hq
    rw [hfile, if_pos (hpid.symm.trans hid), hempty p hp (hpid.symm.trans hid), List.nil_append]

theorem wp_openSegment (ha : Allowed g M) (hs : Stops cfg g used start l d) :
    wp M (newSegmentInDir (segmentID d))
      ⟨fun _ d' => Opened cfg g used d (segmentID d) d',
        fun e d' => SegmentError M e ∧ Stops cfg g used start l d',
        fun d' => g.crash ∧ Stops cfg g used start l d'⟩ d := by
  have hle := le_segmentID hd.sorted
  rcases segmentID_cases hd with ⟨⟨id, file⟩, hmem, hid⟩ | ⟨hlt, hnew⟩
  · dsimp only at hid
    subst hid
    have hlog : ∃ p ∈ logsOf cfg d, p.1 = segmentID d := ⟨_, List.mem_map_of_mem hmem, rfl⟩
    have hstop : ∀ d', d' = d ∨ file = [] ∧ d' = d.appendWal (segmentID d) walHeader →
        Stops cfg g used start l d' := by
      intro d' hd'
      rcases hd' with rfl | ⟨hnil, rfl⟩
      · exact hs
      · obtain ⟨hdisk, hlogs, -⟩ := appendHeader hd hmem hnil
        refine ⟨hdisk, ?_⟩
        show Moves g start (View.mk (logsOf cfg (d.appendWal (segmentID d) walHeader)) _ _, l)
        rw [hlogs]
        exact hs.moves
    refine wp_newSegment_existing ha hd.sorted hmem ?_ ?_ ?_ ?_
    · exact fun hne => ((hwhole _ hmem).resolve_left hne).validate
    · by_cases hnil : file = []
      · obtain ⟨hdisk, hlogs, hheader⟩ := appendHeader hd hmem hnil
        rw [if_pos hnil]
        refine ⟨hdisk, rfl, rfl, ?_, ?_, ?_, Or.inl ⟨hlogs, hlog⟩⟩
        · intro q hq
          obtain ⟨p, hp, hpid, -⟩ := mem_appendWal hq
          exact hpid ▸ hle p hp
        · exact exists_mem_appendWal hmem _ _
        · intro q hq hid
          rw [hheader q hq hid]
          exact Clean.header
      · rw [if_neg hnil]
        refine ⟨hd, rfl, rfl, hle, ⟨_, hmem, rfl⟩, ?_, Or.inl ⟨rfl, hlog⟩⟩
        intro p hp hid
        have hone := wal?_eq_some hd.sorted hp
        rw [hid, wal?_eq_some hd.sorted hmem] at hone
        rw [← Option.some.inj hone]
        exact (hwhole _ hmem).resolve_left hnil
    · exact fun _ e d' he hd' => ⟨he, hstop d' hd'⟩
    · exact fun hg d' hd' => ⟨hg, hstop d' hd'⟩
  · have hnext := next_le_segmentID d
    refine wp_newSegment_fresh ha hlt ?_ ?_ ?_
    · refine ⟨hd.addWal hlt hnext Clean.header.segment, rfl, rfl, ?_, ?_, ?_, Or.inr ⟨?_, ?_, ?_⟩⟩
      · intro p hp
        rcases List.mem_append.mp hp with hp | hp
        · exact hle p hp
        · rw [List.mem_singleton.mp hp]
      · exact ⟨_, List.mem_append_right _ List.mem_cons_self, rfl⟩
      · intro p hp hid
        rcases List.mem_append.mp hp with hp | hp
        · exact absurd hid (hlt p hp).ne
        · rw [List.mem_singleton.mp hp]
          exact Clean.header
      · exact addWal_logs cfg d _ applied_header
      · exact logsOf_lt hlt
      · exact hnew.imp_right fun hnil => List.map_eq_nil_iff.mpr hnil
    · exact fun hg e d' he hc => ⟨he, hs.created hc hlt hnext (Or.inr hg)⟩
    · exact fun hg d' hc => ⟨hg, hs.created hc hlt hnext (Or.inl hg)⟩

end Segment

/-! ### The sequence counter -/

/-- The largest sequence number of tables within a bound is within it. -/
theorem maxSeq_le {recs : List Record} (h : ∀ r ∈ recs, r.seq.toNat ≤ used) :
    (SSTable.maxSeq recs).toNat ≤ used := by
  unfold SSTable.maxSeq
  rw [← List.foldl_map (f := Record.seq) (g := max)]
  refine foldl_max_le (Nat.zero_le _) fun x hx => ?_
  obtain ⟨r, hr, rfl⟩ := List.mem_map.mp hx
  exact h r hr

theorem maxSeqFromSSTables_eq {tables : List SSTableMetadata}
    (h : ∀ t ∈ tables, TableSound used d t) :
    ∃ m, maxSeqFromSSTables d tables = .ok m ∧ m.toNat ≤ used ∧
      ∀ t ∈ tables, ∀ r ∈ tableRecords d t, r.seq ≤ m := by
  unfold maxSeqFromSSTables
  rw [readTables_eq fun t ht => (h t ht).file]
  refine ⟨_, rfl, ?_, ?_⟩
  · rw [← List.foldl_map (f := SSTable.maxSeq) (g := max)]
    refine foldl_max_le (Nat.zero_le _) fun x hx => ?_
    obtain ⟨recs, hrecs, rfl⟩ := List.mem_map.mp hx
    obtain ⟨t, ht, rfl⟩ := List.mem_map.mp hrecs
    exact maxSeq_le (h t ht).seq_le
  · intro t ht r hr
    rw [← List.foldl_map (f := SSTable.maxSeq) (g := max)]
    refine (SSTable.le_maxSeq hr).trans (le_foldl_max (Or.inr ?_))
    exact List.mem_map_of_mem (List.mem_map_of_mem ht)

variable (cfg) in
theorem recoverSize_unsized (d : Disk) (t : SSTableMetadata) :
    unsized (recoverSize cfg d t) = unsized t := by
  unfold recoverSize
  split
  · rfl
  · rfl

/-- The tables of the manifest with their sizes recovered. -/
theorem recovered_sound {d' : Disk} (hd : DiskSound cfg g used d') {t : SSTableMetadata}
    (ht : t ∈ (liveTables d').map (recoverSize cfg d')) : TableSound used d' t := by
  obtain ⟨u, hu, rfl⟩ := List.mem_map.mp ht
  exact (hd.tables u hu).of_unsized (recoverSize_unsized cfg d' u)

/-- A sequence number that is at or above every record of the directory. -/
structure SeqBound (cfg : Config) (used : Nat) (d : Disk) (m : UInt64) : Prop where
  le : m.toNat ≤ used
  logs : ∀ p ∈ logsOf cfg d, ∀ r ∈ p.2, r.seq ≤ m
  tables : ∀ t ∈ liveTables d, ∀ r ∈ tableRecords d t, r.seq ≤ m

theorem SeqBound.durable {m : UInt64} (h : SeqBound cfg used d m) (hd : DiskSound cfg g used d) :
    ∀ r ∈ (viewOf cfg d none).durable, r.seq ≤ m := by
  intro r hr
  rcases hr with ⟨p, hp, hr⟩ | ⟨t, ht, hr⟩
  · exact h.logs p hp r hr
  · obtain ⟨u, hu, rfl⟩ := List.mem_map.mp ht
    rw [(hd.tables u hu).tabOf_recs] at hr
    exact h.tables u hu r hr

/-! ### The process -/

theorem normalizeOptions_limits {opts : Options} {settings : Settings}
    (h : normalizeOptions opts = .ok settings) :
    settings.limits.maxKeyBytes ≤ Record.maxKeySize ∧
      settings.limits.maxValueBytes ≤ Record.maxValueSize := by
  unfold normalizeOptions at h
  split at h
  · cases h
  · split at h
    · cases h
    · split at h
      · cases h
      · rename_i limits hlimits
        obtain rfl := Except.ok.inj h
        unfold normalizeLimits at hlimits
        dsimp only at hlimits
        split at hlimits
        · cases hlimits
        · split at hlimits
          · cases hlimits
          · split at hlimits
            · cases hlimits
            · split at hlimits
              · cases hlimits
              · obtain rfl := Except.ok.inj hlimits
                dsimp only
                omega

variable (cfg) in
/-- The manifest a process starts with. -/
def openedManifest (d d' : Disk) : Manifest :=
  { raiseSegmentID (Manifest.read d.manifest) d.wals with
    sstables := (raiseSegmentID (Manifest.read d.manifest) d.wals).sstables.map
      (recoverSize cfg d') }

theorem raiseSegmentID_sstables (m : Manifest) (segments : List (Nat × Bytes)) :
    (raiseSegmentID m segments).sstables = m.sstables := by
  unfold raiseSegmentID
  split
  · rfl
  · rfl

theorem raiseSegmentID_nextSSTableID (m : Manifest) (segments : List (Nat × Bytes)) :
    (raiseSegmentID m segments).nextSSTableID = m.nextSSTableID := by
  unfold raiseSegmentID
  split
  · rfl
  · rfl

theorem lt_nextSSTableID {d : Disk} {t : SSTableMetadata} (ht : t ∈ liveTables d) :
    t.id < (Manifest.read d.manifest).nextSSTableID := by
  unfold liveTables at ht
  cases hm : d.manifest with
  | none =>
      rw [hm] at ht
      cases ht
  | some m =>
      rw [hm] at ht
      refine Manifest.lt_ensureSafeNextSSTableID ?_
      rwa [← Manifest.ensureSafeNextSSTableID_sstables]

/-- A process as `Open` returns it, on the logs and tables it found. -/
structure Fresh (opts : Options) (v : View) (d : Disk) (db : DB) : Prop where
  opened : db.closed = false
  settings : ∃ settings, normalizeOptions opts = .ok settings ∧ db.limits = settings.limits
  queue : db.immutableMemtables = []
  active : db.active = replayed v.logs
  tabs : tabsOf d = v.tabs
  nextSeq : ∀ r ∈ v.durable, r.seq < db.nextSeq

section Process

variable {d' : Disk} {settings : Settings} {mt : MemTable} {maxSeq : UInt64}
  (ho : Opened cfg g used d (segmentID d) d') (hmax : SeqBound cfg used d maxSeq)

include ho

theorem Opened.tables_eq : (openedManifest cfg d d').sstables =
    (liveTables d').map (recoverSize cfg d') := by
  unfold openedManifest liveTables
  rw [raiseSegmentID_sstables, ho.manifest]

/-- The counter starts above the directory. -/
theorem Opened.seqBound {m walMaxSeq : UInt64}
    (htables : ∀ t ∈ (openedManifest cfg d d').sstables, ∀ r ∈ tableRecords d' t, r.seq ≤ m)
    (hm : m.toNat ≤ used) (hlogs : ∀ p ∈ logsOf cfg d, ∀ r ∈ p.2, r.seq ≤ walMaxSeq)
    (hwal : walMaxSeq.toNat ≤ used) :
    SeqBound cfg used d
      (max (max m (SSTable.maxSeq (replayed (logsOf cfg d)).records)) walMaxSeq) := by
  have hmem : (SSTable.maxSeq (replayed (logsOf cfg d)).records).toNat ≤ used := by
    refine maxSeq_le fun r hr => ?_
    obtain ⟨p, hp, hr⟩ := mem_replayed hr
    exact (UInt64.le_iff_toNat_le.mp (hlogs p hp r hr)).trans hwal
  refine ⟨?_, fun p hp r hr => (hlogs p hp r hr).trans (le_max_right _ _), fun t ht r hr => ?_⟩
  · rw [UInt64.toNat_max, UInt64.toNat_max]
    exact max_le (max_le hm hmem) hwal
  · refine le_trans ?_ ((le_max_left _ _).trans (le_max_left _ _))
    have hlive : t ∈ liveTables d' := by
      unfold liveTables
      rwa [ho.manifest]
    have hpath := (SSTableMetadata.mk.inj (recoverSize_unsized cfg d' t)).2.1
    have hrecs : tableRecords d' (recoverSize cfg d' t) = tableRecords d t := by
      unfold tableRecords
      rw [hpath, ho.tables]
    refine htables (recoverSize cfg d' t) ?_ r (hrecs ▸ hr)
    rw [ho.tables_eq]
    exact List.mem_map_of_mem hlive

include hmax

theorem Opened.procSound (hused : used + 1 < 2 ^ 64)
    (hkey : settings.limits.maxKeyBytes ≤ Record.maxKeySize)
    (hvalue : settings.limits.maxValueBytes ≤ Record.maxValueSize) :
    ProcSound cfg g M used d' (newDB settings mt (openedManifest cfg d d') maxSeq) := by
  have hseq : (maxSeq + 1).toNat = maxSeq.toNat + 1 := by
    have := hmax.le
    exact toNat_add_one (by omega)
  have htables : (newDB settings mt (openedManifest cfg d d') maxSeq).sstables =
      (liveTables d').map (recoverSize cfg d') := ho.tables_eq
  refine {
    sstables := rfl
    agree := ?_
    below := ?_
    flusher := trivial
    wals_le := ho.le
    next_le := ?_
    next_eq := fun _ => rfl
    active := ho.active
    header := fun p hp hid => (ho.clean p hp hid).ne_nil
    clean := Or.inr ho.clean
    refs := ?_
    maxKey := hkey
    maxValue := hvalue
    seq_pos := ?_
    seq_le := ?_ }
  · rw [htables, List.map_map]
    exact List.map_congr_left fun t _ => recoverSize_unsized cfg d' t
  · intro t ht
    rw [htables] at ht
    obtain ⟨u, hu, rfl⟩ := List.mem_map.mp ht
    show (recoverSize cfg d' u).id < (raiseSegmentID _ _).nextSSTableID
    rw [raiseSegmentID_nextSSTableID, ← ho.manifest,
      (SSTableMetadata.mk.inj (recoverSize_unsized cfg d' u)).1]
    exact lt_nextSSTableID hu
  · rw [ho.manifest]
    exact next_le_segmentID d
  · intro e he
    obtain rfl := List.mem_singleton.mp he
    exact Nat.zero_lt_one
  · show 0 < maxSeq + 1
    rw [UInt64.lt_iff_toNat_lt, hseq]
    exact Nat.succ_pos _
  · show (maxSeq + 1).toNat ≤ used + 1
    rw [hseq]
    exact Nat.succ_le_succ hmax.le

theorem Opened.fresh {opts : Options} (hd : DiskSound cfg g used d) (hused : used + 1 < 2 ^ 64)
    (hsettings : normalizeOptions opts = .ok settings) (hmt : mt = replayed (logsOf cfg d)) :
    Fresh opts (viewOf cfg d none) d' (newDB settings mt (openedManifest cfg d d') maxSeq) := by
  refine ⟨rfl, ⟨settings, hsettings, rfl⟩, rfl, ?_, ?_, ?_⟩
  · show Function.update (fun _ => MemTable.new) 0 mt 0 = _
    rw [Function.update_self]
    exact hmt
  · show tabsOf d' = tabsOf d
    unfold tabsOf liveTables
    rw [ho.manifest]
    exact List.map_congr_left fun t _ => tabOf_congr (congrFun ho.tables _)
  · intro r hr
    have hle := hmax.durable hd r hr
    have hbound := hmax.le
    show r.seq < maxSeq + 1
    rw [UInt64.le_iff_toNat_le] at hle
    rw [UInt64.lt_iff_toNat_lt, toNat_add_one (by omega)]
    exact Nat.lt_succ_of_le hle

omit hmax in
/-- **Opening is a move.** -/
theorem Opened.move {opts : Options} (hd : DiskSound cfg g used d)
    (hf : Fresh opts (viewOf cfg d none) d'
      (newDB settings mt (openedManifest cfg d d') maxSeq)) :
    Move g (viewOf cfg d none, l)
      (viewSys cfg ⟨d', newDB settings mt (openedManifest cfg d d') maxSeq⟩, l) := by
  have hview : viewSys cfg ⟨d', newDB settings mt (openedManifest cfg d d') maxSeq⟩ =
      { viewOf cfg d none with
        logs := logsOf cfg d'
        handle := some (handleOf d' (newDB settings mt (openedManifest cfg d d') maxSeq)) } := by
    show View.mk _ (tabsOf d') _ = View.mk _ (tabsOf d) _
    rw [hf.tabs]
    rfl
  rw [hview]
  refine Move.openAt rfl ?_ ho.logs hf.active rfl rfl rfl hf.nextSeq
  intro p hp
  obtain ⟨q, hq, rfl⟩ := List.mem_map.mp hp
  exact le_segmentID hd.sorted q hq

end Process

/-! ### Opening -/

theorem Truncated.raise {wals wals' : List (Nat × Bytes)} (h : Truncated cfg used wals wals')
    (m : Manifest) : raiseSegmentID m wals' = raiseSegmentID m wals := by
  have hlast : (wals'.getLast?).map Prod.fst = (wals.getLast?).map Prod.fst := by
    rw [← List.getLast?_map, ← List.getLast?_map, h.ids]
  unfold raiseSegmentID
  cases hold : wals.getLast? with
  | none =>
      rw [hold, Option.map_none, Option.map_eq_none_iff] at hlast
      rw [hlast]
  | some p =>
      rw [hold, Option.map_some, Option.map_eq_some_iff] at hlast
      obtain ⟨q, hq, heq⟩ := hlast
      rw [hq]
      dsimp only
      rw [heq]

/-- How `Open` ends. -/
def Opens (cfg : Config) (g : Guard) (M : Model Call) (used : Nat) (start : View × Ledger)
    (opts : Options) : Post Disk DBError DB where
  ret := fun db d => Runs cfg g M used start start.2 ⟨d, db⟩ ∧ Fresh opts start.1 d db
  err := fun e d => Stops cfg g used start start.2 d ∧
    (normalizeOptions opts = .error e ∨ SegmentError M e)
  kill := fun d => g.crash ∧ Stops cfg g used start start.2 d

theorem wp_openDB (ha : Allowed g M) (hd : DiskSound cfg g used d) (hused : used + 1 < 2 ^ 64)
    (opts : Options) :
    wp M (openDB cfg opts) (Opens cfg g M used (viewOf cfg d none, l) opts) d := by
  have hstay : Stops cfg g used (viewOf cfg d none, l) l d := ⟨hd, Relation.ReflTransGen.refl⟩
  unfold openDB
  refine wp_bind (wp_ofExcept (fun settings hsettings => ?_) fun e he => ⟨hstay, Or.inl he⟩)
  refine wp_bind (wp_get (wp_bind ?_))
  refine wp_replaySegments ha [] hd.segments hd.sorted (by simp [Whole]) (Nat.zero_le _) ?_
    fun hg wals htrunc => ⟨hg, htrunc.stops hstay⟩
  intro wals walMaxSeq htrunc hwhole hle _ hlogs
  have hdisk := htrunc.disk hd
  have hstops := htrunc.stops hstay
  have hmanifest : raiseSegmentID (Manifest.read d.manifest) d.wals =
    raiseSegmentID (Manifest.read d.manifest) wals := (htrunc.raise _).symm
  dsimp only
  rw [hmanifest]
  refine wp_bind (wp_mono (wp_openSegment hdisk hwhole ha hstops) ?_ ?_ ?_)
  · intro _ d' ho
    refine wp_bind (wp_get ?_)
    have htables : ∀ t ∈ (openedManifest cfg { d with wals } d').sstables,
        TableSound used d' t := by
      rw [ho.tables_eq]
      exact fun t ht => recovered_sound ho.disk ht
    obtain ⟨m, hm, hmle, hmtab⟩ := maxSeqFromSSTables_eq htables
    refine wp_bind (wp_ofExcept (fun a hok => ?_) fun e herr => ?_)
    · obtain rfl : m = a := Except.ok.inj (hm.symm.trans hok)
      have hlogs' : ∀ p ∈ logsOf cfg { d with wals }, ∀ r ∈ p.2, r.seq ≤ walMaxSeq := by
        rw [htrunc.logsOf]
        intro p hp r hr
        obtain ⟨q, hq, rfl⟩ := List.mem_map.mp hp
        exact hlogs q hq r hr
      have hmt : MemTable.new.putAll (d.wals.flatMap fun p => applied cfg.crc p.2) =
          replayed (logsOf cfg { d with wals }) := by
        rw [htrunc.logsOf]
        unfold replayed logsOf
        rw [List.flatMap_map]
      have hbound := ho.seqBound hmtab hmle hlogs' hle
      rw [← hmt] at hbound
      obtain ⟨hkey, hvalue⟩ := normalizeOptions_limits hsettings
      have hfresh := ho.fresh hbound hdisk hused hsettings hmt
      refine wp_pure ⟨⟨⟨ho.disk, ?_⟩, ?_⟩, ?_⟩
      · exact ho.procSound hbound hused hkey hvalue
      · exact hstops.moves.tail (ho.move hdisk hfresh)
      · rw [htrunc.view] at hfresh
        exact hfresh
    · cases hm.symm.trans herr
  · exact fun e d' h => ⟨h.2, Or.inr h.1⟩
  · exact fun d' h => h

end HyphaDB.Refine
