import HyphaDB.Refine.Segments
import HyphaDB.Store.Anchored

/-!
# HyphaDB.Refine.Write

**Mutations are moves.** `Put`, `Delete` and `Batch.Commit` share one shape: log the records,
put them into the memtable, rotate when it is full. Logged and put is a `write`; logged
and then killed a `crashLogged`; logged and not synced a `logOnly`; not logged leaves the
view as it was. The rotation behind it is a move of its own.
-/

namespace HyphaDB.Refine

open Faults Store Wal

/-! ### Ledgers -/

theorem forget_apply (l : Ledger) (ops : List BatchOperation) (k : Key) :
    l.forget ops k = if k ∈ ops.map BatchOperation.key then none else l k := by
  unfold Ledger.forget
  induction ops generalizing l with
  | nil => simp
  | cons op ops ih =>
      rw [List.foldl_cons, ih]
      by_cases hk : k = op.key
      · simp [hk]
      · simp [hk]

theorem acknowledge_of_not_mem {l : Ledger} {ops : List BatchOperation} {k : Key}
    (h : k ∉ ops.map BatchOperation.key) : l.acknowledge ops k = l k := by
  unfold Ledger.acknowledge
  induction ops generalizing l with
  | nil => rfl
  | cons op ops ih =>
      rw [List.map_cons, List.mem_cons, not_or] at h
      rw [List.foldl_cons, ih h.2, Function.update_of_ne h.1]

theorem forget_eq_some {l : Ledger} {ops : List BatchOperation} {k : Key} {m : Option Bytes}
    (h : l.forget ops k = some m) : k ∉ ops.map BatchOperation.key ∧ l k = some m := by
  rw [forget_apply] at h
  by_cases hk : k ∈ ops.map BatchOperation.key
  · rw [if_pos hk] at h
    cases h
  · rw [if_neg hk] at h
    exact ⟨hk, h⟩

theorem weaker_forget (l : Ledger) (ops : List BatchOperation) : Weaker (l.forget ops) l :=
  fun _ _ h => (forget_eq_some h).2

theorem weaker_forget_acknowledge (l : Ledger) (ops : List BatchOperation) :
    Weaker (l.forget ops) (l.acknowledge ops) := by
  intro k m h
  obtain ⟨hk, h⟩ := forget_eq_some h
  rw [acknowledge_of_not_mem hk, h]

/-- The records of operations. -/
def Carries (recs : List Record) (ops : List BatchOperation) : Prop :=
  recs.map (fun r => (r.key, r.toEntry)) = ops.map (fun op => (op.key, op.entry))

theorem Carries.record {recs : List Record} {ops : List BatchOperation} (h : Carries recs ops)
    (l : Ledger) : record l recs = l.acknowledge ops := by
  have hrecs : Store.record l recs = (recs.map (fun r => (r.key, r.toEntry))).foldl
      (fun (l : Ledger) p => Function.update l p.1 (some p.2.visible)) l := by
    rw [List.foldl_map]
    rfl
  have hops : l.acknowledge ops = (ops.map (fun op => (op.key, op.entry))).foldl
      (fun (l : Ledger) p => Function.update l p.1 (some p.2.visible)) l := by
    rw [List.foldl_map]
    rfl
  rw [hrecs, hops, show recs.map _ = _ from h]

theorem Carries.forget {recs : List Record} {ops : List BatchOperation} (h : Carries recs ops)
    (l : Ledger) : WeakerWithout recs (l.forget ops) l := by
  intro k m hk
  obtain ⟨hno, hk⟩ := forget_eq_some hk
  refine ⟨hk, fun r hr heq => hno ?_⟩
  have hmem : (r.key, r.toEntry) ∈ ops.map (fun op => (op.key, op.entry)) :=
    h ▸ List.mem_map_of_mem hr
  obtain ⟨op, hop, hpair⟩ := List.mem_map.mp hmem
  rw [← heq, ← (Prod.mk.inj hpair).1]
  exact List.mem_map_of_mem hop

/-! ### What a program may end in -/

section Posts

variable (cfg : Config) (g : Guard) (M : Model Call) (used : Nat)

/-- The process runs on, reached by moves. -/
structure Runs (start : View × Ledger) (l : Ledger) (s : Sys) : Prop where
  sound : SysSound cfg g M used s
  moves : Moves g start (viewSys cfg s, l)

/-- The process is gone, its directory reached by moves. -/
structure Stops (start : View × Ledger) (l : Ledger) (d : Disk) : Prop where
  sound : DiskSound cfg g used d
  moves : Moves g start (viewOf cfg d none, l)

/-- A program that carries out `ops` as its caller sees it. Only the faults the guard speaks
of leave the caller in doubt. -/
def Refines (start : View × Ledger) (ops : List BatchOperation) : Post Sys DBError Unit where
  ret := fun _ s => Runs cfg g M used start (start.2.acknowledge ops) s
  err := fun e s => (e.unsettled = true → g.logOnly ∨ g.rotateFail) ∧
    Runs cfg g M used start (start.2.learn ops (.err e)) s
  kill := fun s => g.crash ∧ Stops cfg g used start (start.2.forget ops) s.disk

end Posts

variable {cfg : Config} {g : Guard} {M : Model Call} {used : Nat} {start : View × Ledger}
  {l : Ledger} {s : Sys}

/-- The process is killed with nothing lost but its memory. -/
theorem Runs.stops (h : Runs cfg g M used start l s) (hg : g.crash) :
    Stops cfg g used start l s.disk :=
  ⟨h.sound.disk, h.moves.tail (.crash hg)⟩

theorem Runs.forget (h : Runs cfg g M used start l s) {l' : Ledger} (hl : Weaker l' l) :
    Runs cfg g M used start l' s :=
  ⟨h.sound, h.moves.tail (.forget hl)⟩

theorem Stops.forget {d : Disk} (h : Stops cfg g used start l d) {l' : Ledger}
    (hl : Weaker l' l) : Stops cfg g used start l' d :=
  ⟨h.sound, h.moves.tail (.forget hl)⟩

/-- A segment created while the process dies. -/
theorem Stops.created {d d' : Disk} {id : Nat} (h : Stops cfg g used start l d)
    (hc : Created d id d') (hid : ∀ p ∈ d.wals, p.1 < id)
    (hnext : (Manifest.read d.manifest).nextWALSegmentID ≤ id) (hg : g.crash ∨ g.rotateFail) :
    Stops cfg g used start l d' := by
  refine ⟨hc.disk h.sound hid hnext, ?_⟩
  have hview : viewOf cfg d' none = ⟨logsOf cfg d', tabsOf d, none⟩ := by
    unfold viewOf
    rw [hc.tabs]
    rfl
  rw [hview]
  rcases hc.logs cfg with heq | heq
  · rw [heq]
    exact h.moves
  · rw [heq]
    exact h.moves.tail (.segment rfl (logsOf_lt hid) hg)

/-! ### Rotation -/

section Rotate

variable (h : Runs cfg g M used start l s)

include h

/-- The number of the next segment is above all there are. -/
theorem Runs.next_fresh : ∀ p ∈ s.disk.wals, p.1 < s.db.manifest.nextWALSegmentID + 1 :=
  fun p hp => Nat.lt_succ_of_le (h.sound.proc.wals_le p hp)

theorem Runs.next_le : (Manifest.read s.disk.manifest).nextWALSegmentID ≤
    s.db.manifest.nextWALSegmentID + 1 :=
  Nat.le_succ_of_le h.sound.proc.next_le

theorem Runs.rotated : Runs cfg g M used start l
    ⟨addWal s.disk (s.db.manifest.nextWALSegmentID + 1) walHeader, s.db.enqueue.switch⟩ := by
  have hp := h.sound.proc
  have hfresh := h.next_fresh
  refine ⟨⟨h.sound.disk.addWal hfresh h.next_le Clean.header.segment, ?_⟩, ?_⟩
  · refine
      { sstables := hp.sstables, agree := hp.agree, below := hp.below
        flusher := hp.flusher.congr fun _ _ _ => rfl
        wals_le := ?_, next_le := h.next_le, next_eq := fun _ => rfl
        active := ⟨_, List.mem_append_right _ List.mem_cons_self, rfl⟩
        header := ?_, clean := Or.inr ?_, refs := ?_
        maxKey := hp.maxKey, maxValue := hp.maxValue, seq_pos := hp.seq_pos, seq_le := hp.seq_le }
    · intro p hp
      rcases List.mem_append.mp hp with hp | hp
      · exact (hfresh p hp).le
      · rw [List.mem_singleton.mp hp]
        exact le_refl _
    · intro p hp hw
      rcases List.mem_append.mp hp with hp | hp
      · exact absurd hw (hfresh p hp).ne
      · rw [List.mem_singleton.mp hp]
        exact List.cons_ne_nil _ _
    · intro p hp hw
      rcases List.mem_append.mp hp with hp | hp
      · exact absurd hw (hfresh p hp).ne
      · rw [List.mem_singleton.mp hp]
        exact Clean.header
    · intro e he
      rcases List.mem_append.mp he with he | he
      · exact Nat.lt_succ_of_lt (hp.refs e he)
      · rw [List.mem_singleton.mp he]
        exact Nat.lt_succ_self _
  · have hmove := Move.rotate (g := g) (l := l) (v := viewSys cfg s) rfl (logsOf_lt hfresh)
      fun e he => (hp.refs e he).ne
    have hview : viewSys cfg ⟨addWal s.disk (s.db.manifest.nextWALSegmentID + 1) walHeader,
        s.db.enqueue.switch⟩ =
        { viewSys cfg s with
          logs := (viewSys cfg s).logs ++ [(s.db.manifest.nextWALSegmentID + 1, [])]
          handle := some ((handleOf s.disk s.db).enqueue.switch s.db.nextRef
            (s.db.manifest.nextWALSegmentID + 1)) } := by
      have hlogs := addWal_logs cfg s.disk (s.db.manifest.nextWALSegmentID + 1)
        applied_header
      show View.mk (logsOf cfg (addWal _ _ _)) _ _ = _
      rw [hlogs]
      rfl
    rw [hview]
    exact h.moves.tail hmove

/-- The memtable is queued and stays active. -/
theorem Runs.rotateFailed (hg : g.rotateFail) {d' : Disk}
    (hc : Created s.disk (s.db.manifest.nextWALSegmentID + 1) d') :
    Runs cfg g M used start l ⟨d', s.db.enqueue⟩ := by
  have hp := h.sound.proc
  have hfresh := h.next_fresh
  have hwal : ∀ p ∈ d'.wals, p.1 = s.db.wal → p ∈ s.disk.wals := by
    intro p hmem hw
    refine (hc.mem hmem).resolve_right fun heq => ?_
    obtain ⟨q, hq, hqid⟩ := hp.active
    exact absurd (hfresh q hq) (by omega)
  refine ⟨⟨hc.disk h.sound.disk hfresh h.next_le, ?_⟩, ?_⟩
  · rw [hc.eq_wals]
    refine ProcSound.setWals ?_ d'.wals ?_ ?_ ?_ ?_
    · exact { hp with
        wals_le := fun p hp => (hfresh p hp).le
        next_le := h.next_le
        next_eq := fun hno => absurd hg hno
        refs := fun e he => hp.refs e (mem_entries_enqueue.mp he) }
    · intro p hmem
      rcases hc.mem hmem with hmem | heq
      · exact (hfresh p hmem).le
      · exact heq.le
    · obtain ⟨q, hq, hqid⟩ := hp.active
      exact ⟨q, hc.sub hq, hqid⟩
    · exact fun p hmem hw => hp.header p (hwal p hmem hw) hw
    · exact hp.clean.imp_right fun hclean p hmem hw => hclean p (hwal p hmem hw) hw
  · have hview : viewSys cfg ⟨d', s.db.enqueue⟩ =
        { viewSys cfg s with
          logs := logsOf cfg d', handle := some (handleOf s.disk s.db).enqueue } := by
      cases hc with
      | nothing | file | header => rfl
    rw [hview]
    refine h.moves.tail (.rotateFail rfl ?_ hg)
    exact (hc.logs cfg).imp_right fun heq => ⟨_, logsOf_lt hfresh, heq⟩

theorem wp_rotateMemtable (ha : Allowed g M) :
    wp M rotateMemtable ⟨fun _ t => Runs cfg g M used start l t,
      fun e t => (g.rotateFail ∧ e.unsettled = true) ∧ Runs cfg g M used start l t,
      fun t => g.crash ∧ Stops cfg g used start l t.disk⟩ s := by
  unfold rotateMemtable
  refine wp_bind (wp_modify (wp_bind (wp_get (wp_bind (wp_zoom ?_)))))
  refine wp_newSegment_fresh ha h.next_fresh ?_ ?_ ?_
  · refine wp_bind (wp_modify (wp_call h.rotated ?_ ?_))
    · exact fun n hM => absurd (ha.other hM) (by simp)
    · exact fun n hM => ⟨ha.kill hM, h.rotated.stops (ha.kill hM)⟩
  · exact fun hg e d' he hc => ⟨⟨hg, he.unsettled⟩, h.rotateFailed hg hc⟩
  · exact fun hg d' hc => ⟨hg, (h.stops hg).created hc h.next_fresh h.next_le (Or.inl hg)⟩

theorem wp_rotateIfFull (ha : Allowed g M) :
    wp M rotateIfFull ⟨fun _ t => Runs cfg g M used start l t,
      fun e t => (g.rotateFail ∧ e.unsettled = true) ∧ Runs cfg g M used start l t,
      fun t => g.crash ∧ Stops cfg g used start l t.disk⟩ s := by
  unfold rotateIfFull
  refine wp_bind (wp_get ?_)
  by_cases hfull : s.db.maxMemtableSize ≤ s.db.memTableSize
  · show wp M (if _ then _ else _) _ _
    rw [if_pos hfull]
    exact wp_rotateMemtable h ha
  · show wp M (if _ then _ else _) _ _
    rw [if_neg hfull]
    exact wp_pure h

end Rotate

/-! ### Mutations -/

/-- Records to be written with the next `n` sequence numbers. -/
structure Mutation (s : Sys) (used n : Nat) (recs : List Record) (ops : List BatchOperation) :
    Prop where
  sequenced : Sequenced s.db.nextSeq n recs
  carries : Carries recs ops
  room : used + n + 1 < 2 ^ 64

/-- A write of which nothing counts. -/
theorem logged_nothing (hclean : ActiveClean cfg used s.disk s.db) {sent : List Record} {t : Bytes}
    (hc : Chunk cfg.crc used [] sent t) :
    logsOf cfg (appendActive s (frames cfg.crc sent ++ t)).disk = logsOf cfg s.disk := by
  show logsOf cfg (s.disk.appendWal s.db.wal (frames cfg.crc sent ++ t)) = _
  rw [logsOf_chunk hclean hc, appendLog_nil]

section Mutate

variable {n : Nat} {recs : List Record} {ops : List BatchOperation}
  (hs : SysSound cfg g M (used + n) s) (hseq : s.db.nextSeq.toNat ≤ used + 1)
  (hclean : ActiveClean cfg (used + n) s.disk s.db)
  (hm : Mutation s used n recs ops)

include hs hseq hclean hm

/-- The records are in the log and in the memtable. -/
theorem runs_written (hg : g.write (viewSys cfg s) recs) {sent : List Record}
    (hc : Chunk cfg.crc (used + n) recs sent []) :
    Runs cfg g M (used + n) (viewSys cfg s, l) (l.acknowledge ops)
      { appendActive s (frames cfg.crc sent ++ []) with
        db := { s.db.putRecords recs with nextSeq := s.db.nextSeq + UInt64.ofNat n } } := by
  have hp := hs.proc.chunk hclean hc (Or.inl rfl)
  have hnext := hm.sequenced.toNat_next
  refine ⟨⟨hs.disk.chunk hclean hc, ?_⟩, ?_⟩
  · refine { hp with seq_pos := ?_, seq_le := ?_ }
    · have hpos := hs.proc.seq_pos
      rw [UInt64.lt_iff_toNat_lt] at hpos ⊢
      rw [hnext]
      exact Nat.lt_of_lt_of_le hpos (Nat.le_add_right _ _)
    · show (s.db.nextSeq + UInt64.ofNat n).toNat ≤ used + n + 1
      rw [hnext]
      omega
  · have hmove := Move.write (g := g) (l := l) (v := viewSys cfg s) rfl hm.sequenced hg
    rw [hm.carries.record] at hmove
    have hlogs := logsOf_chunk hclean hc
    refine Relation.ReflTransGen.single ?_
    show Move g _
      (View.mk (logsOf cfg (s.disk.appendWal s.db.wal (frames cfg.crc sent ++ []))) _ _, _)
    rw [hlogs]
    exact hmove

theorem logPost_mutation (ha : Allowed g M) (hg : g.write (viewSys cfg s) recs) :
    LogPost cfg M (used + n) recs s
      ⟨fun _ t => wp M (do
          updateDB fun db =>
            { db.putRecords recs with nextSeq := db.nextSeq + UInt64.ofNat n }
          rotateIfFull) (Refines cfg g M (used + n) (viewSys cfg s, l) ops) t,
        (Refines cfg g M (used + n) (viewSys cfg s, l) ops).err,
        (Refines cfg g M (used + n) (viewSys cfg s, l) ops).kill⟩ := by
  refine ⟨?_, ?_, ?_, ?_, ?_⟩
  · intro sent hc
    refine wp_bind (wp_modify ?_)
    have hwritten := runs_written (l := l) hs hseq hclean hm hg hc
    refine wp_mono (wp_rotateIfFull hwritten ha) (fun _ t ht => ht) ?_ ?_
    · intro e t ht
      refine ⟨fun _ => Or.inr ht.1.1, ?_⟩
      show Runs _ _ _ _ _ (l.learn ops (.err e)) t
      rw [Ledger.learn, if_pos ht.1.2]
      exact ht.2.forget (weaker_forget_acknowledge l ops)
    · exact fun t ht => ⟨ht.1, ht.2.forget (weaker_forget_acknowledge l ops)⟩
  · intro k sent t _ hc ht
    refine ⟨fun h => (by cases h), ⟨hs.disk.chunk hclean hc, hs.proc.chunk hclean hc ht⟩, ?_⟩
    have hlogs := logged_nothing hclean hc
    show Moves g _ (View.mk (logsOf cfg (appendActive s (frames cfg.crc sent ++ t)).disk) _ _, l)
    rw [hlogs]
    exact Relation.ReflTransGen.refl
  · intro k sent hM hc
    refine ⟨fun _ => Or.inl (ha.walSync hM),
      ⟨hs.disk.chunk hclean hc, hs.proc.chunk hclean hc (Or.inl rfl)⟩, ?_⟩
    have hmove := Move.logOnly (g := g) (l := l) (v := viewSys cfg s) rfl hm.sequenced
      (hm.carries.forget l) (ha.walSync hM)
    have hlogs := logsOf_chunk hclean hc
    refine Relation.ReflTransGen.single ?_
    show Move g _
      (View.mk (logsOf cfg (s.disk.appendWal s.db.wal (frames cfg.crc sent ++ []))) _ _, _)
    rw [hlogs]
    exact hmove
  · intro c k sent t hM hc
    refine ⟨ha.kill hM, hs.disk.chunk hclean hc, ?_⟩
    have hlogs := logged_nothing hclean hc
    show Moves g _ (View.mk (logsOf cfg (appendActive s (frames cfg.crc sent ++ t)).disk) _ _, _)
    rw [hlogs]
    have hcrash := Move.crash (g := g) (l := l) (v := viewSys cfg s) (ha.kill hM)
    exact (Relation.ReflTransGen.single hcrash).tail (.forget (weaker_forget l ops))
  · intro c k sent hM hc
    refine ⟨ha.kill hM, hs.disk.chunk hclean hc, ?_⟩
    have hmove := Move.crashLogged (g := g) (l := l) (v := viewSys cfg s) rfl hm.sequenced
      (hm.carries.forget l) (ha.kill hM)
    have hlogs := logsOf_chunk hclean hc
    refine Relation.ReflTransGen.single ?_
    show Move g _
      (View.mk (logsOf cfg (s.disk.appendWal s.db.wal (frames cfg.crc sent ++ []))) _ _, _)
    rw [hlogs]
    exact hmove

end Mutate

/-- **A mutation** behind any program that logs its records. -/
theorem wp_mutation (ha : Allowed g M) {n : Nat} {recs : List Record} {ops : List BatchOperation}
    (hs : SysSound cfg g M used s) (hclean : ActiveClean cfg used s.disk s.db)
    (hm : Mutation s used n recs ops) (hg : g.write (viewSys cfg s) recs) {p : Op Unit}
    (hp : Logs cfg M (used + n) recs p) :
    wp M (do
      p
      updateDB fun db => { db.putRecords recs with nextSeq := db.nextSeq + UInt64.ofNat n }
      rotateIfFull) (Refines cfg g M (used + n) (viewSys cfg s, l) ops) s := by
  have hle : used ≤ used + n := Nat.le_add_right _ _
  have hclean' : ActiveClean cfg (used + n) s.disk s.db :=
    fun p hp hw => (hclean p hp hw).mono hle
  exact wp_bind (hp s _ (logPost_mutation (hs.mono hle) hs.proc.seq_le hclean' hm ha hg))

/-! ### Put and Delete -/

theorem entryRecord_carries (key : Key) (seq : UInt64) (entry : Entry) :
    Carries [entryRecord key seq entry] [⟨key, entry⟩] := rfl

theorem framed_entry {key : Key} {entry : Entry} (hs : SysSound cfg g M used s)
    (hkey : key.length ≤ s.db.limits.maxKeyBytes)
    (hvalue : entry.value.length ≤ s.db.limits.maxValueBytes) :
    Framed (used + 1) [entryRecord key s.db.nextSeq entry] := by
  refine ⟨fun r hr => ?_, fun r hr => ?_, fun r hr => ?_⟩
  · rw [List.mem_singleton.mp hr]
    exact ⟨hkey.trans hs.proc.maxKey, hvalue.trans hs.proc.maxValue⟩
  · rw [List.mem_singleton.mp hr]
    exact hs.proc.seq_le
  · rw [List.mem_singleton.mp hr]
    exact Nat.zero_le _

/-- The common part of `Put` and `Delete`. -/
theorem wp_writeEntry (ha : Allowed g M) {key : Key} {entry : Entry}
    (hs : SysSound cfg g M used s) (hclean : ActiveClean cfg used s.disk s.db)
    (hkey : key.length ≤ s.db.limits.maxKeyBytes)
    (hvalue : entry.value.length ≤ s.db.limits.maxValueBytes)
    (hg : g.write (viewSys cfg s) [entryRecord key s.db.nextSeq entry])
    (hroom : used + 1 + 1 < 2 ^ 64) :
    wp M (writeEntry cfg key entry)
      (Refines cfg g M (used + 1) (viewSys cfg s, l) [⟨key, entry⟩]) s := by
  have hseq := hs.proc.seq_le
  unfold writeEntry
  refine wp_bind (wp_get ?_)
  have hsequenced : Sequenced s.db.nextSeq 1 [entryRecord key s.db.nextSeq entry] := by
    refine ⟨List.pairwise_singleton _ _, fun r hr => ?_, by omega⟩
    rw [List.mem_singleton.mp hr]
    exact ⟨le_refl _, Nat.lt_succ_self _⟩
  exact wp_mutation ha hs hclean ⟨hsequenced, entryRecord_carries _ _ _, hroom⟩ hg
    (logs_writeRecord (framed_entry hs hkey hvalue) rfl)

/-! ### Batches -/

theorem batchEntries_carries (seq : UInt64) (ops : List BatchOperation) :
    Carries (batchEntries seq ops) ops := by
  unfold Carries batchEntries
  rw [List.map_map]
  have hfst : ops.map (fun op => (op.key, op.entry)) =
      ops.zipIdx.map ((fun op : BatchOperation => (op.key, op.entry)) ∘ Prod.fst) := by
    rw [← List.map_map, List.zipIdx_map_fst]
  rw [hfst]
  rfl

theorem batchEntries_seq (seq : UInt64) (ops : List BatchOperation) :
    (batchEntries seq ops).map Record.seq =
      (List.range' 0 ops.length).map fun i => seq + UInt64.ofNat i := by
  unfold batchEntries
  rw [List.map_map, ← List.zipIdx_map_snd 0 ops, List.map_map]
  rfl

theorem mem_batchEntries {seq : UInt64} {ops : List BatchOperation} {r : Record}
    (hr : r ∈ batchEntries seq ops) :
    ∃ op ∈ ops, ∃ i < ops.length, r = entryRecord op.key (seq + UInt64.ofNat i) op.entry := by
  obtain ⟨⟨op, i⟩, hmem, rfl⟩ := List.mem_map.mp hr
  obtain ⟨-, hlt, hop⟩ := List.mem_zipIdx hmem
  refine ⟨op, ?_, i, by omega, rfl⟩
  rw [hop]
  exact List.getElem_mem _

theorem length_le_batchCost (ops : List BatchOperation) :
    ops.length ≤ batchCost ops ∧ 0 < batchCost ops := by
  unfold batchCost
  by_cases h : ops.length = 0
  · rw [if_pos h]
    omega
  · rw [if_neg h]
    omega

/-- Consecutive sequence numbers below the end of the counter. -/
theorem toNat_add_index {seq : UInt64} {n i : Nat} (hroom : seq.toNat + n < 2 ^ 64) (hi : i < n) :
    (seq + UInt64.ofNat i).toNat = seq.toNat + i :=
  toNat_add_ofNat (by omega)

theorem batchEntries_sequenced {seq : UInt64} {ops : List BatchOperation} {n : Nat}
    (hn : ops.length ≤ n) (hroom : seq.toNat + n < 2 ^ 64) :
    Sequenced seq n (batchEntries seq ops) := by
  refine ⟨?_, fun r hr => ?_, hroom⟩
  · have hseqs : ((batchEntries seq ops).map Record.seq).Pairwise (· < ·) := by
      rw [batchEntries_seq, List.pairwise_map]
      refine List.Pairwise.imp_of_mem ?_ List.pairwise_lt_range'
      intro i j hi hj hij
      rw [List.mem_range'_1] at hi hj
      rw [UInt64.lt_iff_toNat_lt, toNat_add_index hroom (by omega),
        toNat_add_index hroom (by omega)]
      omega
    exact List.pairwise_map.mp hseqs
  · obtain ⟨op, -, i, hi, rfl⟩ := mem_batchEntries hr
    have hnat : (entryRecord op.key (seq + UInt64.ofNat i) op.entry).seq.toNat = seq.toNat + i :=
      toNat_add_index hroom (by omega)
    rw [UInt64.le_iff_toNat_le, hnat]
    omega

theorem validateKey_eq_ok {limits : Limits} {key : Key} :
    limits.validateKey key = .ok () ↔ key.length ≤ limits.maxKeyBytes := by
  unfold Limits.validateKey
  by_cases h : limits.maxKeyBytes < key.length
  · rw [if_pos h]
    exact ⟨fun hno => (by cases hno), fun hle => (by omega)⟩
  · rw [if_neg h]
    exact ⟨fun _ => by omega, fun _ => rfl⟩

theorem validateValue_eq_ok {limits : Limits} {value : Bytes} :
    limits.validateValue value = .ok () ↔ value.length ≤ limits.maxValueBytes := by
  unfold Limits.validateValue
  by_cases h : limits.maxValueBytes < value.length
  · rw [if_pos h]
    exact ⟨fun hno => (by cases hno), fun hle => (by omega)⟩
  · rw [if_neg h]
    exact ⟨fun _ => by omega, fun _ => rfl⟩

theorem validateKey_eq_error {limits : Limits} {key : Key} {e : DBError}
    (h : limits.validateKey key = .error e) :
    limits.maxKeyBytes < key.length ∧ e.unsettled = false := by
  unfold Limits.validateKey at h
  split at h
  · obtain rfl := Except.error.inj h
    exact ⟨‹_›, rfl⟩
  · cases h

theorem validateValue_eq_error {limits : Limits} {value : Bytes} {e : DBError}
    (h : limits.validateValue value = .error e) :
    limits.maxValueBytes < value.length ∧ e.unsettled = false := by
  unfold Limits.validateValue at h
  split at h
  · obtain rfl := Except.error.inj h
    exact ⟨‹_›, rfl⟩
  · cases h

/-- What a batch takes up keeps to the limits. -/
theorem Batch.add_eq_ok {limits : Limits} {b b' : Batch} {call : BatchCall}
    (h : b.add limits call = .ok b') :
    b'.operations = b.operations ++ [call.operation] ∧
      call.operation.key.length ≤ limits.maxKeyBytes ∧
      call.operation.entry.value.length ≤ limits.maxValueBytes := by
  unfold Batch.add at h
  rw [if_neg (fun hclosed => by rw [if_pos hclosed] at h; cases h)] at h
  cases hk : limits.validateKey call.operation.key with
  | error e =>
      simp only [hk] at h
      cases h
  | ok _ =>
      cases hval : limits.validateValue call.operation.entry.value with
      | error e =>
          simp only [hk, hval] at h
          cases h
      | ok _ =>
          cases hres : b.reserveOperation limits
              (call.operation.key.length + call.operation.entry.value.length) with
          | error e =>
              simp only [hk, hval, hres] at h
              cases h
          | ok _ =>
              simp only [hk, hval, hres] at h
              obtain rfl := Except.ok.inj h
              exact ⟨rfl, validateKey_eq_ok.mp hk, validateValue_eq_ok.mp hval⟩

/-- Every admitted operation keeps to the limits. -/
theorem batchOperations_limits {limits : Limits} {calls : List BatchCall} {op : BatchOperation}
    (hop : op ∈ batchOperations limits calls) :
    op.key.length ≤ limits.maxKeyBytes ∧ op.entry.value.length ≤ limits.maxValueBytes := by
  have hfold : ∀ (calls : List BatchCall) (b : Batch),
      (∀ op ∈ b.operations, op.key.length ≤ limits.maxKeyBytes ∧
        op.entry.value.length ≤ limits.maxValueBytes) →
      ∀ op ∈ (calls.foldl (fun b call => (b.add limits call).toOption.getD b) b).operations,
        op.key.length ≤ limits.maxKeyBytes ∧ op.entry.value.length ≤ limits.maxValueBytes := by
    intro calls
    induction calls with
    | nil => exact fun b hb => hb
    | cons call calls ih =>
        intro b hb
        rw [List.foldl_cons]
        refine ih _ ?_
        cases hadd : b.add limits call with
        | error e => exact hb
        | ok b' =>
            obtain ⟨hops, hlimits⟩ := Batch.add_eq_ok hadd
            intro op hop
            rw [show (Except.toOption (Except.ok b')).getD b = b' from rfl, hops] at hop
            rcases List.mem_append.mp hop with hop | hop
            · exact hb op hop
            · rw [List.mem_singleton.mp hop]
              exact hlimits
  exact hfold calls {} (by simp) op hop

theorem framed_batch {ops : List BatchOperation} (hs : SysSound cfg g M used s)
    (hops : ∀ op ∈ ops, op.key.length ≤ s.db.limits.maxKeyBytes ∧
      op.entry.value.length ≤ s.db.limits.maxValueBytes)
    (hroom : used + batchCost ops + 1 < 2 ^ 64) :
    Framed (used + batchCost ops)
      (batchRecords s.db.nextSeq (batchEntries s.db.nextSeq ops)) := by
  have hseq := hs.proc.seq_le
  obtain ⟨hlen, hpos⟩ := length_le_batchCost ops
  have hroom' : s.db.nextSeq.toNat + batchCost ops < 2 ^ 64 := by omega
  have hmem : ∀ r ∈ batchRecords s.db.nextSeq (batchEntries s.db.nextSeq ops),
      r = beginRecord s.db.nextSeq ∨ r = commitRecord s.db.nextSeq ∨
        ∃ op ∈ ops, ∃ i < ops.length, r = operationRecord s.db.nextSeq
          (entryRecord op.key (s.db.nextSeq + UInt64.ofNat i) op.entry) := by
    intro r hr
    rcases List.mem_cons.mp hr with rfl | hr
    · exact Or.inl rfl
    · rcases List.mem_append.mp hr with hr | hr
      · obtain ⟨x, hx, rfl⟩ := List.mem_map.mp hr
        obtain ⟨op, hop, i, hi, rfl⟩ := mem_batchEntries hx
        exact Or.inr (Or.inr ⟨op, hop, i, hi, rfl⟩)
      · exact Or.inr (Or.inl (List.mem_singleton.mp hr))
  refine ⟨fun r hr => ?_, fun r hr => ?_, fun r hr => ?_⟩
  · rcases hmem r hr with rfl | rfl | ⟨op, hop, i, hi, rfl⟩
    · exact ⟨Nat.zero_le _, Nat.zero_le _⟩
    · exact ⟨Nat.zero_le _, Nat.zero_le _⟩
    · exact ⟨(hops op hop).1.trans hs.proc.maxKey, (hops op hop).2.trans hs.proc.maxValue⟩
  · rcases hmem r hr with rfl | rfl | ⟨op, hop, i, hi, rfl⟩
    · exact Nat.zero_le _
    · exact Nat.zero_le _
    · show (s.db.nextSeq + UInt64.ofNat i).toNat ≤ _
      rw [toNat_add_index hroom' (by omega)]
      omega
  · have hid : s.db.nextSeq.toNat ≤ used + batchCost ops := by omega
    rcases hmem r hr with rfl | rfl | ⟨op, hop, i, hi, rfl⟩
    · exact hid
    · exact hid
    · exact hid

theorem batchEntries_plain {seq : UInt64} {ops : List BatchOperation} :
    ∀ r ∈ batchEntries seq ops, r.plain = r := by
  intro r hr
  obtain ⟨op, -, i, -, rfl⟩ := mem_batchEntries hr
  rfl

theorem wp_applyBatch (ha : Allowed g M) {ops : List BatchOperation} (sync : Bool)
    (hs : SysSound cfg g M used s) (hopen : s.db.closed = false)
    (hclean : ActiveClean cfg used s.disk s.db)
    (hops : ∀ op ∈ ops, op.key.length ≤ s.db.limits.maxKeyBytes ∧
      op.entry.value.length ≤ s.db.limits.maxValueBytes)
    (hg : g.write (viewSys cfg s) (batchEntries s.db.nextSeq ops))
    (hroom : used + batchCost ops + 1 < 2 ^ 64) :
    wp M (applyBatch cfg ops sync)
      (Refines cfg g M (used + batchCost ops) (viewSys cfg s, l) ops) s := by
  have hseq := hs.proc.seq_le
  obtain ⟨hlen, hpos⟩ := length_le_batchCost ops
  have hroom' : s.db.nextSeq.toNat + batchCost ops < 2 ^ 64 := by omega
  unfold applyBatch
  refine wp_bind (wp_get ?_)
  show wp M (if s.db.closed = true then _ else _) _ _
  rw [if_neg (by simp [hopen])]
  exact wp_mutation ha hs hclean
    ⟨batchEntries_sequenced hlen hroom', batchEntries_carries _ _, hroom⟩ hg
    (logs_writeBatch (framed_batch hs hops hroom) batchEntries_plain sync)

/-! ### The events -/

/-- The operations of an event in a process. -/
def opsOf (db : DB) (event : Event) : List BatchOperation :=
  if db.closed then [] else db.admits event

/-- The sequence numbers an event takes in a process. -/
def costOf (db : DB) (event : Event) : Nat :=
  if db.closed then 0
  else
    match event with
    | .commit _ _ => batchCost (db.admits event)
    | _ => (db.admits event).length

/-- What is asked of an event that reaches the log. -/
def WriteOk (cfg : Config) (g : Guard) (used : Nat) (s : Sys) (event : Event) : Prop :=
  0 < costOf s.db event → ActiveClean cfg used s.disk s.db ∧
    g.write (viewSys cfg s) (batchEntries s.db.nextSeq (opsOf s.db event))

@[simp] theorem learn_nil (l : Ledger) (r : Response) : l.learn [] r = l := by
  cases r with
  | ok => rfl
  | killed => rfl
  | err e => exact ite_self _

theorem batchEntries_singleton (seq : UInt64) (op : BatchOperation) :
    batchEntries seq [op] = [entryRecord op.key seq op.entry] := by
  show [entryRecord op.key (seq + UInt64.ofNat 0) op.entry] = _
  rw [show UInt64.ofNat 0 = 0 from rfl, UInt64.add_zero]

/-- A refused event changes nothing, and its caller knows. -/
theorem runs_refused (hs : SysSound cfg g M used s) {e : DBError} (he : e.unsettled = false) :
    (Refines cfg g M used (viewSys cfg s, l) []).err e s := by
  refine ⟨fun h => ?_, ?_⟩
  · rw [he] at h
    cases h
  · show Runs cfg g M used _ (l.learn [] (.err e)) s
    rw [learn_nil]
    exact ⟨hs, Relation.ReflTransGen.refl⟩

section Events

variable (ha : Allowed g M) (hs : SysSound cfg g M used s)

include ha hs

/-- An admitted entry. -/
theorem wp_admitted {key : Key} {entry : Entry} {event : Event} (hopen : s.db.closed = false)
    (hadmits : s.db.admits event = [⟨key, entry⟩]) (hcost : costOf s.db event = 1)
    (hkey : key.length ≤ s.db.limits.maxKeyBytes)
    (hvalue : entry.value.length ≤ s.db.limits.maxValueBytes)
    (hok : WriteOk cfg g used s event) (hroom : used + costOf s.db event + 1 < 2 ^ 64) :
    wp M (writeEntry cfg key entry)
      (Refines cfg g M (used + costOf s.db event) (viewSys cfg s, l) (opsOf s.db event)) s := by
  have hops : opsOf s.db event = [⟨key, entry⟩] := by
    unfold opsOf
    rw [hopen]
    exact hadmits
  obtain ⟨hclean, hg⟩ := hok (by omega)
  rw [hops, batchEntries_singleton] at hg
  rw [hcost] at hroom
  rw [hops, hcost]
  exact wp_writeEntry ha hs hclean hkey hvalue hg hroom

theorem wp_put {key : Key} {value : Bytes} (hok : WriteOk cfg g used s (.put key value))
    (hroom : used + costOf s.db (.put key value) + 1 < 2 ^ 64) :
    wp M (put cfg key value) (Refines cfg g M (used + costOf s.db (.put key value))
      (viewSys cfg s, l) (opsOf s.db (.put key value))) s := by
  unfold put
  refine wp_bind (wp_get ?_)
  cases hclosed : s.db.closed with
  | true =>
      show wp M (if s.db.closed = true then _ else _) _ _
      rw [if_pos hclosed]
      have hops : opsOf s.db (.put key value) = [] := by simp [opsOf, hclosed]
      have hcost : costOf s.db (.put key value) = 0 := by simp [costOf, hclosed]
      rw [hops, hcost]
      exact wp_throw (runs_refused hs rfl)
  | false =>
      show wp M (if s.db.closed = true then _ else _) _ _
      rw [if_neg (by simp [hclosed])]
      -- a refused key or value admits nothing
      have hrefused : s.db.limits.maxKeyBytes < key.length ∨
          s.db.limits.maxValueBytes < value.length → ∀ e, e.unsettled = false →
          (Refines cfg g M (used + costOf s.db (.put key value)) (viewSys cfg s, l)
            (opsOf s.db (.put key value))).err e s := by
        intro hbad e he
        have hadmits : s.db.admits (.put key value) = [] := if_pos hbad
        have hops : opsOf s.db (.put key value) = [] := by simp [opsOf, hclosed, hadmits]
        have hcost : costOf s.db (.put key value) = 0 := by simp [costOf, hclosed, hadmits]
        rw [hops, hcost]
        exact runs_refused hs he
      refine wp_bind (wp_ofExcept (fun _ hk => ?_) fun e he => ?_)
      · refine wp_bind (wp_ofExcept (fun _ hv => ?_) fun e he => ?_)
        · have hkey := validateKey_eq_ok.mp hk
          have hvalue := validateValue_eq_ok.mp hv
          have hadmits : s.db.admits (.put key value) = [⟨key, { value, deleted := false }⟩] :=
            if_neg (by omega)
          refine wp_admitted ha hs hclosed hadmits ?_ hkey hvalue hok hroom
          simp [costOf, hclosed, hadmits]
        · obtain ⟨hlong, hsettled⟩ := validateValue_eq_error he
          exact hrefused (Or.inr hlong) e hsettled
      · obtain ⟨hlong, hsettled⟩ := validateKey_eq_error he
        exact hrefused (Or.inl hlong) e hsettled

theorem wp_delete {key : Key} (hok : WriteOk cfg g used s (.delete key))
    (hroom : used + costOf s.db (.delete key) + 1 < 2 ^ 64) :
    wp M (delete cfg key) (Refines cfg g M (used + costOf s.db (.delete key))
      (viewSys cfg s, l) (opsOf s.db (.delete key))) s := by
  unfold delete
  refine wp_bind (wp_get ?_)
  cases hclosed : s.db.closed with
  | true =>
      show wp M (if s.db.closed = true then _ else _) _ _
      rw [if_pos hclosed]
      have hops : opsOf s.db (.delete key) = [] := by simp [opsOf, hclosed]
      have hcost : costOf s.db (.delete key) = 0 := by simp [costOf, hclosed]
      rw [hops, hcost]
      exact wp_throw (runs_refused hs rfl)
  | false =>
      show wp M (if s.db.closed = true then _ else _) _ _
      rw [if_neg (by simp [hclosed])]
      refine wp_bind (wp_ofExcept (fun _ hk => ?_) fun e he => ?_)
      · have hkey := validateKey_eq_ok.mp hk
        have hadmits : s.db.admits (.delete key) = [⟨key, { value := [], deleted := true }⟩] :=
          if_neg (by omega)
        refine wp_admitted ha hs hclosed hadmits ?_ hkey (Nat.zero_le _) hok hroom
        simp [costOf, hclosed, hadmits]
      · obtain ⟨hbad, hsettled⟩ := validateKey_eq_error he
        have hadmits : s.db.admits (.delete key) = [] := if_pos hbad
        have hops : opsOf s.db (.delete key) = [] := by simp [opsOf, hclosed, hadmits]
        have hcost : costOf s.db (.delete key) = 0 := by simp [costOf, hclosed, hadmits]
        rw [hops, hcost]
        exact runs_refused hs hsettled

theorem wp_commit {calls : List BatchCall} {sync : Bool}
    (hok : WriteOk cfg g used s (.commit calls sync))
    (hroom : used + costOf s.db (.commit calls sync) + 1 < 2 ^ 64) :
    wp M (commit cfg calls sync) (Refines cfg g M (used + costOf s.db (.commit calls sync))
      (viewSys cfg s, l) (opsOf s.db (.commit calls sync))) s := by
  unfold commit
  refine wp_bind (wp_get ?_)
  cases hclosed : s.db.closed with
  | true =>
      have hops : opsOf s.db (.commit calls sync) = [] := by simp [opsOf, hclosed]
      have hcost : costOf s.db (.commit calls sync) = 0 := by simp [costOf, hclosed]
      rw [hops, hcost]
      unfold applyBatch
      refine wp_bind (wp_get ?_)
      show wp M (if s.db.closed = true then _ else _) _ _
      rw [if_pos hclosed]
      exact wp_throw (runs_refused hs rfl)
  | false =>
      have hops : opsOf s.db (.commit calls sync) = batchOperations s.db.limits calls := by
        simp [opsOf, hclosed, DB.admits]
      have hcost : costOf s.db (.commit calls sync) =
          batchCost (batchOperations s.db.limits calls) := by
        simp [costOf, hclosed, DB.admits]
      obtain ⟨hclean, hg⟩ := hok (hcost ▸ (length_le_batchCost _).2)
      rw [hops] at hg
      rw [hcost] at hroom
      rw [hops, hcost]
      exact wp_applyBatch ha sync hs hclosed hclean (fun op hop => batchOperations_limits hop) hg
        hroom

end Events

end HyphaDB.Refine
