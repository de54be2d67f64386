import HyphaDB.Runs.Sequences
import HyphaDB.Runs.Signals

/-!
# HyphaDB.Runs.Shutdown

**What a shutdown leaves behind.** A process without failures keeps its directory **tidy**: there
is one segment for the memtable whose table is published and whose segment is about to go, one
for each queued memtable, and the active one. The flush worker's last drain ends with an empty
queue, and by then the database is closed to writers, so behind `Close` only the active segment
is left; the next `Open` starts from one segment, or from none.
-/

namespace HyphaDB.Runs

open Faults Refine

variable {cfg : Config} {M : Model Call}

/-! ### Segments -/

/-- The segment that is about to be removed. -/
def unneeded : Flusher → List Nat
  | .removing walID => [walID]
  | _ => []

/-- The flush worker works on the memtable at the head of the queue, and has not failed. -/
def Steady (queue : List ImmutableMemTable) : Flusher → Prop
  | .idle | .removing _ => True
  | .reserved imm _ | .written imm _ => queue.head? = some imm
  | .failed | .cleanup _ => False

/-- A segment for each memtable that needs one. -/
structure Tidy (s : Sys) : Prop where
  ids : s.disk.wals.map Prod.fst =
    unneeded s.db.flusher ++ s.db.immutableMemtables.map ImmutableMemTable.walID ++ [s.db.wal]
  sorted : (s.disk.wals.map Prod.fst).Pairwise (· < ·)
  next : s.db.manifest.nextWALSegmentID = s.db.wal
  manifest : (Manifest.read s.disk.manifest).nextWALSegmentID ≤ s.db.wal
  steady : Steady s.db.immutableMemtables s.db.flusher

section Tidy

variable {s : Sys}

theorem Tidy.le (h : Tidy s) : ∀ p ∈ s.disk.wals, p.1 ≤ s.db.wal := by
  intro p hp
  have hsorted := h.sorted
  have hmem : p.1 ∈ s.disk.wals.map Prod.fst := List.mem_map_of_mem hp
  rw [h.ids] at hsorted hmem
  rcases List.mem_append.mp hmem with hmem | hmem
  · exact ((List.pairwise_append.mp hsorted).2.2 _ hmem _ (List.mem_singleton_self _)).le
  · exact (List.mem_singleton.mp hmem).le

/-- The program returns, and `Q` holds of the response and the state. -/
def Finishes (Q : Response → Sys → Prop) : Post Sys DBError Unit :=
  ⟨fun _ t => Q .ok t, fun e t => Q (.err e) t, fun _ => False⟩

theorem runOp_finishes {w : World} {db : DB} (hdb : w.proc = some db) {p : Op Unit}
    {Q : Response → Sys → Prop} (hp : wp M p (Finishes Q) ⟨w.disk, db⟩) (fates : List Fate) :
    ∃ r, ∃ t : Sys,
      w.runOp M p fates = ({ w with disk := t.disk, proc := some t.db }, r) ∧ Q r t := by
  rcases runOp_cases hdb hp fates with ⟨t, ht, heq⟩ | ⟨_, t, ht, heq⟩ | ⟨_, ht, -⟩
  · exact ⟨_, t, heq, ht⟩
  · exact ⟨_, t, heq, ht⟩
  · exact ht.elim

/-! ### Mutations keep the segments -/

theorem ignoresAppend_tidy : IgnoresAppend Tidy := by
  intro d db bytes h
  exact {
    ids := (appendWal_ids d db.wal bytes).trans h.ids
    sorted := by
      show ((d.appendWal db.wal bytes).wals.map Prod.fst).Pairwise _
      rw [appendWal_ids]
      exact h.sorted
    next := h.next
    manifest := h.manifest
    steady := h.steady }

theorem Steady.append {queue : List ImmutableMemTable} {flusher : Flusher}
    (h : Steady queue flusher) (imm : ImmutableMemTable) : Steady (queue ++ [imm]) flusher := by
  have hhead : ∀ {x}, queue.head? = some x → (queue ++ [imm]).head? = some x := by
    intro x hx
    rw [List.head?_append, hx]
    rfl
  cases flusher with
  | idle => trivial
  | failed => exact h
  | reserved imm id => exact hhead h
  | written imm table => exact hhead h
  | removing walID => trivial
  | cleanup path => exact h

/-- A rotation adds the new segment behind the others. -/
theorem Tidy.rotated (h : Tidy s) :
    Tidy ⟨addWal s.disk s.db.enqueue.manifest.nextWALSegmentID Wal.walHeader,
      s.db.enqueue.switch⟩ := by
  have hids : (addWal s.disk s.db.enqueue.manifest.nextWALSegmentID
      Wal.walHeader).wals.map Prod.fst =
      s.disk.wals.map Prod.fst ++ [s.db.manifest.nextWALSegmentID + 1] := List.map_append
  refine { ids := ?_, sorted := ?_, next := rfl, manifest := ?_, steady := h.steady.append _ }
  · rw [hids, h.ids]
    show _ = unneeded s.db.flusher ++
      (s.db.immutableMemtables ++ [(⟨s.db.memtable, s.db.wal⟩ : ImmutableMemTable)]).map
        ImmutableMemTable.walID ++ [s.db.manifest.nextWALSegmentID + 1]
    rw [List.map_append]
    simp only [List.append_assoc, List.map_cons, List.map_nil]
  · rw [hids]
    refine List.pairwise_append.mpr ⟨h.sorted, List.pairwise_singleton _ _, fun a ha b hb => ?_⟩
    obtain ⟨p, hp, rfl⟩ := List.mem_map.mp ha
    rw [List.mem_singleton.mp hb, h.next]
    exact Nat.lt_succ_of_le (h.le p hp)
  · show (Manifest.read s.disk.manifest).nextWALSegmentID ≤ s.db.manifest.nextWALSegmentID + 1
    rw [h.next]
    exact Nat.le_succ_of_le h.manifest

theorem wp_rotateIfFull_tidy (h : Tidy s) : wp noFaults rotateIfFull
    (Finishes fun _ t => Tidy t ∧ t.db.flusher = s.db.flusher) s := by
  unfold rotateIfFull
  refine wp_bind (wp_get ?_)
  dsimp only
  split
  · unfold rotateMemtable
    refine wp_bind (wp_modify (wp_bind (wp_get (wp_bind (wp_zoom ?_)))))
    have hfresh : ∀ p ∈ s.disk.wals, p.1 < s.db.enqueue.manifest.nextWALSegmentID := by
      intro p hp
      show p.1 < s.db.manifest.nextWALSegmentID + 1
      rw [h.next]
      exact Nat.lt_succ_of_le (h.le p hp)
    refine wp_newSegment_fresh (allowed_noFaults quiet) hfresh ?_ (fun hg => hg.elim)
      fun hg => hg.elim
    exact wp_bind (wp_modify (wp_done ⟨h.rotated, rfl⟩))
  · exact wp_pure ⟨h, rfl⟩

section Append

variable {I : Sys → Prop} (hI : IgnoresAppend I)

include hI

theorem wp_writeRecord_finishes (h : I s) (rec : Record) :
    wp noFaults (writeRecord cfg rec) (Finishes fun _ => I) s :=
  wp_bind (wp_ofExcept (fun _ _ => wp_done (hI s.disk s.db _ h)) fun _ _ => h)

theorem wp_writeBatch_finishes (h : I s) (batchID : UInt64) (recs : List Record) (sync : Bool) :
    wp noFaults (writeBatch cfg batchID recs sync) (Finishes fun _ => I) s := by
  refine wp_bind (wp_mono (wp_writeRecord_finishes hI h _) (fun _ t ht => ?_) (fun _ _ ht => ht)
    fun _ ht => ht)
  refine wp_bind (wp_forEach (fun _ => I) (fun rec _ u hu => wp_writeRecord_finishes hI hu _)
    (fun u hu => ?_) ht)
  refine wp_bind (wp_mono (wp_writeRecord_finishes hI hu _) (fun _ v hv => ?_) (fun _ _ hv => hv)
    fun _ hv => hv)
  split
  · exact wp_done hv
  · exact wp_pure hv

theorem wp_appendOf_finishes (h : I s) (db : DB) (event : Event) :
    wp noFaults (appendOf cfg db event) (Finishes fun _ => I) s := by
  cases event with
  | put key value => exact wp_writeRecord_finishes hI h _
  | delete key => exact wp_writeRecord_finishes hI h _
  | commit calls sync => exact wp_writeBatch_finishes hI h _ _ sync
  | _ => exact wp_pure h

end Append

variable (cfg) in
theorem wp_mutate_tidy (h : Tidy s) (event : Event) (recs : List Record) (n : Nat) :
    wp noFaults (mutate (appendOf cfg s.db event) recs n)
      (Finishes fun _ t => Tidy t ∧ t.db.flusher = s.db.flusher) s := by
  have hI : IgnoresAppend fun t => Tidy t ∧ t.db.flusher = s.db.flusher :=
    fun d db bytes ht => ⟨ignoresAppend_tidy d db bytes ht.1, ht.2⟩
  unfold mutate
  refine wp_bind (wp_mono (wp_appendOf_finishes hI ⟨h, rfl⟩ s.db event) (fun _ t ht => ?_)
    (fun _ _ ht => ht) fun _ ht => ht)
  refine wp_bind (wp_modify (wp_mono (wp_rotateIfFull_tidy ?_) (fun _ u hu => ?_)
    (fun _ u hu => ?_) fun _ hu => hu))
  · exact ⟨ht.1.ids, ht.1.sorted, ht.1.next, ht.1.manifest, ht.1.steady⟩
  · exact ⟨hu.1, hu.2.trans ht.2⟩
  · exact ⟨hu.1, hu.2.trans ht.2⟩

/-! ### The workers keep the segments -/

/-- A compaction touches no segment, and writes the manifest of memory. -/
theorem Tidy.compacted (h : Tidy s) {threshold : Nat} {r : Response} {t : Sys}
    (ht : Compacted cfg s threshold r t) :
    Tidy t ∧ t.db.immutableMemtables = s.db.immutableMemtables ∧ t.db.flusher = s.db.flusher := by
  cases ht with
  | idle hplan => exact ⟨h, rfl, rfl⟩
  | failed hplan he hd =>
      refine ⟨⟨?_, ?_, h.next, ?_, h.steady⟩, rfl, rfl⟩
      · rw [hd.wals]
        exact h.ids
      · rw [hd.wals]
        exact h.sorted
      · rw [hd.manifest]
        exact h.manifest
  | published hplan hlen hread hr hsw =>
      obtain ⟨hdb, hmanifest, hwals, -⟩ := hsw
      have hnext : t.db.manifest.nextWALSegmentID = t.db.wal := by
        rw [hdb]
        exact h.next
      refine ⟨⟨?_, ?_, hnext, ?_, ?_⟩, ?_, ?_⟩
      · rw [hwals, hdb]
        exact h.ids
      · rw [hwals]
        exact h.sorted
      · rw [hmanifest, Manifest.read, Manifest.ensureSafeNextSSTableID_nextWALSegmentID]
        exact hnext.le
      · rw [hdb]
        exact h.steady
      · rw [hdb]
        rfl
      · rw [hdb]
        rfl

theorem wp_flushReserve_tidy (h : Tidy s) (hidle : s.db.flusher = .idle)
    (hqueue : s.db.immutableMemtables ≠ []) :
    wp noFaults flushReserve (Finishes fun _ t => Tidy t ∧
      t.db.immutableMemtables = s.db.immutableMemtables) s := by
  obtain ⟨imm, rest, hcons⟩ := List.exists_cons_of_ne_nil hqueue
  unfold flushReserve
  refine wp_bind (wp_get ?_)
  dsimp only
  rw [hidle, hcons]
  refine wp_modify ⟨⟨?_, h.sorted, h.next, h.manifest, ?_⟩, hcons⟩
  · have hids := h.ids
    rw [hidle] at hids
    exact hids
  · show s.db.immutableMemtables.head? = some imm
    rw [hcons]
    rfl

variable (cfg) in
theorem wp_flushWrite_tidy (h : Tidy s) {imm : ImmutableMemTable} {id : Nat}
    (hreserved : s.db.flusher = .reserved imm id) :
    wp noFaults (flushWrite cfg) (Finishes fun r t => r = .ok ∧ Tidy t) s := by
  have hids := h.ids
  have hsteady := h.steady
  rw [hreserved] at hids hsteady
  unfold flushWrite
  refine wp_bind (wp_get ?_)
  dsimp only
  rw [hreserved]
  refine wp_bind (wp_attempt (wp_createTable (allowed_noFaults quiet) ?_ ?_ fun hg => hg.elim))
  · exact (s.db.heap imm.memTable).inOrder
  · exact wp_modify ⟨rfl, hids, h.sorted, h.next, h.manifest, hsteady⟩

theorem wp_flushPublish_tidy (h : Tidy s) {imm : ImmutableMemTable} {table : SSTableMetadata}
    (hwritten : s.db.flusher = .written imm table) :
    wp noFaults flushPublish (Finishes fun r t => r = .ok ∧ Tidy t) s := by
  have hids := h.ids
  have hhead := h.steady
  rw [hwritten] at hids hhead
  obtain ⟨rest, hqueue⟩ := List.head?_eq_some_iff.mp hhead
  unfold flushPublish
  refine wp_bind (wp_get ?_)
  dsimp only
  rw [hwritten]
  refine wp_bind (wp_modify (wp_bind (wp_attempt
    (wp_writeManifest (allowed_noFaults quiet) ?_ fun hg => hg.elim))))
  have hdequeue : (s.db.dequeue imm).immutableMemtables = rest := by
    unfold DB.dequeue
    rw [hqueue]
    exact if_pos rfl
  refine wp_modify ⟨rfl, ?_, h.sorted, h.next, ?_, trivial⟩
  · show s.disk.wals.map Prod.fst =
      [imm.walID] ++ (s.db.dequeue imm).immutableMemtables.map ImmutableMemTable.walID ++ [s.db.wal]
    rw [hids, hdequeue, hqueue]
    rfl
  · show (Manifest.ensureSafeNextSSTableID _).nextWALSegmentID ≤ s.db.wal
    rw [Manifest.ensureSafeNextSSTableID_nextWALSegmentID]
    exact h.next.le

/-- Removing the first of the segments leaves the others. -/
theorem removeWal_ids {d : Disk} {walID : Nat} {rest : List Nat}
    (hids : d.wals.map Prod.fst = walID :: rest) (hsorted : (walID :: rest).Pairwise (· < ·)) :
    (d.removeWal walID).wals.map Prod.fst = rest := by
  have hrest : ∀ id ∈ rest, id ≠ walID := fun id hid =>
    ((List.pairwise_cons.mp hsorted).1 id hid).ne'
  have hmap : (d.removeWal walID).wals.map Prod.fst =
      (d.wals.map Prod.fst).filter fun id => id ≠ walID := by
    rw [removeWal_wals, List.filter_map]
    rfl
  rw [hmap, hids, List.filter_cons_of_neg (by simp), List.filter_eq_self]
  exact fun id hid => decide_eq_true (hrest id hid)

theorem wp_flushRemoveWAL_tidy (h : Tidy s) {walID : Nat}
    (hremoving : s.db.flusher = .removing walID) :
    wp noFaults flushRemoveWAL (Finishes fun r t => r = .ok ∧ Tidy t ∧ t.db.flusher = .idle ∧
      t.db.immutableMemtables = s.db.immutableMemtables) s := by
  have hids := h.ids
  have hsorted := h.sorted
  rw [hremoving] at hids
  rw [hids] at hsorted
  have hremoved := removeWal_ids hids hsorted
  unfold flushRemoveWAL
  refine wp_bind (wp_get ?_)
  dsimp only
  rw [hremoving]
  refine wp_bind (wp_attempt (wp_bind (wp_done (wp_done ?_))))
  refine wp_modify ⟨rfl, ⟨hremoved, ?_, h.next, h.manifest, trivial⟩, rfl, rfl⟩
  show ((s.disk.removeWal walID).wals.map Prod.fst).Pairwise (· < ·)
  rw [hremoved]
  exact (List.pairwise_cons.mp hsorted).2

end Tidy

/-! ### Turns keep the segments -/

/-- The flush worker outside of a flush is idle, and leaves no memtable behind. -/
structure Completing (s : Session) (db : DB) : Prop where
  tidy : Tidy ⟨s.world.disk, db⟩
  idle : (∀ last, s.flusher ≠ .flushing last) → db.flusher = .idle
  empty : s.flusher = .leaving ∨ s.flusher = .exited → db.immutableMemtables = []

/-- A turn behind which the process is there and the segments are in order. -/
def Completes (r : Except Panic Session) : Prop :=
  ∀ s', r = .ok s' → ∃ db', s'.world.proc = some db' ∧ Completing s' db'

section Completing

variable {s : Session} {db : DB}

/-- The flush worker stays where it is, and the engine keeps its worker and its queue. -/
theorem Completing.world (h : Completing s db) {db' : DB} {world : World}
    (htidy : Tidy ⟨world.disk, db'⟩) (hflusher : db'.flusher = db.flusher)
    (hqueue : db'.immutableMemtables = db.immutableMemtables) :
    Completing { s with world } db' where
  tidy := htidy
  idle := fun hnot => hflusher.trans (h.idle hnot)
  empty := fun hend => hqueue.trans (h.empty hend)

theorem Tidy.readers {d : Disk} (h : Tidy ⟨d, db⟩) (readers : List UInt64) (closed : Bool) :
    Tidy ⟨d, { db with activeReaders := readers, closed }⟩ :=
  ⟨h.ids, h.sorted, h.next, h.manifest, h.steady⟩

variable (ho : Orderly s db) (h : Completing s db) (hdb : s.world.proc = some db)

include h hdb

omit h in
theorem completes_same {s' : Session} (hworld : s'.world = s.world) (hs : Completing s' db) :
    Completes (.ok s') := by
  intro s'' heq
  obtain rfl := Except.ok.inj heq
  exact ⟨db, by rw [hworld]; exact hdb, hs⟩

theorem completes_self : Completes (.ok s) := completes_same hdb rfl h

/-- A turn that leaves the engine and the flush worker alone. -/
theorem completes_still {s' : Session} (hworld : s'.world = s.world)
    (hflusher : s'.flusher = s.flusher) : Completes (.ok s') := by
  refine completes_same hdb hworld ⟨hworld ▸ h.tidy, ?_, ?_⟩
  · rw [hflusher]
    exact h.idle
  · rw [hflusher]
    exact h.empty

omit h hdb in
theorem completes_error (p : Panic) : Completes (.error p) := fun s' heq => by cases heq

variable (cfg) in
/-- A compaction, by a client or by the worker. -/
theorem Completing.compaction (threshold : Nat) (fates : List Fate) :
    ∃ r, ∃ t : Sys, s.world.runOp noFaults (compactLocked cfg threshold) fates =
        ({ s.world with disk := t.disk, proc := some t.db }, r) ∧
      Tidy t ∧ t.db.immutableMemtables = db.immutableMemtables ∧ t.db.flusher = db.flusher := by
  have hsurvives : Survives noFaults := fun _ _ => nofun
  have hwp : wp noFaults (compactLocked cfg threshold)
      (Finishes (Compacted cfg ⟨s.world.disk, db⟩ threshold)) ⟨s.world.disk, db⟩ :=
    wp_compactLocked_any hsurvives threshold
  obtain ⟨r, t, hrun, ht⟩ := runOp_finishes hdb hwp fates
  exact ⟨r, t, hrun, h.tidy.compacted ht⟩

include ho

theorem Completing.mutation {event : Event} (hevent : event.mutates = true) (fates : List Fate) :
    ∃ db', (step cfg noFaults s.world event fates).1.proc = some db' ∧
      Completing { s with world := (step cfg noFaults s.world event fates).1 } db' := by
  have hcases : MutationCases cfg s.world db event := mutation_cases hdb hevent
  cases hcases with
  | refused e _ _ _ hstep =>
      rw [hstep]
      exact ⟨db, hdb, h⟩
  | admitted hopen _ hstep =>
      obtain ⟨r, t, hrun, htidy, hflusher⟩ := runOp_finishes hdb
        (wp_mutate_tidy cfg h.tidy event (batchEntries db.nextSeq (mutations s.world event))
          (event.cost s.world)) fates
      rw [hstep, hrun]
      -- The database is open, so the flush worker is not on its way out.
      have hnot : ¬ (s.flusher = .leaving ∨ s.flusher = .exited) := by
        intro hend
        have hending : s.flusher.ending = true := by
          rcases hend with hend | hend
          · rw [hend]; rfl
          · rw [hend]; rfl
        have hclosed := ho.ending hending
        simp [hopen] at hclosed
      exact ⟨t.db, rfl, htidy, fun hidle => hflusher.trans (h.idle hidle),
        fun hend => absurd hend hnot⟩

variable (cfg) in
theorem Completing.call {call : HandleCall} (hcall : call ≠ .close) (fates : List Fate) :
    ∃ db', (step cfg noFaults s.world call.event fates).1.proc = some db' ∧
      Completing { s with world := (step cfg noFaults s.world call.event fates).1 } db' := by
  have hreads : call.event.reads = true →
      ∃ db', (step cfg noFaults s.world call.event fates).1.proc = some db' ∧
        Completing { s with world := (step cfg noFaults s.world call.event fates).1 } db' := by
    intro hreads
    obtain ⟨hdisk, readers, hproc⟩ :=
      @step_reads cfg s.world db hdb noFaults call.event fates hreads
    refine ⟨_, hproc, h.world ?_ rfl rfl⟩
    rw [hdisk]
    exact h.tidy.readers readers db.closed
  cases call with
  | put key value | delete key | commit calls sync => exact h.mutation ho hdb rfl fates
  | compact =>
      obtain ⟨r, t, hrun, htidy, hqueue, hflusher⟩ := h.compaction cfg hdb 1 fates
      refine ⟨t.db, ?_, h.world ?_ hflusher hqueue⟩
      · show (s.world.runOp noFaults (compactLocked cfg 1) fates).1.proc = some t.db
        rw [hrun]
      · show Tidy ⟨(s.world.runOp noFaults (compactLocked cfg 1) fates).1.disk, t.db⟩
        rw [hrun]
        exact htidy
  | close => exact absurd rfl hcall
  | newSnapshot | closeSnapshot i | newIterator opts | snapshotIterator i opts | iteratorNext i
  | closeIterator i => exact hreads rfl

theorem completes_client (call : HandleCall) (fates : List Fate) :
    Completes (s.clientTurn cfg noFaults call fates) := by
  unfold Session.clientTurn
  by_cases hclose : call = .close
  · rw [if_pos hclose]
    exact completes_same hdb rfl ⟨h.tidy, h.idle, h.empty⟩
  rw [if_neg hclose]
  split
  · exact completes_self h hdb
  obtain ⟨db', hdb', hs'⟩ := h.call cfg ho hdb hclose fates
  dsimp only
  split
  · intro s' heq
    split at heq
    · cases heq
    · obtain rfl := Except.ok.inj heq
      exact ⟨db', hdb', hs'.tidy, hs'.idle, hs'.empty⟩
  · intro s' heq
    obtain rfl := Except.ok.inj heq
    exact ⟨db', hdb', hs'⟩

omit ho in
/-- A step of a flush, and what it does to the engine. -/
theorem completes_flush (last : Bool) (hflusher : s.flusher = .flushing last) (fates : List Fate) :
    Completes (.ok (s.flushTurn cfg noFaults db last fates)) := by
  have hwork : ∀ {t : Sys} {flusher : FlushLoop}, Tidy t →
      ((∀ last, flusher ≠ .flushing last) → t.db.flusher = .idle) →
      (flusher = .leaving ∨ flusher = .exited → t.db.immutableMemtables = []) →
      Completes (.ok { s with
        world := { s.world with disk := t.disk, proc := some t.db }
        flusher }) := by
    intro t flusher htidy hidle hempty s' heq
    obtain rfl := Except.ok.inj heq
    exact ⟨t.db, rfl, htidy, hidle, hempty⟩
  have hflushing : ∀ {t : Sys}, Tidy t →
      Completes (.ok { s with world := { s.world with disk := t.disk, proc := some t.db } }) := by
    intro t htidy s' heq
    obtain rfl := Except.ok.inj heq
    exact ⟨t.db, rfl, htidy, fun hnot => absurd hflusher (hnot last),
      fun hend => by rw [hflusher] at hend; rcases hend with hend | hend <;> cases hend⟩
  unfold Session.flushTurn
  have hsteady := h.tidy.steady
  cases hstate : db.flusher with
  | idle =>
      dsimp only
      split
      · exact completes_self h hdb
      · split
        · rename_i hqueue
          refine completes_same hdb rfl ⟨h.tidy, fun _ => hstate, fun _ => hqueue⟩
        · rename_i hqueue
          obtain ⟨r, t, hrun, htidy, -⟩ := runOp_finishes hdb
            (wp_flushReserve_tidy h.tidy hstate hqueue) fates
          show Completes (.ok { s with world := (s.world.runOp noFaults flushReserve fates).1 })
          rw [hrun]
          exact hflushing htidy
  | failed =>
      change Steady db.immutableMemtables db.flusher at hsteady
      rw [hstate] at hsteady
      exact hsteady.elim
  | reserved imm id =>
      obtain ⟨r, t, hrun, rfl, htidy⟩ := runOp_finishes hdb
        (wp_flushWrite_tidy cfg h.tidy hstate) fates
      dsimp only
      rw [show step cfg noFaults s.world .flushWrite fates = _ from hrun, if_pos rfl]
      exact hflushing htidy
  | written imm table =>
      dsimp only
      split
      · exact completes_self h hdb
      · obtain ⟨r, t, hrun, rfl, htidy⟩ := runOp_finishes hdb
          (wp_flushPublish_tidy h.tidy hstate) fates
        rw [show step cfg noFaults s.world .flushPublish fates = _ from hrun, if_neg nofun]
        exact hflushing htidy
  | removing walID =>
      obtain ⟨r, t, hrun, rfl, htidy, hidle, -⟩ := runOp_finishes hdb
        (wp_flushRemoveWAL_tidy h.tidy hstate) fates
      dsimp only
      rw [show step cfg noFaults s.world .flushRemoveWAL fates = _ from hrun, if_pos rfl]
      exact hwork htidy (fun _ => hidle)
        (fun hend => by rcases hend with hend | hend <;> cases hend)
  | cleanup path =>
      change Steady db.immutableMemtables db.flusher at hsteady
      rw [hstate] at hsteady
      exact hsteady.elim

omit ho in
theorem completes_flusher (fates : List Fate) :
    Completes (s.flusherTurn cfg noFaults db fates) := by
  unfold Session.flusherTurn
  cases hflusher : s.flusher with
  | waiting =>
      dsimp only
      split
      · exact completes_self h hdb
      · exact completes_same hdb rfl ⟨h.tidy, fun hnot => absurd rfl (hnot _),
          fun hend => by rcases hend with hend | hend <;> cases hend⟩
  | flushing last => exact completes_flush h hdb last hflusher fates
  | signalling last =>
      dsimp only
      split
      · exact completes_error _
      · exact completes_same hdb rfl ⟨h.tidy, fun hnot => absurd rfl (hnot _),
          fun hend => by rcases hend with hend | hend <;> cases hend⟩
  | leaving =>
      have hidle : db.flusher = .idle := h.idle (by rw [hflusher]; exact nofun)
      have hempty : db.immutableMemtables = [] := h.empty (Or.inl hflusher)
      dsimp only
      split
      · exact completes_error _
      · exact completes_same hdb rfl ⟨h.tidy, fun _ => hidle, fun _ => hempty⟩
  | exited => exact completes_self h hdb

omit ho in
theorem completes_compactor (fates : List Fate) :
    Completes (s.compactorTurn cfg noFaults db fates) := by
  unfold Session.compactorTurn
  cases s.compactor with
  | waiting =>
      dsimp only
      split
      · exact completes_still h hdb rfl rfl
      · exact completes_still h hdb rfl rfl
      · exact completes_still h hdb rfl rfl
  | woken => exact completes_still h hdb rfl rfl
  | compacting =>
      dsimp only
      split
      · have hrun : step cfg noFaults s.world .compactInBackground fates =
            s.world.runOp noFaults (compactLocked cfg db.compactionThreshold) fates :=
          runOp_congr hdb rfl
        obtain ⟨r, t, hout, htidy, hqueue, hflusher⟩ :=
          h.compaction cfg hdb db.compactionThreshold fates
        rw [hrun, hout]
        split
        all_goals
          intro s' heq
          obtain rfl := Except.ok.inj heq
          exact ⟨t.db, rfl, htidy, fun hnot => hflusher.trans (h.idle hnot),
            fun hend => hqueue.trans (h.empty hend)⟩
      · exact completes_still h hdb rfl rfl
  | reporting =>
      dsimp only
      split
      · exact completes_error _
      · exact completes_still h hdb rfl rfl
  | exited => exact completes_still h hdb rfl rfl

omit ho in
theorem completes_closer (i : Nat) : Completes (s.closerTurn cfg noFaults db i) := by
  unfold Session.closerTurn
  cases s.closers[i]? with
  | none => exact completes_self h hdb
  | some c =>
      cases c with
      | started =>
          dsimp only
          split
          · exact completes_self h hdb
          · split
            · exact completes_still h hdb rfl rfl
            · split
              · exact completes_error _
              · intro s' heq
                obtain rfl := Except.ok.inj heq
                refine ⟨{ db with closed := true }, ?_, ?_⟩
                · show (s.world.updateProc _).1.proc = _
                  unfold World.updateProc
                  rw [hdb]
                · refine ⟨?_, h.idle, h.empty⟩
                  show Tidy ⟨(s.world.updateProc _).1.disk, _⟩
                  unfold World.updateProc
                  rw [hdb]
                  exact h.tidy.readers db.activeReaders true
      | waitsForFlush =>
          dsimp only
          split
          · exact completes_still h hdb rfl rfl
          · exact completes_self h hdb
      | closesSignal =>
          dsimp only
          split
          · exact completes_error _
          · exact completes_still h hdb rfl rfl
      | waitsForCompaction =>
          dsimp only
          split
          · exact completes_still h hdb rfl rfl
          · exact completes_self h hdb
      | closesFiles => exact completes_still h hdb rfl rfl
      | returned shutDown => exact completes_self h hdb

end Completing

/-- **Without failures, every turn leaves the segments in order.** -/
theorem completing_run (turns : List Turn) {s : Session} (hpanic : s.panic = none)
    (h : ∃ db, s.world.proc = some db ∧ Orderly s db ∧ Completing s db) :
    ∃ db, (s.run cfg noFaults turns).world.proc = some db ∧
      Orderly (s.run cfg noFaults turns) db ∧ Completing (s.run cfg noFaults turns) db := by
  induction turns generalizing s with
  | nil => exact h
  | cons turn turns ih =>
      obtain ⟨db, hdb, ho, hc⟩ := h
      have horder : ∀ db', s.world.proc = some db' → Orderly s db' :=
        fun db' hdb' => Option.some.inj (hdb.symm.trans hdb') ▸ ho
      obtain ⟨hpanic', ho'⟩ := orderly_step cfg noFaults turn hpanic horder
      have hcompletes : Completes (s.turn cfg noFaults db turn) := by
        cases turn with
        | client call fates => exact completes_client ho hc hdb call fates
        | flusher fates => exact completes_flusher hc hdb fates
        | compactor fates => exact completes_compactor hc hdb fates
        | closer i => exact completes_closer hc hdb i
      refine ih hpanic' ?_
      cases hturn : s.turn cfg noFaults db turn with
      | error p =>
          have hstep : s.step cfg noFaults turn = { s with panic := some p } := by
            unfold Session.step
            rw [hpanic, hdb]
            dsimp only
            rw [hturn]
          rw [hstep] at hpanic'
          cases hpanic'
      | ok s' =>
          have hstep : s.step cfg noFaults turn = s' := by
            unfold Session.step
            rw [hpanic, hdb]
            dsimp only
            rw [hturn]
          rw [hstep] at ho' ⊢
          obtain ⟨db', hdb', hs'⟩ := hcompletes s' hturn
          exact ⟨db', hdb', ho' db' hdb', hs'⟩

/-! ### Lifetimes -/

/-- At most one segment, with a number the manifest has not passed. -/
def CleanDir (d : Disk) : Prop :=
  d.wals = [] ∨ ∃ p, d.wals = [p] ∧ (Manifest.read d.manifest).nextWALSegmentID ≤ p.1

/-- One segment, and this manifest. -/
def Single (m : Option Manifest) (id : Nat) (d : Disk) : Prop :=
  d.wals.map Prod.fst = [id] ∧ d.manifest = m

theorem Single.cleanDir {m : Option Manifest} {id : Nat} {d : Disk} (h : Single m id d)
    (hle : (Manifest.read m).nextWALSegmentID ≤ id) : CleanDir d := by
  obtain ⟨hids, hm⟩ := h
  obtain ⟨p, hp, rfl⟩ := List.map_eq_singleton_iff.mp hids
  exact Or.inr ⟨p, hp, hm ▸ hle⟩

/-- Replaying the only segment may cut its tail off. -/
theorem wp_replaySegments_single {d : Disk} {id : Nat} {file : Bytes}
    (hwals : d.wals = [(id, file)]) :
    wp noFaults (replaySegments cfg d.wals .new 0)
      ⟨fun _ => Single d.manifest id, fun _ => Single d.manifest id, fun _ => False⟩ d := by
  have hsingle : Single d.manifest id d := ⟨by rw [hwals]; rfl, rfl⟩
  rw [hwals]
  unfold replaySegments
  dsimp only
  have hcut : ∀ file', Single d.manifest id (d.setWal id file') := by
    refine fun file' => ⟨?_, rfl⟩
    show (Disk.putWal id _ d.wals).map Prod.fst = [id]
    rw [hwals]
    unfold Disk.putWal
    rw [if_neg (lt_irrefl id), if_pos rfl]
    rfl
  -- whether or not the tail was cut, the outcome of the replay is the end of it
  cases (Wal.replayInto cfg.crc file .new).result with
  | error e =>
      split
      · exact wp_bind (wp_done (wp_throw (hcut _)))
      · exact wp_throw hsingle
  | ok stats =>
      split
      · exact wp_bind (wp_done (wp_pure (hcut _)))
      · exact wp_pure hsingle

/-- Opening the segment that is there creates none. -/
theorem wp_newSegment_single {m : Option Manifest} {id : Nat} {d : Disk} (h : Single m id d) :
    wp noFaults (newSegmentInDir id)
      ⟨fun _ => Single m id, fun _ => Single m id, fun _ => False⟩ d := by
  obtain ⟨p, hp, rfl⟩ := List.map_eq_singleton_iff.mp h.1
  have hthere : d.wal? p.1 ≠ none := by
    unfold Disk.wal?
    rw [hp]
    simp
  have happend : ∀ bytes, Single m p.1 (d.appendWal p.1 bytes) :=
    fun bytes => ⟨(appendWal_ids d p.1 bytes).trans h.1, h.2⟩
  unfold newSegmentInDir
  refine wp_bind (wp_done ?_)
  show wp noFaults _ _ (if d.wal? p.1 = none then d.setWal p.1 [] else d)
  rw [if_neg hthere]
  refine wp_bind (wp_get ?_)
  dsimp only
  split
  · refine wp_bind (wp_done ?_)
    exact wp_bind (wp_done (wp_done (happend _)))
  · exact wp_ofExcept (fun _ _ => h) fun _ _ => h

/-- What `Open` leaves of a clean directory. -/
def Opened : Post Disk DBError DB :=
  ⟨fun db d' => Tidy ⟨d', db⟩ ∧ db.flusher = .idle ∧ db.immutableMemtables = [] ∧
      db.closed = false,
    fun _ d' => CleanDir d', fun _ => False⟩

/-- The end of `Open`, behind the active segment `m.nextWALSegmentID`. -/
theorem wp_openDB_tables {d : Disk} {m : Manifest} {disk : Option Manifest}
    (h : Single disk m.nextWALSegmentID d)
    (hle : (Manifest.read disk).nextWALSegmentID ≤ m.nextWALSegmentID) (settings : Settings)
    (mt : MemTable) (walMaxSeq : UInt64) :
    wp noFaults (do
      let d ← Prog.get
      let m := { m with sstables := m.sstables.map (recoverSize cfg d) }
      let sstableMaxSeq ← Prog.ofExcept (maxSeqFromSSTables d m.sstables)
      pure (newDB settings mt m
        (max (max sstableMaxSeq (SSTable.maxSeq mt.records)) walMaxSeq)) : DiskOp DB) Opened d := by
  refine wp_bind (wp_get (wp_bind (wp_ofExcept (fun sstableMaxSeq _ => ?_) fun _ _ => ?_)))
  · refine wp_pure ⟨⟨h.1, ?_, rfl, ?_, trivial⟩, rfl, rfl, rfl⟩
    · show (d.wals.map Prod.fst).Pairwise _
      rw [h.1]
      exact List.pairwise_singleton _ _
    · show (Manifest.read d.manifest).nextWALSegmentID ≤ m.nextWALSegmentID
      rw [h.2]
      exact hle
  · exact h.cleanDir hle

variable (cfg) in
theorem wp_openDB_clean {d : Disk} (h : CleanDir d) (opts : Options) :
    wp noFaults (openDB cfg opts) Opened d := by
  refine wp_bind (wp_ofExcept (fun settings _ => ?_) fun _ _ => h)
  refine wp_bind (wp_get ?_)
  rcases h with hnil | ⟨⟨id, file⟩, hwals, hle⟩
  · -- Nothing to replay; the new segment is the only one.
    dsimp only
    rw [hnil]
    refine wp_bind (wp_pure ?_)
    refine wp_bind (wp_newSegment_fresh (allowed_noFaults quiet) (by rw [hnil]; exact nofun) ?_
      (fun hg => hg.elim) fun hg => hg.elim)
    have hsingle : Single d.manifest (Manifest.read d.manifest).nextWALSegmentID
        (addWal d (Manifest.read d.manifest).nextWALSegmentID Wal.walHeader) := by
      refine ⟨?_, rfl⟩
      show (d.wals ++ _).map Prod.fst = _
      rw [hnil]
      rfl
    exact wp_openDB_tables hsingle le_rfl settings _ _
  · have hnext : raiseSegmentID (Manifest.read d.manifest) d.wals =
        { Manifest.read d.manifest with nextWALSegmentID := id } := by
      rw [hwals]
      unfold raiseSegmentID
      dsimp only [List.getLast?_singleton]
      rw [max_eq_right hle]
    refine wp_bind (wp_mono (wp_replaySegments_single hwals) (fun a t ht => ?_)
      (fun _ t ht => ht.cleanDir hle) fun _ ht => ht)
    obtain ⟨mt, walMaxSeq⟩ := a
    dsimp only
    rw [hnext]
    refine wp_bind (wp_mono (wp_newSegment_single ht) (fun _ t ht => ?_)
      (fun _ t ht => ht.cleanDir hle) fun _ ht => ht)
    exact wp_openDB_tables ht hle settings mt walMaxSeq

/-- `Open` returns an open database. -/
theorem openDB_closed {d d' : Disk} {db : DB} {opts : Options} {fates rest : List Fate}
    (hopen : openDB cfg opts M d fates = .ret db d' rest) : db.closed = false := by
  have hwp : wp M (openDB cfg opts)
      ⟨fun db _ => db.closed = false, fun _ _ => True, fun _ => True⟩ d := by
    refine wp_bind (wp_ofExcept (fun settings _ => ?_) fun _ _ => trivial)
    refine wp_bind (wp_get ?_)
    refine wp_bind (wp_mono (wp_true _) (fun a t _ => ?_) (fun _ _ h => h) fun _ h => h)
    refine wp_bind (wp_mono (wp_true _) (fun _ t _ => ?_) (fun _ _ h => h) fun _ h => h)
    refine wp_bind (wp_get ?_)
    exact wp_bind (wp_ofExcept (fun _ _ => wp_pure rfl) fun _ _ => trivial)
  have hret := hwp fates
  rw [hopen] at hret
  exact hret

/-- The directories that started empty and were only ever closed by `Close`, in runs without I/O
errors. -/
inductive ClosedCleanly (cfg : Config) : Disk → Prop
  | empty : ClosedCleanly cfg {}
  /-- An `Open` that was refused. -/
  | refused {d d' opts e fates rest} (hd : ClosedCleanly cfg d)
      (hopen : openDB cfg opts noFaults d fates = .err e d' rest) : ClosedCleanly cfg d'
  /-- A session that was shut down. -/
  | closed {d d' opts db fates rest turns} (hd : ClosedCleanly cfg d)
      (hopen : openDB cfg opts noFaults d fates = .ret db d' rest)
      (hclosed : .returned true ∈ ((Session.opened d' db).run cfg noFaults turns).closers) :
      ClosedCleanly cfg ((Session.opened d' db).run cfg noFaults turns).world.disk

/-- A session on a clean directory. -/
theorem completing_session {d d' : Disk} {db : DB} {opts : Options} {fates rest : List Fate}
    (h : CleanDir d) (hopen : openDB cfg opts noFaults d fates = .ret db d' rest)
    (turns : List Turn) :
    ∃ db', ((Session.opened d' db).run cfg noFaults turns).world.proc = some db' ∧
      Orderly ((Session.opened d' db).run cfg noFaults turns) db' ∧
      Completing ((Session.opened d' db).run cfg noFaults turns) db' := by
  have hopened := wp_openDB_clean cfg h opts fates
  rw [hopen] at hopened
  obtain ⟨htidy, hidle, hempty, hnot⟩ := hopened
  exact completing_run turns rfl
    ⟨db, rfl, orderly_opened d' hnot, htidy, fun _ => hidle, fun _ => hempty⟩

/-- Behind the `Close` call that shut the database down. -/
theorem Completing.returned {s : Session} {db : DB} (ho : Orderly s db) (h : Completing s db)
    (hreturned : .returned true ∈ s.closers) :
    s.flusher = .exited ∧ s.compactor = .exited ∧ db.immutableMemtables = [] ∧
      s.world.disk.wals.map Prod.fst = [db.wal] := by
  have hexited := ho.flushed _ hreturned (by decide)
  have hempty := h.empty (Or.inr hexited)
  refine ⟨hexited, ho.compacted _ hreturned (by decide), hempty, ?_⟩
  have hids := h.tidy.ids
  dsimp only at hids
  rw [h.idle (by rw [hexited]; exact nofun), hempty] at hids
  exact hids

theorem cleanDir_of_closedCleanly {d : Disk} (h : ClosedCleanly cfg d) : CleanDir d := by
  induction h with
  | empty => exact Or.inl rfl
  | @refused d d' opts e fates rest _ hopen ih =>
      have hrefused := wp_openDB_clean cfg ih opts fates
      rw [hopen] at hrefused
      exact hrefused
  | @closed d d' opts db fates rest turns _ hopen hclosed ih =>
      obtain ⟨db', -, ho, hc⟩ := completing_session ih hopen turns
      have hids := (hc.returned ho hclosed).2.2.2
      exact Single.cleanDir ⟨hids, rfl⟩ hc.tidy.manifest

/-- **Shutdown is safe and complete.** Whatever the schedule and whatever calls fail, no turn
sends on a closed channel or closes one twice. Without failures, on a directory that was only
ever closed cleanly, the `Close` call that shut the database down returns with both workers gone,
nothing queued, and the active segment alone in the directory. -/
theorem shutdown_safe_and_complete (cfg : Config) (M : Model Call) {d d' : Disk} {db : DB}
    {opts : Options} {fates rest : List Fate} (hopen : openDB cfg opts M d fates = .ret db d' rest)
    (turns : List Turn) :
    ((Session.opened d' db).run cfg M turns).panic = none ∧
    (M = noFaults → ClosedCleanly cfg d →
      .returned true ∈ ((Session.opened d' db).run cfg M turns).closers →
      ∃ db', ((Session.opened d' db).run cfg M turns).world.proc = some db' ∧
        ((Session.opened d' db).run cfg M turns).flusher = .exited ∧
        ((Session.opened d' db).run cfg M turns).compactor = .exited ∧
        db'.immutableMemtables = [] ∧
        ((Session.opened d' db).run cfg M turns).world.disk.wals.map Prod.fst = [db'.wal]) := by
  refine ⟨?_, fun hM hd hreturned => ?_⟩
  · refine (orderly_run turns rfl fun db' hdb' => ?_).1
    obtain rfl := Option.some.inj hdb'
    exact orderly_opened d' (openDB_closed hopen)
  · subst hM
    obtain ⟨db', hdb', ho, hc⟩ := completing_session (cleanDir_of_closedCleanly hd) hopen turns
    exact ⟨db', hdb', hc.returned ho hreturned⟩

/-- Two clients write, the second memtable is still queued when two `Close` calls begin, and a
client writes on. -/
def closedTwice : List Turn :=
  [.client (.put [1] [1]) [], .flusher [], .flusher [], .client (.put [2] [2]) [], .flusher [],
    .client .close [], .client .close [], .closer 1, .client (.put [3] [3]) [], .flusher [],
    .flusher [], .flusher [], .compactor [], .closer 0, .closer 1, .compactor [], .compactor [],
    .flusher [], .flusher [], .flusher [], .flusher [], .flusher [], .flusher [], .flusher [],
    .flusher [], .flusher [], .flusher [], .flusher [], .closer 1, .closer 1, .compactor [],
    .compactor [], .compactor [], .compactor [], .compactor [], .compactor [], .closer 1, .closer 1]

/-- The first session on an empty directory, with memtables of one entry. -/
def firstSession : Session :=
  match openDB sample { maxEntries := 1 } noFaults {} [] with
  | .ret db d _ => (Session.opened d db).run sample noFaults closedTwice
  | _ => { world := {} }

theorem shutdown_safe_and_complete_closedTwice :
    firstSession.closers = [.returned false, .returned true] ∧ firstSession.panic = none ∧
      firstSession.flusher = .exited ∧ firstSession.world.disk.wals.map Prod.fst = [2] := by
  have hclosers : firstSession.closers = [.returned false, .returned true] := by decide +kernel
  have hwal : firstSession.world.proc.map DB.wal = some 2 := by decide +kernel
  cases hopen : openDB sample { maxEntries := 1 } noFaults {} [] with
  | ret db d rest =>
      have hsession : firstSession = (Session.opened d db).run sample noFaults closedTwice := by
        unfold firstSession
        rw [hopen]
      obtain ⟨hpanic, hcomplete⟩ := shutdown_safe_and_complete sample noFaults hopen closedTwice
      rw [← hsession] at hpanic hcomplete
      obtain ⟨db', hdb', hexited, -, -, hids⟩ := hcomplete rfl .empty (by rw [hclosers]; decide)
      rw [hdb'] at hwal
      exact ⟨hclosers, hpanic, hexited, by rw [hids, Option.some.inj hwal]⟩
  | err e d rest =>
      unfold firstSession at hclosers
      rw [hopen] at hclosers
      cases hclosers
  | killed d =>
      unfold firstSession at hclosers
      rw [hopen] at hclosers
      cases hclosers

end HyphaDB.Runs
