import HyphaDB.Refine.Readers
import HyphaDB.Runs.FaultFree
import HyphaDB.Store.Snapshots

/-!
# HyphaDB.Runs.Snapshots

**Snapshot isolation.** A snapshot is open as long as its sequence is registered, and while a
sequence below the counter is registered no event changes what reads at it find
(`watched_run`). So a snapshot goes on showing the contents of the moment it was made: every
batch acknowledged before, as a whole, and nothing of a later one. An iterator holds its sources
itself and needs its snapshot no longer.
-/

namespace HyphaDB.Runs

open Faults Store Wal Refine Versions Compaction Merge

variable {cfg : Config} {used : Nat} {q : UInt64} {o : Key → Option Record}

/-! ### Watching one sequence -/

/-- No fault occurs, and the sequence `q` is registered and below the counter. -/
def serving (q : UInt64) : Guard :=
  { quiet with
    write := fun v _ => ∀ h, v.handle = some h → q < h.nextSeq
    compact := fun _ _ options => options.oldestReader ≠ none ∧ Protected options q }

theorem serving_serves (q : UInt64) : (serving q).Serving q where
  crash := id
  rotateFail := id
  logOnly := id
  write := fun _ h _ hw hh => hw h hh
  compact := fun _ _ _ h => h

/-- The process has `q` registered below its counter. -/
def Holds (q : UInt64) (w : World) (event : Event) : Prop :=
  event ≠ .kill ∧ ∃ db, w.proc = some db ∧ q ∈ db.activeReaders ∧ q < db.nextSeq

theorem carried_serving (cfg : Config) (q : UInt64) (o : Key → Option Record) :
    Carried cfg (serving q) noFaults (Holds q) (Watched (serving q) q o) where
  allowed := allowed_noFaults _
  moves := fun hm hs => hs.moves (serving_serves q) hm
  ready := fun hh hv => ready_of_crashFree hh hv.crashFree
  ok := by
    intro used w l event hw _ hP
    obtain ⟨hkill, db, hdb, hreader, hlt⟩ := hP
    have hsame : ∀ {db'}, w.proc = some db' → db' = db :=
      fun h => Option.some.inj (h.symm.trans hdb)
    refine .of (fun db' hdb' => hw.writeOk not_tearsFrames_noFaults hdb' fun _ h hh => ?_)
      (fun _ _ _ _ _ _ => trivial) (fun db' hdb' _ _ plan _ => ?_) fun h => absurd h hkill
    · obtain rfl := hsame hdb'
      obtain rfl := Option.some.inj hh
      exact hlt
    · obtain rfl := hsame hdb'
      obtain ⟨oldest, holdest, -⟩ := oldestReader_le hreader
      refine ⟨fun hnone => ?_, protected_reader hreader plan⟩
      rw [show (mergeOptions db' plan).oldestReader = some oldest from holdest] at hnone
      cases hnone

/-- The counter does not fall back to `q`. -/
theorem lt_nextSeq {event : Event} {w w' : World} {db db' : DB} (hp : Proceeds event w db w' db')
    (hlt : q < db.nextSeq) (hle : db.nextSeq.toNat ≤ used + 1)
    (hroom : used + event.cost w + 1 < 2 ^ 64) : q < db'.nextSeq := by
  rcases hp.seq with h | h
  · rwa [h]
  · rw [h, UInt64.lt_iff_toNat_lt, UInt64.toNat_add, UInt64.toNat_ofNat']
    rw [UInt64.lt_iff_toNat_lt] at hlt
    omega

theorem snapshotOpen_iff {w : World} {i : Nat} : w.snapshotOpen i = true ↔
    ∃ db snap, w.proc = some db ∧ w.snapshots[i]? = some snap ∧ db.closed = false ∧
      snap.closed = false := by
  unfold World.snapshotOpen
  cases w.proc with
  | none => simp
  | some db =>
      cases w.snapshots[i]? with
      | none => simp
      | some snap => simp

/-- A world in which snapshot `i` reads at `q`, and reads at `q` find what `o` says. -/
structure Shows (cfg : Config) (used i : Nat) (q : UInt64) (o : Key → Option Record)
    (s : World × Ledger) : Prop where
  sound : WorldSound cfg (serving q) noFaults used s.1
  watched : Watched (serving q) q o (viewWorld cfg s.1, s.2)
  registered : Registered s.1
  snapshot : ∃ snap, s.1.snapshots[i]? = some snap ∧ snap.sequence = q
  below : ∀ db, s.1.proc = some db → q < db.nextSeq

/-- One event, as long as the snapshot is open in the end. -/
theorem Shows.step {input : Input} {inputs : List Input} {s : World × Ledger} {i : Nat}
    (hs : Shows cfg used i q o s) (hopen : NoOpen (input :: inputs)) (hkill : input.1 ≠ .kill)
    (hroom : used + input.1.cost s.1 + 1 < 2 ^ 64)
    (hstill : (run cfg noFaults s (input :: inputs)).1.snapshotOpen i = true) :
    Shows cfg (used + input.1.cost s.1) i q o (stepLedger cfg noFaults s input) := by
  obtain ⟨db', snap', hdb', hsnap', -, hclosed'⟩ := snapshotOpen_iff.mp hstill
  obtain ⟨snap, hsnap, hq⟩ := hs.snapshot
  obtain ⟨db, hdb⟩ := running_of_run hopen hdb'
  obtain ⟨db₁, hdb₁⟩ :=
    running_of_run (s := stepLedger cfg noFaults s input) hopen.tail hdb'
  -- the snapshot is still open here, so its sequence is registered
  have hstillOpen : snap.closed = false := by
    obtain ⟨last, hlast, -, hback⟩ := snapshot_run hopen hdb' hsnap
    obtain rfl := Option.some.inj (hlast.symm.trans hsnap')
    exact hback hclosed'
  have hreader : q ∈ db.activeReaders :=
    hq ▸ mem_registered hs.registered hdb hsnap hstillOpen
  have hproceeds : Proceeds input.1 s.1 db (stepLedger cfg noFaults s input).1 db₁ :=
    step_proceeds hdb hdb₁
  obtain ⟨hw', hwatch', -⟩ := (carried_serving cfg q o).step input hs.sound hs.watched
    ⟨hkill, db, hdb, hreader, hs.below db hdb⟩ hroom
  refine ⟨hw', hwatch', hs.registered.step input.1 input.2, ?_, fun db₂ hdb₂ => ?_⟩
  · refine ⟨_, hproceeds.snapshots i snap hsnap, ?_⟩
    unfold onSnapshot
    split
    · split
      · exact hq
      · exact hq
    · exact hq
  · obtain rfl := Option.some.inj (hdb₁.symm.trans hdb₂)
    exact lt_nextSeq hproceeds (hs.below db hdb) (hs.sound.proc db hdb).seq_le hroom

/-- **A snapshot that is open in the end has been watched all the time.** -/
theorem Shows.run {inputs : List Input} (hopen : NoOpen inputs)
    (hkill : ∀ input ∈ inputs, input.1 ≠ .kill) {s : World × Ledger} {i : Nat}
    (hs : Shows cfg used i q o s)
    (hroom : used + sequencesUsed cfg noFaults s inputs + 1 < 2 ^ 64)
    (hstill : (run cfg noFaults s inputs).1.snapshotOpen i = true) :
    Shows cfg (used + sequencesUsed cfg noFaults s inputs) i q o (run cfg noFaults s inputs) := by
  induction inputs generalizing s used with
  | nil => exact hs
  | cons input inputs ih =>
      rw [sequencesUsed, ← Nat.add_assoc] at hroom ⊢
      have hone := hs.step hopen (hkill input List.mem_cons_self) (by omega) hstill
      exact ih hopen.tail (fun i hi => hkill i (List.mem_cons_of_mem _ hi)) hone hroom hstill

/-! ### What a snapshot returns -/

section Answers

variable {s : World × Ledger} {i : Nat} (hs : Shows cfg used i q o s) {db : DB}
  (hdb : s.1.proc = some db)

include hs hdb

theorem Shows.live : Consistent ((viewSys cfg ⟨s.1.disk, db⟩).live (handleOf s.1.disk db)) ∧
    ∀ k, ReadsAt ((viewSys cfg ⟨s.1.disk, db⟩).live (handleOf s.1.disk db)) k q (o k) := by
  have hwatch := hs.watched
  rw [viewWorld_running hdb] at hwatch
  obtain ⟨hlive, -⟩ := (CrashFree.running (h := handleOf s.1.disk db) rfl).mp hwatch.crashFree
  have hreadable : (viewSys cfg ⟨s.1.disk, db⟩).readable = _ := readable_running rfl
  exact ⟨hlive.consistent, fun k => hreadable ▸ hwatch.serves k⟩

theorem Shows.getAt (k : Key) : HyphaDB.getAt ⟨s.1.disk, db⟩ k q = answer (o k) := by
  obtain ⟨hc, hreads⟩ := hs.live hdb
  exact getAt_reads (hs.sound.sys hdb) hc (hreads k)

/-- The records of a range that a snapshot shows, by their keys. -/
theorem Shows.scan (opts : IteratorOptions) :
    ∃ it, newIterator ⟨s.1.disk, db⟩ opts q = .ok it ∧ it.closed = false ∧ Scanning it ∧
      Ascending it.output ∧
      ∀ r, r ∈ it.output ↔ inRange opts r.key = true ∧ o r.key = some r ∧ r.deleted = false := by
  obtain ⟨hc, hreads⟩ := hs.live hdb
  obtain ⟨it, hit, hopen, -, hsorted, hcons, hasc, hmem⟩ :=
    scan_spec (hs.sound.sys hdb) opts q hc
  refine ⟨it, hit, hopen, ⟨hsorted, hcons⟩, hasc, fun r => (hmem r).trans ?_⟩
  refine and_congr_right fun _ => and_congr_left fun _ => ⟨fun h => ?_, fun h => ?_⟩
  · exact ReadsAt.unique hc (hreads r.key) h
  · exact h ▸ hreads r.key

end Answers

/-- An open snapshot of an open database. -/
theorem snapshotGet_open {w : World} {i : Nat} {db : DB} {snap : Snapshot}
    (hdb : w.proc = some db) (hsnap : w.snapshots[i]? = some snap) (hopen : db.closed = false)
    (hsopen : snap.closed = false) (k : Key) :
    w.snapshotGet i k = (db.limits.validateKey k).bind
      fun _ => HyphaDB.getAt ⟨w.disk, db⟩ k snap.sequence := by
  unfold World.snapshotGet
  rw [hdb, hsnap]
  dsimp only
  rw [if_neg (by simp [hsopen]), if_neg (by simp [hopen])]
  cases db.limits.validateKey k with
  | error e => rfl
  | ok _ => rfl

/-- `Snapshot.NewIterator`, when the tables can be read. -/
theorem snapshotIterator_open {w : World} {i : Nat} {db : DB} {snap : Snapshot}
    (hsnap : w.snapshots[i]? = some snap) (hopen : db.closed = false)
    (hsopen : snap.closed = false) {opts : IteratorOptions} {it : Iterator}
    (hit : newIterator ⟨w.disk, db⟩ opts snap.sequence = .ok it) :
    w.snapshotIterator db i opts = (db.limits.validateKey opts.start).bind fun _ =>
      (db.limits.validateKey opts.stop).bind fun _ =>
        .ok { w with
          proc := some (db.registerReader snap.sequence), iterators := w.iterators ++ [it] } := by
  unfold World.snapshotIterator World.addIterator
  rw [hsnap]
  dsimp only
  rw [if_neg (by simp [hsopen]), if_neg (by simp [hopen]), hit]
  rfl

theorem snapshotScan_open {w : World} {i : Nat} {db : DB} {snap : Snapshot}
    (hdb : w.proc = some db) (hsnap : w.snapshots[i]? = some snap) (hopen : db.closed = false)
    (hsopen : snap.closed = false) {opts : IteratorOptions} {it : Iterator}
    (hit : newIterator ⟨w.disk, db⟩ opts snap.sequence = .ok it) :
    w.snapshotScan i opts = (db.limits.validateKey opts.start).bind fun _ =>
      (db.limits.validateKey opts.stop).bind fun _ => .ok it.output := by
  unfold World.snapshotScan
  rw [hdb]
  dsimp only
  rw [snapshotIterator_open hsnap hopen hsopen hit]
  cases db.limits.validateKey opts.start with
  | error e => rfl
  | ok _ =>
      cases db.limits.validateKey opts.stop with
      | error e => rfl
      | ok _ =>
          show Except.ok (((w.iterators ++ [it]).getLast?.map Iterator.output).getD []) = _
          rw [List.getLast?_concat]
          rfl

/-- Two worlds that show the same return the same. -/
theorem Shows.agree {used used' i : Nat} {s s' : World × Ledger} (hs : Shows cfg used i q o s)
    (hs' : Shows cfg used' i q o s') (hopen : s.1.snapshotOpen i = true)
    (hopen' : s'.1.snapshotOpen i = true)
    (hlimits : ∀ db db', s.1.proc = some db → s'.1.proc = some db' → db'.limits = db.limits) :
    (∀ k, s'.1.snapshotGet i k = s.1.snapshotGet i k) ∧
      ∀ opts, s'.1.snapshotScan i opts = s.1.snapshotScan i opts := by
  obtain ⟨db, snap, hdb, hsnap, hdbo, hso⟩ := snapshotOpen_iff.mp hopen
  obtain ⟨db', snap', hdb', hsnap', hdbo', hso'⟩ := snapshotOpen_iff.mp hopen'
  have hseq : snap.sequence = q := by
    obtain ⟨x, hx, hq⟩ := hs.snapshot
    rwa [Option.some.inj (hsnap.symm.trans hx)]
  have hseq' : snap'.sequence = q := by
    obtain ⟨x, hx, hq⟩ := hs'.snapshot
    rwa [Option.some.inj (hsnap'.symm.trans hx)]
  have hlim := hlimits db db' hdb hdb'
  refine ⟨fun k => ?_, fun opts => ?_⟩
  · rw [snapshotGet_open hdb hsnap hdbo hso, snapshotGet_open hdb' hsnap' hdbo' hso', hlim, hseq,
      hseq', hs.getAt hdb, hs'.getAt hdb']
  · obtain ⟨it, hit, -, -, hasc, hmem⟩ := hs.scan hdb opts
    obtain ⟨it', hit', -, -, hasc', hmem'⟩ := hs'.scan hdb' opts
    rw [snapshotScan_open hdb hsnap hdbo hso (hseq ▸ hit),
      snapshotScan_open hdb' hsnap' hdbo' hso' (hseq' ▸ hit'), hlim,
      hasc'.ext hasc fun r => (hmem' r).trans (hmem r).symm]

/-! ### The moment of creation -/

/-- A run without faults also keeps the segments and memtables in step. -/
theorem carried_structural (cfg : Config) :
    Carried cfg quiet noFaults (fun _ event => event ≠ .kill)
      (fun s => CrashFree quiet s ∧ Structural quiet s.1) where
  allowed := allowed_noFaults quiet
  moves := by
    intro s s' hm hs
    refine ⟨hs.1.moves quiet_crashFree hm, ?_⟩
    induction hm with
    | refl => exact hs.2
    | tail _ hm ih => exact ih.move ⟨id, False.elim⟩ hm
  ready := fun hh hv => ready_of_crashFree hh hv.1
  ok := fun hw hI hP => (carried_quiet cfg).ok hw hI.1 hP

theorem run_structural {inputs : List Input} (hkill : ∀ input ∈ inputs, input.1 ≠ .kill)
    (hused : sequencesUsed cfg noFaults blank inputs < 2 ^ 64 - 1) :
    Structural quiet (viewWorld cfg (run cfg noFaults blank inputs).1) := by
  have hempty : Structural quiet ⟨[], [], none⟩ :=
    fun r hr => by simp [View.durable, logRecs, tabRecs] at hr
  exact ((carried_structural cfg).run (s := blank) (WorldSound.empty cfg quiet noFaults)
    ⟨CrashFree.empty quiet, hempty⟩ (along_of_forall hkill blank) (by omega)).2.1.2

/-- All versions are at or below the current sequence. -/
theorem le_currentSequence {db : DB} {r : Record} (hlt : r.seq < db.nextSeq) :
    r.seq ≤ db.currentSequence := by
  unfold DB.currentSequence
  rw [UInt64.lt_iff_toNat_lt] at hlt
  rw [UInt64.le_iff_toNat_le, UInt64.toNat_sub_of_le]
  · show r.seq.toNat ≤ db.nextSeq.toNat - 1
    omega
  · rw [UInt64.le_iff_toNat_le]
    show 1 ≤ db.nextSeq.toNat
    omega

theorem currentSequence_lt {db : DB} (hpos : 0 < db.nextSeq) : db.currentSequence < db.nextSeq := by
  unfold DB.currentSequence
  have hpos' : 0 < db.nextSeq.toNat := UInt64.lt_iff_toNat_lt.mp hpos
  rw [UInt64.lt_iff_toNat_lt, UInt64.toNat_sub_of_le]
  · show db.nextSeq.toNat - 1 < db.nextSeq.toNat
    omega
  · rw [UInt64.le_iff_toNat_le]
    exact hpos'

/-- `NewSnapshot` in an open database. -/
theorem step_newSnapshot {w : World} {db : DB} (hdb : w.proc = some db) (hopen : db.closed = false)
    (M : Model Call) (fates : List Fate) :
    step cfg M w .newSnapshot fates =
      ({ w with
        proc := some (db.registerReader db.currentSequence)
        snapshots := w.snapshots ++ [{ sequence := db.currentSequence }] }, .ok) := by
  show w.updateProc w.newSnapshot = _
  unfold World.updateProc World.newSnapshot
  rw [hdb]
  dsimp only
  rw [if_neg (by simp [hopen])]

theorem open_of_newSnapshot {w : World} {M : Model Call} {fates : List Fate}
    (h : (step cfg M w .newSnapshot fates).2 = .ok) :
    ∃ db, w.proc = some db ∧ db.closed = false := by
  have hstep : (w.updateProc w.newSnapshot).2 = .ok := h
  unfold World.updateProc World.newSnapshot at hstep
  cases hdb : w.proc with
  | none =>
      rw [hdb] at hstep
      cases hstep
  | some db =>
      rw [hdb] at hstep
      cases hclosed : db.closed with
      | false => exact ⟨db, rfl, hclosed⟩
      | true =>
          dsimp only at hstep
          rw [if_pos hclosed] at hstep
          cases hstep

/-- A snapshot at the current sequence shows everything there is, which is what the callers
know. -/
theorem shows_current {s : World × Ledger} {i : Nat} {db : DB} {snap : Snapshot}
    (hw : WorldSound cfg quiet noFaults used s.1) (hv : CrashFree quiet (viewWorld cfg s.1, s.2))
    (hstruct : Structural quiet (viewWorld cfg s.1)) (hreg : Registered s.1)
    (hdb : s.1.proc = some db) (hsnap : s.1.snapshots[i]? = some snap)
    (hseq : snap.sequence = db.currentSequence) :
    ∃ o, Shows cfg used i db.currentSequence o s ∧
      ∀ k m, s.2 k = some m → answer (o k) = promised m := by
  choose o hfind hreads using fun k => findAt_reads (hw.sys hdb) k db.currentSequence
  have hlive : LiveSound (viewSys cfg ⟨s.1.disk, db⟩) (handleOf s.1.disk db) s.2 := by
    have hv' := hv
    rw [viewWorld_running hdb] at hv'
    exact ((CrashFree.running (h := handleOf s.1.disk db) rfl).mp hv').1
  refine ⟨o, ⟨hw.guard fun _ => id, ⟨hv.guard fun _ => id, hstruct.guard fun _ => id, ?_⟩, hreg,
    ⟨snap, hsnap, hseq⟩, ?_⟩, ?_⟩
  · rw [viewWorld_running hdb]
    have hreadable : (viewSys cfg ⟨s.1.disk, db⟩).readable = _ := readable_running rfl
    exact fun k => hreadable ▸ hreads k
  · intro db' hdb'
    obtain rfl := Option.some.inj (hdb.symm.trans hdb')
    exact currentSequence_lt (hw.proc db hdb).seq_pos
  · intro k m hm
    obtain ⟨x, hx, rfl⟩ := hlive.answers k m hm
    -- no version is beyond the current sequence
    have hnewest : ReadsAt _ k newest (o k) := Versions.ReadsAt.raise (hreads k)
      (fun r hr => le_currentSequence (hlive.seq_lt r hr)) (le_newest _)
    rw [answer_eq, ReadsAt.unique hlive.consistent hnewest hx]

/-- What the run up to a new snapshot leaves. -/
theorem shows_newSnapshot {pre : List Input} {fates : List Fate}
    (hkill : ∀ input ∈ pre ++ [(.newSnapshot, fates)], input.1 ≠ .kill)
    (hused : sequencesUsed cfg noFaults blank (pre ++ [(.newSnapshot, fates)]) < 2 ^ 64 - 1)
    {db : DB} (hdb : (run cfg noFaults blank pre).1.proc = some db) (hopen : db.closed = false) :
    ∃ o, Shows cfg (sequencesUsed cfg noFaults blank (pre ++ [(.newSnapshot, fates)]))
        (run cfg noFaults blank pre).1.snapshots.length db.currentSequence o
        (run cfg noFaults blank (pre ++ [(.newSnapshot, fates)])) ∧
      (run cfg noFaults blank (pre ++ [(.newSnapshot, fates)])).1.snapshotOpen
        (run cfg noFaults blank pre).1.snapshots.length = true ∧
      ∀ k, ∃ m, (run cfg noFaults blank (pre ++ [(.newSnapshot, fates)])).2 k = some m ∧
        answer (o k) = promised m := by
  obtain ⟨hw, hv, ht⟩ := run_quiet hkill hused
  have hreg : Registered (run cfg noFaults blank (pre ++ [(.newSnapshot, fates)])).1 :=
    registered_run _ fun _ h => by cases h
  have hworld : (run cfg noFaults blank (pre ++ [(.newSnapshot, fates)])).1 =
      { (run cfg noFaults blank pre).1 with
        proc := some (db.registerReader db.currentSequence)
        snapshots := (run cfg noFaults blank pre).1.snapshots ++
          [{ sequence := db.currentSequence }] } := by
    rw [run_append]
    show (step cfg noFaults (run cfg noFaults blank pre).1 .newSnapshot fates).1 = _
    rw [step_newSnapshot hdb hopen]
  have hdb' := congrArg World.proc hworld
  have hsnap : (run cfg noFaults blank (pre ++ [(.newSnapshot, fates)])).1.snapshots[
      (run cfg noFaults blank pre).1.snapshots.length]? =
      some { sequence := db.currentSequence } := by
    rw [hworld]
    exact List.getElem?_concat_length
  obtain ⟨o, hshows, hanswers⟩ :=
    shows_current hw hv (run_structural hkill hused) hreg hdb' hsnap rfl
  refine ⟨o, hshows, snapshotOpen_iff.mpr ⟨_, _, hdb', hsnap, hopen, rfl⟩, fun k => ?_⟩
  obtain ⟨m, hm⟩ := ht k
  exact ⟨m, hm, hanswers k m hm⟩

/-! ### Iterators of a snapshot -/

/-- The iterator that a call of `Snapshot.NewIterator` adds, with what it yields. -/
theorem newIterator_yields {s : World × Ledger} {i : Nat} (hs : Shows cfg used i q o s)
    (hopen : s.1.snapshotOpen i = true) {opts : IteratorOptions} {fates : List Fate}
    (hok : (step cfg noFaults s.1 (.snapshotIterator i opts) fates).2 = .ok) :
    ∃ it, (step cfg noFaults s.1 (.snapshotIterator i opts) fates).1.iterators[
        s.1.iterators.length]? = some it ∧ Scanning it ∧
      s.1.snapshotScan i opts = .ok it.output := by
  obtain ⟨db, snap, hdb, hsnap, hdbo, hso⟩ := snapshotOpen_iff.mp hopen
  have hseq : snap.sequence = q := by
    obtain ⟨x, hx, hq⟩ := hs.snapshot
    rwa [Option.some.inj (hsnap.symm.trans hx)]
  obtain ⟨it, hit, -, hscan, -, -⟩ := hs.scan hdb opts
  have hscans := snapshotScan_open hdb hsnap hdbo hso (hseq ▸ hit)
  have hadds := snapshotIterator_open hsnap hdbo hso (hseq ▸ hit)
  have hstep : step cfg noFaults s.1 (.snapshotIterator i opts) fates =
      s.1.updateProc fun db => s.1.snapshotIterator db i opts := rfl
  unfold World.updateProc at hstep
  rw [hdb] at hstep
  dsimp only at hstep
  cases hstart : db.limits.validateKey opts.start with
  | error e =>
      rw [hstep, hadds, hstart] at hok
      cases hok
  | ok _ =>
      cases hstop : db.limits.validateKey opts.stop with
      | error e =>
          rw [hstep, hadds, hstart, hstop] at hok
          cases hok
      | ok _ =>
          rw [hstart, hstop] at hadds hscans
          rw [hstep, hadds]
          exact ⟨it, List.getElem?_concat_length, hscan, hscans⟩

/-- **Snapshot isolation.** As long as a snapshot is open its reads and scans return what they
returned when it was made, which is what the last mutations acknowledged by then left. An
iterator made from it yields that, record by record, whatever becomes of the snapshot. -/
theorem snapshot_isolated (cfg : Config) {pre mid : List Input} {fates : List Fate}
    (hkill : ∀ input ∈ pre ++ (.newSnapshot, fates) :: mid, input.1 ≠ .kill) (hopen : NoOpen mid)
    (hused : sequencesUsed cfg noFaults blank (pre ++ (.newSnapshot, fates) :: mid) < 2 ^ 64 - 1)
    {before created later : World × Ledger} (hbefore : before = run cfg noFaults blank pre)
    (hcreated : created = stepLedger cfg noFaults before (.newSnapshot, fates))
    (hlater : later = run cfg noFaults created mid)
    (hnew : (step cfg noFaults before.1 .newSnapshot fates).2 = .ok) {i : Nat}
    (hi : i = before.1.snapshots.length) (hstill : later.1.snapshotOpen i = true) :
    (∀ k, later.1.snapshotGet i k = created.1.snapshotGet i k) ∧
      (∀ k, before.1.serves k = true →
        ∃ m, before.2 k = some m ∧ later.1.snapshotGet i k = promised m) ∧
      (∀ opts, later.1.snapshotScan i opts = created.1.snapshotScan i opts) ∧
      ∀ opts fates', (step cfg noFaults later.1 (.snapshotIterator i opts) fates').2 = .ok →
        ∃ all, created.1.snapshotScan i opts = .ok all ∧ ∀ post, NoOpen post → ∀ final,
          final = run cfg noFaults later ((.snapshotIterator i opts, fates') :: post) →
          final.1.proc.isSome = true →
          ∃ it, final.1.iterators[later.1.iterators.length]? = some it ∧
            (it.closed = false → it.output = all.drop (nexts later.1.iterators.length post)) := by
  obtain ⟨db, hdb, hdbo⟩ := open_of_newSnapshot hnew
  have hrun : run cfg noFaults blank (pre ++ [(.newSnapshot, fates)]) = created := by
    rw [run_append, hcreated, hbefore]
    rfl
  have hsplit : pre ++ (.newSnapshot, fates) :: mid = (pre ++ [(.newSnapshot, fates)]) ++ mid := by
    rw [List.append_assoc]
    rfl
  rw [hsplit] at hkill hused
  rw [sequencesUsed_append, hrun] at hused
  obtain ⟨o, hshows, hopened, hanswers⟩ := shows_newSnapshot
    (fun input h => hkill input (List.mem_append_left _ h)) (by omega) (hbefore ▸ hdb) hdbo
  rw [hrun, ← hbefore, ← hi] at hshows hopened
  rw [hrun] at hanswers
  have hshows' := hshows.run hopen (fun input h => hkill input (List.mem_append_right _ h))
    (by omega) (hlater ▸ hstill)
  rw [← hlater] at hshows'
  have hledger : created.2 = before.2 := by
    have hsilent : Silent .newSnapshot := .of_admits (fun _ => rfl) fun _ => rfl
    rw [hcreated]
    show before.2.learn (mutations before.1 .newSnapshot) _ = before.2
    rw [hsilent.mutations, learn_nil]
  obtain ⟨hgets, hscans⟩ := hshows.agree hshows' hopened hstill fun db₀ db₁ h₀ h₁ =>
    limits_run hopen h₀ (hlater ▸ h₁)
  refine ⟨hgets, fun k hserves => ?_, hscans, fun opts fates' hok => ?_⟩
  · obtain ⟨m, hm, hanswer⟩ := hanswers k
    obtain ⟨db₀, snap, hdb₀, hsnap, hdbo₀, hso⟩ := snapshotOpen_iff.mp hopened
    obtain ⟨db₁, hdb₁, -, hkey⟩ := serves_iff.mp hserves
    obtain rfl := Option.some.inj (hdb.symm.trans hdb₁)
    have hdb₂ : (step cfg noFaults before.1 .newSnapshot fates).1.proc = some db₀ := by
      rw [hcreated] at hdb₀
      exact hdb₀
    have hlimits : db₀.limits = db.limits := (step_proceeds hdb hdb₂).limits
    obtain ⟨x, hx, hseq⟩ := hshows.snapshot
    obtain rfl := Option.some.inj (hsnap.symm.trans hx)
    refine ⟨m, hledger ▸ hm, (hgets k).trans ?_⟩
    rw [snapshotGet_open hdb₀ hsnap hdbo₀ hso, validateKey_eq_ok.mpr (hlimits ▸ hkey), hseq]
    exact (hshows.getAt hdb₀ k).trans hanswer
  · obtain ⟨it, hit, hscan, hall⟩ := newIterator_yields hshows' hstill hok
    refine ⟨it.output, (hscans opts).symm.trans hall, fun post hpost final hfinal hsome => ?_⟩
    obtain ⟨db', hdb'⟩ := Option.isSome_iff_exists.mp hsome
    subst hfinal
    obtain ⟨it', hit', hout⟩ := iterator_run (s := stepLedger cfg noFaults later
      (.snapshotIterator i opts, fates')) hpost hdb' hit hscan
    exact ⟨it', hit', fun h => (hout h).2⟩

/-- A key is written and a snapshot made; then the key is written again, both versions are
flushed and compacted, and another snapshot comes and goes. -/
def overwriting : List Input × List Input :=
  ([(.openDB { maxEntries := 1, tableCountThreshold := 1 }, []), (.put [0x6B] [1], [])],
    [(.put [0x6B] [2], []), (.flushReserve, []), (.flushWrite, []), (.flushPublish, []),
      (.flushRemoveWAL, []), (.flushReserve, []), (.flushWrite, []), (.flushPublish, []),
      (.newSnapshot, []), (.compact, []), (.closeSnapshot 1, []), (.compact, [])])

/-- Isolation in that run: the snapshot returns the older version, the database the newer. -/
theorem snapshot_isolated_overwriting :
    (run sample noFaults (stepLedger sample noFaults (run sample noFaults blank overwriting.1)
      (.newSnapshot, [])) overwriting.2).1.get [0x6B] = .ok [2] ∧
    ∃ m, (run sample noFaults blank overwriting.1).2 [0x6B] = some m ∧
      (run sample noFaults (stepLedger sample noFaults (run sample noFaults blank overwriting.1)
        (.newSnapshot, [])) overwriting.2).1.snapshotGet 0 [0x6B] = promised m := by
  have hkill : ∀ input ∈ overwriting.1 ++ (.newSnapshot, []) :: overwriting.2,
      input.1 ≠ .kill := by decide +kernel
  refine ⟨by decide +kernel, ?_⟩
  exact (snapshot_isolated sample hkill (by decide +kernel) (by decide +kernel) rfl rfl rfl
    (by decide +kernel) rfl (by decide +kernel)).2.1 [0x6B] (by decide +kernel)

end HyphaDB.Runs
