import HyphaDB.Lib.Crc32c
import HyphaDB.Refine.Reads

/-!
# HyphaDB.Runs.FaultFree

**Runs without crashes.** In such a run every `Get` returns what the last completed mutation
of its key left: the view of the world keeps `CrashFree`, and `Get` reads the view.

Faults that let the process go on are a matter of the guard, so what is said here about a
directory that is reopened serves the runs with failed writes as well.
-/

namespace HyphaDB.Runs

open Crc32c Faults Store Wal Refine

variable {cfg : Config} {g : Guard} {M : Model Call} {used : Nat} {w : World} {l : Ledger}

/-! ### Runs one after the other -/

theorem run_append (cfg : Config) (M : Model Call) (s : World × Ledger) (xs ys : List Input) :
    run cfg M s (xs ++ ys) = run cfg M (run cfg M s xs) ys := List.foldl_append

theorem sequencesUsed_append (cfg : Config) (M : Model Call) (s : World × Ledger)
    (xs ys : List Input) : sequencesUsed cfg M s (xs ++ ys) =
      sequencesUsed cfg M s xs + sequencesUsed cfg M (run cfg M s xs) ys := by
  induction xs generalizing s with
  | nil => exact (Nat.zero_add _).symm
  | cons x xs ih =>
      show x.1.cost s.1 + sequencesUsed cfg M (stepLedger cfg M s x) (xs ++ ys) = _
      rw [ih, ← Nat.add_assoc]
      rfl

/-! ### Programs without faults -/

section Programs

variable {s : Sys} {db : DB} {Q : Post Sys DBError Unit}

/-- The program returns, in `P`. -/
def Returns (P : Sys → Prop) : Post Sys DBError Unit where
  ret := fun _ t => P t
  err := fun _ _ => False
  kill := fun _ => False

theorem runOp_returns {p : Op Unit} {P : Sys → Prop} (hdb : w.proc = some db)
    (hp : wp noFaults p (Returns P) ⟨w.disk, db⟩) (fates : List Fate) :
    ∃ t, P t ∧
      w.runOp noFaults p fates = ({ w with disk := t.disk, proc := some t.db }, .ok) := by
  rcases runOp_cases hdb hp fates with h | ⟨_, _, ht, -⟩ | ⟨_, ht, -⟩
  · exact h
  · exact ht.elim
  · exact ht.elim

theorem wp_done {σ : Type} {Q : Post σ DBError Unit} {t : σ} {c : Call} {e : DBError}
    {eff : σ → Fate → σ} (hret : Q.ret () (eff t .done)) :
    wp noFaults (Prog.call c e eff) Q t :=
  wp_call hret (fun _ hM => by cases hM) fun _ hM => by cases hM

theorem wp_writeRecord_done {r : Record} (hfit : r.Fits)
    (hret : Q.ret () (appendActive s (frame cfg.crc r))) :
    wp noFaults (writeRecord cfg r) Q s :=
  wp_writeRecord hfit hret (fun _ hM => by cases hM) fun _ hM => by cases hM

theorem wp_writeRecords_done {f : Record → Record} {recs : List Record}
    (hfit : ∀ r ∈ recs.map f, r.Fits)
    (hret : Q.ret () (appendActive s (frames cfg.crc (recs.map f)))) :
    wp noFaults (Prog.forEach (fun rec => writeRecord cfg (f rec)) recs) Q s := by
  induction recs generalizing s with
  | nil =>
      rw [List.map_nil, frames_nil, appendActive_nil] at hret
      exact wp_pure hret
  | cons r recs ih =>
      rw [List.map_cons, frames_cons, ← appendActive_appendActive] at hret
      refine wp_bind (wp_writeRecord_done (hfit _ List.mem_cons_self) ?_)
      exact ih (fun x hx => hfit x (List.mem_cons_of_mem _ hx)) hret

theorem wp_writeBatch_done {id : UInt64} {recs : List Record} {sync : Bool}
    (hfit : ∀ r ∈ batchRecords id recs, r.Fits)
    (hret : Q.ret () (appendActive s (frames cfg.crc (batchRecords id recs)))) :
    wp noFaults (writeBatch cfg id recs sync) Q s := by
  unfold batchRecords at hfit hret
  rw [frames_cons, frames_append, ← appendActive_appendActive, ← appendActive_appendActive,
    frames_cons, frames_nil, List.append_nil] at hret
  unfold writeBatch
  refine wp_bind (wp_writeRecord_done (hfit _ List.mem_cons_self) ?_)
  refine wp_bind (wp_writeRecords_done (fun r hr => ?_) ?_)
  · exact hfit r (List.mem_cons_of_mem _ (List.mem_append_left _ hr))
  · refine wp_bind (wp_writeRecord_done (hfit _ (by simp)) ?_)
    cases sync with
    | false => exact wp_pure hret
    | true =>
        show wp noFaults (Prog.call .walSync (.io .walSync) fun s _ => s) Q _
        exact wp_done hret

end Programs

/-! ### What a crash-free run knows -/

theorem ready_of_crashFree {v : View} {h : Handle} (hh : v.handle = some h)
    (hv : CrashFree g (v, l)) : Ready h := by
  obtain ⟨hlive, hlog⟩ := (CrashFree.running hh).mp hv
  refine ⟨hlive.stage, fun hpend => ?_, fun r hr => hlive.seq_lt r (Or.inl hr)⟩
  -- the segments are numbered in ascending order, the pending one first
  have hids : (v.logs.map Prod.fst).Pairwise (· < ·) := List.pairwise_map.mpr hlog.sorted
  rw [hlog.ids, hpend, Option.toList_some, List.singleton_append, List.pairwise_cons] at hids
  have hmem : h.wal ∈ h.entries.map ImmutableMemTable.walID :=
    List.mem_map.mpr ⟨⟨h.memtable, h.wal⟩, List.mem_append_right _ List.mem_cons_self, rfl⟩
  exact lt_irrefl _ (hids.1 h.wal hmem)

/-- `Get` in a running process. -/
theorem get_crashFree (hw : WorldSound cfg g M used w) (hv : CrashFree g (viewWorld cfg w, l))
    {k : Key} {m : Option Bytes} (hk : l k = some m) (hserves : w.serves k = true) :
    w.get k = promised m := by
  obtain ⟨db, hdb, hopen, hkey⟩ := serves_iff.mp hserves
  rw [viewWorld_running hdb] at hv
  obtain ⟨hlive, -⟩ := (CrashFree.running (h := handleOf w.disk db) rfl).mp hv
  rw [get_running hdb]
  exact get_answers (hw.sys hdb) hopen hkey hlive.consistent (hlive.answers k m hk)

/-- What the log and the tables of a world promise to the next `Open`. -/
theorem last_crashFree (hv : CrashFree g (viewWorld cfg w, l)) :
    Consistent (tabRecs (tabsOf w.disk)) ∧
      ∀ k m, l k = some m → LastAnswers (flatten (logsOf cfg w.disk)) (tabsOf w.disk) k m := by
  cases hdb : w.proc with
  | none =>
      have hno : (viewWorld cfg w).handle = none := by
        unfold viewWorld
        rw [hdb]
        rfl
      have hclosed := (CrashFree.stopped hno).mp hv
      exact ⟨hclosed.consistent, hclosed.last⟩
  | some db =>
      rw [viewWorld_running hdb] at hv
      obtain ⟨hlive, hlog⟩ := (CrashFree.running (h := handleOf w.disk db) rfl).mp hv
      exact ⟨hlive.consistent.mono Set.subset_union_right, hlog.last⟩

/-- **The directory reopened.** The process is gone, `Open` meets no fault and succeeds, and
`Get` returns what was promised. -/
theorem reopen_crashFree (hw : WorldSound cfg g M used w) (hused : used + 1 < 2 ^ 64)
    (hv : CrashFree g (viewWorld cfg w, l)) {opts : Options} {settings : Settings}
    (hopts : normalizeOptions opts = .ok settings) (fates : List Fate) :
    (openWorld cfg noFaults (.afterKill w.disk) opts fates).2 = .ok ∧
      ∀ k m, l k = some m → k.length ≤ settings.limits.maxKeyBytes →
        (openWorld cfg noFaults (.afterKill w.disk) opts fates).1.get k = promised m := by
  obtain ⟨hok, db, d, hworld, hs, hfresh, hlimits⟩ :=
    openWorld_ok (w := .afterKill w.disk) hw.disk hused rfl hopts fates
  obtain ⟨hcons, hlast⟩ := last_crashFree hv
  refine ⟨hok, fun k m hk hkey => ?_⟩
  have htabs : tabsOf d = tabsOf w.disk := hfresh.tabs
  rw [hworld, get_running rfl]
  refine get_last hs hfresh.opened (hlimits ▸ hkey) hfresh.queue hfresh.active ?_ ?_
  · rwa [htabs]
  · rw [htabs]
    exact hlast k m hk

/-! ### No faults at all -/

/-- Nothing is asked of any step, and no fault occurs. -/
def quiet : Guard where
  write := fun _ _ => True
  compact := fun _ _ _ => True
  flush := fun _ _ => True
  logOnly := False
  rotateFail := False
  crash := False

theorem quiet_crashFree : quiet.CrashFree := ⟨id, id, fun h => h.elim⟩

theorem not_tearsFrames_noFaults : ¬ TearsFrames noFaults := by
  intro h
  obtain ⟨n, -, hM⟩ := h
  cases hM

theorem carried_quiet (cfg : Config) :
    Carried cfg quiet noFaults (fun _ event => event ≠ .kill) (CrashFree quiet) where
  allowed := allowed_noFaults quiet
  moves := fun hm hs => hs.moves quiet_crashFree hm
  ready := fun hh hv => ready_of_crashFree hh hv
  ok := by
    intro used w l event hw _ hP
    refine .of (fun db hdb => hw.writeOk not_tearsFrames_noFaults hdb fun _ => trivial)
      (fun _ _ _ _ _ _ => trivial) (fun _ _ _ _ _ _ => trivial) fun hkill => absurd hkill hP

/-- A run from the empty directory without crashes and faults. -/
theorem run_quiet {inputs : List Input} (hkill : ∀ input ∈ inputs, input.1 ≠ .kill)
    (hused : sequencesUsed cfg noFaults blank inputs < 2 ^ 64 - 1) :
    WorldSound cfg quiet noFaults (sequencesUsed cfg noFaults blank inputs)
        (run cfg noFaults blank inputs).1 ∧
      CrashFree quiet
        (viewWorld cfg (run cfg noFaults blank inputs).1, (run cfg noFaults blank inputs).2) ∧
      Total (run cfg noFaults blank inputs).2 := by
  obtain ⟨hw, hv, ht⟩ := (carried_quiet cfg).run (s := blank) (WorldSound.empty cfg quiet noFaults)
    (CrashFree.empty quiet) (along_of_forall hkill blank) (by omega)
  rw [Nat.zero_add] at hw
  exact ⟨hw, hv, ht ⟨id, id, id⟩ fun _ => ⟨none, rfl⟩⟩

/-- **The engine refines a map.** Along every run of mutations, rotations, steps of the flush
worker, compactions, readers, and clean closing and reopening, `Get` returns what the last
completed mutation of its key left. -/
theorem get_run (cfg : Config) {inputs : List Input} (hkill : ∀ input ∈ inputs, input.1 ≠ .kill)
    (hused : sequencesUsed cfg noFaults blank inputs < 2 ^ 64 - 1) {k : Key}
    (hserves : (run cfg noFaults blank inputs).1.serves k = true) :
    ∃ m, (run cfg noFaults blank inputs).2 k = some m ∧
      (run cfg noFaults blank inputs).1.get k = promised m := by
  obtain ⟨hw, hv, ht⟩ := run_quiet hkill hused
  obtain ⟨m, hm⟩ := ht k
  exact ⟨m, hm, get_crashFree hw hv hm hserves⟩

/-- A configuration to evaluate runs with. -/
def sample : Config := ⟨crc32c, fun recs => 1 + recs.length⟩

/-- One turn of the flush worker. -/
def flushOnce : List Input :=
  [(.flushReserve, []), (.flushWrite, []), (.flushPublish, []), (.flushRemoveWAL, [])]

/-- Two versions of a key: the older one flushed and compacted, the newer one in the log of a
database that was closed and opened again. -/
def rewritten : List Input :=
  [(.openDB { maxEntries := 1, tableCountThreshold := 1 }, []), (.put [0x6B] [1], []),
    (.flushReserve, []), (.flushWrite, []), (.flushPublish, []), (.flushRemoveWAL, []),
    (.compactInBackground, []), (.beginClose, []), (.endClose, []),
    (.openDB { maxEntries := 2 }, []), (.delete [0x6B], [])]

/-- The run theorem at that run. -/
theorem get_run_rewritten :
    (run sample noFaults blank rewritten).1.serves [0x6B] = true ∧
      ∃ m, (run sample noFaults blank rewritten).2 [0x6B] = some m ∧
        (run sample noFaults blank rewritten).1.get [0x6B] = promised m := by
  have hserves : (run sample noFaults blank rewritten).1.serves [0x6B] = true := by
    decide +kernel
  exact ⟨hserves, get_run sample (by decide +kernel) (by decide +kernel) hserves⟩

end HyphaDB.Runs
