import HyphaDB.Runs.FaultFree

/-!
# HyphaDB.Runs.Crashes

**Runs in which the process dies.** A kill may come between any two file-system calls, and in
the middle of a WAL frame, of which any part may then be in the file. What such runs keep is
`Durable`: an acknowledged put is on disk, in a place that stays until another one holds it.

A failed rotation is less harmless. It leaves the active memtable queued for flushing, and
the flush of a memtable that still takes writes removes the segment those writes are in.
-/

namespace HyphaDB.Runs

open Faults Store Wal Refine

variable {cfg : Config} {g : Guard} {M : Model Call} {used : Nat} {w : World} {l : Ledger}

/-! ### Kills -/

/-- The process may die at any call. Only a WAL frame is then written in part: the header of a
segment is there or not. -/
def kills : Model Call
  | .segmentHeader, .kill n => n = 0 || walHeaderSize ≤ n
  | _, .kill _ => true
  | _, _ => false

theorem kills_not_fail {c : Call} {n : Nat} : kills c (.fail n) ≠ true := by
  cases c <;> simp [kills]

theorem kills_header {n : Nat} (h : kills .segmentHeader (.kill n) = true) :
    n = 0 ∨ walHeaderSize ≤ n := by
  simpa [kills] using h

theorem allowed_kills (hg : g.crash) : Allowed g kills where
  kill := fun _ => hg
  header_kill := kills_header
  header_fail := fun h => absurd h kills_not_fail
  walSync := fun h => absurd h kills_not_fail
  segment := fun h => absurd h kills_not_fail
  other := fun h => absurd h kills_not_fail

/-! ### What a run with crashes knows -/

theorem ready_of_structural {v : View} {h : Handle} (hh : v.handle = some h) (hv : Structural g v) :
    Ready h := by
  have ha := (Structural.running hh).mp hv
  refine ⟨ha.stage, fun hpend => ?_, fun r hr => ha.seq_lt r (Or.inl (Or.inl hr))⟩
  exact lt_irrefl _ (ha.pending_lt h.wal hpend)

/-- A running process sees consistent versions. -/
theorem consistent_live {v : View} {h : Handle} (hh : v.handle = some h)
    (hv : Structural g v) : Consistent (v.live h) :=
  ((Structural.running hh).mp hv).consistent.mono Set.subset_union_left

/-- `Get` in a running process. -/
theorem get_durable (hw : WorldSound cfg g M used w) (hv : Durable g (viewWorld cfg w, l))
    {k : Key} {x : Bytes} (hk : l k = some (some x)) (hserves : w.serves k = true) :
    w.get k = .ok x := by
  obtain ⟨db, hdb, hopen, hkey⟩ := serves_iff.mp hserves
  rw [viewWorld_running hdb] at hv
  have hh : (viewSys cfg ⟨w.disk, db⟩).handle = some (handleOf w.disk db) := rfl
  have hheld := hv.puts k x hk
  rw [show (viewSys cfg ⟨w.disk, db⟩, l).1.held = _ from View.held_running hh,
    show (viewSys cfg ⟨w.disk, db⟩, l).1.versions = _ from View.versions_running hh] at hheld
  have hlive : Held ((viewSys cfg ⟨w.disk, db⟩).live (handleOf w.disk db))
      ((viewSys cfg ⟨w.disk, db⟩).live (handleOf w.disk db)) k x :=
    hheld.mono Set.inter_subset_right fun y hy _ => Or.inl hy
  rw [get_running hdb]
  exact get_answers (hw.sys hdb) hopen hkey (consistent_live hh hv.structural)
    (hlive.answers (le_refl _))

/-- **The directory reopened** after the death of the process. -/
theorem reopen_durable (hw : WorldSound cfg g M used w) (hused : used + 1 < 2 ^ 64)
    (hg : g.Anchored) (hcrash : g.crash) (hv : Durable g (viewWorld cfg w, l)) {opts : Options}
    {settings : Settings} (hopts : normalizeOptions opts = .ok settings) (fates : List Fate) :
    (openWorld cfg noFaults (.afterKill w.disk) opts fates).2 = .ok ∧
      ∀ k x, l k = some (some x) → k.length ≤ settings.limits.maxKeyBytes →
        (openWorld cfg noFaults (.afterKill w.disk) opts fates).1.get k = .ok x := by
  have hdead : WorldSound cfg g noFaults used (.afterKill w.disk) :=
    ⟨hw.disk, fun _ h => by cases h⟩
  have hkill : Durable g (viewWorld cfg (.afterKill w.disk), l) :=
    hv.moves hg (Relation.ReflTransGen.single (.crash hcrash))
  obtain ⟨hok, db, d, hworld, -, hfresh, hlimits⟩ :=
    openWorld_ok (w := .afterKill w.disk) hw.disk hused rfl hopts fates
  have hreach := openWorld_reaches (l := l) (allowed_noFaults g) hdead hused opts fates
  refine ⟨hok, fun k x hk hkey => ?_⟩
  refine get_durable hreach.sound (hkill.moves hg hreach.moves) hk ?_
  rw [hworld]
  exact serves_iff.mpr ⟨db, rfl, hfresh.opened, hlimits ▸ hkey⟩

/-! ### Acknowledged puts -/

/-- The process may be killed; nothing is asked of any step. -/
def crashing : Guard := { quiet with crash := True }

theorem crashing_anchored : crashing.Anchored := ⟨id, fun h => h.elim⟩

theorem not_tearsFrames_kills : ¬ TearsFrames kills := by
  intro h
  obtain ⟨n, -, hM⟩ := h
  exact kills_not_fail hM

theorem carried_crashing (cfg : Config) :
    Carried cfg crashing kills (fun _ _ => True) (Durable crashing) where
  allowed := allowed_kills trivial
  moves := fun hm hs => hs.moves crashing_anchored hm
  ready := fun hh hv => ready_of_structural hh hv.structural
  ok := by
    intro used w l event hw _ _
    exact .of (fun db hdb => hw.writeOk not_tearsFrames_kills hdb fun _ => trivial)
      (fun _ _ _ _ _ _ => trivial) (fun _ _ _ _ _ _ => trivial) fun _ => trivial

/-- The empty directory. -/
theorem durable_blank (g : Guard) : Durable g (viewWorld cfg blank.1, blank.2) := by
  refine ⟨?_, fun k x hk => ?_⟩
  · intro r hr
    rcases hr with ⟨p, hp, -⟩ | ⟨t, ht, -⟩
    · cases hp
    · cases ht
  · cases hk

/-- A run from the empty directory in which the process dies any number of times. -/
theorem run_crashing {inputs : List Input}
    (hused : sequencesUsed cfg kills blank inputs < 2 ^ 64 - 1) :
    WorldSound cfg crashing kills (sequencesUsed cfg kills blank inputs)
        (run cfg kills blank inputs).1 ∧
      Durable crashing
        (viewWorld cfg (run cfg kills blank inputs).1, (run cfg kills blank inputs).2) := by
  have hroom : 0 + sequencesUsed cfg kills blank inputs + 1 < 2 ^ 64 := by omega
  obtain ⟨hw, hv, -⟩ := (carried_crashing cfg).run (s := blank)
    (WorldSound.empty cfg crashing kills) (durable_blank crashing)
    (along_of_forall (P := fun _ => True) (fun _ _ => trivial) blank) hroom
  rw [Nat.zero_add] at hw
  exact ⟨hw, hv⟩

/-- **No acknowledged put is lost to a crash.** Along every run in which the process dies
between any two calls, or in the middle of a WAL frame, and is started again any number of
times: no `Open` with valid options fails; a running process returns every acknowledged put;
and so does the process of an `Open` after a kill in this state. -/
theorem get_after_crashes (cfg : Config) {inputs : List Input}
    (hused : sequencesUsed cfg kills blank inputs < 2 ^ 64 - 1) :
    (∀ opts settings fates e, (run cfg kills blank inputs).1.proc = none →
      normalizeOptions opts = .ok settings →
      (openWorld cfg kills (run cfg kills blank inputs).1 opts fates).2 ≠ .err e) ∧
    ∀ k x, (run cfg kills blank inputs).2 k = some (some x) →
      ((run cfg kills blank inputs).1.serves k = true →
        (run cfg kills blank inputs).1.get k = .ok x) ∧
      ∀ opts settings, normalizeOptions opts = .ok settings →
        k.length ≤ settings.limits.maxKeyBytes →
        (openWorld cfg noFaults (.afterKill (run cfg kills blank inputs).1.disk) opts []).2 = .ok ∧
          (openWorld cfg noFaults (.afterKill (run cfg kills blank inputs).1.disk) opts []).1.get k
            = .ok x := by
  obtain ⟨hw, hv⟩ := run_crashing hused
  refine ⟨fun opts settings fates e hno hopts => ?_, fun k x hk => ⟨?_, ?_⟩⟩
  · rcases openWorld_response (allowed_kills trivial) hw.disk (by omega) hno hopts fates with
      h | h | ⟨_, ⟨c, n, -, hM, -⟩, -⟩
    · rw [h]; simp
    · rw [h]; simp
    · exact absurd hM kills_not_fail
  · exact get_durable hw hv hk
  · intro opts settings hopts hkey
    obtain ⟨hok, hget⟩ :=
      reopen_durable hw (by omega) crashing_anchored trivial hv hopts []
    exact ⟨hok, hget k x hk hkey⟩

/-- The process dies in the middle of the second put, and again in its next flush, behind the
rename of the table. -/
def interrupted : List Input :=
  [(.openDB { maxEntries := 1 }, []), (.put [0x6B] [1], []), (.put [0x6C] [2], [.kill 7]),
    (.openDB { maxEntries := 1 }, []), (.put [0x6D] [3], []), (.flushReserve, []),
    (.flushWrite, [.kill 1]), (.openDB {}, [])]

/-- The theorem at that run. -/
theorem get_after_crashes_interrupted :
    sequencesUsed sample kills blank interrupted < 2 ^ 64 - 1 ∧
      (run sample kills blank interrupted).2 [0x6B] = some (some [1]) ∧
      (run sample kills blank interrupted).1.get [0x6B] = .ok [1] := by
  have hused : sequencesUsed sample kills blank interrupted < 2 ^ 64 - 1 := by decide +kernel
  have hput : (run sample kills blank interrupted).2 [0x6B] = some (some [1]) := by
    decide +kernel
  exact ⟨hused, hput, ((get_after_crashes sample hused).2 _ _ hput).1 (by decide +kernel)⟩

/-! ### Acknowledged deletes -/

/-- A compaction of the event does not drop a tombstone that covers an older put. -/
def SparesDeletes (cfg : Config) (w : World) (event : Event) : Prop :=
  ∀ db threshold plan, w.proc = some db →
    event = .compact ∧ threshold = 1 ∨
      event = .compactInBackground ∧ threshold = db.compactionThreshold →
    compactionPlan cfg ⟨w.disk, db⟩ threshold = some plan →
      KeepsDeleted (viewSys cfg ⟨w.disk, db⟩) (plan.inputs.map (tabOf w.disk))
        (mergeOptions db plan)

/-- The process may be killed, and compactions spare deletes. -/
def sparing : Guard := { crashing with compact := KeepsDeleted }

theorem sparing_keepsDeleted : sparing.KeepsDeleted :=
  ⟨⟨id, fun h => h.elim⟩, id, fun _ _ _ h => h⟩

theorem carried_sparing (cfg : Config) :
    Carried cfg sparing kills (SparesDeletes cfg)
      (fun s => Structural sparing s.1 ∧ Deletes s) where
  allowed := allowed_kills trivial
  moves := fun hm hs => hs.2.moves sparing_keepsDeleted hm hs.1
  ready := fun hh hv => ready_of_structural hh hv.1
  ok := by
    intro used w l event hw _ hP
    exact .of (fun db hdb => hw.writeOk not_tearsFrames_kills hdb fun _ => trivial)
      (fun _ _ _ _ _ _ => trivial)
      (fun db hdb threshold hevent plan hplan => hP db threshold plan hdb hevent hplan)
      fun _ => trivial

theorem deletes_blank : Deletes (viewWorld cfg blank.1, blank.2) := by
  intro k _
  refine (gone_stopped rfl).mpr ⟨none, fun r hr => ?_, rfl⟩
  rcases hr with ⟨p, hp, -⟩ | ⟨t, ht, -⟩
  · cases hp
  · cases ht

/-- **Acknowledged deletes.** Along every run in which the process dies between any two calls
and is started again any number of times, and in which no compaction drops a tombstone that
covers an older put, a deleted key stays deleted. -/
theorem get_deleted (cfg : Config) {inputs : List Input}
    (hused : sequencesUsed cfg kills blank inputs < 2 ^ 64 - 1)
    (hspares : Along cfg kills (SparesDeletes cfg) blank inputs) {k : Key}
    (hk : (run cfg kills blank inputs).2 k = some none)
    (hserves : (run cfg kills blank inputs).1.serves k = true) :
    (run cfg kills blank inputs).1.get k = .error .notFound := by
  obtain ⟨hw, ⟨hstruct, hdel⟩, -⟩ := (carried_sparing cfg).run (s := blank)
    (WorldSound.empty cfg sparing kills) ⟨(durable_blank sparing).structural, deletes_blank⟩
    hspares (by omega)
  obtain ⟨db, hdb, hopen, hkey⟩ := serves_iff.mp hserves
  have hgone := hdel k hk
  rw [viewWorld_running hdb] at hstruct hgone
  have hh : (viewSys cfg ⟨(run cfg kills blank inputs).1.disk, db⟩).handle =
    some (handleOf (run cfg kills blank inputs).1.disk db) := rfl
  rw [get_running hdb]
  exact get_answers (hw.sys hdb) hopen hkey (consistent_live hh hstruct)
    ((gone_running hh).mp hgone).1

/-- No compaction of the event reaches the last level. -/
def shallow (cfg : Config) (w : World) (event : Event) : Bool :=
  match w.proc, event with
  | some db, .compact =>
      (compactionPlan cfg ⟨w.disk, db⟩ 1).all (·.targetLevel ≠ Compaction.highestSupportedLevel)
  | some db, .compactInBackground =>
      (compactionPlan cfg ⟨w.disk, db⟩ db.compactionThreshold).all
        (·.targetLevel ≠ Compaction.highestSupportedLevel)
  | _, _ => true

/-- Tombstones are dropped in the last level only. -/
theorem sparesDeletes_of_shallow {event : Event} (h : shallow cfg w event = true) :
    SparesDeletes cfg w event := by
  intro db threshold plan hdb hevent hplan hdrop
  have hlevel : plan.targetLevel = Compaction.highestSupportedLevel := of_decide_eq_true hdrop
  unfold shallow at h
  rcases hevent with ⟨rfl, rfl⟩ | ⟨rfl, rfl⟩
  · rw [hdb] at h
    dsimp only at h
    rw [hplan] at h
    exact absurd hlevel (of_decide_eq_true h)
  · rw [hdb] at h
    dsimp only at h
    rw [hplan] at h
    exact absurd hlevel (of_decide_eq_true h)

/-- A delete that is flushed and compacted once, between two crashes. -/
def deletedOnce : List Input :=
  [(.openDB { maxEntries := 1 }, []), (.put [0x6B] [1], []), (.kill, []),
    (.openDB { maxEntries := 2 }, []), (.delete [0x6B], []), (.flushReserve, []),
    (.flushWrite, []), (.flushPublish, []), (.flushRemoveWAL, []), (.compact, []), (.kill, []),
    (.openDB {}, [])]

/-- The theorem at that run. -/
theorem get_deleted_once :
    Along sample kills (SparesDeletes sample) blank deletedOnce ∧
      (run sample kills blank deletedOnce).2 [0x6B] = some none ∧
      (run sample kills blank deletedOnce).1.get [0x6B] = .error .notFound := by
  have hshallow : Along sample kills (fun w event => shallow sample w event = true) blank
      deletedOnce := by decide +kernel
  have hspares : Along sample kills (SparesDeletes sample) blank deletedOnce :=
    along_mono (fun _ _ => sparesDeletes_of_shallow) hshallow
  have hk : (run sample kills blank deletedOnce).2 [0x6B] = some none := by decide +kernel
  exact ⟨hspares, hk, get_deleted sample (by decide +kernel) hspares hk (by decide +kernel)⟩

/-- The same delete, compacted twice. Replay put the older segment's put and the delete into one
memtable, the flush removed only the newer segment, and the second compaction drops the
tombstone. -/
def deletedTwice : List Input :=
  [(.openDB { maxEntries := 1, tableCountThreshold := 1 }, []), (.put [0x6B] [1], []),
    (.kill, []), (.openDB { maxEntries := 2 }, []), (.delete [0x6B], []), (.flushReserve, []),
    (.flushWrite, []), (.flushPublish, []), (.flushRemoveWAL, []), (.compact, []),
    (.compact, []), (.kill, []), (.openDB {}, [])]

/-- The deleted key is back. -/
theorem get_deletedTwice :
    (run sample kills blank deletedTwice).2 [0x6B] = some none ∧
      (run sample kills blank deletedTwice).1.serves [0x6B] = true ∧
      (run sample kills blank deletedTwice).1.get [0x6B] = .ok [1] := by
  decide +kernel

/-! ### Failed rotations -/

end HyphaDB.Runs
