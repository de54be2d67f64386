import HyphaDB.Runs.FaultFree

/-!
# HyphaDB.Runs.FailedWrites

**Runs in which a write to the log fails.** The call returns the error and the process goes
on, but the log keeps what was written of it.

A torn frame stays in front of whatever is appended next, and replay stops at it or misreads
it. A whole batch whose sync failed stays too, and since the counter did not move its sequence
numbers are handed out again: replay prefers the larger number, which may be the failed one.
-/

namespace HyphaDB.Runs

open Faults Store Wal Refine

variable {cfg : Config} {g : Guard} {M : Model Call} {used : Nat} {w : World} {l : Ledger}

/-! ### Torn frames -/

/-- The write of a frame may fail behind any part of it. -/
def frameFaults : Model Call
  | .walFrame, .fail _ => true
  | _, _ => false

/-- An event that writes to the log finds the active segment at a frame boundary. -/
def appendsClean (cfg : Config) (w : World) (event : Event) : Bool :=
  event.cost w = 0 ||
    match w.proc with
    | none => true
    | some db =>
        match w.disk.wal? db.wal with
        | none => true
        | some file => (replayFrames cfg.crc (file.drop walHeaderSize)).2 = .clean

theorem appendsClean_active {event : Event} {db : DB} (hw : WorldSound cfg g M used w)
    (h : appendsClean cfg w event = true) (hdb : w.proc = some db) (hcost : 0 < costOf db event) :
    ActiveClean cfg used w.disk db := by
  intro p hp hid
  have hfile : w.disk.wal? db.wal = some p.2 := hid ▸ wal?_eq_some hw.disk.sorted hp
  unfold appendsClean at h
  rw [cost_running hdb, hdb] at h
  dsimp only at h
  rw [hfile, decide_eq_false (Nat.pos_iff_ne_zero.mp hcost), Bool.false_or] at h
  exact (hw.disk.segments p hp).clean ((hw.proc db hdb).header p hp hid) (of_decide_eq_true h)

theorem frameFaults_fail {c : Call} {n : Nat} (h : frameFaults c (.fail n) = true) :
    c = .walFrame := by
  cases c <;> simp_all [frameFaults]

theorem frameFaults_not_kill {c : Call} {n : Nat} : frameFaults c (.kill n) ≠ true := by
  cases c <;> simp [frameFaults]

theorem allowed_frameFaults (g : Guard) : Allowed g frameFaults where
  kill := fun h => absurd h frameFaults_not_kill
  header_kill := fun h => absurd h frameFaults_not_kill
  header_fail := fun h => by cases h
  walSync := fun h => by cases h
  segment := by
    intro c n h hc
    rw [frameFaults_fail h] at hc
    simp at hc
  other := fun h => Or.inl (frameFaults_fail h)

theorem carried_frameFaults (cfg : Config) :
    Carried cfg quiet frameFaults
      (fun w event => event ≠ .kill ∧ appendsClean cfg w event = true) (CrashFree quiet) where
  allowed := allowed_frameFaults quiet
  moves := fun hm hs => hs.moves quiet_crashFree hm
  ready := fun hh hv => ready_of_crashFree hh hv
  ok := by
    intro used w l event hw _ hP
    exact .of (fun db hdb hcost => ⟨appendsClean_active hw hP.2 hdb hcost, trivial⟩)
      (fun _ _ _ _ _ _ => trivial) (fun _ _ _ _ _ _ => trivial)
      fun hkill => absurd hkill hP.1

/-- **Failed appends.** Along every run in which any write of a frame may fail behind any part
of it, as long as nothing is appended behind a torn frame: when the directory is opened again,
`Open` succeeds and `Get` returns what the last acknowledged mutation of its key left. -/
theorem get_after_failed_appends (cfg : Config) {inputs : List Input}
    (hused : sequencesUsed cfg frameFaults blank inputs < 2 ^ 64 - 1)
    (hclean : Along cfg frameFaults
      (fun w event => event ≠ .kill ∧ appendsClean cfg w event = true) blank inputs)
    {opts : Options} {settings : Settings} (hopts : normalizeOptions opts = .ok settings) :
    (openWorld cfg noFaults (.afterKill (run cfg frameFaults blank inputs).1.disk) opts []).2
        = .ok ∧
      ∀ k m, (run cfg frameFaults blank inputs).2 k = some m →
        k.length ≤ settings.limits.maxKeyBytes →
        (openWorld cfg noFaults (.afterKill (run cfg frameFaults blank inputs).1.disk) opts
          []).1.get k = promised m := by
  obtain ⟨hw, hv, -⟩ := (carried_frameFaults cfg).run (s := blank)
    (WorldSound.empty cfg quiet frameFaults) (CrashFree.empty quiet) hclean (by omega)
  exact reopen_crashFree hw (by omega) hv hopts []

/-- A put that fails before its first byte, one that succeeds, and one that fails behind five
bytes and is the last. -/
def tornLast : List Input :=
  [(.openDB {}, []), (.put [0x6B] [1], [.fail 0]), (.put [0x6B] [2], []),
    (.put [0x6B] [3], [.fail 5])]

/-- The theorem at that run. -/
theorem get_after_failed_appends_last :
    (run sample frameFaults blank tornLast).2 [0x6B] = some (some [2]) ∧
      (openWorld sample noFaults (.afterKill (run sample frameFaults blank tornLast).1.disk) {}
        []).1.get [0x6B] = .ok [2] := by
  have hput : (run sample frameFaults blank tornLast).2 [0x6B] = some (some [2]) := by
    decide +kernel
  have hopts : normalizeOptions {} = .ok ⟨10000, 4, 65536, 67108864, 10000, 134217728⟩ := rfl
  refine ⟨hput, ?_⟩
  exact (get_after_failed_appends sample (by decide +kernel) (by decide +kernel) hopts).2
    _ _ hput (by decide)

/-- A put that fails behind five bytes, and one that succeeds behind it. -/
def tornFirst : List Input :=
  [(.openDB {}, []), (.put [0x6B] [1], [.fail 5]), (.put [0x6B] [2], [])]

/-- The put is acknowledged, and the directory cannot be opened. -/
theorem lost_after_failed_append :
    (run sample frameFaults blank tornFirst).2 [0x6B] = some (some [2]) ∧
      (openWorld sample noFaults (.afterKill (run sample frameFaults blank tornFirst).1.disk) {}
        []).2 ≠ .ok := by
  decide +kernel

/-! ### Batches that fail -/

/-- The write of a frame may fail before its first byte, and the sync of a batch may fail. -/
def batchFaults : Model Call
  | .walFrame, .fail n => n = 0
  | .walSync, .fail _ => true
  | _, _ => false

/-- No segment replays to a newer version of a key that the event writes. -/
def writesNewest (cfg : Config) (w : World) (event : Event) : Bool :=
  match w.proc with
  | none => true
  | some db =>
      (batchEntries db.nextSeq (mutations w event)).all fun r =>
        w.disk.wals.all fun p => (applied cfg.crc p.2).all fun x => x.key ≠ r.key || x.seq ≤ r.seq

/-- A failed batch may stay in the log, and no write is older than what the log has. -/
def rewriting : Guard :=
  { quiet with
    logOnly := True
    write := fun v recs => ∀ r ∈ recs, ∀ x ∈ logRecs v.logs, x.key = r.key → x.seq ≤ r.seq }

theorem rewriting_crashFree : rewriting.CrashFree := ⟨id, id, fun _ _ _ h => h⟩

theorem writesNewest_logs {event : Event} {db : DB} (h : writesNewest cfg w event = true)
    (hdb : w.proc = some db) :
    rewriting.write (viewSys cfg ⟨w.disk, db⟩) (batchEntries db.nextSeq (opsOf db event)) := by
  intro r hr x hx hkey
  unfold writesNewest at h
  rw [hdb] at h
  dsimp only at h
  rw [mutations_running hdb] at h
  obtain ⟨q, hq, hxq⟩ := hx
  obtain ⟨p, hp, rfl⟩ := List.mem_map.mp hq
  have hall := List.all_eq_true.mp (List.all_eq_true.mp (List.all_eq_true.mp h r hr) p hp) x hxq
  rcases Bool.or_eq_true_iff.mp hall with hne | hle
  · exact absurd hkey (of_decide_eq_true hne)
  · exact of_decide_eq_true hle

theorem batchFaults_fail {c : Call} {n : Nat} (h : batchFaults c (.fail n) = true) :
    c = .walFrame ∧ n = 0 ∨ c = .walSync := by
  cases c <;> simp_all [batchFaults]

theorem batchFaults_not_kill {c : Call} {n : Nat} : batchFaults c (.kill n) ≠ true := by
  cases c <;> simp [batchFaults]

theorem allowed_batchFaults : Allowed rewriting batchFaults where
  kill := fun h => absurd h batchFaults_not_kill
  header_kill := fun h => absurd h batchFaults_not_kill
  header_fail := fun h => by cases h
  walSync := fun _ => trivial
  segment := by
    intro c n h hc
    rcases batchFaults_fail h with ⟨rfl, -⟩ | rfl
    · simp at hc
    · simp at hc
  other := fun h => (batchFaults_fail h).imp And.left Or.inl

theorem not_tearsFrames_batchFaults : ¬ TearsFrames batchFaults := by
  intro h
  obtain ⟨n, hn, hM⟩ := h
  exact hn (of_decide_eq_true hM)

theorem carried_batchFaults (cfg : Config) :
    Carried cfg rewriting batchFaults
      (fun w event => event ≠ .kill ∧ writesNewest cfg w event = true) (CrashFree rewriting) where
  allowed := allowed_batchFaults
  moves := fun hm hs => hs.moves rewriting_crashFree hm
  ready := fun hh hv => ready_of_crashFree hh hv
  ok := by
    intro used w l event hw _ hP
    exact .of
      (fun db hdb => hw.writeOk not_tearsFrames_batchFaults hdb fun _ =>
        writesNewest_logs hP.2 hdb)
      (fun _ _ _ _ _ _ => trivial) (fun _ _ _ _ _ _ => trivial)
      fun hkill => absurd hkill hP.1

/-- **Failed commits.** Along every run in which commits may fail in the log, before a frame or
at the sync, as long as no mutation gets a smaller sequence number than a version of its key in
the log: when the directory is opened again, `Open` succeeds and `Get` returns what the last
acknowledged mutation of its key left. -/
theorem get_after_failed_commits (cfg : Config) {inputs : List Input}
    (hused : sequencesUsed cfg batchFaults blank inputs < 2 ^ 64 - 1)
    (hnewest : Along cfg batchFaults
      (fun w event => event ≠ .kill ∧ writesNewest cfg w event = true) blank inputs)
    {opts : Options} {settings : Settings} (hopts : normalizeOptions opts = .ok settings) :
    (openWorld cfg noFaults (.afterKill (run cfg batchFaults blank inputs).1.disk) opts []).2
        = .ok ∧
      ∀ k m, (run cfg batchFaults blank inputs).2 k = some m →
        k.length ≤ settings.limits.maxKeyBytes →
        (openWorld cfg noFaults (.afterKill (run cfg batchFaults blank inputs).1.disk) opts
          []).1.get k = promised m := by
  obtain ⟨hw, hv, -⟩ := (carried_batchFaults cfg).run (s := blank)
    (WorldSound.empty cfg rewriting batchFaults) (CrashFree.empty rewriting) hnewest (by omega)
  exact reopen_crashFree hw (by omega) hv hopts []

/-- A commit whose sync fails, and a put that gets the number of its only record. -/
def unsyncedShort : List Input :=
  [(.openDB {}, []), (.commit [.put [0x6B] [1]] true, [.done, .done, .done, .fail 0]),
    (.put [0x6B] [2], [])]

/-- The theorem at that run. -/
theorem get_after_failed_commits_short :
    (run sample batchFaults blank unsyncedShort).2 [0x6B] = some (some [2]) ∧
      (openWorld sample noFaults (.afterKill (run sample batchFaults blank unsyncedShort).1.disk)
        {} []).1.get [0x6B] = .ok [2] := by
  have hput : (run sample batchFaults blank unsyncedShort).2 [0x6B] = some (some [2]) := by
    decide +kernel
  have hopts : normalizeOptions {} = .ok ⟨10000, 4, 65536, 67108864, 10000, 134217728⟩ := rfl
  refine ⟨hput, ?_⟩
  exact (get_after_failed_commits sample (by decide +kernel) (by decide +kernel) hopts).2
    _ _ hput (by decide)

/-- The same with a batch of two operations: the failed one has the larger number. -/
def unsyncedLong : List Input :=
  [(.openDB {}, []),
    (.commit [.put [0x6C] [1], .put [0x6B] [1]] true, [.done, .done, .done, .done, .fail 0]),
    (.put [0x6B] [2], [])]

/-- The put is acknowledged, and what is read after `Open` is the failed batch. -/
theorem overridden_by_failed_commit :
    (run sample batchFaults blank unsyncedLong).2 [0x6B] = some (some [2]) ∧
      (openWorld sample noFaults (.afterKill (run sample batchFaults blank unsyncedLong).1.disk)
        {} []).1.get [0x6B] = .ok [1] := by
  decide +kernel

end HyphaDB.Runs
