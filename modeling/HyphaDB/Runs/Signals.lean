import HyphaDB.Engine.Session

/-!
# HyphaDB.Runs.Signals

**No signal meets a closed channel.** `Close` closes the two channels of a session at different
moments, while clients, the flush worker and its last drain may still signal on them.

A session is **orderly** when a client can signal only while the database is open, which it
learns under the lock; the flush worker signals the compaction worker before it exits; and the
one `Close` call that shuts the database down waits for that before it closes the second
channel. Every turn keeps this order, whatever calls fail.
-/

namespace HyphaDB.Runs

open Faults

variable {cfg : Config} {M : Model Call}

/-! ### The mark -/

theorem ignoresFlush_closed (b : Bool) : IgnoresFlush fun s => s.db.closed = b where
  tables := fun _ _ _ _ h => h
  nextID := fun _ _ _ h => h
  files := fun _ _ _ _ h => h
  flusher := fun _ _ _ h => h
  queue := fun _ _ _ h => h
  segments := fun _ _ _ h => h

theorem ignoresRotation_closed (b : Bool) : IgnoresRotation fun s => s.db.closed = b where
  segments := fun _ _ _ h => h
  enqueue := fun _ _ h => h
  switch := fun _ _ h => h

/-- Only `Close` closes. -/
theorem step_closed_eq {w : World} {db db' : DB} (hdb : w.proc = some db) {event : Event}
    {fates : List Fate} (hevent : event ≠ .beginClose)
    (hdb' : (step cfg M w event fates).1.proc = some db') : db'.closed = db.closed := by
  have hjob : ∀ {p : Op Unit}, Keeps (fun s => s.db.closed = db.closed) p →
      (w.runOp M p fates).1.proc = some db' → db'.closed = db.closed := by
    intro p hp hrun
    exact runOp_leaves (Q := fun _ t => t.db.closed = db.closed) hdb
      (wp_mono (hp M ⟨w.disk, db⟩ rfl) (fun _ _ h => h) (fun _ _ h => h) fun _ _ => trivial) hrun
  rcases event.kinds with hmutates | hworks | hidle
  · have hcases : MutationCases cfg w db event := mutation_cases hdb hmutates
    cases hcases with
    | refused e _ _ _ hstep =>
        rw [hstep] at hdb'
        exact congrArg DB.closed (Option.some.inj (hdb'.symm.trans hdb))
    | admitted _ _ hstep =>
        rw [hstep] at hdb'
        have hR := ignoresRotation_closed db.closed
        refine hjob (keeps_bind (keeps_appendOf hR.append db event) fun _ => ?_) hdb'
        exact keeps_bind (keeps_updateDB fun _ _ h => h) fun _ => keeps_rotateIfFull hR
  · obtain ⟨p, hp, hstep⟩ := step_works (ignoresFlush_closed db.closed) hworks cfg
    rw [hstep] at hdb'
    exact hjob hp hdb'
  · rcases step_idle hdb hidle with ⟨closed, hclosed, -, readers, hproc⟩ | ⟨-, hended⟩
    · obtain rfl := Option.some.inj (hproc.symm.trans hdb')
      exact hclosed.resolve_left hevent
    · rw [hended] at hdb'
      cases hdb'

/-! ### Channels -/

/-- How the channels and the goroutines stand to each other. -/
structure Orderly (s : Session) (db : DB) : Prop where
  flushSignal : s.flushSignal.closed = db.closed
  ending : s.flusher.ending = true → db.closed = true
  one : ∀ (i j : Nat) (c c' : Closer), s.closers[i]? = some c → s.closers[j]? = some c' →
    0 < c.phase → 0 < c'.phase → i = j
  closed : ∀ c ∈ s.closers, 0 < c.phase → db.closed = true
  flushed : ∀ c ∈ s.closers, 1 < c.phase → s.flusher = .exited
  signal : s.compactionSignal.closed = true → ∃ c ∈ s.closers, 2 < c.phase
  compacted : ∀ c ∈ s.closers, 3 < c.phase → s.compactor = .exited
  done : s.compactionDone.closed = false

section Orderly

variable {s : Session} {db : DB}

theorem orderly_opened (d : Disk) (hopen : db.closed = false) : Orderly (.opened d db) db where
  flushSignal := hopen.symm
  ending := fun h => by cases h
  one := fun i j c c' h => by cases h
  closed := fun c h => by cases h
  flushed := fun c h => by cases h
  signal := fun h => by cases h
  compacted := fun c h => by cases h
  done := rfl

/-- The engine moves on, and the mark stays. -/
theorem Orderly.world (h : Orderly s db) {db' : DB} (hclosed : db'.closed = db.closed)
    (world : World) : Orderly { s with world } db' where
  flushSignal := h.flushSignal.trans hclosed.symm
  ending := fun hend => hclosed.trans (h.ending hend)
  one := h.one
  closed := fun c hc hphase => hclosed.trans (h.closed c hc hphase)
  flushed := h.flushed
  signal := h.signal
  compacted := h.compacted
  done := h.done

/-- The flush worker is still there and moves on. -/
theorem Orderly.setFlusher (h : Orderly s db) (hthere : s.flusher ≠ .exited) {flusher : FlushLoop}
    (hend : flusher.ending = true → db.closed = true) : Orderly { s with flusher } db where
  flushSignal := h.flushSignal
  ending := hend
  one := h.one
  closed := h.closed
  flushed := fun c hc hphase => absurd (h.flushed c hc hphase) hthere
  signal := h.signal
  compacted := h.compacted
  done := h.done

/-- The compaction worker is still there and moves on. -/
theorem Orderly.setCompactor (h : Orderly s db) (hthere : s.compactor ≠ .exited)
    (compactor : CompactionWorker) : Orderly { s with compactor } db where
  flushSignal := h.flushSignal
  ending := h.ending
  one := h.one
  closed := h.closed
  flushed := h.flushed
  signal := h.signal
  compacted := fun c hc hphase => absurd (h.compacted c hc hphase) hthere
  done := h.done

/-- A signal is sent or taken. -/
theorem Orderly.setPending (h : Orderly s db) (flush compaction done : Bool) :
    Orderly { s with
      flushSignal := { s.flushSignal with pending := flush }
      compactionSignal := { s.compactionSignal with pending := compaction }
      compactionDone := { s.compactionDone with pending := done } } db where
  flushSignal := h.flushSignal
  ending := h.ending
  one := h.one
  closed := h.closed
  flushed := h.flushed
  signal := h.signal
  compacted := h.compacted
  done := h.done

/-- The second channel is closed by the call that shuts the database down. -/
theorem Orderly.closeSignal (h : Orderly s db) (hshut : ∃ c ∈ s.closers, 2 < c.phase) :
    Orderly { s with compactionSignal := { s.compactionSignal with closed := true } } db where
  flushSignal := h.flushSignal
  ending := h.ending
  one := h.one
  closed := h.closed
  flushed := h.flushed
  signal := fun _ => hshut
  compacted := h.compacted
  done := h.done

/-- While the flush worker is there, the second channel is open. -/
theorem Orderly.signal_open (h : Orderly s db) (hthere : s.flusher ≠ .exited) :
    s.compactionSignal.closed = false := by
  cases hclosed : s.compactionSignal.closed with
  | false => rfl
  | true =>
      obtain ⟨c, hc, hphase⟩ := h.signal hclosed
      exact absurd (h.flushed c hc (by omega)) hthere

/-- A `Close` call begins. -/
theorem Orderly.addCloser (h : Orderly s db) :
    Orderly { s with closers := s.closers ++ [.started] } db := by
  have hold : ∀ {i : Nat} {c : Closer}, (s.closers ++ [.started])[i]? = some c → 0 < c.phase →
      s.closers[i]? = some c := by
    intro i c hc hphase
    rw [List.getElem?_append] at hc
    split at hc
    · exact hc
    · obtain rfl := List.mem_singleton.mp (List.mem_of_getElem? hc)
      cases hphase
  have hmem : ∀ {c : Closer}, c ∈ s.closers ++ [.started] → 0 < c.phase → c ∈ s.closers := by
    intro c hc hphase
    rcases List.mem_append.mp hc with hc | hc
    · exact hc
    · obtain rfl := List.mem_singleton.mp hc
      cases hphase
  exact {
    flushSignal := h.flushSignal
    ending := h.ending
    one := fun i j c c' hi hj hc hc' => h.one i j c c' (hold hi hc) (hold hj hc') hc hc'
    closed := fun c hc hphase => h.closed c (hmem hc hphase) hphase
    flushed := fun c hc hphase => h.flushed c (hmem hc (by omega)) hphase
    signal := fun hclosed => by
      obtain ⟨c, hc, hphase⟩ := h.signal hclosed
      exact ⟨c, List.mem_append_left _ hc, hphase⟩
    compacted := fun c hc hphase => h.compacted c (hmem hc (by omega)) hphase
    done := h.done }

/-- A `Close` call moves on. It may begin the shutdown only if no call has. -/
theorem Orderly.moveCloser (h : Orderly s db) {i : Nat} {c c' : Closer}
    (hi : s.closers[i]? = some c)
    (hfirst : c.phase = 0 → 0 < c'.phase → ∀ d ∈ s.closers, d.phase = 0)
    (hle : c.phase ≤ c'.phase) (hclosed : 0 < c'.phase → db.closed = true)
    (hflushed : 1 < c'.phase → s.flusher = .exited)
    (hcompacted : 3 < c'.phase → s.compactor = .exited) : Orderly (s.moveCloser i c') db := by
  have hmem : ∀ {d : Closer}, d ∈ (s.moveCloser i c').closers → d ∈ s.closers ∨ d = c' :=
    fun hd => List.mem_or_eq_of_mem_set hd
  have hmoved : (s.moveCloser i c').closers[i]? = some c' := by
    obtain ⟨hlt, -⟩ := List.getElem?_eq_some_iff.mp hi
    exact List.getElem?_set_self hlt
  have hother : ∀ {j : Nat} {d : Closer}, j ≠ i → (s.moveCloser i c').closers[j]? = some d →
      s.closers[j]? = some d := by
    intro j d hne hd
    rwa [Session.moveCloser, List.getElem?_set_ne hne.symm] at hd
  -- A call that takes part in the shutdown is the one that moved.
  have honly : ∀ {j : Nat} {d : Closer}, (s.moveCloser i c').closers[j]? = some d → 0 < d.phase →
      0 < c'.phase → j = i := by
    intro j d hd hdphase hphase
    by_contra hne
    have hdold := hother hne hd
    by_cases hzero : c.phase = 0
    · have := hfirst hzero hphase d (List.mem_of_getElem? hdold)
      omega
    · exact hne (h.one j i d c hdold hi hdphase (by omega))
  refine {
    flushSignal := h.flushSignal
    ending := h.ending
    one := fun j k d d' hj hk hd hd' => ?_
    closed := fun d hd hphase => ?_
    flushed := fun d hd hphase => ?_
    signal := fun hsignal => ?_
    compacted := fun d hd hphase => ?_
    done := h.done }
  · by_cases hji : j = i
    · subst hji
      obtain rfl := Option.some.inj (hmoved.symm.trans hj)
      exact (honly hk hd' hd).symm
    · by_cases hki : k = i
      · subst hki
        obtain rfl := Option.some.inj (hmoved.symm.trans hk)
        exact honly hj hd hd'
      · exact h.one j k d d' (hother hji hj) (hother hki hk) hd hd'
  · rcases hmem hd with hd | rfl
    · exact h.closed d hd hphase
    · exact hclosed hphase
  · rcases hmem hd with hd | rfl
    · exact h.flushed d hd hphase
    · exact hflushed hphase
  · obtain ⟨d, hd, hphase⟩ := h.signal hsignal
    obtain ⟨j, hj⟩ := List.mem_iff_getElem?.mp hd
    by_cases hji : j = i
    · subst hji
      obtain rfl := Option.some.inj (hi.symm.trans hj)
      exact ⟨c', List.mem_of_getElem? hmoved, by omega⟩
    · refine ⟨d, List.mem_of_getElem? (i := j) ?_, hphase⟩
      show (s.closers.set i c')[j]? = some d
      rw [List.getElem?_set_ne (Ne.symm hji)]
      exact hj
  · rcases hmem hd with hd | rfl
    · exact h.compacted d hd hphase
    · exact hcompacted hphase

/-! ### Turns keep the order -/

/-- A turn without a panic, behind which the goroutines are in order. -/
def Goes (r : Except Panic Session) : Prop :=
  ∃ s', r = .ok s' ∧ s'.panic = none ∧ ∀ db', s'.world.proc = some db' → Orderly s' db'

variable (h : Orderly s db) (hdb : s.world.proc = some db) (hpanic : s.panic = none)

include h hdb hpanic

omit h in
/-- A turn that leaves the engine alone. -/
theorem goes_same {s' : Session} (hs : Orderly s' db) (hworld : s'.world = s.world)
    (hpanic' : s'.panic = s.panic) : Goes (.ok s') := by
  refine ⟨s', rfl, hpanic'.trans hpanic, fun db' hdb' => ?_⟩
  rw [hworld, hdb] at hdb'
  exact Option.some.inj hdb' ▸ hs

theorem goes_self : Goes (.ok s) := goes_same hdb hpanic h rfl rfl

omit h hpanic in
/-- A mutation that has rotated found the database open. -/
theorem open_of_rotated {event : Event} {fates : List Fate} (hevent : event.mutates = true)
    (hrotated : Session.rotated s.world (step cfg M s.world event fates).1
      (step cfg M s.world event fates).2 = true) : db.closed = false := by
  have hcases : MutationCases cfg s.world db event := mutation_cases hdb hevent
  cases hcases with
  | refused e _ _ _ hstep =>
      rw [hstep] at hrotated
      cases hrotated
  | admitted hopen _ _ => exact hopen

theorem goes_client (call : HandleCall) (fates : List Fate) :
    Goes (s.clientTurn cfg M call fates) := by
  unfold Session.clientTurn
  by_cases hclose : call = .close
  · rw [if_pos hclose]
    exact goes_same hdb hpanic h.addCloser rfl rfl
  rw [if_neg hclose]
  split
  · exact goes_self h hdb hpanic
  have hevent : call.event ≠ .beginClose := by
    cases call <;> first | exact absurd rfl hclose | exact nofun
  have hworld : ∀ db', (step cfg M s.world call.event fates).1.proc = some db' →
      db'.closed = db.closed := fun db' hdb' => step_closed_eq hdb hevent hdb'
  dsimp only
  split
  · rename_i hsignal
    obtain ⟨hmutates, hrotated⟩ := Bool.and_eq_true_iff.mp hsignal
    have hopen : s.flushSignal.closed = false :=
      h.flushSignal.trans (open_of_rotated hdb hmutates hrotated)
    rw [Signal.trySend, if_neg (by simp [hopen])]
    refine ⟨_, rfl, hpanic, fun db' hdb' => ?_⟩
    exact (h.setPending true s.compactionSignal.pending s.compactionDone.pending).world
      (hworld db' hdb') _
  · exact ⟨_, rfl, hpanic, fun db' hdb' => h.world (hworld db' hdb') _⟩

omit h hpanic in
/-- A step of `flushUntilEmpty` moves the engine and the flush worker, and keeps to the kind of
flush it is in. -/
theorem flushTurn_eq (last : Bool) (hflusher : s.flusher = .flushing last) (fates : List Fate) :
    ∃ world flusher, s.flushTurn cfg M db last fates = { s with world, flusher } ∧
      flusher.ending = last ∧ ∀ db', world.proc = some db' → db'.closed = db.closed := by
  have hself : FlushLoop.ending s.flusher = last := by rw [hflusher]; rfl
  have hback : (FlushLoop.back last).ending = last := by cases last <;> rfl
  have hsame : ∀ db', s.world.proc = some db' → db'.closed = db.closed :=
    fun db' hdb' => congrArg DB.closed (Option.some.inj (hdb'.symm.trans hdb))
  have hstep : ∀ event, event ≠ .beginClose → ∀ db',
      (step cfg M s.world event fates).1.proc = some db' → db'.closed = db.closed :=
    fun event hevent db' hdb' => step_closed_eq hdb hevent hdb'
  have hreserve : ∃ world flusher, (if s.locked then s
      else if db.immutableMemtables = [] then { s with flusher := .back last }
      else { s with world := (HyphaDB.step cfg M s.world .flushReserve fates).1 } : Session) =
        { s with world, flusher } ∧
      flusher.ending = last ∧ ∀ db', world.proc = some db' → db'.closed = db.closed := by
    split
    · exact ⟨s.world, s.flusher, rfl, hself, hsame⟩
    · split
      · exact ⟨s.world, .back last, rfl, hback, hsame⟩
      · exact ⟨_, s.flusher, rfl, hself, hstep .flushReserve nofun⟩
  unfold Session.flushTurn
  cases db.flusher with
  | idle => exact hreserve
  | failed => exact hreserve
  | reserved imm id =>
      dsimp only
      split
      · exact ⟨_, s.flusher, rfl, hself, hstep .flushWrite nofun⟩
      · split
        · exact ⟨s.world, s.flusher, rfl, hself, hsame⟩
        · exact ⟨_, .back last, rfl, hback, hstep .flushWrite nofun⟩
  | written imm table =>
      dsimp only
      split
      · exact ⟨s.world, s.flusher, rfl, hself, hsame⟩
      · split
        · exact ⟨_, .back last, rfl, hback, hstep .flushPublish nofun⟩
        · exact ⟨_, s.flusher, rfl, hself, hstep .flushPublish nofun⟩
  | removing walID =>
      dsimp only
      split
      · exact ⟨_, .signalling last, rfl, rfl, hstep .flushRemoveWAL nofun⟩
      · exact ⟨_, .back last, rfl, hback, hstep .flushRemoveWAL nofun⟩
  | cleanup path => exact ⟨_, .back last, rfl, hback, hstep .flushCleanup nofun⟩

/-- The flush worker's signal to the compaction worker meets an open channel. -/
theorem goes_signalCompaction (hthere : s.flusher ≠ .exited) {flusher : FlushLoop}
    (hend : flusher.ending = true → db.closed = true) :
    Goes (match s.compactionSignal.trySend with
      | .error p => .error p
      | .ok compactionSignal => .ok { s with compactionSignal, flusher }) := by
  rw [Signal.trySend, if_neg (by simp [h.signal_open hthere])]
  exact goes_same hdb hpanic ((h.setPending s.flushSignal.pending true
    s.compactionDone.pending).setFlusher hthere hend) rfl rfl

theorem goes_flusher (fates : List Fate) : Goes (s.flusherTurn cfg M db fates) := by
  unfold Session.flusherTurn
  cases hflusher : s.flusher with
  | waiting =>
      have hthere : s.flusher ≠ .exited := by rw [hflusher]; exact nofun
      dsimp only
      unfold Signal.receive
      by_cases hpending : s.flushSignal.pending
      · rw [if_pos hpending]
        exact goes_same hdb hpanic ((h.setPending false s.compactionSignal.pending
          s.compactionDone.pending).setFlusher hthere nofun) rfl rfl
      · rw [if_neg hpending]
        by_cases hclosed : s.flushSignal.closed
        · rw [if_pos hclosed]
          exact goes_same hdb hpanic
            (h.setFlusher hthere fun _ => h.flushSignal.symm.trans hclosed) rfl rfl
        · rw [if_neg hclosed]
          exact goes_self h hdb hpanic
  | flushing last =>
      have hthere : s.flusher ≠ .exited := by rw [hflusher]; exact nofun
      obtain ⟨world, flusher, heq, hend, hclosed⟩ :=
        @flushTurn_eq cfg M s db hdb last hflusher fates
      refine ⟨_, rfl, by rw [heq]; exact hpanic, fun db' hdb' => ?_⟩
      rw [heq] at hdb' ⊢
      have hs : Orderly { s with flusher } db := h.setFlusher hthere fun hending => h.ending (by
        rw [hflusher]
        exact hend.symm.trans hending)
      exact hs.world (hclosed db' hdb') world
  | signalling last =>
      refine goes_signalCompaction h hdb hpanic (by rw [hflusher]; exact nofun) fun hlast => ?_
      refine h.ending ?_
      rw [hflusher]
      exact hlast
  | leaving =>
      refine goes_signalCompaction h hdb hpanic (by rw [hflusher]; exact nofun) fun _ => ?_
      refine h.ending ?_
      rw [hflusher]
      rfl
  | exited => exact goes_self h hdb hpanic

theorem goes_compactor (fates : List Fate) : Goes (s.compactorTurn cfg M db fates) := by
  unfold Session.compactorTurn
  cases hcompactor : s.compactor with
  | waiting =>
      have hthere : s.compactor ≠ .exited := by rw [hcompactor]; exact nofun
      dsimp only
      unfold Signal.receive
      by_cases hpending : s.compactionSignal.pending
      · rw [if_pos hpending]
        exact goes_same hdb hpanic ((h.setPending s.flushSignal.pending false
          s.compactionDone.pending).setCompactor hthere .woken) rfl rfl
      · rw [if_neg hpending]
        by_cases hclosed : s.compactionSignal.closed
        · rw [if_pos hclosed]
          exact goes_same hdb hpanic (h.setCompactor hthere .exited) rfl rfl
        · rw [if_neg hclosed]
          exact goes_self h hdb hpanic
  | woken =>
      exact goes_same hdb hpanic
        (h.setCompactor (by rw [hcompactor]; exact nofun) .compacting) rfl rfl
  | compacting =>
      have hthere : s.compactor ≠ .exited := by rw [hcompactor]; exact nofun
      have hclosed : ∀ db', (step cfg M s.world .compactInBackground fates).1.proc = some db' →
          db'.closed = db.closed := by
        intro db' hdb'
        refine step_closed_eq hdb ?_ hdb'
        exact nofun
      dsimp only
      split
      · split
        · exact ⟨_, rfl, hpanic, fun db' hdb' =>
            (h.setCompactor hthere .compacting).world (hclosed db' hdb') _⟩
        · exact ⟨_, rfl, hpanic, fun db' hdb' =>
            (h.setCompactor hthere .reporting).world (hclosed db' hdb') _⟩
      · exact goes_same hdb hpanic (h.setCompactor hthere .reporting) rfl rfl
  | reporting =>
      dsimp only
      rw [Signal.trySend, if_neg (by simp [h.done])]
      exact goes_same hdb hpanic ((h.setPending s.flushSignal.pending s.compactionSignal.pending
        true).setCompactor (by rw [hcompactor]; exact nofun) .waiting) rfl rfl
  | exited => exact goes_self h hdb hpanic

omit hpanic in
/-- The first `Close` call: the mark and the channel at once. -/
theorem orderly_beginClose (hopen : db.closed = false) {i : Nat}
    (hi : s.closers[i]? = some .started) {db' : DB}
    (hdb' : (step cfg M s.world .beginClose []).1.proc = some db') :
    Orderly ({ s with
      world := (step cfg M s.world .beginClose []).1
      flushSignal := { s.flushSignal with closed := true } }.moveCloser i .waitsForFlush) db' := by
  have hclosed : db'.closed = true := by
    change (s.world.updateProc _).1.proc = some db' at hdb'
    unfold World.updateProc at hdb'
    rw [hdb] at hdb'
    obtain rfl := Option.some.inj hdb'
    rfl
  have hnone : ∀ c ∈ s.closers, c.phase = 0 := by
    intro c hc
    by_contra hphase
    have := h.closed c hc (by omega)
    simp [hopen] at this
  have hzero : ∀ c ∈ s.closers, ∀ n, n < c.phase → False := fun c hc n hphase => by
    have := hnone c hc
    omega
  have hs : Orderly { s with
      world := (step cfg M s.world .beginClose []).1
      flushSignal := { s.flushSignal with closed := true } } db' :=
    { flushSignal := hclosed.symm
      ending := fun _ => hclosed
      one := h.one
      closed := fun _ _ _ => hclosed
      flushed := fun c hc hphase => (hzero c hc _ hphase).elim
      signal := h.signal
      compacted := fun c hc hphase => (hzero c hc _ hphase).elim
      done := h.done }
  exact hs.moveCloser hi (fun _ _ => hnone) (Nat.zero_le _) (fun _ => hclosed)
    (fun hphase => absurd hphase (by decide)) fun hphase => absurd hphase (by decide)

theorem goes_closer (i : Nat) : Goes (s.closerTurn cfg M db i) := by
  have no : ∀ {n : Nat} {P : Prop}, n < 0 → P := fun hlt => absurd hlt (Nat.not_lt_zero _)
  unfold Session.closerTurn
  cases hi : s.closers[i]? with
  | none => exact goes_self h hdb hpanic
  | some c =>
      have hc : c ∈ s.closers := List.mem_of_getElem? hi
      cases c with
      | started =>
          dsimp only
          split
          · exact goes_self h hdb hpanic
          · split
            · exact goes_same hdb hpanic (h.moveCloser hi (fun _ => no) le_rfl no no no) rfl rfl
            · rename_i hopen
              have hopen' : db.closed = false := by simpa using hopen
              rw [Signal.close, if_neg (by simp [h.flushSignal, hopen'])]
              exact ⟨_, rfl, hpanic, fun db' hdb' => orderly_beginClose h hdb hopen' hi hdb'⟩
      | waitsForFlush =>
          dsimp only
          split
          · rename_i hexited
            exact goes_same hdb hpanic (h.moveCloser hi nofun (by decide)
              (fun _ => h.closed _ hc (by decide)) (fun _ => hexited)
              fun hphase => absurd hphase (by decide)) rfl rfl
          · exact goes_self h hdb hpanic
      | closesSignal =>
          have hexited := h.flushed _ hc (by decide)
          -- Another call that has closed the channel would be this one.
          have hopen : s.compactionSignal.closed = false := by
            cases hclosed : s.compactionSignal.closed with
            | false => rfl
            | true =>
                obtain ⟨c', hc', hphase⟩ := h.signal hclosed
                obtain ⟨j, hj⟩ := List.mem_iff_getElem?.mp hc'
                obtain rfl := h.one i j _ _ hi hj (by decide) (by omega)
                obtain rfl := Option.some.inj (hi.symm.trans hj)
                exact absurd hphase (by decide)
          dsimp only
          rw [Signal.close, if_neg (by simp [hopen])]
          exact goes_same hdb hpanic ((h.moveCloser hi nofun (by decide)
            (fun _ => h.closed _ hc (by decide)) (fun _ => hexited)
            fun hphase => absurd hphase (by decide)).closeSignal
              ⟨.waitsForCompaction, List.mem_set (List.getElem?_eq_some_iff.mp hi).1 _, by decide⟩)
            rfl rfl
      | waitsForCompaction =>
          dsimp only
          split
          · rename_i hexited
            exact goes_same hdb hpanic (h.moveCloser hi nofun (by decide)
              (fun _ => h.closed _ hc (by decide)) (fun _ => h.flushed _ hc (by decide))
              (fun _ => hexited)) rfl rfl
          · exact goes_self h hdb hpanic
      | closesFiles =>
          exact goes_same hdb hpanic (h.moveCloser hi nofun (by decide)
            (fun _ => h.closed _ hc (by decide)) (fun _ => h.flushed _ hc (by decide))
            (fun _ => h.compacted _ hc (by decide))) rfl rfl
      | returned shutDown => exact goes_self h hdb hpanic

end Orderly

variable (cfg M) in
theorem orderly_step (turn : Turn) {s : Session} (hpanic : s.panic = none)
    (h : ∀ db, s.world.proc = some db → Orderly s db) :
    (s.step cfg M turn).panic = none ∧
      ∀ db, (s.step cfg M turn).world.proc = some db → Orderly (s.step cfg M turn) db := by
  unfold Session.step
  rw [hpanic]
  cases hdb : s.world.proc with
  | none => exact ⟨hpanic, h⟩
  | some db =>
      have hgoes : Goes (s.turn cfg M db turn) := by
        cases turn with
        | client call fates => exact goes_client (h db hdb) hdb hpanic call fates
        | flusher fates => exact goes_flusher (h db hdb) hdb hpanic fates
        | compactor fates => exact goes_compactor (h db hdb) hdb hpanic fates
        | closer i => exact goes_closer (h db hdb) hdb hpanic i
      obtain ⟨s', hok, hpanic', hs'⟩ := hgoes
      dsimp only
      rw [hok]
      exact ⟨hpanic', hs'⟩

/-- **No turn of a session panics.** -/
theorem orderly_run (turns : List Turn) {s : Session} (hpanic : s.panic = none)
    (h : ∀ db, s.world.proc = some db → Orderly s db) :
    (s.run cfg M turns).panic = none ∧
      ∀ db, (s.run cfg M turns).world.proc = some db → Orderly (s.run cfg M turns) db := by
  induction turns generalizing s with
  | nil => exact ⟨hpanic, h⟩
  | cons turn turns ih =>
      obtain ⟨hpanic', h'⟩ := orderly_step cfg M turn hpanic h
      exact ih hpanic' h'

end HyphaDB.Runs
