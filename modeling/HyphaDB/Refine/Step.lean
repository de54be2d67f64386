import HyphaDB.Engine.Frames
import HyphaDB.Refine.Open
import HyphaDB.Store.Deleted

/-!
# HyphaDB.Refine.Step

**Every event is moves of the view**, and so is every run (`run_refines`). A run is
described once, for all fault models: `Allowed` says which faults the guard accounts for,
`EventOk` what the guard asks of an event, and the invariant of views supplies the little
the engine needs to know about its own memory (`Ready`).
-/

namespace HyphaDB.Refine

open Faults Store Wal

variable {cfg : Config} {g : Guard} {M : Model Call} {used : Nat} {l : Ledger}
  {start : View × Ledger} {w : World}

variable (cfg) in
/-- The view of a world. -/
def viewWorld (w : World) : View := viewOf cfg w.disk w.proc

structure WorldSound (cfg : Config) (g : Guard) (M : Model Call) (used : Nat) (w : World) :
    Prop where
  disk : DiskSound cfg g used w.disk
  proc : ∀ db, w.proc = some db → ProcSound cfg g M used w.disk db

/-- Of the guard only matters whether a rotation may fail. -/
theorem WorldSound.guard {g' : Guard} (h : ¬ g'.rotateFail → ¬ g.rotateFail)
    (hw : WorldSound cfg g M used w) : WorldSound cfg g' M used w where
  disk := { hw.disk with next := fun hg => hw.disk.next (h hg) }
  proc := fun db hdb => { hw.proc db hdb with next_eq := fun hg => (hw.proc db hdb).next_eq (h hg) }

/-- A world reached by moves. -/
structure Reaches (cfg : Config) (g : Guard) (M : Model Call) (used : Nat) (start : View × Ledger)
    (l : Ledger) (w : World) : Prop where
  sound : WorldSound cfg g M used w
  moves : Moves g start (viewWorld cfg w, l)

/-- A response that leaves its caller in doubt only after the faults of the guard. -/
def Settles (g : Guard) : Response → Prop
  | .ok => True
  | .err e => e.unsettled = true → g.logOnly ∨ g.rotateFail
  | .killed => g.crash

/-- What the guard asks of an event. -/
def EventOk (cfg : Config) (g : Guard) (used : Nat) (w : World) (event : Event) : Prop :=
  ∀ db, w.proc = some db →
    match event with
    | .put _ _ | .delete _ | .commit _ _ => WriteOk cfg g used ⟨w.disk, db⟩ event
    | .flushWrite => FlushOk g ⟨w.disk, db⟩
    | .compact => CompactOk cfg g ⟨w.disk, db⟩ 1
    | .compactInBackground => CompactOk cfg g ⟨w.disk, db⟩ db.compactionThreshold
    | .kill => g.crash
    | _ => True

theorem Runs.reaches {s : Sys} (h : Runs cfg g M used start l s) (snapshots : List Snapshot)
    (iterators : List Iterator) :
    Reaches cfg g M used start l ⟨s.disk, some s.db, snapshots, iterators⟩ :=
  ⟨⟨h.sound.disk, fun _ hdb => Option.some.inj hdb ▸ h.sound.proc⟩, h.moves⟩

theorem Stops.reaches {d : Disk} (h : Stops cfg g used start l d) :
    Reaches cfg g M used start l (.afterKill d) :=
  ⟨⟨h.sound, fun _ hdb => by cases hdb⟩, h.moves⟩

theorem WorldSound.sys (hw : WorldSound cfg g M used w) {db : DB} (hdb : w.proc = some db) :
    SysSound cfg g M used ⟨w.disk, db⟩ := ⟨hw.disk, hw.proc db hdb⟩

theorem viewWorld_running {db : DB} (hdb : w.proc = some db) :
    viewWorld cfg w = viewSys cfg ⟨w.disk, db⟩ := by
  unfold viewWorld
  rw [hdb]
  rfl

/-! ### Programs -/

/-- A program of the engine in a world. -/
theorem runOp_reaches {p : Op Unit} {ops : List BatchOperation} (hw : WorldSound cfg g M used w)
    (hno : w.proc = none → ops = []) {more : Nat} (hle : used ≤ more)
    (hp : ∀ db, w.proc = some db →
      wp M p (Refines cfg g M more (viewSys cfg ⟨w.disk, db⟩, l) ops) ⟨w.disk, db⟩)
    (fates : List Fate) :
    Reaches cfg g M more (viewWorld cfg w, l) (l.learn ops (w.runOp M p fates).2)
        (w.runOp M p fates).1 ∧
      (ops = [] ∨ Settles g (w.runOp M p fates).2) := by
  cases hdb : w.proc with
  | none =>
      rw [runOp_stopped hdb, hno hdb, learn_nil]
      refine ⟨⟨⟨hw.disk.mono hle, fun db h => ?_⟩, Relation.ReflTransGen.refl⟩, Or.inl rfl⟩
      rw [hdb] at h
      cases h
  | some db =>
      rw [viewWorld_running hdb]
      rcases runOp_cases hdb (hp db hdb) fates with ⟨t, ht, heq⟩ | ⟨_, t, ht, heq⟩ | ⟨t, ht, heq⟩
      all_goals rw [heq]
      · exact ⟨Runs.reaches ht _ _, Or.inr trivial⟩
      · exact ⟨Runs.reaches ht.2 _ _, Or.inr ht.1⟩
      · exact ⟨Stops.reaches ht.2, Or.inr ht.1⟩

/-! ### Readers and closing -/

/-- Readers come and go. -/
theorem reaches_untouched (hw : WorldSound cfg g M used w) {db : DB} (hdb : w.proc = some db)
    {closed : Bool} {w' : World} (h : Untouched w db closed w') :
    Reaches cfg g M used (viewWorld cfg w, l) l w' := by
  obtain ⟨disk, proc, snapshots, iterators⟩ := w'
  obtain ⟨rfl, readers, rfl⟩ := h
  have hp : ProcSound cfg g M used w.disk { db with activeReaders := readers, closed } :=
    { hw.proc db hdb with }
  refine Runs.reaches (s := ⟨w.disk, _⟩) ⟨⟨hw.disk, hp⟩, ?_⟩ snapshots iterators
  rw [viewWorld_running hdb]
  exact Relation.ReflTransGen.single (.readers (h := handleOf w.disk db) rfl)

/-- A drained process has nothing queued. -/
theorem reaches_endClose (hw : WorldSound cfg g M used w) {db : DB} (hdb : w.proc = some db)
    (hdrained : World.drained db = true) :
    Reaches cfg g M used (viewWorld cfg w, l) l { disk := w.disk } := by
  have hf := (hw.proc db hdb).flusher
  have hidle : db.flusher = .idle ∧ db.immutableMemtables = [] := by
    unfold World.drained at hdrained
    unfold FlusherSound at hf
    cases hflusher : db.flusher with
    | idle =>
        rw [hflusher] at hdrained
        exact ⟨rfl, of_decide_eq_true hdrained⟩
    | failed =>
        rw [hflusher] at hf
        exact hf.elim
    | reserved _ _ | written _ _ | removing _ | cleanup _ =>
        rw [hflusher] at hdrained
        cases hdrained
  have hstage : (handleOf w.disk db).stage = .idle := by
    show stageOf w.disk db.flusher = _
    rw [hidle.1]
    rfl
  refine Stops.reaches ⟨hw.disk, ?_⟩
  rw [viewWorld_running hdb]
  exact Relation.ReflTransGen.single (.close (h := handleOf w.disk db) rfl hidle.2 hstage)

/-- Events that touch no file. -/
theorem idle_reaches (hw : WorldSound cfg g M used w) {event : Event} (hidle : event.idle = true)
    (hopen : ∀ opts, event ≠ .openDB opts)
    (hkill : event = .kill → ∀ db, w.proc = some db → g.crash) (fates : List Fate) :
    Reaches cfg g M used (viewWorld cfg w, l) l (step cfg M w event fates).1 := by
  cases hdb : w.proc with
  | none =>
      obtain ⟨hno, hdisk⟩ := @step_stopped cfg M w event hopen hdb fates
      have hview : viewWorld cfg (step cfg M w event fates).1 = viewWorld cfg w := by
        unfold viewWorld
        rw [hno, hdisk, hdb]
      refine ⟨⟨hdisk ▸ hw.disk, fun db h => ?_⟩, hview ▸ Relation.ReflTransGen.refl⟩
      cases hno.symm.trans h
  | some db =>
      rcases step_idle hdb hidle with ⟨closed, -, h⟩ | ⟨rfl | hdrained, hended⟩
      · exact reaches_untouched hw hdb h
      · have hrun : Runs cfg g M used (viewWorld cfg w, l) l ⟨w.disk, db⟩ :=
          ⟨hw.sys hdb, by rw [viewWorld_running hdb]⟩
        rw [hended]
        exact Stops.reaches (hrun.stops (hkill rfl db hdb))
      · rw [hended]
        exact reaches_endClose hw hdb hdrained

/-! ### Opening -/

theorem openWorld_reaches (ha : Allowed g M) (hw : WorldSound cfg g M used w)
    (hused : used + 1 < 2 ^ 64) (opts : Options) (fates : List Fate) :
    Reaches cfg g M used (viewWorld cfg w, l) l (openWorld cfg M w opts fates).1 := by
  unfold openWorld
  cases hdb : w.proc with
  | some db => exact ⟨hw, Relation.ReflTransGen.refl⟩
  | none =>
      have hview : viewWorld cfg w = viewOf cfg w.disk none := by
        unfold viewWorld
        rw [hdb]
      have hopen := wp_openDB (l := l) ha hw.disk hused opts fates
      rw [hview]
      dsimp only
      cases hout : openDB cfg opts M w.disk fates with
      | ret db d rest =>
          rw [hout] at hopen
          exact Runs.reaches hopen.1 _ _
      | err e d rest =>
          rw [hout] at hopen
          exact Stops.reaches hopen.1
      | killed d =>
          rw [hout] at hopen
          exact Stops.reaches hopen.2

/-- With options it accepts, `Open` fails only where the creation of a segment may fail. -/
theorem openWorld_response (ha : Allowed g M) (hd : DiskSound cfg g used w.disk)
    (hused : used + 1 < 2 ^ 64) (hno : w.proc = none) {opts : Options} {settings : Settings}
    (hopts : normalizeOptions opts = .ok settings) (fates : List Fate) :
    (openWorld cfg M w opts fates).2 = .ok ∨ (openWorld cfg M w opts fates).2 = .killed ∨
      ∃ e, SegmentError M e ∧ (openWorld cfg M w opts fates).2 = .err e := by
  have hopen := wp_openDB (l := fun _ => none) ha hd hused opts fates
  unfold openWorld
  rw [hno]
  dsimp only
  cases hout : openDB cfg opts M w.disk fates with
  | ret db d rest => exact Or.inl rfl
  | err e d rest =>
      rw [hout] at hopen
      rcases hopen.2 with herr | herr
      · cases hopts.symm.trans herr
      · exact Or.inr (Or.inr ⟨e, herr, rfl⟩)
  | killed d => exact Or.inr (Or.inl rfl)

theorem allowed_noFaults (g : Guard) : Allowed g noFaults where
  kill := fun h => by cases h
  header_kill := fun h => by cases h
  header_fail := fun h => by cases h
  walSync := fun h => by cases h
  segment := fun h => by cases h
  other := fun h => by cases h

/-- Without faults, and with options it accepts, `Open` succeeds. -/
theorem openWorld_ok (hd : DiskSound cfg g used w.disk) (hused : used + 1 < 2 ^ 64)
    (hno : w.proc = none) {opts : Options} {settings : Settings}
    (hopts : normalizeOptions opts = .ok settings) (fates : List Fate) :
    (openWorld cfg noFaults w opts fates).2 = .ok ∧
      ∃ db d, (openWorld cfg noFaults w opts fates).1 = { disk := d, proc := some db } ∧
        SysSound cfg g noFaults used ⟨d, db⟩ ∧ Fresh opts (viewOf cfg w.disk none) d db ∧
        db.limits = settings.limits := by
  -- a guard that knows of no kill
  have hd' : DiskSound cfg { g with crash := False } used w.disk :=
    ⟨hd.sorted, hd.segments, hd.tables, hd.ids, hd.next⟩
  have hopen := wp_openDB (l := fun _ => none) (allowed_noFaults _) hd' hused opts fates
  unfold openWorld
  rw [hno]
  dsimp only
  cases hout : openDB cfg opts noFaults w.disk fates with
  | ret db d rest =>
      rw [hout] at hopen
      obtain ⟨⟨⟨hdisk, hproc⟩, -⟩, hfresh⟩ := hopen
      obtain ⟨s', hs', hlimits⟩ := hfresh.settings
      obtain rfl := Except.ok.inj (hopts.symm.trans hs')
      refine ⟨rfl, db, d, rfl, ⟨?_, { hproc with }⟩, hfresh, hlimits⟩
      exact ⟨hdisk.sorted, hdisk.segments, hdisk.tables, hdisk.ids, hdisk.next⟩
  | err e d rest =>
      rw [hout] at hopen
      rcases hopen.2 with herr | ⟨c, n, -, hM, -⟩
      · cases hopts.symm.trans herr
      · cases hM
  | killed d =>
      rw [hout] at hopen
      exact hopen.1.elim

/-! ### Events -/

theorem mutations_running {db : DB} (hdb : w.proc = some db) (event : Event) :
    mutations w event = opsOf db event := by
  unfold mutations opsOf
  rw [hdb]

theorem mutations_stopped (hno : w.proc = none) (event : Event) : mutations w event = [] := by
  unfold mutations
  rw [hno]

theorem cost_running {db : DB} (hdb : w.proc = some db) (event : Event) :
    event.cost w = costOf db event := by
  obtain ⟨disk, proc, snapshots, iterators⟩ := w
  obtain rfl : proc = some db := hdb
  rfl

theorem cost_stopped (hno : w.proc = none) (event : Event) : event.cost w = 0 := by
  unfold Event.cost
  rw [hno]

/-- An event that carries no operation. -/
def Silent (event : Event) : Prop :=
  ∀ db : DB, db.admits event = [] ∧ costOf db event = (db.admits event).length

theorem Silent.of_admits {event : Event} (h : ∀ db : DB, db.admits event = [])
    (hcost : ∀ db : DB, costOf db event = if db.closed then 0 else (db.admits event).length) :
    Silent event := by
  intro db
  refine ⟨h db, ?_⟩
  rw [hcost db, h db]
  exact ite_self _

theorem Silent.mutations {event : Event} (h : Silent event) : mutations w event = [] := by
  unfold HyphaDB.mutations
  split
  · rfl
  · split
    · rfl
    · exact (h _).1

theorem Silent.cost {event : Event} (h : Silent event) : event.cost w = 0 := by
  cases hdb : w.proc with
  | none => exact cost_stopped hdb event
  | some db => rw [cost_running hdb, (h db).2, (h db).1, List.length_nil]

/-- A mutation in a world. -/
theorem mutation_reaches {p : Op Unit} {event : Event} (hw : WorldSound cfg g M used w)
    (hp : ∀ db, w.proc = some db →
      wp M p (Refines cfg g M (used + costOf db event) (viewSys cfg ⟨w.disk, db⟩, l)
        (opsOf db event)) ⟨w.disk, db⟩) (fates : List Fate) :
    Reaches cfg g M (used + event.cost w) (viewWorld cfg w, l)
        (l.learn (mutations w event) (w.runOp M p fates).2) (w.runOp M p fates).1 ∧
      (mutations w event = [] ∨ Settles g (w.runOp M p fates).2) := by
  refine runOp_reaches hw (fun hno => mutations_stopped hno event) (Nat.le_add_right _ _) ?_ fates
  intro db hdb
  rw [mutations_running hdb, cost_running hdb]
  exact hp db hdb

/-- Any other program in a world. -/
theorem background_reaches {p : Op Unit} (hw : WorldSound cfg g M used w)
    (hp : ∀ db, w.proc = some db →
      wp M p (Refines cfg g M used (viewSys cfg ⟨w.disk, db⟩, l) []) ⟨w.disk, db⟩)
    (fates : List Fate) :
    Reaches cfg g M used (viewWorld cfg w, l) l (w.runOp M p fates).1 := by
  have h := (runOp_reaches hw (fun _ => rfl) (le_refl used) hp fates).1
  rwa [learn_nil] at h

/-- **One event.** -/
theorem step_reaches (ha : Allowed g M) (hw : WorldSound cfg g M used w)
    (hready : ∀ db, w.proc = some db → Ready (handleOf w.disk db)) {event : Event}
    (hok : EventOk cfg g used w event) (hroom : used + event.cost w + 1 < 2 ^ 64)
    (fates : List Fate) :
    Reaches cfg g M (used + event.cost w) (viewWorld cfg w, l)
        (l.learn (mutations w event) (step cfg M w event fates).2)
        (step cfg M w event fates).1 ∧
      (mutations w event = [] ∨ Settles g (step cfg M w event fates).2) := by
  have hroom' : ∀ db, w.proc = some db → used + costOf db event + 1 < 2 ^ 64 :=
    fun db hdb => cost_running hdb event ▸ hroom
  -- an event without operations takes no sequence number and teaches nothing
  have hsilent : (∀ db : DB, db.admits event = []) →
      (∀ db : DB, costOf db event = if db.closed then 0 else (db.admits event).length) →
      Reaches cfg g M used (viewWorld cfg w, l) l (step cfg M w event fates).1 →
      Reaches cfg g M (used + event.cost w) (viewWorld cfg w, l)
          (l.learn (mutations w event) (step cfg M w event fates).2)
          (step cfg M w event fates).1 ∧
        (mutations w event = [] ∨ Settles g (step cfg M w event fates).2) := by
    intro hadmits hcost h
    have hs : Silent event := .of_admits hadmits hcost
    rw [hs.mutations, hs.cost, learn_nil]
    exact ⟨h, Or.inl rfl⟩
  cases event with
  | put key value =>
      exact mutation_reaches hw (fun db hdb => wp_put ha (hw.sys hdb) (hok db hdb) (hroom' db hdb))
        fates
  | delete key =>
      exact mutation_reaches hw
        (fun db hdb => wp_delete ha (hw.sys hdb) (hok db hdb) (hroom' db hdb)) fates
  | commit calls sync =>
      exact mutation_reaches hw
        (fun db hdb => wp_commit ha (hw.sys hdb) (hok db hdb) (hroom' db hdb)) fates
  | openDB opts =>
      refine hsilent (fun _ => rfl) (fun _ => rfl) (openWorld_reaches ha hw (by omega) opts fates)
  | flushReserve =>
      exact hsilent (fun _ => rfl) (fun _ => rfl)
        (background_reaches hw (fun db hdb => wp_flushReserve (hw.sys hdb)) fates)
  | flushWrite =>
      exact hsilent (fun _ => rfl) (fun _ => rfl) (background_reaches hw
        (fun db hdb => wp_flushWrite ha (hw.sys hdb) (hready db hdb) (hok db hdb)) fates)
  | flushPublish =>
      exact hsilent (fun _ => rfl) (fun _ => rfl) (background_reaches hw
        (fun db hdb => wp_flushPublish ha (hw.sys hdb) (hready db hdb)) fates)
  | flushRemoveWAL =>
      exact hsilent (fun _ => rfl) (fun _ => rfl) (background_reaches hw
        (fun db hdb => wp_flushRemoveWAL ha (hw.sys hdb) (hready db hdb)) fates)
  | flushCleanup =>
      exact hsilent (fun _ => rfl) (fun _ => rfl)
        (background_reaches hw (fun db hdb => wp_flushCleanup (hw.sys hdb)) fates)
  | compact =>
      exact hsilent (fun _ => rfl) (fun _ => rfl)
        (background_reaches hw (fun db hdb => wp_compact ha (hw.sys hdb) (hok db hdb)) fates)
  | compactInBackground =>
      exact hsilent (fun _ => rfl) (fun _ => rfl) (background_reaches hw
        (fun db hdb => wp_compactInBackground ha (hw.sys hdb) (hok db hdb)) fates)
  | kill =>
      exact hsilent (fun _ => rfl) (fun _ => rfl)
        (idle_reaches hw rfl (fun _ h => by cases h) (fun _ => hok) fates)
  | beginClose | endClose | newSnapshot | closeSnapshot _ | newIterator _ | snapshotIterator _ _
  | iteratorNext _ | closeIterator _ =>
      exact hsilent (fun _ => rfl) (fun _ => rfl)
        (idle_reaches hw rfl (fun _ h => by cases h) (fun h => by cases h) fates)

/-- What is asked of an event, from what is asked of its kind. -/
theorem EventOk.of {event : Event}
    (hwrite : ∀ db, w.proc = some db → WriteOk cfg g used ⟨w.disk, db⟩ event)
    (hflush : ∀ db, w.proc = some db → event = .flushWrite → FlushOk g ⟨w.disk, db⟩)
    (hcompact : ∀ db, w.proc = some db → ∀ threshold,
      event = .compact ∧ threshold = 1 ∨
        event = .compactInBackground ∧ threshold = db.compactionThreshold →
      CompactOk cfg g ⟨w.disk, db⟩ threshold)
    (hkill : event = .kill → g.crash) : EventOk cfg g used w event := by
  intro db hdb
  cases event with
  | put key value | delete key | commit calls sync => exact hwrite db hdb
  | flushWrite => exact hflush db hdb rfl
  | compact => exact hcompact db hdb 1 (Or.inl ⟨rfl, rfl⟩)
  | compactInBackground => exact hcompact db hdb _ (Or.inr ⟨rfl, rfl⟩)
  | kill => exact hkill rfl
  | _ => trivial

/-- Where no frame is torn the active segment can be written to. -/
theorem WorldSound.writeOk (hw : WorldSound cfg g M used w) (hM : ¬ TearsFrames M) {db : DB}
    (hdb : w.proc = some db) {event : Event}
    (hg : 0 < costOf db event → g.write (viewSys cfg ⟨w.disk, db⟩)
      (batchEntries db.nextSeq (opsOf db event))) : WriteOk cfg g used ⟨w.disk, db⟩ event :=
  fun hcost => ⟨(hw.proc db hdb).clean.resolve_left hM, hg hcost⟩

/-! ### Runs -/

/-- A ledger with something to say about every key. -/
def Total (l : Ledger) : Prop := ∀ k, ∃ m, l k = some m

theorem Total.acknowledge {l : Ledger} (h : Total l) (ops : List BatchOperation) :
    Total (l.acknowledge ops) := by
  unfold Ledger.acknowledge
  induction ops generalizing l with
  | nil => exact h
  | cons op ops ih =>
      rw [List.foldl_cons]
      refine ih fun k => ?_
      by_cases hk : k = op.key
      · rw [hk, Function.update_self]
        exact ⟨_, rfl⟩
      · rw [Function.update_of_ne hk]
        exact h k

/-- Without faults that leave a caller in doubt nothing is forgotten. -/
theorem Total.learn {l : Ledger} (h : Total l) {ops : List BatchOperation} {r : Response}
    (hr : ops = [] ∨ Settles g r) (hg : ¬ g.logOnly ∧ ¬ g.rotateFail ∧ ¬ g.crash) :
    Total (l.learn ops r) := by
  rcases hr with rfl | hr
  · rwa [learn_nil]
  · cases r with
    | ok => exact h.acknowledge ops
    | err e =>
        have hsettled : ¬ e.unsettled = true := fun he => (hr he).elim hg.1 hg.2.1
        show Total (if e.unsettled = true then _ else _)
        rwa [if_neg hsettled]
    | killed => exact absurd hr hg.2.2

section Run

/-- What carries a run: an invariant of views that moves keep and that makes the process
ready, and a condition on events under which the guard has what it asks for. -/
structure Carried (cfg : Config) (g : Guard) (M : Model Call) (P : World → Event → Prop)
    (I : View × Ledger → Prop) : Prop where
  allowed : Allowed g M
  moves : ∀ {s s'}, Moves g s s' → I s → I s'
  ready : ∀ {v l h}, v.handle = some h → I (v, l) → Ready h
  ok : ∀ {used w l event}, WorldSound cfg g M used w → I (viewWorld cfg w, l) → P w event →
    EventOk cfg g used w event

variable {P : World → Event → Prop} {I : View × Ledger → Prop} (hc : Carried cfg g M P I)

include hc

/-- One event of a run. -/
theorem Carried.step {s : World × Ledger} (input : Input) (hw : WorldSound cfg g M used s.1)
    (hI : I (viewWorld cfg s.1, s.2)) (hP : P s.1 input.1)
    (hroom : used + input.1.cost s.1 + 1 < 2 ^ 64) :
    WorldSound cfg g M (used + input.1.cost s.1) (stepLedger cfg M s input).1 ∧
      I (viewWorld cfg (stepLedger cfg M s input).1, (stepLedger cfg M s input).2) ∧
      (¬ g.logOnly ∧ ¬ g.rotateFail ∧ ¬ g.crash → Total s.2 →
        Total (stepLedger cfg M s input).2) := by
  have hready : ∀ db, s.1.proc = some db → Ready (handleOf s.1.disk db) := by
    intro db hdb
    refine hc.ready ?_ hI
    rw [viewWorld_running hdb]
    rfl
  obtain ⟨hreach, hsettles⟩ := step_reaches (l := s.2) hc.allowed hw hready (hc.ok hw hI hP)
    hroom input.2
  exact ⟨hreach.sound, hc.moves hreach.moves hI, fun hg ht => ht.learn hsettles hg⟩

/-- **A run** keeps the directory and the process sound, and the invariant of its view. -/
theorem Carried.run {inputs : List Input} {s : World × Ledger} (hw : WorldSound cfg g M used s.1)
    (hI : I (viewWorld cfg s.1, s.2)) (hP : Along cfg M P s inputs)
    (hroom : used + sequencesUsed cfg M s inputs + 1 < 2 ^ 64) :
    WorldSound cfg g M (used + sequencesUsed cfg M s inputs) (run cfg M s inputs).1 ∧
      I (viewWorld cfg (run cfg M s inputs).1, (run cfg M s inputs).2) ∧
      (¬ g.logOnly ∧ ¬ g.rotateFail ∧ ¬ g.crash → Total s.2 → Total (run cfg M s inputs).2) := by
  induction inputs generalizing s used with
  | nil => exact ⟨hw, hI, fun _ ht => ht⟩
  | cons input inputs ih =>
      rw [sequencesUsed, ← Nat.add_assoc] at hroom ⊢
      obtain ⟨hw', hI', ht'⟩ := hc.step input hw hI hP.1 (by omega)
      obtain ⟨hw'', hI'', ht''⟩ := ih hw' hI' hP.2 hroom
      exact ⟨hw'', hI'', fun hg ht => ht'' hg (ht' hg ht)⟩

end Run

theorem along_mono {P P' : World → Event → Prop} (h : ∀ w event, P w event → P' w event)
    {inputs : List Input} {s : World × Ledger} (hP : Along cfg M P s inputs) :
    Along cfg M P' s inputs := by
  induction inputs generalizing s with
  | nil => trivial
  | cons input inputs ih => exact ⟨h _ _ hP.1, ih hP.2⟩

/-- A condition on events alone. -/
theorem along_of_forall {P : Event → Prop} {inputs : List Input}
    (h : ∀ input ∈ inputs, P input.1) (s : World × Ledger) :
    Along cfg M (fun _ event => P event) s inputs := by
  induction inputs generalizing s with
  | nil => trivial
  | cons input inputs ih =>
      exact ⟨h input List.mem_cons_self, ih (fun i hi => h i (List.mem_cons_of_mem _ hi)) _⟩

/-- The empty directory. -/
theorem WorldSound.empty (cfg : Config) (g : Guard) (M : Model Call) :
    WorldSound cfg g M 0 {} where
  disk := ⟨List.Pairwise.nil, by simp, fun t ht => (by cases ht), List.nodup_nil,
    fun _ => Or.inl rfl⟩
  proc := fun _ h => by cases h

end HyphaDB.Refine
