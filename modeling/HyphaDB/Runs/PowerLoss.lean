import HyphaDB.Runs.Undisturbed
import HyphaDB.Store.Mirror
import HyphaDB.Wal.Loss

/-!
# HyphaDB.Runs.PowerLoss

**Power losses.** A power loss keeps of each segment some first part, with everything that was
written to it before its last fsync; tables and the manifest were synced before they were renamed.

A synced commit syncs the segment it writes to and no other. A rotation closes the old segment
without an fsync, so what was written to it may be lost while later mutations are kept
(`lost_before_synced_commit`). It is not lost where no mutation is made as long as a segment behind
the active one holds bytes that are neither synced nor in a published table: then the contents after
a power loss are those of some first part of the acknowledged mutations, which reaches to the last
synced commit at least (`recovers_run`).

The invariant is `Survives`: whatever a power loss leaves of the directory answers as some first
part of the acknowledged mutations does. A mutation that is cut off does not count
(`Wal.applied_take_call`), and one that is kept leaves the directory whole.
-/

namespace HyphaDB.Runs

open Faults Store Wal Refine

/-! ### The model -/

/-- The directory behind a power loss that leaves `keep id` bytes of segment `id`. -/
def lose (keep : Nat → Nat) (d : Disk) : Disk :=
  { d with wals := d.wals.map fun p => (p.1, p.2.take (keep p.1)) }

/-- What mutations leave, carried out one after the other. -/
def contents (acked : List (List BatchOperation)) : Ledger :=
  acked.foldl Ledger.acknowledge blank.2

/-- A world and an observer of its calls. -/
structure Watched where
  world : World := {}
  /-- The bytes of each segment that an fsync has made durable. -/
  synced : Nat → Nat := fun _ => 0
  /-- The acknowledged mutations, first to last. -/
  acked : List (List BatchOperation) := []
  /-- How many of them the last synced commit covers. -/
  covered : Nat := 0

/-- A commit with an fsync. -/
def syncs : Event → Bool
  | .commit _ sync => sync
  | _ => false

/-- The synced bytes behind an event. The header of a new segment is synced by
`NewSegmentInDir`; a synced commit syncs the segment it writes to, also when a rotation follows. -/
def fsynced (s : Watched) (event : Event) (w : World) (r : Response) (id : Nat) : Nat :=
  match w.disk.wal? id with
  | none => s.synced id
  | some file =>
      if s.world.disk.wal? id = none then file.length
      else if syncs event = true ∧ r = .ok ∧ s.world.proc.map DB.wal = some id then file.length
      else s.synced id

variable (cfg : Config)

def watch (s : Watched) (event : Event) : Watched :=
  let (w, r) := step cfg noFaults s.world event []
  let acked :=
    if event.mutates = true ∧ r = .ok then s.acked ++ [mutations s.world event] else s.acked
  { world := w
    synced := fsynced s event w r
    acked
    covered := if syncs event = true ∧ r = .ok then acked.length else s.covered }

/-- A run from the empty directory. -/
def watchAll (events : List Event) : Watched := events.foldl (watch cfg) {}

/-- The events of a run of mutations, with the rotations they bring, and flushes. -/
def ordinary : Event → Bool
  | .openDB _ => true
  | event => event.mutates || flushes event

/-- Every segment but the active one is synced to its end, or its table is published. -/
def nothingBehind (s : Watched) : Bool :=
  match s.world.proc with
  | none => true
  | some db =>
      s.world.disk.wals.all fun p =>
        p.1 = db.wal || db.flusher = .removing p.1 || p.2.length ≤ s.synced p.1

/-- No mutation is made before that holds. -/
def patient (s : Watched) : List Event → Bool
  | [] => true
  | event :: events =>
      (!event.mutates || nothingBehind s) && patient (watch cfg s event) events

variable {cfg}

/-- What a power loss may leave. -/
def Kept (s : Watched) (keep : Nat → Nat) : Prop :=
  ∀ p ∈ s.world.disk.wals, s.synced p.1 ≤ keep p.1

instance (s : Watched) (keep : Nat → Nat) : Decidable (Kept s keep) :=
  inferInstanceAs (Decidable (∀ p ∈ s.world.disk.wals, s.synced p.1 ≤ keep p.1))

variable (cfg)

/-- What is left opens, and reads return what the first `n` acknowledged mutations left, with
everything up to the last synced commit among them. -/
def Recovers (s : Watched) (keep : Nat → Nat) (opts : Options) (settings : Settings) : Prop :=
  (openWorld cfg noFaults (.afterKill (lose keep s.world.disk)) opts []).2 = .ok ∧
    ∃ n, s.covered ≤ n ∧ n ≤ s.acked.length ∧
      ∀ k, k.length ≤ settings.limits.maxKeyBytes → ∃ m,
        contents (s.acked.take n) k = some m ∧
        (openWorld cfg noFaults (.afterKill (lose keep s.world.disk)) opts []).1.get k = promised m

/-- The versions a power loss leaves. -/
def survivors (keep : Nat → Nat) (d : Disk) : Set Record :=
  (viewOf cfg (lose keep d) none).durable

variable {cfg} {keep : Nat → Nat} {d d' : Disk} {used : Nat} {g : Guard} {s : Watched}
  {event : Event}

/-! ### What is left of a directory -/

theorem mem_survivors {r : Record} : r ∈ survivors cfg keep d ↔
    (∃ p ∈ d.wals, r ∈ applied cfg.crc (p.2.take (keep p.1))) ∨ r ∈ tabRecs (tabsOf d) := by
  refine or_congr ?_ Iff.rfl
  unfold logRecs viewOf logsOf lose
  simp only [List.map_map, List.mem_map, Function.comp_apply, Set.mem_ofPred_eq,
    exists_exists_and_eq_and]

/-- A part of a segment holds nothing the segment does not hold. -/
theorem applied_take_sub (hd : DiskSound cfg g used d) {p : Nat × Bytes} (hp : p ∈ d.wals) {n : Nat}
    (hn : walHeaderSize ≤ n) {r : Record} (hr : r ∈ applied cfg.crc (p.2.take n)) :
    r ∈ applied cfg.crc p.2 :=
  ((hd.segments p hp).take hn).2.subset hr

theorem survivors_sub (hd : DiskSound cfg g used d)
    (hheaded : ∀ p ∈ d.wals, walHeaderSize ≤ keep p.1) :
    survivors cfg keep d ⊆ (viewOf cfg d none).durable := by
  intro r hr
  rcases mem_survivors.mp hr with ⟨p, hp, hr⟩ | hr
  · exact Or.inl ⟨_, List.mem_map_of_mem hp, applied_take_sub hd hp (hheaded p hp) hr⟩
  · exact Or.inr hr

theorem lose_sound (hd : DiskSound cfg g used d)
    (hheaded : ∀ p ∈ d.wals, walHeaderSize ≤ keep p.1) : DiskSound cfg g used (lose keep d) := by
  refine hd.setWals _ ?_ ?_ ?_
  · exact List.pairwise_map.mpr hd.sorted
  · intro q hq
    obtain ⟨p, hp, rfl⟩ := List.mem_map.mp hq
    exact ((hd.segments p hp).take (hheaded p hp)).1
  · intro hg
    rcases hd.next hg with hnil | ⟨p, hp, hle⟩
    · refine Or.inl ?_
      rw [hnil, List.map_nil]
    · exact Or.inr ⟨_, List.mem_map_of_mem hp, hle⟩

/-- A call that is cut off does not count. -/
theorem survivors_appendWal {id : Nat} {call : LogCall} (hfit : ∀ r ∈ call.records, r.Fits)
    (hclean : ∀ p ∈ d.wals, p.1 = id → Clean cfg.crc used p.2)
    (hcut : ∀ p ∈ d.wals, p.1 = id → keep id < (p.2 ++ frames cfg.crc call.records).length) :
    survivors cfg keep (d.appendWal id (frames cfg.crc call.records)) = survivors cfg keep d := by
  apply Set.ext
  intro r
  rw [mem_survivors, mem_survivors, appendWal_wals]
  refine or_congr ?_ Iff.rfl
  simp only [List.mem_map, exists_exists_and_eq_and]
  refine exists_congr fun p => and_congr_right fun hp => ?_
  by_cases hid : p.1 = id
  · rw [if_pos hid, hid, applied_take_call (hclean p hp hid) hfit (hcut p hp hid)]
  · rw [if_neg hid]

/-- A new segment holds nothing. -/
theorem survivors_grown (h : Grown d d') : survivors cfg keep d' = survivors cfg keep d := by
  cases h with
  | same => rfl
  | @segment id hid =>
      have hheader : applied cfg.crc (walHeader.take (keep id)) = [] := by
        unfold applied
        rw [List.drop_eq_nil_of_le]
        · rfl
        · exact (List.length_take_le' _ _).trans walHeader_length.le
      apply Set.ext
      intro r
      rw [mem_survivors, mem_survivors]
      refine or_congr ?_ Iff.rfl
      unfold addWal
      simp only [List.mem_append, List.mem_singleton, or_and_right, exists_or, exists_eq_left,
        hheader, List.not_mem_nil, or_false]

/-! ### Synced bytes -/

section Synced

variable {w : World} {r : Response} {id : Nat} {file : Bytes}
  (hsorted : w.disk.wals.Pairwise (fun p q => p.1 < q.1)) (hp : (id, file) ∈ w.disk.wals)

include hsorted hp

theorem fsynced_new (hnew : s.world.disk.wal? id = none) :
    fsynced s event w r id = file.length := by
  unfold fsynced
  rw [wal?_eq_some hsorted hp]
  exact if_pos hnew

theorem fsynced_sync (hsync : syncs event = true) (hr : r = .ok)
    (hwal : s.world.proc.map DB.wal = some id) : fsynced s event w r id = file.length := by
  unfold fsynced
  rw [wal?_eq_some hsorted hp]
  dsimp only
  rw [if_pos (show syncs event = true ∧ r = .ok ∧ _ from ⟨hsync, hr, hwal⟩)]
  exact ite_self _

theorem fsynced_old (hold : s.world.disk.wal? id ≠ none)
    (hno : ¬ (syncs event = true ∧ r = .ok ∧ s.world.proc.map DB.wal = some id)) :
    fsynced s event w r id = s.synced id := by
  unfold fsynced
  rw [wal?_eq_some hsorted hp]
  dsimp only
  rw [if_neg hold, if_neg hno]

end Synced

/-! ### The invariant -/

/-- No fault, and no compaction. -/
def flushing : Guard := { quiet with compact := fun _ _ _ => False }

theorem flushing_mirrors : flushing.Mirrors := ⟨⟨id, id, fun h => h.elim⟩, id, fun _ _ _ => id⟩

/-- Whatever is left answers as a first part of the acknowledged mutations does. -/
def Survives (cfg : Config) (s : Watched) : Prop :=
  ∀ keep, Kept s keep → ∃ n, s.covered ≤ n ∧ n ≤ s.acked.length ∧
    ∀ k m, contents (s.acked.take n) k = some m → Answers (survivors cfg keep s.world.disk) k m

structure Upheld (cfg : Config) (used : Nat) (s : Watched) : Prop where
  sound : WorldSound cfg flushing noFaults used s.world
  crashFree : CrashFree flushing (viewWorld cfg s.world, contents s.acked)
  mirrors : Mirrors (viewWorld cfg s.world)
  stopped : s.world.proc = none → s.world.disk = {}
  headed : ∀ p ∈ s.world.disk.wals, walHeaderSize ≤ s.synced p.1
  survives : Survives cfg s

theorem Upheld.covered_le (h : Upheld cfg used s) : s.covered ≤ s.acked.length := by
  obtain ⟨n, hn, hle, -⟩ := h.survives s.synced fun _ _ => le_refl _
  exact hn.trans hle

theorem Upheld.kept_headed (h : Upheld cfg used s) (hk : Kept s keep) :
    ∀ p ∈ s.world.disk.wals, walHeaderSize ≤ keep p.1 :=
  fun p hp => (h.headed p hp).trans (hk p hp)

section Running

variable {w : World} {db : DB} {l : Ledger} (hw : WorldSound cfg flushing noFaults used w)
  (hcf : CrashFree flushing (viewWorld cfg w, l)) (hm : Mirrors (viewWorld cfg w))
  (hdb : w.proc = some db)

include hcf hm hdb

/-- The process and its directory. -/
theorem running_views : LiveSound (viewSys cfg ⟨w.disk, db⟩) (handleOf w.disk db) l ∧
    LogSound flushing (viewSys cfg ⟨w.disk, db⟩) (handleOf w.disk db) l ∧
    Mirrored (viewSys cfg ⟨w.disk, db⟩) (handleOf w.disk db) := by
  rw [viewWorld_running hdb] at hcf hm
  obtain ⟨hlive, hlog⟩ := (CrashFree.running (h := handleOf w.disk db) rfl).mp hcf
  exact ⟨hlive, hlog, (Mirrors.running rfl).mp hm⟩

theorem durable_live : (viewOf cfg w.disk none).durable =
    (viewSys cfg ⟨w.disk, db⟩).live (handleOf w.disk db) := by
  obtain ⟨-, hlog, hmirrored⟩ := running_views hcf hm hdb
  have hdurable : (viewSys cfg ⟨w.disk, db⟩).durable = _ := hmirrored.durable_eq hlog
  exact hdurable

include hw

/-- Where no record is lost, nothing is. -/
theorem answers_whole (hheaded : ∀ p ∈ w.disk.wals, walHeaderSize ≤ keep p.1)
    (hwhole : ∀ p ∈ w.disk.wals, db.flusher = .removing p.1 ∨ p.2.length ≤ keep p.1) :
    ∀ k m, l k = some m → Answers (survivors cfg keep w.disk) k m := by
  obtain ⟨hlive, -, hmirrored⟩ := running_views hcf hm hdb
  have hall : survivors cfg keep w.disk = (viewSys cfg ⟨w.disk, db⟩).live (handleOf w.disk db) := by
    rw [← durable_live hcf hm hdb]
    refine (survivors_sub hw.disk hheaded).antisymm ?_
    rintro r (⟨q, hq, hr⟩ | hr)
    · obtain ⟨p, hp, rfl⟩ := List.mem_map.mp hq
      rcases hwhole p hp with hremoving | hlen
      · refine mem_survivors.mpr (Or.inr (hmirrored.pending _ hq ?_ r hr))
        show (stageOf w.disk db.flusher).pending = _
        rw [hremoving]
        rfl
      · refine mem_survivors.mpr (Or.inl ⟨p, hp, ?_⟩)
        rwa [List.take_of_length_le hlen]
    · exact mem_survivors.mpr (Or.inr hr)
  rw [hall]
  exact hlive.answers

end Running

/-! ### One event -/

theorem mutations_of_not_mutates {w : World} (h : event.mutates = false) :
    mutations w event = [] := by
  unfold mutations
  split
  · rfl
  · split
    · rfl
    · cases event with
      | put | delete | commit => cases h
      | _ => rfl

/-- Without faults a caller learns whether its mutation took effect. -/
theorem learn_settled {l : Ledger} {ops : List BatchOperation} {r : Response}
    (hr : ops = [] ∨ Settles flushing r) :
    l.learn ops r = if r = .ok then l.acknowledge ops else l := by
  cases r with
  | ok => rfl
  | err e =>
      rw [if_neg (by simp)]
      rcases hr with rfl | hr
      · exact learn_nil l _
      · exact if_neg fun he => (hr he).elim id id
  | killed =>
      rw [if_neg (by simp)]
      rcases hr with rfl | hr
      · exact learn_nil l _
      · exact hr.elim

theorem contents_append (acked : List (List BatchOperation)) (ops : List BatchOperation) :
    contents (acked ++ [ops]) = (contents acked).acknowledge ops := by
  unfold contents
  rw [List.foldl_append]
  rfl

theorem contents_watch (hr : mutations s.world event = [] ∨
      Settles flushing (step cfg noFaults s.world event []).2) :
    contents (watch cfg s event).acked =
      (contents s.acked).learn (mutations s.world event)
        (step cfg noFaults s.world event []).2 := by
  rw [learn_settled hr]
  unfold watch
  dsimp only
  by_cases hok : (step cfg noFaults s.world event []).2 = .ok
  · rw [if_pos hok]
    cases hevent : event.mutates with
    | true =>
        rw [if_pos ⟨rfl, hok⟩]
        exact contents_append _ _
    | false =>
        rw [if_neg (fun h => by cases h.1), mutations_of_not_mutates hevent]
        rfl
  · rw [if_neg hok, if_neg fun h => hok h.2]

theorem ordinary_ok {w : World} (hw : WorldSound cfg flushing noFaults used w)
    (hevent : ordinary event = true) : EventOk cfg flushing used w event := by
  refine .of (fun db hdb => hw.writeOk not_tearsFrames_noFaults hdb fun _ => trivial)
    (fun _ _ _ _ _ _ => trivial) ?_ ?_
  · rintro db hdb threshold (⟨rfl, -⟩ | ⟨rfl, -⟩)
    · cases hevent
    · cases hevent
  · rintro rfl
    cases hevent

section Step

variable (hs : Upheld cfg used s) (hevent : ordinary event = true)
  (hroom : used + event.cost s.world + 1 < 2 ^ 64)

include hs hevent hroom

/-- The invariants of the world and its view. -/
theorem Upheld.step_sound :
    WorldSound cfg flushing noFaults (used + event.cost s.world) (watch cfg s event).world ∧
      CrashFree flushing
        (viewWorld cfg (watch cfg s event).world, contents (watch cfg s event).acked) ∧
      Mirrors (viewWorld cfg (watch cfg s event).world) := by
  have hready : ∀ db, s.world.proc = some db → Ready (handleOf s.world.disk db) := by
    intro db hdb
    refine ready_of_crashFree ?_ hs.crashFree
    rw [viewWorld_running hdb]
    rfl
  obtain ⟨hreach, hsettles⟩ := step_reaches (l := contents s.acked) (allowed_noFaults flushing)
    hs.sound hready (ordinary_ok hs.sound hevent) hroom []
  have hviews := Mirrors.moves flushing_mirrors hreach.moves hs.crashFree hs.mirrors
  rw [← contents_watch hsettles] at hviews
  exact ⟨hreach.sound, hviews⟩

omit hevent hroom in
theorem Upheld.wal?_ne_none {p : Nat × Bytes} (hp : p ∈ s.world.disk.wals) :
    s.world.disk.wal? p.1 ≠ none := by
  rw [wal?_eq_some hs.sound.disk.sorted hp]
  exact Option.some_ne_none _

variable {w : World} {r : Response} (hstep : step cfg noFaults s.world event [] = (w, r))

include hstep

omit hs hevent hroom in
theorem watch_eq : watch cfg s event =
    { world := w
      synced := fsynced s event w r
      acked := if event.mutates = true ∧ r = .ok then s.acked ++ [mutations s.world event]
        else s.acked
      covered := if syncs event = true ∧ r = .ok then
          (if event.mutates = true ∧ r = .ok then s.acked ++ [mutations s.world event]
            else s.acked).length
        else s.covered } := by
  unfold watch
  rw [hstep]

/-- An event that acknowledges nothing and writes to no segment. -/
theorem Upheld.unacked (hno : event.mutates = false ∨ r ≠ .ok)
    (hstopped : w.proc = none → w.disk = {}) (hsub : ∀ p ∈ w.disk.wals, p ∈ s.world.disk.wals)
    (hleft : ∀ keep, (∀ p ∈ w.disk.wals, s.synced p.1 ≤ keep p.1) → ∃ keep', Kept s keep' ∧
      survivors cfg keep' s.world.disk = survivors cfg keep w.disk) :
    Upheld cfg (used + event.cost s.world) (watch cfg s event) := by
  obtain ⟨hsound, hcrashFree, hmirrors⟩ := hs.step_sound hevent hroom
  have hacked : ¬ (event.mutates = true ∧ r = .ok) := by
    rintro ⟨hmutates, hok⟩
    exact hno.elim (fun h => by rw [h] at hmutates; cases hmutates) fun h => h hok
  have hsyncs : ¬ (syncs event = true ∧ r = .ok) := by
    rintro ⟨hsync, hok⟩
    refine hacked ⟨?_, hok⟩
    cases event with
    | commit => rfl
    | _ => cases hsync
  have hwatch := watch_eq hstep
  rw [if_neg hacked, if_neg hsyncs] at hwatch
  rw [hwatch] at hsound hcrashFree hmirrors ⊢
  have hsynced : ∀ p ∈ w.disk.wals, fsynced s event w r p.1 = s.synced p.1 :=
    fun p hp => fsynced_old hsound.disk.sorted hp (hs.wal?_ne_none (hsub p hp))
      fun h => hsyncs ⟨h.1, h.2.1⟩
  refine ⟨hsound, hcrashFree, hmirrors, hstopped, ?_, ?_⟩
  · exact fun p hp => (hs.headed p (hsub p hp)).trans (hsynced p hp).ge
  · intro keep hkept
    obtain ⟨keep', hkept', heq⟩ := hleft keep fun p hp => (hsynced p hp).ge.trans (hkept p hp)
    obtain ⟨n, hn, hle, hanswers⟩ := hs.survives keep' hkept'
    exact ⟨n, hn, hle, fun k m hk => heq ▸ hanswers k m hk⟩

end Step

/-! ### Flushes -/

/-- Of segment `id` everything is kept. -/
def wholly (s : Watched) (keep : Nat → Nat) (id : Nat) : Nat → Nat :=
  Function.update keep id (s.synced id + ((s.world.disk.wal? id).getD []).length)

theorem wholly_kept {id : Nat}
    (h : ∀ p ∈ s.world.disk.wals, p.1 ≠ id → s.synced p.1 ≤ keep p.1) :
    Kept s (wholly s keep id) := by
  intro p hp
  unfold wholly
  by_cases hid : p.1 = id
  · rw [hid, Function.update_self]
    exact Nat.le_add_right _ _
  · rw [Function.update_of_ne hid]
    exact h p hp hid

theorem take_wholly (hs : Upheld cfg used s) {p : Nat × Bytes} (hp : p ∈ s.world.disk.wals) :
    p.2.take (wholly s keep p.1 p.1) = p.2 := by
  unfold wholly
  rw [Function.update_self, wal?_eq_some hs.sound.disk.sorted hp]
  exact List.take_of_length_le (Nat.le_add_left _ _)

theorem take_wholly_of_ne {id : Nat} {p : Nat × Bytes} (hid : p.1 ≠ id) :
    p.2.take (wholly s keep id p.1) = p.2.take (keep p.1) := by
  unfold wholly
  rw [Function.update_of_ne hid]

theorem Flushed.sub {t : Sys} (h : Flushed t d) : ∀ p ∈ d.wals, p ∈ t.disk.wals := by
  cases h with
  | stays hwals _ => exact fun p hp => hwals ▸ hp
  | published _ hwals _ => exact fun p hp => hwals ▸ hp
  | removed _ => exact fun p hp => (List.mem_filter.mp hp).1

/-- What is left behind a step of the flush worker was left before it, of some other power loss. -/
theorem Upheld.flushed (hs : Upheld cfg used s) {db : DB} (hdb : s.world.proc = some db)
    (h : Flushed ⟨s.world.disk, db⟩ d) (hkept : ∀ p ∈ d.wals, s.synced p.1 ≤ keep p.1) :
    ∃ keep', Kept s keep' ∧ survivors cfg keep' s.world.disk = survivors cfg keep d := by
  obtain ⟨hlive, hlog, hmirrored⟩ := running_views hs.crashFree hs.mirrors hdb
  cases h with
  | stays hwals htabs =>
      refine ⟨keep, fun p hp => hkept p (hwals ▸ hp), ?_⟩
      apply Set.ext
      intro r
      rw [mem_survivors, mem_survivors, htabs, hwals]
  | @published _ imm tab hstage hwals htabs =>
      have hsound := hlive.stage
      unfold StageSound at hsound
      rw [hstage] at hsound
      obtain ⟨⟨qs, hq⟩, hrecs, -⟩ := hsound
      have himm : imm ∈ (handleOf s.world.disk db).entries :=
        List.mem_append_left _ (hq ▸ List.mem_cons_self)
      have hkept' : ∀ p ∈ s.world.disk.wals, s.synced p.1 ≤ keep p.1 :=
        fun p hp => hkept p (hwals ▸ hp)
      refine ⟨wholly s keep imm.walID, wholly_kept fun p hp _ => hkept' p hp, ?_⟩
      apply Set.ext
      intro r
      rw [mem_survivors, mem_survivors, htabs, hwals, mem_tabRecs_append]
      constructor
      · rintro (⟨p, hp, hr⟩ | hr)
        · by_cases hid : p.1 = imm.walID
          · rw [← hid, take_wholly hs hp] at hr
            refine Or.inr (Or.inr (hrecs ▸ ?_))
            exact hmirrored.entries imm himm _ (List.mem_map_of_mem hp) hid r hr
          · rw [take_wholly_of_ne hid] at hr
            exact Or.inl ⟨p, hp, hr⟩
        · exact Or.inr (Or.inl hr)
      · rintro (⟨p, hp, hr⟩ | hr | hr)
        · refine Or.inl ⟨p, hp, ?_⟩
          by_cases hid : p.1 = imm.walID
          · rw [← hid, take_wholly hs hp]
            exact applied_take_sub hs.sound.disk hp ((hs.headed p hp).trans (hkept' p hp)) hr
          · rwa [take_wholly_of_ne hid]
        · exact Or.inr hr
        · -- the table's records are all in the segment
          rw [hrecs] at hr
          obtain ⟨q, hq, hqid, hr⟩ := hlog.logged imm himm r hr
          obtain ⟨p, hp, rfl⟩ := List.mem_map.mp hq
          have hid : p.1 = imm.walID := hqid
          refine Or.inl ⟨p, hp, ?_⟩
          rw [← hid, take_wholly hs hp]
          exact hr
  | @removed id hstage =>
      have hmem : ∀ p ∈ s.world.disk.wals, p.1 ≠ id → p ∈ (s.world.disk.removeWal id).wals :=
        fun p hp hid => List.mem_filter.mpr ⟨hp, by simpa using hid⟩
      refine ⟨wholly s keep id, wholly_kept fun p hp hid => hkept p (hmem p hp hid), ?_⟩
      apply Set.ext
      intro r
      rw [mem_survivors, mem_survivors]
      constructor
      · rintro (⟨p, hp, hr⟩ | hr)
        · by_cases hid : p.1 = id
          · rw [← hid, take_wholly hs hp] at hr
            refine Or.inr (hmirrored.pending _ (List.mem_map_of_mem hp) ?_ r hr)
            rw [hstage]
            exact congrArg some hid.symm
          · rw [take_wholly_of_ne hid] at hr
            exact Or.inl ⟨p, hmem p hp hid, hr⟩
        · exact Or.inr hr
      · rintro (⟨p, hp, hr⟩ | hr)
        · obtain ⟨hp, hid⟩ := List.mem_filter.mp hp
          refine Or.inl ⟨p, hp, ?_⟩
          rwa [take_wholly_of_ne (by simpa using hid)]
        · exact Or.inr hr

/-! ### Mutations -/

theorem Grown.sub (h : Grown d d') {p : Nat × Bytes} (hp : p ∈ d.wals) : p ∈ d'.wals := by
  cases h with
  | same => exact hp
  | segment _ => exact List.mem_append_left _ hp

theorem Grown.mem (h : Grown d d') {p : Nat × Bytes} (hp : p ∈ d'.wals) :
    p ∈ d.wals ∨ p.2 = walHeader ∧ ∀ q ∈ d.wals, q.1 ≠ p.1 := by
  cases h with
  | same => exact Or.inl hp
  | segment hid =>
      refine (List.mem_append.mp hp).imp_right fun hp => ?_
      rw [List.mem_singleton.mp hp]
      exact ⟨rfl, fun q hq => (hid q hq).ne⟩

/-- One segment for each number. -/
theorem file_unique (hd : DiskSound cfg g used d) {p q : Nat × Bytes} (hp : p ∈ d.wals)
    (hq : q ∈ d.wals) (hid : p.1 = q.1) : p.2 = q.2 := by
  have hfile := wal?_eq_some hd.sorted hp
  rw [hid, wal?_eq_some hd.sorted hq] at hfile
  exact (Option.some.inj hfile).symm

section Mutation

variable {db : DB} {w : World} {bytes : Bytes} (hs : Upheld cfg used s)
  (hdb : s.world.proc = some db) (hgrown : Grown (s.world.disk.appendWal db.wal bytes) w.disk)

include hgrown

theorem image_mem {p : Nat × Bytes} (hp : p ∈ s.world.disk.wals) :
    (p.1, if p.1 = db.wal then p.2 ++ bytes else p.2) ∈ w.disk.wals := by
  refine hgrown.sub ?_
  rw [appendWal_wals]
  exact List.mem_map_of_mem hp

variable (hsorted : w.disk.wals.Pairwise (fun p q => p.1 < q.1))

include hsorted

variable (event) in
/-- A segment behind a mutation: an old one with the bytes the mutation wrote, or a new one. -/
theorem segment_cases {q : Nat × Bytes} (hq : q ∈ w.disk.wals) :
    (∃ p ∈ s.world.disk.wals, q = (p.1, if p.1 = db.wal then p.2 ++ bytes else p.2)) ∨
      q.2 = walHeader ∧ fsynced s event w .ok q.1 = q.2.length := by
  rcases hgrown.mem hq with hold | ⟨hfile, hnew⟩
  · rw [appendWal_wals] at hold
    obtain ⟨p, hp, rfl⟩ := List.mem_map.mp hold
    exact Or.inl ⟨p, hp, rfl⟩
  · refine Or.inr ⟨hfile, fsynced_new hsorted hq (wal?_eq_none fun p hp => ?_)⟩
    obtain ⟨p', hp', hid⟩ := exists_mem_appendWal hp db.wal bytes
    exact hid ▸ hnew p' hp'

include hs hdb

/-- What is synced of an old segment. -/
theorem Upheld.fsynced_image {p : Nat × Bytes} (hp : p ∈ s.world.disk.wals) :
    fsynced s event w .ok p.1 =
      if syncs event = true ∧ p.1 = db.wal then (p.2 ++ bytes).length else s.synced p.1 := by
  have himage := image_mem hgrown hp
  have hold := hs.wal?_ne_none hp
  by_cases hsync : syncs event = true ∧ p.1 = db.wal
  · rw [if_pos hsync.2] at himage
    rw [if_pos hsync]
    refine fsynced_sync hsorted himage hsync.1 rfl ?_
    rw [hdb]
    exact congrArg some hsync.2.symm
  · rw [if_neg hsync]
    refine fsynced_old hsorted himage hold fun h => hsync ⟨h.1, ?_⟩
    rw [hdb] at h
    exact (Option.some.inj h.2.2).symm

/-- Everything keeps its header. -/
theorem Upheld.headed_wrote (hclean : ActiveClean cfg used s.world.disk db) {q : Nat × Bytes}
    (hq : q ∈ w.disk.wals) : walHeaderSize ≤ fsynced s event w .ok q.1 := by
  rcases segment_cases event hgrown hsorted hq with ⟨p, hp, rfl⟩ | ⟨hfile, hlen⟩
  · rw [hs.fsynced_image hdb hgrown hsorted hp]
    split
    · rename_i hsync
      rw [List.length_append]
      exact Nat.le_add_right_of_le (hclean p hp hsync.2).header_le
    · exact hs.headed p hp
  · rw [hlen, hfile]
    exact walHeader_length.ge

end Mutation

/-- **A mutation.** Cut off, it leaves what was left before it; kept, it leaves everything. -/
theorem Upheld.wrote {db db' : DB} {w : World} (hs : Upheld cfg used s)
    (hdb : s.world.proc = some db) {call : LogCall} (hfit : ∀ r ∈ call.records, r.Fits)
    (hgrown : Grown (s.world.disk.appendWal db.wal (frames cfg.crc call.records)) w.disk)
    (hproc : w.proc = some db') (hflusher : db'.flusher = db.flusher)
    (hstep : step cfg noFaults s.world event [] = (w, .ok)) (hevent : event.mutates = true)
    (hroom : used + event.cost s.world + 1 < 2 ^ 64) (hbehind : nothingBehind s = true) :
    Upheld cfg (used + event.cost s.world) (watch cfg s event) := by
  have hordinary : ordinary event = true := by
    cases event with
    | put | delete | commit => rfl
    | _ => cases hevent
  obtain ⟨hsound, hcrashFree, hmirrors⟩ := hs.step_sound hordinary hroom
  have hclean := (hs.sound.proc db hdb).clean.resolve_left not_tearsFrames_noFaults
  obtain ⟨a, ha, hwal⟩ := (hs.sound.proc db hdb).active
  have hwatch := watch_eq hstep
  rw [if_pos ⟨hevent, rfl⟩] at hwatch
  rw [hwatch] at hsound hcrashFree hmirrors ⊢
  have hsorted : w.disk.wals.Pairwise (fun p q => p.1 < q.1) := hsound.disk.sorted
  have hsynced : ∀ p ∈ s.world.disk.wals, fsynced s event w .ok p.1 =
      if syncs event = true ∧ p.1 = db.wal then (p.2 ++ frames cfg.crc call.records).length
      else s.synced p.1 :=
    fun p hp => hs.fsynced_image hdb hgrown hsorted hp
  have hheaded : ∀ q ∈ w.disk.wals, walHeaderSize ≤ fsynced s event w .ok q.1 :=
    fun q hq => hs.headed_wrote hdb hgrown hsorted hclean hq
  refine ⟨hsound, hcrashFree, hmirrors, ?_, hheaded, ?_⟩
  · intro hno
    cases hproc.symm.trans hno
  intro keep hkept
  have hold : ∀ p ∈ s.world.disk.wals, fsynced s event w .ok p.1 ≤ keep p.1 := by
    intro p hp
    have hle := hkept _ (image_mem hgrown hp)
    exact hle
  by_cases hcut : keep db.wal < (a.2 ++ frames cfg.crc call.records).length
  · have hnosync : ¬ syncs event = true := by
      intro hsync
      have hle := hold a ha
      rw [hsynced a ha, if_pos ⟨hsync, hwal⟩, hwal] at hle
      exact absurd hcut (not_lt.mpr hle)
    have hkept' : Kept s keep := by
      intro p hp
      have hle := hold p hp
      rwa [hsynced p hp, if_neg fun h => hnosync h.1] at hle
    obtain ⟨n, hn, hle, hanswers⟩ := hs.survives keep hkept'
    have hsame : survivors cfg keep w.disk = survivors cfg keep s.world.disk := by
      rw [survivors_grown hgrown, survivors_appendWal hfit hclean]
      intro p hp hid
      rwa [file_unique hs.sound.disk hp ha (hid.trans hwal.symm)]
    refine ⟨n, ?_, ?_, fun k m hk => ?_⟩
    · rwa [if_neg fun h => hnosync h.1]
    · rw [List.length_append]
      exact Nat.le_add_right_of_le hle
    · rw [List.take_append_of_le_length hle] at hk
      rw [hsame]
      exact hanswers k m hk
  · refine ⟨(s.acked ++ [mutations s.world event]).length, ?_, le_refl _, ?_⟩
    · split
      · exact le_refl _
      · rw [List.length_append]
        exact Nat.le_add_right_of_le hs.covered_le
    · rw [List.take_length]
      refine answers_whole hsound hcrashFree hmirrors hproc
        (fun q hq => (hheaded q hq).trans (hkept q hq)) fun q hq => ?_
      rcases segment_cases event hgrown hsorted hq with ⟨p, hp, rfl⟩ | ⟨-, hlen⟩
      · by_cases hid : p.1 = db.wal
        · rw [if_pos hid, file_unique hs.sound.disk hp ha (hid.trans hwal.symm), hid]
          exact Or.inr (not_lt.mp hcut)
        · -- a segment behind the active one
          rw [if_neg hid]
          unfold nothingBehind at hbehind
          rw [hdb] at hbehind
          have hp' := List.all_eq_true.mp hbehind p hp
          simp only [Bool.or_eq_true, decide_eq_true_eq, hid, false_or] at hp'
          refine hp'.imp (fun h => hflusher.trans h) fun hlen => ?_
          have hle := hold p hp
          rw [hsynced p hp, if_neg fun h => hid h.2] at hle
          exact hlen.trans hle
      · exact Or.inr (hlen.ge.trans (hkept q hq))

/-! ### Runs -/

theorem ordinary_cases (h : ordinary event = true) :
    (∃ opts, event = .openDB opts) ∨ event.mutates = true ∨ flushes event = true := by
  unfold ordinary at h
  split at h
  · exact Or.inl ⟨_, rfl⟩
  · exact Or.inr (Bool.or_eq_true_iff.mp h)

theorem not_mutates_of_flushes (h : flushes event = true) : event.mutates = false := by
  cases event with
  | put | delete | commit => cases h
  | _ => rfl

/-- The first `Open`. -/
theorem Upheld.opened {opts : Options} {db : DB} (hs : Upheld cfg used s)
    (hno : s.world.proc = none)
    (hstep : step cfg noFaults s.world (.openDB opts) [] =
      ({ disk := { wals := [(0, walHeader)] }, proc := some db }, .ok))
    (hroom : used + (Event.openDB opts).cost s.world + 1 < 2 ^ 64) :
    Upheld cfg (used + (Event.openDB opts).cost s.world) (watch cfg s (.openDB opts)) := by
  obtain ⟨hsound, hcrashFree, hmirrors⟩ := hs.step_sound rfl hroom
  have hwatch := watch_eq hstep
  rw [if_neg (fun h => by cases h.1), if_neg (fun h => by cases h.1)] at hwatch
  rw [hwatch] at hsound hcrashFree hmirrors ⊢
  have hnew : s.world.disk.wal? 0 = none := by
    rw [hs.stopped hno]
    rfl
  have hheaded : ∀ p ∈ [(0, walHeader)],
      p.2.length = fsynced s (.openDB opts)
        { disk := { wals := [(0, walHeader)] }, proc := some db } .ok p.1 := by
    intro p hp
    rw [List.mem_singleton.mp hp]
    exact (fsynced_new hsound.disk.sorted List.mem_cons_self hnew).symm
  refine ⟨hsound, hcrashFree, hmirrors, fun h => (by cases h), ?_, ?_⟩
  · intro p hp
    refine le_trans ?_ (hheaded p hp).le
    rw [List.mem_singleton.mp hp]
    exact walHeader_length.ge
  · intro keep hkept
    refine ⟨s.acked.length, hs.covered_le, le_refl _, ?_⟩
    rw [List.take_length]
    have hwhole : ∀ p ∈ [(0, walHeader)], p.2.length ≤ keep p.1 :=
      fun p hp => (hheaded p hp).le.trans (hkept p hp)
    refine answers_whole hsound hcrashFree hmirrors rfl ?_ fun p hp => Or.inr (hwhole p hp)
    intro p hp
    refine le_trans ?_ (hwhole p hp)
    rw [List.mem_singleton.mp hp]
    exact walHeader_length.ge

/-- **One event** of a run. -/
theorem Upheld.watch (hs : Upheld cfg used s) (hevent : ordinary event = true)
    (hbehind : event.mutates = true → nothingBehind s = true)
    (hroom : used + event.cost s.world + 1 < 2 ^ 64) :
    Upheld cfg (used + event.cost s.world) (watch cfg s event) := by
  have hrefused : ∀ e, step cfg noFaults s.world event [] = (s.world, .err e) →
      Upheld cfg (used + event.cost s.world) (Runs.watch cfg s event) :=
    fun e hstep => hs.unacked hevent hroom hstep (Or.inr (by simp)) hs.stopped (fun _ hp => hp)
      fun keep hkept => ⟨keep, hkept, rfl⟩
  cases hdb : s.world.proc with
  | none =>
      have hclosed : ∀ p : Op Unit,
          step cfg noFaults s.world event [] = s.world.runOp noFaults p [] →
          Upheld cfg (used + event.cost s.world) (Runs.watch cfg s event) := by
        intro p hstep
        exact hrefused .closed (hstep.trans (runOp_stopped hdb _ _ _))
      cases event with
      | openDB opts =>
          rcases openWorld_blank cfg hdb (hs.stopped hdb) opts with ⟨db, hopen⟩ | ⟨e, hopen⟩
          · exact hs.opened hdb hopen hroom
          · refine hs.unacked hevent hroom hopen (Or.inl rfl) (fun _ => rfl) (by simp) ?_
            intro keep _
            refine ⟨keep, ?_, ?_⟩
            · unfold Kept
              rw [hs.stopped hdb]
              simp
            · rw [hs.stopped hdb]
      | put | delete | commit | flushReserve | flushWrite | flushPublish | flushRemoveWAL
      | flushCleanup => exact hclosed _ rfl
      | _ => cases hevent
  | some db =>
      rcases ordinary_cases hevent with ⟨opts, rfl⟩ | hmutates | hflushes
      · refine hrefused .databaseLocked ?_
        show openWorld cfg noFaults s.world opts [] = _
        unfold openWorld
        rw [hdb]
      · rcases step_mutates hs.sound hdb hmutates hroom [] with
          ⟨t, ⟨hflusher, call, hfit, hgrown⟩, hstep⟩ | ⟨e, hstep⟩
        · exact hs.wrote hdb hfit hgrown rfl hflusher hstep hmutates hroom (hbehind hmutates)
        · exact hrefused e hstep
      · obtain ⟨t, hflushed, hstep⟩ := step_flushes hs.sound hdb hflushes []
        exact hs.unacked hevent hroom hstep (Or.inl (not_mutates_of_flushes hflushes))
          (fun h => by cases h) hflushed.sub fun keep hkept => hs.flushed hdb hflushed hkept

/-- **A run.** -/
theorem Upheld.run {events : List Event} (hs : Upheld cfg used s)
    (hevents : ∀ event ∈ events, ordinary event = true) (hpatient : patient cfg s events = true)
    (l : Ledger)
    (hroom : used + sequencesUsed cfg noFaults (s.world, l) (events.map (·, [])) + 1 < 2 ^ 64) :
    ∃ more, more + 1 < 2 ^ 64 ∧ Upheld cfg more (events.foldl (Runs.watch cfg) s) := by
  induction events generalizing s used l with
  | nil => exact ⟨used, by omega, hs⟩
  | cons event events ih =>
      unfold patient at hpatient
      rw [Bool.and_eq_true, Bool.or_eq_true, Bool.not_eq_true'] at hpatient
      obtain ⟨hbehind, hpatient⟩ := hpatient
      rw [List.map_cons, sequencesUsed, ← Nat.add_assoc] at hroom
      dsimp only at hroom
      have hone := hs.watch (hevents event List.mem_cons_self)
        (fun h => hbehind.resolve_left (by simp [h])) (by omega)
      exact ih hone (fun e he => hevents e (List.mem_cons_of_mem _ he)) hpatient _ hroom

theorem upheld_empty (cfg : Config) : Upheld cfg 0 {} where
  sound := WorldSound.empty cfg flushing noFaults
  crashFree := CrashFree.empty flushing
  mirrors := fun r hr => by
    obtain ⟨p, hp, -⟩ := hr
    cases hp
  stopped := fun _ => rfl
  headed := fun p hp => by cases hp
  survives := by
    intro keep _
    refine ⟨0, le_refl _, le_refl _, fun k m hk => ⟨none, fun r hr => ?_, Option.some.inj hk⟩⟩
    rcases mem_survivors.mp hr with ⟨p, hp, -⟩ | ⟨t, ht, -⟩
    · cases hp
    · cases ht

/-! ### Behind a power loss -/

theorem total_contents (acked : List (List BatchOperation)) : Total (contents acked) := by
  induction acked using List.reverseRecOn with
  | nil => exact fun _ => ⟨none, rfl⟩
  | append_singleton acked ops ih =>
      rw [contents_append]
      exact ih.acknowledge ops

/-- What is left has no version twice. -/
theorem Upheld.consistent (hs : Upheld cfg used s) (hkept : Kept s keep) :
    Consistent (survivors cfg keep s.world.disk) := by
  cases hdb : s.world.proc with
  | none =>
      intro r hr
      rw [hs.stopped hdb] at hr
      rcases mem_survivors.mp hr with ⟨p, hp, -⟩ | ⟨t, ht, -⟩
      · cases hp
      · cases ht
  | some db =>
      have hlive := (running_views hs.crashFree hs.mirrors hdb).1.consistent
      rw [← durable_live hs.crashFree hs.mirrors hdb] at hlive
      exact hlive.mono (survivors_sub hs.sound.disk (hs.kept_headed hkept))

theorem Upheld.recovers (hs : Upheld cfg used s) (hused : used + 1 < 2 ^ 64) (hkept : Kept s keep)
    {opts : Options} {settings : Settings} (hopts : normalizeOptions opts = .ok settings) :
    Recovers cfg s keep opts settings := by
  obtain ⟨hok, db, d, hworld, hsys, hfresh, hlimits⟩ :=
    openWorld_ok (w := .afterKill (lose keep s.world.disk))
      (lose_sound hs.sound.disk (hs.kept_headed hkept)) hused rfl hopts []
  obtain ⟨n, hn, hle, hanswers⟩ := hs.survives keep hkept
  have hconsistent := hs.consistent hkept
  have hlive : (viewSys cfg ⟨d, db⟩).live (handleOf d db) = survivors cfg keep s.world.disk := by
    have hopen := live_open hconsistent (h := handleOf d db) hfresh.active hfresh.queue
      (logsOf cfg d) (some (handleOf d db))
    have htabs : tabsOf d = (viewOf cfg (lose keep s.world.disk) none).tabs := hfresh.tabs
    rw [← htabs] at hopen
    exact hopen
  refine ⟨hok, n, hn, hle, fun k hkey => ?_⟩
  obtain ⟨m, hm⟩ := total_contents (s.acked.take n) k
  refine ⟨m, hm, ?_⟩
  rw [hworld, get_running rfl]
  refine get_answers hsys hfresh.opened (hlimits ▸ hkey) ?_ ?_
  · rwa [hlive]
  · rw [hlive]
    exact hanswers k m hm

/-- **Nothing in front of a synced commit is lost**, as long as no mutation is made while a segment
behind the active one holds bytes that are neither synced nor in a published table. Whatever a power
loss leaves opens and holds what some first part of the acknowledged mutations left, and that part
reaches to the last synced commit. -/
theorem recovers_run (cfg : Config) {events : List Event}
    (hevents : ∀ event ∈ events, ordinary event = true)
    (hused : sequencesUsed cfg noFaults blank (events.map (·, [])) < 2 ^ 64 - 1)
    (hpatient : patient cfg {} events = true) {keep : Nat → Nat}
    (hkept : Kept (watchAll cfg events) keep) {opts : Options} {settings : Settings}
    (hopts : normalizeOptions opts = .ok settings) :
    Recovers cfg (watchAll cfg events) keep opts settings := by
  obtain ⟨used, hroom, hs⟩ := (upheld_empty cfg).run hevents hpatient blank.2 (by
    rw [Nat.zero_add]
    exact Nat.add_lt_of_lt_sub hused)
  exact hs.recovers hroom hkept hopts

/-- All but the header of one segment is lost. -/
def losing (id : Nat) : Nat → Nat := fun i => if i = id then walHeaderSize else 1000

/-- A memtable of one entry: the first one is flushed before the next mutation, the second one is
in a synced segment. -/
def waiting : List Event :=
  [.openDB { maxEntries := 1 }, .put [0x61] [1], .flushReserve, .flushWrite, .flushPublish,
    .flushRemoveWAL, .commit [.put [0x62] [2]] true, .put [0x63] [3]]

/-- The last put of that run is lost, and nothing else. -/
theorem recovers_run_waiting :
    patient sample {} waiting = true ∧ Kept (watchAll sample waiting) (losing 2) ∧
      (watchAll sample waiting).covered = 2 ∧
      Recovers sample (watchAll sample waiting) (losing 2) {}
        ⟨defaultMaxMemtableEntries, defaultCompactionThreshold,
          ⟨Record.maxKeySize, Record.maxValueSize, defaultMaxBatchOperations,
            defaultMaxBatchBytes⟩⟩ := by
  have hpatient : patient sample {} waiting = true := by decide +kernel
  have hkept : Kept (watchAll sample waiting) (losing 2) := by decide +kernel
  exact ⟨hpatient, hkept, by decide +kernel,
    recovers_run sample (by decide +kernel) (by decide +kernel) hpatient hkept rfl⟩

/-- A synced commit right behind a rotation. -/
def hasty : List Event :=
  [.openDB { maxEntries := 1 }, .put [0x61] [1], .commit [.put [0x62] [2]] true]

/-- **The commit is kept and the put in front of it is lost**: both are acknowledged and covered by
the synced commit, and the segment of the put was closed without an fsync. -/
theorem lost_before_synced_commit :
    (∀ event ∈ hasty, ordinary event = true) ∧ Kept (watchAll sample hasty) (losing 0) ∧
      (watchAll sample hasty).acked =
        [[⟨[0x61], { value := [1], deleted := false }⟩],
          [⟨[0x62], { value := [2], deleted := false }⟩]] ∧
      (watchAll sample hasty).covered = 2 ∧
      (openWorld sample noFaults (.afterKill (lose (losing 0) (watchAll sample hasty).world.disk))
        {} []).1.get [0x61] = .error .notFound ∧
      (openWorld sample noFaults (.afterKill (lose (losing 0) (watchAll sample hasty).world.disk))
        {} []).1.get [0x62] = .ok [2] ∧
      ∀ settings, normalizeOptions {} = .ok settings →
        ¬ Recovers sample (watchAll sample hasty) (losing 0) {} settings := by
  have hacked : (watchAll sample hasty).acked =
      [[⟨[0x61], { value := [1], deleted := false }⟩],
        [⟨[0x62], { value := [2], deleted := false }⟩]] := by decide +kernel
  have hcovered : (watchAll sample hasty).covered = 2 := by decide +kernel
  have hlost : (openWorld sample noFaults
      (.afterKill (lose (losing 0) (watchAll sample hasty).world.disk)) {} []).1.get [0x61] =
      .error .notFound := by decide +kernel
  refine ⟨by decide +kernel, by decide +kernel, hacked, hcovered, hlost, by decide +kernel, ?_⟩
  rintro settings hsettings ⟨-, n, hn, hle, hall⟩
  obtain rfl := Except.ok.inj hsettings
  rw [hacked] at hle hall
  rw [hcovered] at hn
  obtain rfl : n = 2 := le_antisymm hle hn
  obtain ⟨m, hm, hget⟩ := hall [0x61] (by decide)
  obtain rfl : some [1] = m := Option.some.inj hm
  rw [hlost] at hget
  cases hget

end HyphaDB.Runs
