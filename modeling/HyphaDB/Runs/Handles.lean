import HyphaDB.Runs.Tables

/-!
# HyphaDB.Runs.Handles

**A closed handle next to a new owner.** `Close` releases the lock of the directory, so a
second handle may open it while the first one, with its snapshots and iterators, is still in
the hands of a caller. Its calls act on the same files. Every entry point that could change a
file refuses to act on a closed handle, except `Compact`: it works from the manifest the closed
handle remembers.

The result says that the closed handle changes nothing in any run where each `Compact` on it
comes to nothing, and that the owner then goes through the states it goes through alone. The
last run shows what a `Compact` that finds work does to the owner.
-/

namespace HyphaDB.Runs

open Faults

/-- The owner of a directory, and a handle that was closed before. The two share the files, so
those of `stale` are the owner's. -/
structure Handles where
  owner : World
  stale : World

inductive HandleEvent
  /-- Anything that happens to the owner, its death and later `Open`s included. -/
  | owner (event : Event) (fates : List Fate)
  /-- A call on the closed handle. -/
  | stale (call : HandleCall) (fates : List Fate)
  deriving Repr, DecidableEq

variable (cfg : Config) (M : Model Call)

namespace Handles

/-- The closed handle as its next call finds it. -/
def closedHandle (h : Handles) : World := { h.stale with disk := h.owner.disk }

def step (h : Handles) : HandleEvent → Handles
  | .owner event fates => { h with owner := (HyphaDB.step cfg M h.owner event fates).1 }
  | .stale call fates =>
      let stale := (HyphaDB.step cfg M h.closedHandle call.event fates).1
      { owner := { h.owner with disk := stale.disk }, stale }

def run (h : Handles) (events : List HandleEvent) : Handles := events.foldl (step cfg M) h

/-- The end of `Close`: the files stay, and the process that was closed is still a value. -/
def afterClose (w : World) : Handles := { owner := { disk := w.disk }, stale := w }

end Handles

/-- What happens to the owner. -/
def ownerInputs (events : List HandleEvent) : List Input :=
  events.filterMap fun
    | .owner event fates => some (event, fates)
    | .stale _ _ => none

/-- The owner alone. -/
def ownerAlone (w : World) (inputs : List Input) : World :=
  inputs.foldl (fun w input => (step cfg M w input.1 input.2).1) w

/-- `Compact` ends before it creates a file: it finds no plan, or cannot read an input. -/
def compactsNothing (s : Sys) : Bool :=
  match compactionPlan cfg s 1 with
  | none => true
  | some plan =>
      let inputs := inputTables s.db.sstables plan.inputs
      inputs.length ≠ plan.inputs.length || !(readTables s.disk inputs).isOk

/-- A `Compact` on the closed handle comes to nothing. -/
def restrainedCall (h : Handles) : HandleEvent → Bool
  | .stale .compact _ =>
      match h.stale.proc with
      | none => true
      | some db => compactsNothing cfg ⟨h.owner.disk, db⟩
  | _ => true

/-- Every `Compact` on the closed handle comes to nothing. -/
def restrained (h : Handles) : List HandleEvent → Bool
  | [] => true
  | event :: events => restrainedCall cfg h event && restrained (h.step cfg M event) events

/-! ### One call -/

section Call

variable {cfg} {M} {w : World} {db : DB}

theorem compactLocked_nothing {s : Sys} (h : compactsNothing cfg s = true) (fates : List Fate) :
    compactLocked cfg 1 M s fates = .ret () s fates ∨
      ∃ e, compactLocked cfg 1 M s fates = .err e s fates := by
  rw [compactLocked]
  show (match compactionPlan cfg s 1 with | none => _ | some plan => _ : Op Unit) M s fates = _ ∨
    ∃ e, (match compactionPlan cfg s 1 with | none => _ | some plan => _ : Op Unit) M s fates = _
  unfold compactsNothing at h
  cases hplan : compactionPlan cfg s 1 with
  | none => exact .inl rfl
  | some plan =>
      rw [hplan] at h
      dsimp only at h ⊢
      by_cases hlength : (inputTables s.db.sstables plan.inputs).length ≠ plan.inputs.length
      · rw [if_pos hlength]
        exact .inr ⟨_, rfl⟩
      rw [if_neg hlength]
      cases hread : readTables s.disk (inputTables s.db.sstables plan.inputs) with
      | error e => exact .inr ⟨e, rfl⟩
      | ok sources =>
          rw [hread] at h
          simp [hlength, Except.isOk, Except.toBool] at h

/-- The files are as they were, and the handle is closed. -/
def StaysClosed (w w' : World) : Prop :=
  w'.disk = w.disk ∧ ∃ db, w'.proc = some db ∧ db.closed = true

section

variable (hdb : w.proc = some db) (hclosed : db.closed = true)
include hdb hclosed

theorem staysClosed_self : StaysClosed w w := ⟨rfl, db, hdb, hclosed⟩

theorem staysClosed_reads {event : Event} (hevent : event.reads = true) (fates : List Fate) :
    StaysClosed w (step cfg M w event fates).1 := by
  obtain ⟨hdisk, readers, hproc⟩ := @step_reads cfg w db hdb M event fates hevent
  exact ⟨hdisk, _, hproc, hclosed⟩

theorem staysClosed_mutation {event : Event} (hevent : event.mutates = true) (fates : List Fate) :
    StaysClosed w (step cfg M w event fates).1 := by
  have hcases : MutationCases cfg w db event := mutation_cases hdb hevent
  cases hcases with
  | refused e he hmut hcost hstep =>
      rw [hstep]
      exact staysClosed_self hdb hclosed
  | admitted hopen _ _ => exact absurd hclosed (by simp [hopen])

theorem staysClosed_compact (hc : compactsNothing cfg ⟨w.disk, db⟩ = true) (fates : List Fate) :
    StaysClosed w (step cfg M w .compact fates).1 := by
  show StaysClosed w (w.runOp M (compactLocked cfg 1) fates).1
  unfold World.runOp
  rw [hdb]
  dsimp only
  rcases compactLocked_nothing (M := M) hc fates with h | ⟨e, h⟩
  all_goals
    rw [h]
    exact ⟨rfl, db, rfl, hclosed⟩

/-- **A call on a closed handle leaves the files**, unless it compacts. -/
theorem staysClosed_step (call : HandleCall)
    (hc : call = .compact → compactsNothing cfg ⟨w.disk, db⟩ = true) (fates : List Fate) :
    StaysClosed w (step cfg M w call.event fates).1 := by
  cases call with
  | put key value | delete key | commit calls sync =>
      exact staysClosed_mutation hdb hclosed rfl fates
  | compact => exact staysClosed_compact hdb hclosed (hc rfl) fates
  | close =>
      show StaysClosed w (w.updateProc _).1
      unfold World.updateProc
      rw [hdb]
      exact ⟨rfl, _, rfl, rfl⟩
  | newSnapshot | closeSnapshot i | newIterator opts | snapshotIterator i opts | iteratorNext i
  | closeIterator i => exact staysClosed_reads hdb hclosed rfl fates

end

end Call

/-! ### Runs -/

section Run

variable {cfg} {M}

/-- The closed handle is closed. -/
def Handles.Closed (h : Handles) : Prop := ∃ db, h.stale.proc = some db ∧ db.closed = true

/-- A call on the closed handle leaves the owner as it is. -/
theorem Handles.step_stale {h : Handles} (hclosed : h.Closed) {call : HandleCall}
    {fates : List Fate} (hr : restrainedCall cfg h (.stale call fates) = true) :
    (h.step cfg M (.stale call fates)).owner = h.owner ∧
      (h.step cfg M (.stale call fates)).Closed := by
  obtain ⟨db, hdb, hdbClosed⟩ := hclosed
  have hcall : call = .compact → compactsNothing cfg ⟨h.owner.disk, db⟩ = true := by
    intro hcompact
    subst hcompact
    unfold restrainedCall at hr
    rw [hdb] at hr
    exact hr
  obtain ⟨hdisk, hproc⟩ :=
    staysClosed_step (M := M) (w := h.closedHandle) hdb hdbClosed call hcall fates
  refine ⟨?_, hproc⟩
  show World.mk (HyphaDB.step cfg M h.closedHandle call.event fates).1.disk _ _ _ = h.owner
  rw [hdisk]
  rfl

theorem Handles.step_closed {h : Handles} (hclosed : h.Closed) {event : HandleEvent}
    (hr : restrainedCall cfg h event = true) : (h.step cfg M event).Closed := by
  cases event with
  | owner event fates => exact hclosed
  | stale call fates => exact (Handles.step_stale hclosed hr).2

theorem restrained_append {h : Handles} {pre post : List HandleEvent} :
    restrained cfg M h (pre ++ post) =
      (restrained cfg M h pre && restrained cfg M (h.run cfg M pre) post) := by
  induction pre generalizing h with
  | nil => rfl
  | cons event pre ih =>
      show (restrainedCall cfg h event && restrained cfg M _ (pre ++ post)) = _
      rw [ih, ← Bool.and_assoc]
      rfl

/-- The handle stays closed, and the owner does what it does alone. -/
theorem Handles.run_owner {h : Handles} (hclosed : h.Closed) {events : List HandleEvent}
    (hr : restrained cfg M h events = true) :
    (h.run cfg M events).Closed ∧
      (h.run cfg M events).owner = ownerAlone cfg M h.owner (ownerInputs events) := by
  induction events generalizing h with
  | nil => exact ⟨hclosed, rfl⟩
  | cons event events ih =>
      obtain ⟨hcall, hrest⟩ := Bool.and_eq_true_iff.mp hr
      obtain ⟨hstill, howner⟩ := ih (Handles.step_closed hclosed hcall) hrest
      refine ⟨hstill, howner.trans ?_⟩
      cases event with
      | owner event fates => rfl
      | stale call fates =>
          rw [(Handles.step_stale hclosed hcall).1]
          rfl

end Run

/-- **A closed handle that compacts nothing is harmless.** Whatever calls on it stand between
the steps of the new owner, none of them changes a file, and every read of the owner returns
what it returns without them. -/
theorem closed_handle_harmless {w : World} {db : DB} (hdb : w.proc = some db)
    (hclosed : db.closed = true) (events : List HandleEvent)
    (hr : restrained cfg M (.afterClose w) events = true) :
    (∀ pre call fates post, events = pre ++ .stale call fates :: post →
      ((Handles.afterClose w).run cfg M (pre ++ [.stale call fates])).owner.disk =
        ((Handles.afterClose w).run cfg M pre).owner.disk) ∧
    ∀ key, ((Handles.afterClose w).run cfg M events).owner.get key =
      (ownerAlone cfg M { disk := w.disk } (ownerInputs events)).get key := by
  have hc : (Handles.afterClose w).Closed := ⟨db, hdb, hclosed⟩
  refine ⟨fun pre call fates post hevents => ?_, fun key => ?_⟩
  · subst hevents
    rw [restrained_append] at hr
    obtain ⟨hpre, hpost⟩ := Bool.and_eq_true_iff.mp hr
    have hcall := (Bool.and_eq_true_iff.mp hpost).1
    have hstep := (Handles.step_stale (M := M) (Handles.run_owner hc hpre).1 hcall).1
    rw [Handles.run, List.foldl_append]
    exact congrArg World.disk hstep
  · rw [(Handles.run_owner hc hr).2]
    rfl

/-- A process that wrote one table, and was closed. -/
def closedAfterFlush : World :=
  (run sample failures blank ([(.openDB { maxEntries := 1 }, []), (.put [1] [1], [])] ++ flushed ++
    [(.beginClose, [])])).1

/-- The owner rewrites the table before the closed handle is used. -/
def compactedByOwner : List HandleEvent :=
  [.owner (.openDB { maxEntries := 1 }) [], .stale (.put [1] [9]) [], .owner .compact [],
    .stale .compact [], .stale .newSnapshot [], .owner (.put [2] [2]) [], .stale .close []]

theorem closed_handle_harmless_refused :
    ((Handles.afterClose closedAfterFlush).run sample failures compactedByOwner).owner.get [1] =
      .ok [1] := by
  obtain ⟨db, hdb, hclosed⟩ : ∃ db, closedAfterFlush.proc = some db ∧ db.closed = true := by
    have h : closedAfterFlush.proc.map DB.closed = some true := by decide +kernel
    exact Option.map_eq_some_iff.mp h
  rw [(closed_handle_harmless sample failures hdb hclosed compactedByOwner
    (by decide +kernel)).2 [1]]
  decide +kernel

/-- The new owner has opened the directory. -/
def ownerOpened : Handles :=
  (Handles.afterClose closedAfterFlush).run sample failures
    [.owner (.openDB { maxEntries := 1 }) []]

/-- The closed handle compacts the table it remembers. -/
def compactedByClosed : Handles := ownerOpened.run sample failures [.stale .compact []]

/-- **`Compact` on the closed handle writes a table, replaces the manifest and removes the table
that the owner has open.** -/
theorem closed_handle_compacts :
    ownerOpened.owner.disk.tables (.compact 1) = none ∧
      (ownerOpened.owner.disk.tables (.data 0)).isSome ∧
      ownerOpened.owner.disk.manifest.map (·.sstables.map (·.path)) = some [.data 0] ∧
      compactedByClosed.owner.disk.tables (.compact 1) = ownerOpened.owner.disk.tables (.data 0) ∧
      compactedByClosed.owner.disk.tables (.data 0) = none ∧
      compactedByClosed.owner.disk.manifest.map (·.sstables.map (·.path)) = some [.compact 1] ∧
      compactedByClosed.owner.proc.map (·.sstables.map (·.path)) = some [.data 0] := by
  decide +kernel

end HyphaDB.Runs
