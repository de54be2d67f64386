import HyphaDB.Engine.Frames
import HyphaDB.Refine.Scan

/-!
# HyphaDB.Refine.Readers

**Snapshots and iterators over a run.** A process registers the sequence of every snapshot and
iterator it hands out and takes it off the list when that is closed, so the list is at all times
the sequences of what is open (`Registered`). While a process lives its counter does not fall
back, its snapshots stay what they are, and an iterator changes only by the calls on it.
-/

namespace HyphaDB.Refine

open Faults Store Wal Merge

variable {cfg : Config} {M : Model Call} {w : World}

/-! ### What is registered -/

/-- The snapshots and iterators of a world: whether each is closed, and its sequence. -/
def registrations (w : World) : List (Bool × UInt64) :=
  w.snapshots.map (fun s => (s.closed, s.sequence)) ++
    w.iterators.map fun it => (it.closed, it.maxSeq)

def openSequences (rs : List (Bool × UInt64)) : List UInt64 :=
  rs.filterMap fun r => if r.1 then none else some r.2

/-- The registered sequences are those of the open snapshots and iterators. -/
def Registered (w : World) : Prop :=
  ∀ db, w.proc = some db → db.activeReaders.Perm (openSequences (registrations w))

theorem openSequences_append (xs ys : List (Bool × UInt64)) :
    openSequences (xs ++ ys) = openSequences xs ++ openSequences ys := List.filterMap_append

/-- Closing one registration takes its sequence off. -/
theorem openSequences_close {rs : List (Bool × UInt64)} {i : Nat} {q : UInt64}
    (h : rs[i]? = some (false, q)) :
    (openSequences rs).Perm (q :: openSequences (rs.set i (true, q))) := by
  induction rs generalizing i with
  | nil => cases h
  | cons r rs ih =>
      cases i with
      | zero =>
          obtain rfl := Option.some.inj h
          exact List.Perm.refl _
      | succ i =>
          have hrest := ih (i := i) h
          rw [List.set_cons_succ]
          obtain ⟨c, p⟩ := r
          cases c with
          | true => exact hrest
          | false => exact (hrest.cons p).trans (List.Perm.swap q p _)

theorem mem_registered (h : Registered w) {db : DB} (hdb : w.proc = some db) {i : Nat}
    {s : Snapshot} (hs : w.snapshots[i]? = some s) (hopen : s.closed = false) :
    s.sequence ∈ db.activeReaders := by
  refine (h db hdb).mem_iff.mpr (List.mem_filterMap.mpr ⟨(s.closed, s.sequence), ?_, ?_⟩)
  · exact List.mem_append_left _ (List.mem_map.mpr ⟨s, List.mem_of_getElem? hs, rfl⟩)
  · rw [hopen]
    rfl

/-! ### Programs -/

/-- What becomes of the process, its snapshots and iterators in a program. -/
theorem runOp_process {p : Op Unit} {Q : DB → Prop} {db db' : DB} {fates : List Fate}
    (hdb : w.proc = some db)
    (hp : wp M p ⟨fun _ t => Q t.db, fun _ t => Q t.db, fun _ => True⟩ ⟨w.disk, db⟩)
    (hdb' : (w.runOp M p fates).1.proc = some db') :
    Q db' ∧ (w.runOp M p fates).1.snapshots = w.snapshots ∧
      (w.runOp M p fates).1.iterators = w.iterators := by
  rcases runOp_cases hdb hp fates with ⟨t, ht, heq⟩ | ⟨_, t, ht, heq⟩ | ⟨_, -, heq⟩
  all_goals rw [heq] at hdb' ⊢
  · exact ⟨Option.some.inj hdb' ▸ ht, rfl, rfl⟩
  · exact ⟨Option.some.inj hdb' ▸ ht, rfl, rfl⟩
  · cases hdb'

/-- A process with the readers and limits it had, and the counter `seq`. -/
structure At (db : DB) (seq : UInt64) (s : Sys) : Prop where
  readers : s.db.activeReaders = db.activeReaders
  limits : s.db.limits = db.limits
  seq_eq : s.db.nextSeq = seq

theorem at_rotation (db : DB) (seq : UInt64) : IgnoresRotation (At db seq) where
  segments := fun _ _ _ h => ⟨h.readers, h.limits, h.seq_eq⟩
  enqueue := fun _ _ h => ⟨h.readers, h.limits, h.seq_eq⟩
  switch := fun _ _ h => ⟨h.readers, h.limits, h.seq_eq⟩

theorem at_flush (db : DB) (seq : UInt64) : IgnoresFlush (At db seq) where
  tables := fun _ _ _ _ h => ⟨h.readers, h.limits, h.seq_eq⟩
  nextID := fun _ _ _ h => ⟨h.readers, h.limits, h.seq_eq⟩
  files := fun _ _ _ _ h => ⟨h.readers, h.limits, h.seq_eq⟩
  flusher := fun _ _ _ h => ⟨h.readers, h.limits, h.seq_eq⟩
  queue := fun _ _ _ h => ⟨h.readers, h.limits, h.seq_eq⟩
  segments := fun _ _ _ h => ⟨h.readers, h.limits, h.seq_eq⟩

/-- The process after at most one mutation that takes `n` numbers. -/
structure Advanced (db : DB) (n : Nat) (db' : DB) : Prop where
  readers : db'.activeReaders = db.activeReaders
  limits : db'.limits = db.limits
  seq : db'.nextSeq = db.nextSeq ∨ db'.nextSeq = db.nextSeq + UInt64.ofNat n

theorem At.stayed {db : DB} {s : Sys} (h : At db db.nextSeq s) (n : Nat) : Advanced db n s.db :=
  ⟨h.readers, h.limits, Or.inl h.seq_eq⟩

theorem At.moved {db : DB} {n : Nat} {s : Sys} (h : At db (db.nextSeq + UInt64.ofNat n) s) :
    Advanced db n s.db := ⟨h.readers, h.limits, Or.inr h.seq_eq⟩

def Advances (db : DB) (n : Nat) : Post Sys DBError Unit :=
  ⟨fun _ t => Advanced db n t.db, fun _ t => Advanced db n t.db, fun _ => True⟩

theorem wp_advances_mutate {s : Sys} {p : Op Unit} (recs : List Record) (n : Nat)
    (hp : Keeps (At s.db s.db.nextSeq) p) : wp M (mutate p recs n) (Advances s.db n) s := by
  refine wp_mono (wp_mutate (at_rotation s.db (s.db.nextSeq + UInt64.ofNat n)) hp
    (fun d db h => ?_) ⟨rfl, rfl, rfl⟩) (fun _ _ h => h.moved) (fun _ t h => ?_) fun _ _ => trivial
  · exact ⟨h.readers, h.limits, congrArg (· + UInt64.ofNat n) h.seq_eq⟩
  · exact h.elim (fun h => h.stayed n) At.moved

/-! ### Events -/

/-- What an event does to a snapshot of its process. -/
def onSnapshot (i : Nat) (s : Snapshot) : Event → Snapshot
  | .closeSnapshot j => if j = i then { s with closed := true } else s
  | _ => s

/-- What an event does to an iterator of its process. -/
def onIterator (i : Nat) (it : Iterator) : Event → Iterator
  | .iteratorNext j => if j = i then it.next.2 else it
  | .closeIterator j => if j = i then { it with closed := true } else it
  | _ => it

/-- What becomes of a process that an event does not end. -/
structure Proceeds (event : Event) (w : World) (db : DB) (w' : World) (db' : DB) : Prop where
  seq : db'.nextSeq = db.nextSeq ∨ db'.nextSeq = db.nextSeq + UInt64.ofNat (event.cost w)
  limits : db'.limits = db.limits
  registered : db.activeReaders.Perm (openSequences (registrations w)) →
    db'.activeReaders.Perm (openSequences (registrations w'))
  snapshots : ∀ i s, w.snapshots[i]? = some s → w'.snapshots[i]? = some (onSnapshot i s event)
  iterators : ∀ i it, w.iterators[i]? = some it → w'.iterators[i]? = some (onIterator i it event)

/-- An event that is not a call on a snapshot or an iterator. -/
def Apart (event : Event) : Prop :=
  (∀ i s, onSnapshot i s event = s) ∧ ∀ i it, onIterator i it event = it

theorem apart_of_works {event : Event} (h : event.works = true) : Apart event := by
  cases event with
  | closeSnapshot _ | iteratorNext _ | closeIterator _ => cases h
  | _ => exact ⟨fun _ _ => rfl, fun _ _ => rfl⟩

/-- An event that leaves snapshots and iterators alone. -/
theorem Proceeds.same {event : Event} {w' : World} {db db' : DB}
    (hapart : Apart event) (hsnapshots : w'.snapshots = w.snapshots)
    (hiterators : w'.iterators = w.iterators)
    (hadv : Advanced db (event.cost w) db') :
    Proceeds event w db w' db' where
  seq := hadv.seq
  limits := hadv.limits
  registered := by
    have hreaders : db'.activeReaders = db.activeReaders := hadv.readers
    unfold registrations
    rw [hreaders, hsnapshots, hiterators]
    exact id
  snapshots := fun i s h => by rw [hsnapshots, hapart.1]; exact h
  iterators := fun i it h => by rw [hiterators, hapart.2]; exact h

theorem Proceeds.refl {event : Event} {db : DB} (hapart : Apart event) :
    Proceeds event w db w db := .same hapart rfl rfl ⟨rfl, rfl, Or.inl rfl⟩

section Process

variable {event : Event} {db db' : DB} {fates : List Fate} (hdb : w.proc = some db)

include hdb

theorem proceeds_runOp {p : Op Unit} (hapart : Apart event)
    (hp : wp M p (Advances db (event.cost w)) ⟨w.disk, db⟩)
    (hdb' : (w.runOp M p fates).1.proc = some db') :
    Proceeds event w db (w.runOp M p fates).1 db' := by
  obtain ⟨hadv, hsnapshots, hiterators⟩ := runOp_process
    (Q := Advanced db (event.cost w)) hdb hp hdb'
  exact .same hapart hsnapshots hiterators hadv

/-- A step of a background job. -/
theorem proceeds_keeps {p : Op Unit} (hapart : Apart event)
    (hp : Keeps (At db db.nextSeq) p)
    (hdb' : (w.runOp M p fates).1.proc = some db') :
    Proceeds event w db (w.runOp M p fates).1 db' :=
  proceeds_runOp hdb hapart
    (wp_mono (hp M _ ⟨rfl, rfl, rfl⟩) (fun _ _ h => h.stayed _) (fun _ _ h => h.stayed _)
      fun _ _ => trivial)
    hdb'

theorem proceeds_mutation (hevent : event.mutates = true) (hapart : Apart event)
    (hdb' : (step cfg M w event fates).1.proc = some db') :
    Proceeds event w db (step cfg M w event fates).1 db' := by
  have hcases : MutationCases cfg w db event := mutation_cases hdb hevent
  cases hcases with
  | refused e _ _ _ hstep =>
      rw [hstep] at hdb' ⊢
      obtain rfl := Option.some.inj (hdb.symm.trans hdb')
      exact .refl hapart
  | admitted _ _ hstep =>
      rw [hstep] at hdb' ⊢
      refine proceeds_runOp hdb hapart ?_ hdb'
      exact wp_advances_mutate _ _ (keeps_appendOf (at_rotation _ _).append _ _)

/-- An event without a file-system call. -/
theorem proceeds_updateProc {f : DB → Except DBError World}
    (hrefl : ∀ e, f db = .error e → Proceeds event w db w db)
    (hf : ∀ w', f db = .ok w' → w'.proc = some db' → Proceeds event w db w' db')
    (hdb' : (w.updateProc f).1.proc = some db') :
    Proceeds event w db (w.updateProc f).1 db' := by
  unfold World.updateProc at hdb' ⊢
  rw [hdb] at hdb' ⊢
  dsimp only at hdb' ⊢
  cases hok : f db with
  | error e =>
      rw [hok] at hdb'
      obtain rfl := Option.some.inj (hdb.symm.trans hdb')
      exact hrefl e hok
  | ok w' =>
      rw [hok] at hdb'
      exact hf w' hok hdb'

end Process

/-! ### Calls on readers -/

theorem next_fixed (it : Iterator) :
    it.next.2.closed = it.closed ∧ it.next.2.maxSeq = it.maxSeq := by
  unfold Iterator.next
  split
  · exact ⟨rfl, rfl⟩
  · split
    · exact ⟨rfl, rfl⟩
    · exact ⟨rfl, rfl⟩

theorem getElem?_append_some {α : Type} {xs : List α} {i : Nat} {x : α} (h : xs[i]? = some x)
    (ys : List α) : (xs ++ ys)[i]? = some x := by
  rw [List.getElem?_append_left (List.getElem?_eq_some_iff.mp h).1]
  exact h

/-- Setting one element to `f` of it. -/
theorem getElem?_set_some {α : Type} {xs : List α} {i j : Nat} {x y : α} (hy : xs[j]? = some y)
    (hx : xs[i]? = some x) (f : α → α) :
    (xs.set j (f y))[i]? = some (if j = i then f x else x) := by
  by_cases hij : j = i
  · subst hij
    obtain rfl := Option.some.inj (hy.symm.trans hx)
    rw [if_pos rfl, List.getElem?_set_self (List.getElem?_eq_some_iff.mp hy).1]
  · rw [if_neg hij, List.getElem?_set_ne hij]
    exact hx

/-- A call on an element that is not there, or that it leaves as it is. -/
theorem getElem?_fixed {α : Type} {xs : List α} {i : Nat} {x : α} (j : Nat) (f : α → α)
    (hf : ∀ y, xs[j]? = some y → f y = y) (hx : xs[i]? = some x) :
    xs[i]? = some (if j = i then f x else x) := by
  rw [hx]
  split
  · rename_i hij
    rw [hf x (hij ▸ hx)]
  · rfl

/-- A closed registration is taken off the readers. -/
theorem perm_unregister {readers : List UInt64} {rs rs' : List (Bool × UInt64)} {q : UInt64}
    (h : readers.Perm (openSequences rs))
    (hclose : (openSequences rs).Perm (q :: openSequences rs')) :
    (readers.erase q).Perm (openSequences rs') := by
  have := (h.trans hclose).erase q
  rwa [List.erase_cons_head] at this

section Calls

variable {db db' : DB} {w' : World}

theorem proceeds_newSnapshot (h : w.newSnapshot db = .ok w') (hdb' : w'.proc = some db') :
    Proceeds .newSnapshot w db w' db' := by
  unfold World.newSnapshot at h
  split at h
  · cases h
  · obtain rfl := Except.ok.inj h
    obtain rfl := Option.some.inj hdb'
    refine ⟨Or.inl rfl, rfl, fun hperm => ?_, fun i s hs => getElem?_append_some hs _,
      fun i it hit => hit⟩
    show (db.currentSequence :: db.activeReaders).Perm _
    unfold registrations at hperm ⊢
    rw [openSequences_append] at hperm
    rw [List.map_append, openSequences_append, openSequences_append, List.append_assoc]
    exact (hperm.cons _).trans List.perm_middle.symm

theorem proceeds_addIterator {event : Event} {opts : IteratorOptions} {maxSeq : UInt64}
    (hapart : Apart event) (h : w.addIterator db opts maxSeq = .ok w') (hdb' : w'.proc = some db') :
    Proceeds event w db w' db' := by
  obtain ⟨it, hnew, rfl⟩ := addIterator_ok h
  obtain rfl := Option.some.inj hdb'
  have hit : it.closed = false ∧ it.maxSeq = maxSeq := by
    unfold HyphaDB.newIterator at hnew
    split at hnew
    · cases hnew
    · obtain rfl := Except.ok.inj hnew
      exact ⟨rfl, rfl⟩
  refine ⟨Or.inl rfl, rfl, fun hperm => ?_, fun i s hs => ?_, fun i it hit => ?_⟩
  · show (maxSeq :: db.activeReaders).Perm _
    unfold registrations at hperm ⊢
    rw [List.map_append, ← List.append_assoc, openSequences_append, List.map_singleton,
      hit.1, hit.2]
    exact (hperm.cons _).trans (List.perm_append_singleton _ _).symm
  · rw [hapart.1]
    exact hs
  · rw [hapart.2]
    exact getElem?_append_some hit _

theorem proceeds_closeSnapshot {i : Nat} (hdb : w.proc = some db)
    (h : w.closeSnapshot db i = .ok w')
    (hdb' : w'.proc = some db') : Proceeds (.closeSnapshot i) w db w' db' := by
  unfold World.closeSnapshot at h
  split at h
  · rename_i hnone
    obtain rfl := Except.ok.inj h
    obtain rfl := Option.some.inj (hdb.symm.trans hdb')
    exact ⟨Or.inl rfl, rfl, id,
      fun j s hs => getElem?_fixed i (fun s : Snapshot => { s with closed := true })
        (fun x hx => by rw [hnone] at hx; cases hx) hs, fun j it hit => hit⟩
  · rename_i s hs
    split at h
    · rename_i hclosed
      obtain rfl := Except.ok.inj h
      obtain rfl := Option.some.inj (hdb.symm.trans hdb')
      refine ⟨Or.inl rfl, rfl, id,
        fun j t ht => getElem?_fixed i (fun s : Snapshot => { s with closed := true })
          (fun x hx => ?_) ht, fun j it hit => hit⟩
      obtain rfl := Option.some.inj (hs.symm.trans hx)
      rw [← hclosed]
    · rename_i hopen
      obtain rfl := Except.ok.inj h
      obtain rfl := Option.some.inj hdb'
      refine ⟨Or.inl rfl, rfl, fun hperm => ?_,
        fun j t ht => getElem?_set_some hs ht fun s => { s with closed := true },
        fun j it hit => hit⟩
      refine perm_unregister hperm ?_
      unfold registrations
      rw [List.map_set, openSequences_append, openSequences_append]
      refine (openSequences_close ?_).append_right _
      rw [List.getElem?_map, hs, Option.map_some, Bool.eq_false_iff.mpr hopen]

theorem proceeds_closeIterator {i : Nat} (hdb : w.proc = some db)
    (h : w.closeIterator db i = .ok w')
    (hdb' : w'.proc = some db') : Proceeds (.closeIterator i) w db w' db' := by
  unfold World.closeIterator at h
  split at h
  · rename_i hnone
    obtain rfl := Except.ok.inj h
    obtain rfl := Option.some.inj (hdb.symm.trans hdb')
    exact ⟨Or.inl rfl, rfl, id, fun j s hs => hs, fun j it hit => getElem?_fixed i
      (fun it : Iterator => { it with closed := true })
      (fun x hx => by rw [hnone] at hx; cases hx) hit⟩
  · rename_i it hit
    split at h
    · rename_i hclosed
      obtain rfl := Except.ok.inj h
      obtain rfl := Option.some.inj (hdb.symm.trans hdb')
      refine ⟨Or.inl rfl, rfl, id, fun j s hs => hs, fun j t ht => getElem?_fixed i
        (fun it : Iterator => { it with closed := true }) (fun x hx => ?_) ht⟩
      obtain rfl := Option.some.inj (hit.symm.trans hx)
      rw [← hclosed]
    · rename_i hopen
      obtain rfl := Except.ok.inj h
      obtain rfl := Option.some.inj hdb'
      refine ⟨Or.inl rfl, rfl, fun hperm => ?_, fun j s hs => hs,
        fun j t ht => getElem?_set_some hit ht fun it => { it with closed := true }⟩
      refine perm_unregister hperm ?_
      unfold registrations
      rw [List.map_set, openSequences_append, openSequences_append]
      refine ((openSequences_close ?_).append_left _).trans List.perm_middle
      rw [List.getElem?_map, hit, Option.map_some, Bool.eq_false_iff.mpr hopen]

theorem proceeds_iteratorNext (i : Nat) (hdb : w.proc = some db)
    (hdb' : (w.iteratorNext i).proc = some db') :
    Proceeds (.iteratorNext i) w db (w.iteratorNext i) db' := by
  unfold World.iteratorNext at hdb' ⊢
  cases hit : w.iterators[i]? with
  | none =>
      rw [hit] at hdb'
      obtain rfl := Option.some.inj (hdb.symm.trans hdb')
      exact ⟨Or.inl rfl, rfl, id, fun j s hs => hs,
        fun j it h => getElem?_fixed i (fun it : Iterator => it.next.2)
          (fun x hx => by rw [hit] at hx; cases hx) h⟩
  | some it =>
      rw [hit] at hdb'
      obtain rfl := Option.some.inj (hdb.symm.trans hdb')
      refine ⟨Or.inl rfl, rfl, fun hperm => ?_, fun j s hs => hs,
        fun j t ht => getElem?_set_some hit ht fun it => it.next.2⟩
      have hsame : (w.iterators.set i it.next.2).map (fun it => (it.closed, it.maxSeq)) =
          w.iterators.map fun it => (it.closed, it.maxSeq) := by
        refine List.ext_getElem? fun j => ?_
        rw [List.getElem?_map, List.getElem?_map]
        cases hj : w.iterators[j]? with
        | none => rw [List.getElem?_eq_none_iff.mpr (by simpa using hj)]
        | some t =>
            rw [getElem?_set_some hit hj fun it => it.next.2]
            split
            · exact congrArg some (Prod.ext (next_fixed t).1 (next_fixed t).2)
            · rfl
      show db.activeReaders.Perm
        (openSequences (w.snapshots.map _ ++ (w.iterators.set i it.next.2).map _))
      rw [hsame]
      exact hperm

end Calls

/-- **What an event does to a process that goes on.** -/
theorem step_proceeds {event : Event} {db db' : DB} {fates : List Fate} (hdb : w.proc = some db)
    (hdb' : (step cfg M w event fates).1.proc = some db') :
    Proceeds event w db (step cfg M w event fates).1 db' := by
  have hworks : event.works = true → Proceeds event w db (step cfg M w event fates).1 db' := by
    intro hevent
    obtain ⟨p, hp, hstep⟩ := step_works (at_flush db db.nextSeq) hevent cfg
    rw [hstep] at hdb' ⊢
    exact proceeds_keeps hdb (apart_of_works hevent) hp hdb'
  cases event with
  | openDB opts =>
      have hlocked : step cfg M w (.openDB opts) fates = (w, .err .databaseLocked) := by
        show openWorld cfg M w opts fates = _
        unfold openWorld
        rw [hdb]
      rw [hlocked] at hdb' ⊢
      obtain rfl := Option.some.inj (hdb.symm.trans hdb')
      exact .refl ⟨fun _ _ => rfl, fun _ _ => rfl⟩
  | put key value | delete key | commit calls sync =>
      exact proceeds_mutation hdb rfl ⟨fun _ _ => rfl, fun _ _ => rfl⟩ hdb'
  | flushReserve | flushWrite | flushPublish | flushRemoveWAL | flushCleanup | compact
  | compactInBackground => exact hworks rfl
  | beginClose =>
      refine proceeds_updateProc hdb (fun _ _ => .refl ⟨fun _ _ => rfl, fun _ _ => rfl⟩)
        (fun w' h hw' => ?_) hdb'
      obtain rfl := Except.ok.inj h
      obtain rfl := Option.some.inj hw'
      exact .same ⟨fun _ _ => rfl, fun _ _ => rfl⟩ rfl rfl ⟨rfl, rfl, Or.inl rfl⟩
  | endClose =>
      refine proceeds_updateProc hdb (fun _ _ => .refl ⟨fun _ _ => rfl, fun _ _ => rfl⟩)
        (fun w' h hw' => ?_) hdb'
      split at h
      · obtain rfl := Except.ok.inj h
        cases hw'
      · cases h
  | newSnapshot =>
      exact proceeds_updateProc hdb (fun _ _ => .refl ⟨fun _ _ => rfl, fun _ _ => rfl⟩)
        (fun w' h hw' => proceeds_newSnapshot h hw') hdb'
  | closeSnapshot i =>
      refine proceeds_updateProc hdb (fun e he => ?_)
        (fun w' h hw' => proceeds_closeSnapshot hdb h hw') hdb'
      unfold World.closeSnapshot at he
      split at he
      · cases he
      · split at he
        · cases he
        · cases he
  | newIterator opts =>
      refine proceeds_updateProc hdb (fun _ _ => .refl ⟨fun _ _ => rfl, fun _ _ => rfl⟩)
        (fun w' h hw' => ?_) hdb'
      split at h
      · cases h
      · exact proceeds_addIterator ⟨fun _ _ => rfl, fun _ _ => rfl⟩ h hw'
  | snapshotIterator i opts =>
      refine proceeds_updateProc hdb (fun _ _ => .refl ⟨fun _ _ => rfl, fun _ _ => rfl⟩)
        (fun w' h hw' => ?_) hdb'
      unfold World.snapshotIterator at h
      split at h
      · obtain rfl := Except.ok.inj h
        obtain rfl := Option.some.inj (hdb.symm.trans hw')
        exact .refl ⟨fun _ _ => rfl, fun _ _ => rfl⟩
      · split at h
        · cases h
        · split at h
          · cases h
          · exact proceeds_addIterator ⟨fun _ _ => rfl, fun _ _ => rfl⟩ h hw'
  | iteratorNext i => exact proceeds_iteratorNext i hdb hdb'
  | closeIterator i =>
      refine proceeds_updateProc hdb (fun e he => ?_)
        (fun w' h hw' => proceeds_closeIterator hdb h hw') hdb'
      unfold World.closeIterator at he
      split at he
      · cases he
      · split at he
        · cases he
        · cases he
  | kill => cases hdb'

/-! ### Runs -/

theorem wp_openDB_new (opts : Options) (d : Disk) :
    wp M (openDB cfg opts)
      ⟨fun db _ => ∃ settings mt m maxSeq, db = newDB settings mt m maxSeq, fun _ _ => True,
        fun _ => True⟩ d := by
  have hskip : ∀ {α : Type} {p : DiskOp α} {f : α → DiskOp DB} {Q : DB → Disk → Prop} {d : Disk},
      (∀ a d, wp M (f a) ⟨Q, fun _ _ => True, fun _ => True⟩ d) →
      wp M (p >>= f) ⟨Q, fun _ _ => True, fun _ => True⟩ d :=
    fun hf => wp_bind (wp_mono (wp_true _) (fun a t _ => hf a t) (fun _ _ h => h) fun _ h => h)
  exact hskip fun _ _ => hskip fun _ _ => hskip fun _ _ => hskip fun _ _ => hskip fun _ _ =>
    hskip fun _ _ => wp_pure ⟨_, _, _, _, rfl⟩

/-- What a process has when it starts. -/
theorem openWorld_new (hno : w.proc = none) {opts : Options} {fates : List Fate} {db : DB}
    (hdb : (openWorld cfg M w opts fates).1.proc = some db) :
    (∃ settings mt m maxSeq, db = newDB settings mt m maxSeq) ∧
      ∃ d, (openWorld cfg M w opts fates).1 = { disk := d, proc := some db } := by
  have hnew : (openDB cfg opts M w.disk fates).Sat _ := wp_openDB_new opts w.disk fates
  unfold openWorld at hdb ⊢
  rw [hno] at hdb ⊢
  dsimp only at hdb ⊢
  cases hout : openDB cfg opts M w.disk fates with
  | ret db' d rest =>
      rw [hout] at hdb hnew
      obtain rfl := Option.some.inj hdb
      exact ⟨hnew, d, rfl⟩
  | err e d rest =>
      rw [hout] at hdb
      cases hdb
  | killed d =>
      rw [hout] at hdb
      cases hdb

theorem Registered.step (h : Registered w) (event : Event) (fates : List Fate) :
    Registered (step cfg M w event fates).1 := by
  intro db' hdb'
  cases hdb : w.proc with
  | some db => exact (step_proceeds hdb hdb').registered (h db hdb)
  | none =>
      by_cases hopen : ∃ opts, event = .openDB opts
      · obtain ⟨opts, rfl⟩ := hopen
        obtain ⟨⟨settings, mt, m, maxSeq, rfl⟩, d, hw⟩ := openWorld_new hdb hdb'
        show List.Perm [] (openSequences (registrations (openWorld cfg M w opts fates).1))
        rw [hw]
        exact List.Perm.refl _
      · rw [(step_stopped (fun opts he => hopen ⟨opts, he⟩) hdb _).1] at hdb'
        cases hdb'

theorem registered_run (inputs : List Input) {s : World × Ledger} (h : Registered s.1) :
    Registered (run cfg M s inputs).1 := by
  induction inputs generalizing s with
  | nil => exact h
  | cons input inputs ih => exact ih (h.step input.1 input.2)

def opens : Event → Bool
  | .openDB _ => true
  | _ => false

/-- No process opens the directory. -/
def NoOpen (inputs : List Input) : Prop := ∀ input ∈ inputs, opens input.1 = false

instance (inputs : List Input) : Decidable (NoOpen inputs) :=
  inferInstanceAs (Decidable (∀ input ∈ inputs, opens input.1 = false))

theorem NoOpen.head {input : Input} {inputs : List Input} (h : NoOpen (input :: inputs))
    (opts : Options) : input.1 ≠ .openDB opts := by
  intro heq
  have hno := h input List.mem_cons_self
  rw [heq] at hno
  cases hno

theorem NoOpen.tail {input : Input} {inputs : List Input} (h : NoOpen (input :: inputs)) :
    NoOpen inputs := fun i hi => h i (List.mem_cons_of_mem _ hi)

theorem run_stopped {inputs : List Input} (hopen : NoOpen inputs) {s : World × Ledger}
    (hno : s.1.proc = none) : (run cfg M s inputs).1.proc = none := by
  induction inputs generalizing s with
  | nil => exact hno
  | cons input inputs ih =>
      exact ih hopen.tail (step_stopped hopen.head hno input.2).1

/-- A process that runs in the end has been running all the time. -/
theorem running_of_run {inputs : List Input} (hopen : NoOpen inputs) {s : World × Ledger} {db : DB}
    (hdb : (run cfg M s inputs).1.proc = some db) : ∃ db₀, s.1.proc = some db₀ := by
  cases hs : s.1.proc with
  | some db₀ => exact ⟨db₀, rfl⟩
  | none =>
      rw [run_stopped hopen hs] at hdb
      cases hdb

/-- A snapshot keeps its sequence, and once closed it stays closed. -/
theorem snapshot_run {inputs : List Input} (hopen : NoOpen inputs) {s : World × Ledger} {db : DB}
    (hdb : (run cfg M s inputs).1.proc = some db) {i : Nat} {snap : Snapshot}
    (hsnap : s.1.snapshots[i]? = some snap) :
    ∃ snap', (run cfg M s inputs).1.snapshots[i]? = some snap' ∧
      snap'.sequence = snap.sequence ∧ (snap'.closed = false → snap.closed = false) := by
  induction inputs generalizing s snap with
  | nil => exact ⟨snap, hsnap, rfl, id⟩
  | cons input inputs ih =>
      obtain ⟨db₀, hdb₀⟩ := running_of_run hopen hdb
      obtain ⟨db₁, hdb₁⟩ := running_of_run (s := stepLedger cfg M s input) hopen.tail hdb
      obtain ⟨snap', hsnap', hseq, hclosed⟩ :=
        ih hopen.tail hdb ((step_proceeds hdb₀ hdb₁).snapshots i snap hsnap)
      have hon : (onSnapshot i snap input.1).sequence = snap.sequence ∧
          ((onSnapshot i snap input.1).closed = false → snap.closed = false) := by
        unfold onSnapshot
        split
        · split
          · exact ⟨rfl, fun h => (by cases h)⟩
          · exact ⟨rfl, id⟩
        · exact ⟨rfl, id⟩
      exact ⟨snap', hsnap', hseq.trans hon.1, fun h => hon.2 (hclosed h)⟩

theorem limits_run {inputs : List Input} (hopen : NoOpen inputs) {s : World × Ledger} {db db' : DB}
    (hdb : s.1.proc = some db) (hdb' : (run cfg M s inputs).1.proc = some db') :
    db'.limits = db.limits := by
  induction inputs generalizing s db with
  | nil => rw [Option.some.inj (hdb.symm.trans hdb')]
  | cons input inputs ih =>
      obtain ⟨db₁, hdb₁⟩ := running_of_run (s := stepLedger cfg M s input) hopen.tail hdb'
      exact (ih hopen.tail hdb₁ hdb').trans (step_proceeds hdb hdb₁).limits

/-- The calls of `Next` on an iterator. -/
def nexts (j : Nat) (inputs : List Input) : Nat :=
  inputs.countP fun input => input.1 = .iteratorNext j

/-- An iterator whose sources are in order and agree. -/
structure Scanning (it : Iterator) : Prop where
  sorted : SortedHeap less it.heap
  consistent : Consistent (recordsOf (elements it.heap))

/-- `Next` takes the first record of the output, if there is one. -/
theorem Scanning.next {it : Iterator} (hit : Scanning it) (hopen : it.closed = false) :
    Scanning it.next.2 ∧ it.next.2.output = it.output.drop 1 := by
  obtain ⟨-, -, hsorted, hcons, hout⟩ := output_next hopen hit.sorted hit.consistent
  refine ⟨⟨hsorted, hcons⟩, ?_⟩
  rw [hout]
  cases hfirst : it.next.1 with
  | some r => rfl
  | none =>
      have hnil : it.next.2.output = [] := by
        rw [next_open hopen] at hfirst ⊢
        cases hn : nextRecord (elements it.heap).length it.heap with
        | none => rfl
        | some p =>
            rw [hn] at hfirst
            cases hfirst
      rw [hnil]
      rfl

/-- What is left of the output after an event: one record less after `Next`, and nothing is said
of a closed iterator. -/
structure Continues (j : Nat) (event : Event) (it it' : Iterator) : Prop where
  scanning : Scanning it'
  opened : it'.closed = false → it.closed = false
  output : it'.closed = false →
    it'.output = it.output.drop (if event = .iteratorNext j then 1 else 0)

theorem onIterator_continues {it : Iterator} (hit : Scanning it) (j : Nat) (event : Event) :
    Continues j event it (onIterator j it event) := by
  cases event with
  | iteratorNext i =>
      by_cases hij : i = j
      · subst hij
        have hnext : onIterator i it (.iteratorNext i) = it.next.2 := if_pos rfl
        rw [hnext]
        cases hclosed : it.closed with
        | false =>
            obtain ⟨hscan, hout⟩ := hit.next hclosed
            exact ⟨hscan, fun _ => hclosed, fun _ => by rw [hout, if_pos rfl]⟩
        | true =>
            have hsame : it.next.2 = it := by
              unfold Iterator.next
              rw [if_pos hclosed]
            rw [hsame]
            exact ⟨hit, id, fun h => by rw [hclosed] at h; cases h⟩
      · have hsame : onIterator j it (.iteratorNext i) = it := if_neg hij
        rw [hsame]
        refine ⟨hit, id, fun _ => ?_⟩
        rw [if_neg fun h => hij (Event.iteratorNext.inj h)]
        rfl
  | closeIterator i =>
      by_cases hij : i = j
      · have hshut : onIterator j it (.closeIterator i) = { it with closed := true } := if_pos hij
        rw [hshut]
        exact ⟨⟨hit.sorted, hit.consistent⟩, fun h => (by cases h), fun h => (by cases h)⟩
      · have hsame : onIterator j it (.closeIterator i) = it := if_neg hij
        rw [hsame]
        exact ⟨hit, id, fun _ => rfl⟩
  | _ => exact ⟨hit, id, fun _ => rfl⟩

/-- **An iterator over a run**: what it still yields is what it had to yield, without the
records already taken. -/
theorem iterator_run {inputs : List Input} (hopen : NoOpen inputs) {s : World × Ledger} {db : DB}
    (hdb : (run cfg M s inputs).1.proc = some db) {j : Nat} {it : Iterator}
    (hit : s.1.iterators[j]? = some it) (hscan : Scanning it) :
    ∃ it', (run cfg M s inputs).1.iterators[j]? = some it' ∧
      (it'.closed = false → it.closed = false ∧ it'.output = it.output.drop (nexts j inputs)) := by
  induction inputs generalizing s it with
  | nil => exact ⟨it, hit, fun h => ⟨h, rfl⟩⟩
  | cons input inputs ih =>
      obtain ⟨db₀, hdb₀⟩ := running_of_run hopen hdb
      obtain ⟨db₁, hdb₁⟩ := running_of_run (s := stepLedger cfg M s input) hopen.tail hdb
      have hstep := (step_proceeds hdb₀ hdb₁).iterators j it hit
      have hcont := onIterator_continues hscan j input.1
      obtain ⟨it', hit', hout⟩ := ih hopen.tail hdb hstep hcont.scanning
      refine ⟨it', hit', fun hclosed => ?_⟩
      obtain ⟨hmid, hrest⟩ := hout hclosed
      refine ⟨hcont.opened hmid, ?_⟩
      rw [hrest, hcont.output hmid, List.drop_drop, nexts, nexts, List.countP_cons]
      simp only [decide_eq_true_eq]
      rw [Nat.add_comm]

end HyphaDB.Refine
