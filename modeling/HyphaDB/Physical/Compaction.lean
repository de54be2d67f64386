import HyphaDB.Compaction.Merge
import HyphaDB.Physical.Tables

/-!
# HyphaDB.Physical.Compaction

**`MergeSSTablesWithOptions` on files** (`internal/compaction`): iterators of the input tables, a
heap of their current records, and a new file for the records that are kept. The engine's
`mergeRecords` merges lists of records.

An iterator that ends early without an error would make the merge drop the records behind, for good.
But a compaction reports an error or writes what it would have written from its inputs as they were,
whoever else reads tables through the cache at the time (`compaction_keeps_records`).
-/

namespace HyphaDB.Physical

open Checked Interleaved Table Table.Cached Compaction

/-! ### Programs -/

/-- The iterators of the inputs and the heap; an item is a record and the index of its input. -/
structure Merger (τ : Type) where
  iters : List (τ × Table.Iterator) := []
  heap : List (Record × Nat) := []

inductive MergeError
  | read (e : TableError)
  | write (e : WriteError)
  deriving Repr, DecidableEq

/-- `CreateFromRecordsWithOptions`. -/
def createFromRecordsWithOptions (env : Env) (records : List Record) (opts : WriteOptions) :
    Attempt MergeError Created :=
  match createFromIteratorWithOptions env { records } records.length opts with
  | .error e => fail (.write e)
  | .ok created => .ok created

section Programs

variable {τ : Type} [DecidableEq τ] (env : Env) (tables : τ → Handle)

omit [DecidableEq τ] in
/-- `Next` on an iterator, its record on the heap, and its error. -/
def Merger.advance (m : Merger τ) (i : Nat) : Prog (Shared τ) TableError (Merger τ) := do
  let (t, it) ← .lift (Checked.get m.iters i)
  let (more, it) ← Prog.widen (Cached.next env tables t it)
  let heap := if more then (it.current, i) :: m.heap else m.heap
  match it.err with
  | some e => .lift (fail e)
  | none => pure { iters := m.iters.set i (t, it), heap }

/-- The loop over the inputs. -/
def Merger.openInputs : List τ → Merger τ → Prog (Shared τ) TableError (Merger τ)
  | [], m => pure m
  | t :: ts, m => do
      let it ← Cached.newIterator tables t
      let m ← Merger.advance env tables { m with iters := m.iters ++ [(t, it)] } m.iters.length
      openInputs ts m

omit [DecidableEq τ] in
/-- The loop over the heap, with the records it appends to the output. -/
def Merger.mergeLoop (options : MergeOptions) :
    Nat → Retention → Merger τ → Prog (Shared τ) TableError (List Record)
  | 0, _, _ => .lift (.error (.fault .endless))
  | rounds + 1, st, m =>
      match Merge.takeMin heapLess m.heap with
      | none => pure []
      | some (item, heap) => do
          let (keep, st) := st.next options item.1
          let m ← Merger.advance env tables { m with heap } item.2
          let output ← mergeLoop options rounds st m
          pure (if keep then item.1 :: output else output)

/-- The records `MergeSSTablesWithOptions` keeps. Its loop takes one round for each record of the
inputs. -/
def mergeOutput (rounds : Nat) (ts : List τ) (options : MergeOptions) :
    Prog (Shared τ) TableError (List Record) := do
  let m ← Merger.openInputs env tables ts {}
  m.mergeLoop env tables options rounds {}

def mergeSSTablesWithOptions (rounds : Nat) (ts : List τ) (options : MergeOptions)
    (writeOptions : WriteOptions) : Prog (Shared τ) MergeError Created := do
  let output ← (mergeOutput env tables rounds ts options).mapError .read
  .lift (createFromRecordsWithOptions env output writeOptions)

end Programs

/-! ### The loops -/

/-- Records of different inputs are never equal for the heap. -/
theorem heapLess_of_not {a b : Record × Nat} (hne : a.2 ≠ b.2) (h : heapLess b a = false) :
    heapLess a b = true := by
  unfold heapLess
  rcases heapLess_eq_false.mp h with hk | ⟨hk, hs | ⟨hs, hi⟩⟩
  · simp [hk, hk.ne]
  · simp [hk, hs, hs.ne']
  · simp [hk, hs, Nat.lt_of_le_of_ne hi hne.symm]

/-- The cursor of an item, where `rest` says what the iterators have behind it. -/
def itemCursor (rest : Nat → List Record) (item : Record × Nat) : Merge.Cursor (Record × Nat) :=
  ⟨item, (rest item.2).map (·, item.2)⟩

/-- The heap and the iterators stand for the cursors `queue` of the engine's merge. -/
def Merging {τ : Type} (env : Env) (tables : τ → Handle) (damaged : Prop) (m : Merger τ)
    (queue : List (Merge.Cursor (Record × Nat))) : Prop :=
  (m.heap.map Prod.snd).Nodup ∧ ∃ rest : Nat → List Record,
    queue.Perm (m.heap.map (itemCursor rest)) ∧
      ∀ item ∈ m.heap, ∃ t it, m.iters[item.2]? = some (t, it) ∧
        Giving env damaged (tables t).file it (rest item.2)

section Merging

variable {τ : Type} {env : Env} {tables : τ → Handle} {damaged : Prop} {m : Merger τ}
  {queue : List (Merge.Cursor (Record × Nat))}

/-- An input that has nothing on the heap gives its next record, if it has one. -/
theorem advance_tries (hd : Distinct tables) (hm : Merging env tables damaged m queue)
    {i : Nat} (hi : i ∉ m.heap.map Prod.snd) {t : τ} {it : Table.Iterator}
    (hit : m.iters[i]? = some (t, it)) {recs : List Record}
    (hgiving : Giving env damaged (tables t).file it recs) :
    Tries (Faithful env tables) damaged (m.advance env tables i) fun m' =>
      Merging env tables damaged m' (Merge.cursorOf (recs.map (·, i)) ++ queue) ∧
        m'.iters.length = m.iters.length := by
  obtain ⟨hnodup, rest, hqueue, hiters⟩ := hm
  have hne : ∀ item ∈ m.heap, i ≠ item.2 := fun item hitem heq =>
    hi (heq ▸ List.mem_map_of_mem hitem)
  unfold Merger.advance
  rw [get_eq hit, lift_ok_bind]
  refine tries_bind (tries_widen (next_tries hd hgiving)) fun p hp => ?_
  have hothers : ∀ item ∈ m.heap, ∃ t' it', (m.iters.set i (t, p.2))[item.2]? = some (t', it') ∧
      Giving env damaged (tables t').file it' (rest item.2) := by
    intro item hitem
    rw [List.getElem?_set_ne (hne item hitem)]
    exact hiters item hitem
  rcases hp with ⟨hdamaged, herr⟩ | ⟨herr, hmore, rfl⟩ | ⟨herr, hmore, recs', rfl, hgiving'⟩
  · obtain ⟨e, he⟩ := Option.isSome_iff_exists.mp herr
    dsimp only
    rw [he]
    exact tries_fail hdamaged e
  · dsimp only
    rw [herr, hmore]
    exact tries_pure ⟨⟨hnodup, rest, hqueue, hothers⟩, List.length_set⟩
  · dsimp only
    rw [herr, hmore]
    refine tries_pure ⟨⟨List.nodup_cons.mpr ⟨hi, hnodup⟩, Function.update rest i recs', ?_, ?_⟩,
      List.length_set⟩
    · have hmap : m.heap.map (itemCursor (Function.update rest i recs')) =
          m.heap.map (itemCursor rest) := by
        refine List.map_congr_left fun item hitem => ?_
        unfold itemCursor
        rw [Function.update_of_ne (hne item hitem).symm]
      rw [if_pos rfl, List.map_cons, List.map_cons, hmap, itemCursor, Function.update_self]
      exact hqueue.cons _
    · intro item hitem
      rcases List.mem_cons.mp hitem with rfl | hitem
      · rw [Function.update_self]
        exact ⟨t, p.2, List.getElem?_set_self (List.getElem?_eq_some_iff.mp hit).1, hgiving'⟩
      · rw [Function.update_of_ne (hne item hitem).symm]
        exact hothers item hitem

/-- The least item of the heap is what the queue takes. -/
theorem Merging.takeMin (hm : Merging env tables damaged m queue) {item : Record × Nat}
    {heap : List (Record × Nat)} (htake : Merge.takeMin heapLess m.heap = some (item, heap)) :
    ∃ cs recs t it, Merging env tables damaged { m with heap } cs ∧
      item.2 ∉ heap.map Prod.snd ∧ m.iters[item.2]? = some (t, it) ∧
      Giving env damaged (tables t).file it recs ∧
      ∃ queue', Merge.pop heapLess queue = some (item, queue') ∧
        queue'.Perm (Merge.cursorOf (recs.map (·, item.2)) ++ cs) := by
  obtain ⟨hnodup, rest, hqueue, hiters⟩ := hm
  obtain ⟨hperm, hleast⟩ := Merge.takeMin_spec heapLess_asymm heapLess_trans htake
  obtain ⟨hfresh, hnodup'⟩ := List.nodup_cons.mp ((hperm.map Prod.snd).nodup_iff.mp hnodup)
  obtain ⟨t, it, hit, hgiving⟩ := hiters item (hperm.mem_iff.mpr List.mem_cons_self)
  refine ⟨heap.map (itemCursor rest), rest item.2, t, it, ⟨hnodup', rest, .refl _, ?_⟩, hfresh, hit,
    hgiving, ?_⟩
  · exact fun other hother => hiters other (hperm.mem_iff.mpr (List.mem_cons_of_mem _ hother))
  refine Merge.pop_of_least heapLess_asymm heapLess_trans
    (c := itemCursor rest item) (hqueue.trans (hperm.map _)) fun d hd => ?_
  obtain ⟨other, hother, rfl⟩ := List.mem_map.mp hd
  exact heapLess_of_not (fun heq => hfresh (heq ▸ List.mem_map_of_mem hother)) (hleast other hother)

theorem Merging.perm {queue' : List (Merge.Cursor (Record × Nat))}
    (hm : Merging env tables damaged m queue) (hperm : queue'.Perm queue) :
    Merging env tables damaged m queue' := by
  obtain ⟨hnodup, rest, hqueue, hiters⟩ := hm
  exact ⟨hnodup, rest, hperm.trans hqueue, hiters⟩

/-- **The merge loop keeps what the engine's merge keeps.** -/
theorem mergeLoop_tries (hd : Distinct tables) (options : MergeOptions) {rounds n : Nat}
    {st : Retention} (hm : Merging env tables damaged m queue)
    (hrounds : (Merge.elements queue).length < rounds) (hn : (Merge.elements queue).length ≤ n) :
    Tries (Faithful env tables) damaged (m.mergeLoop env tables options rounds st) fun output =>
      output = retain options st ((Merge.mergeLoop heapLess n queue).map Prod.fst) := by
  induction rounds generalizing n st m queue with
  | zero => cases hrounds
  | succ rounds ih =>
      unfold Merger.mergeLoop
      cases htake : Merge.takeMin heapLess m.heap with
      | none =>
          obtain ⟨-, rest, hqueue, -⟩ := hm
          rw [Merge.takeMin_eq_none htake] at hqueue
          rw [hqueue.eq_nil]
          cases n with
          | zero => exact tries_pure rfl
          | succ n => exact tries_pure rfl
      | some q =>
          obtain ⟨item, heap⟩ := q
          obtain ⟨cs, recs, t, it, hm', hfresh, hit, hgiving, queue', hpop, hperm⟩ :=
            hm.takeMin htake
          have hlen := (Merge.pop_perm hpop).length_eq
          rw [List.length_cons] at hlen
          obtain ⟨n, rfl⟩ := Nat.exists_eq_add_one_of_ne_zero (show n ≠ 0 by omega)
          unfold Merge.mergeLoop
          rw [hpop]
          dsimp only
          rw [List.map_cons, retain]
          refine tries_bind (advance_tries hd hm' hfresh hit hgiving) fun m₁ hm₁ => ?_
          refine tries_bind (ih (n := n) (hm₁.1.perm hperm) (by omega) (by omega))
            fun output houtput => ?_
          subst houtput
          exact tries_pure rfl

variable [DecidableEq τ]

theorem openInputs_tries (hd : Distinct tables) {contents : τ → List Record} {ts : List τ}
    (hstands : ∀ t ∈ ts, Stands env damaged (tables t).file (contents t))
    (hm : Merging env tables damaged m queue) :
    Tries (Faithful env tables) damaged (Merger.openInputs env tables ts m) fun m' =>
      Merging env tables damaged m' (queue ++
        (((ts.map fun t => (contents t).map Record.plain).zipIdx m.iters.length).map
          fun p => p.1.map (·, p.2)).flatMap Merge.cursorOf) := by
  induction ts generalizing m queue with
  | nil => exact tries_pure (by simpa using hm)
  | cons t ts ih =>
      refine tries_bind (newIterator_tries (hstands t List.mem_cons_self)) fun it hgiving => ?_
      obtain ⟨hnodup, rest, hqueue, hiters⟩ := hm
      have hnew : ∀ item ∈ m.heap, item.2 < m.iters.length := by
        intro item hitem
        obtain ⟨_, _, hget, -⟩ := hiters item hitem
        exact (List.getElem?_eq_some_iff.mp hget).1
      have hm' : Merging env tables damaged
          { m with iters := m.iters ++ [(t, it)] } queue := by
        refine ⟨hnodup, rest, hqueue, fun item hitem => ?_⟩
        rw [List.getElem?_append_left (hnew item hitem)]
        exact hiters item hitem
      have hfresh : m.iters.length ∉ m.heap.map Prod.snd := by
        intro hmem
        obtain ⟨item, hitem, heq⟩ := List.mem_map.mp hmem
        exact (hnew item hitem).ne heq
      refine tries_bind (advance_tries hd hm' hfresh List.getElem?_concat_length hgiving)
        fun m₁ hm₁ => ?_
      have hrest := ih (fun t ht => hstands t (List.mem_cons_of_mem _ ht)) hm₁.1
      refine hrest.mono fun m₂ hm₂ => hm₂.perm ?_
      rw [hm₁.2, List.length_append, List.map_cons, List.zipIdx_cons, List.map_cons,
        List.flatMap_cons, ← List.append_assoc]
      exact List.perm_append_comm.append_right _

/-- The records the engine's merge keeps of the contents of the tables. -/
def mergedContents (options : MergeOptions) (contents : τ → List Record) (ts : List τ) :
    List Record :=
  mergeRecords options (ts.map fun t => (contents t).map Record.plain)

theorem length_indexed (sources : List (List Record)) (k : Nat) :
    ((sources.zipIdx k).map fun p => p.1.map (·, p.2)).flatten.length = sources.flatten.length := by
  induction sources generalizing k with
  | nil => rfl
  | cons recs sources ih => simp [List.zipIdx_cons, ih]

theorem mergeOutput_tries (hd : Distinct tables) {contents : τ → List Record} {ts : List τ}
    (hstands : ∀ t ∈ ts, Stands env damaged (tables t).file (contents t)) (options : MergeOptions)
    {rounds : Nat} (hrounds : (ts.flatMap contents).length < rounds) :
    Tries (Faithful env tables) damaged (mergeOutput env tables rounds ts options) fun output =>
      output = mergedContents options contents ts := by
  have hstart : Merging env tables damaged ({} : Merger τ) [] :=
    ⟨List.nodup_nil, fun _ => [], .refl _, fun item hitem => (by cases hitem)⟩
  refine tries_bind (openInputs_tries hd hstands hstart) fun m hm => ?_
  have hlen : (Merge.elements ([] ++ (((ts.map fun t => (contents t).map Record.plain).zipIdx).map
      fun p => p.1.map (·, p.2)).flatMap Merge.cursorOf)).length =
        (ts.flatMap contents).length := by
    rw [List.nil_append, Merge.elements_sources, length_indexed, ← List.flatMap_def]
    simp
  exact mergeLoop_tries hd options hm (hlen.trans_lt hrounds)
    (Nat.le_of_eq (congrArg List.length (Merge.elements_sources _)))

theorem mergeSSTables_ends (hd : Distinct tables) {contents : τ → List Record} {ts : List τ}
    (hstands : ∀ t ∈ ts, Stands env damaged (tables t).file (contents t)) (options : MergeOptions)
    (writeOptions : WriteOptions) {rounds : Nat} (hrounds : (ts.flatMap contents).length < rounds) :
    Ends (Faithful env tables)
      (fun r => r = createFromRecordsWithOptions env (mergedContents options contents ts)
        writeOptions ∨ damaged ∧ ∃ e, r = fail (.read e))
      (mergeSSTablesWithOptions env tables rounds ts options writeOptions) := by
  refine ends_bind (tries_mapError (mergeOutput_tries hd hstands options hrounds))
    (fun output houtput => ?_) fun stop hstop => ?_
  · rcases houtput with ⟨_, hok, rfl⟩ | ⟨-, e, he⟩
    · cases hok
      exact .done (Or.inl rfl)
    · cases he
  · rcases hstop with ⟨_, hok, -⟩ | ⟨hdamaged, e, he⟩
    · cases hok
    · cases he
      exact Or.inr ⟨hdamaged, e, rfl⟩

end Merging

/-! ### Compactions beside readers -/

/-- What is done with the tables at one time. -/
inductive Job (τ : Type)
  | request (request : Request τ)
  | compact (ts : List τ) (options : MergeOptions) (writeOptions : WriteOptions)

section Jobs

variable {τ : Type} [DecidableEq τ] (env : Env) (tables : τ → Handle)

omit [DecidableEq τ] in
/-- The tables a compaction merges. -/
def Job.inputs : Job τ → List τ
  | .request _ => []
  | .compact ts _ _ => ts

/-- A compaction has a new table, a reader none. -/
def Job.prog (rounds : Nat) : Job τ → Prog (Shared τ) MergeError (Option Created)
  | .request r => do
      let _ ← (r.prog env tables).mapError .read
      pure none
  | .compact ts options writeOptions => do
      let created ← mergeSSTablesWithOptions env tables rounds ts options writeOptions
      pure (some created)

omit [DecidableEq τ] in
/-- A compaction writes the records the engine's merge keeps of what was written to its inputs; if
it reports an error of reading, an input has been altered. -/
def Job.Outcome (contents : τ → List Record) : Job τ → Attempt MergeError (Option Created) → Prop
  | .request _, _ => True
  | .compact ts options writeOptions, r =>
      r = (createFromRecordsWithOptions env (mergedContents options contents ts)
        writeOptions).map some ∨
      (∃ t ∈ ts, Altered env (tables t).file (contents t)) ∧ ∃ e, r = fail (.read e)

variable {env tables} {contents : τ → List Record}

theorem Job.ends (hcrc : Distinguishes env.crc) (hlz4 : env.lz4.Inverts)
    (hkept : Kept env tables contents) (job : Job τ) {rounds : Nat}
    (hrounds : (job.inputs.flatMap contents).length < rounds) :
    Ends (Faithful env tables) (job.Outcome env tables contents) (job.prog env tables rounds) := by
  have hd := hkept.distinct
  cases job with
  | request r =>
      exact ends_bind (agrees_mapError (r.agrees hd)) (fun _ _ => .done trivial) fun _ _ => trivial
  | compact ts options writeOptions =>
      have hstands : ∀ t ∈ ts, Stands env (∃ t ∈ ts, Altered env (tables t).file (contents t))
          (tables t).file (contents t) := fun t ht =>
        hkept.stands hcrc hlz4 fun haltered => ⟨t, ht, haltered⟩
      refine ends_bind (mergeSSTables_ends hd hstands options writeOptions hrounds)
        (fun created hr => .done ?_) fun stop hr => ?_
      · rcases hr with hr | ⟨-, e, he⟩
        · exact Or.inl (congrArg (Except.map some) hr)
        · cases he
      · rcases hr with hr | ⟨haltered, e, he⟩
        · exact Or.inl (congrArg (Except.map some) hr)
        · cases he
          exact Or.inr ⟨haltered, e, rfl⟩

/-- **A compaction loses nothing.** Readers of any tables and other compactions run at the same
time, in any order of steps, over a cache of any capacity. -/
theorem compaction_keeps_records (hcrc : Distinguishes env.crc) (hlz4 : env.lz4.Inverts)
    (hkept : Kept env tables contents) (capacityBytes : Int) {jobs : List (Job τ)} {rounds : Nat}
    (hrounds : ∀ job ∈ jobs, (job.inputs.flatMap contents).length < rounds)
    (schedule : List Nat) {i : Nat} {job : Job τ} (hi : jobs[i]? = some job) :
    let c := runThreads ({ cache := BlockCache.newLRU capacityBytes },
      jobs.map (·.prog env tables rounds)) schedule
    ∃ p, c.2[i]? = some p ∧ job.Outcome env tables contents (p.run c.1).1 :=
  runThreads_ends (faithful_new capacityBytes)
    (fun job hjob => job.ends hcrc hlz4 hkept (hrounds job hjob)) schedule hi

/-- The small table with another value for its first record. -/
def scratchedTable : TableFile := sampleTable.file.set 27 8

theorem sampleTable_written : WrittenWith storingEnv sampleTable.file sampleRecords :=
  ⟨_, _, _, sampleTable, sampleTable_created, by decide, sampleTable_within, rfl, rfl⟩

theorem scratchedTable_altered : Altered storingEnv scratchedTable sampleRecords :=
  ⟨_, sampleTable_written, _, 27, sampleTable_footer,
    TableFile.set_changed (x := 9) (by decide +kernel) (by decide), by decide +kernel⟩

theorem soleTable_kept {file : TableFile} {recs : List Record} (h : Altered env file recs) :
    Kept env (soleTable file) fun _ => recs :=
  ⟨fun _ _ _ => rfl, fun _ => Or.inr h⟩

theorem compaction_keeps_records_sample :
    let tables := soleTable scratchedTable
    let compaction : Job Unit := .compact [()] ⟨none, true⟩ sampleOptions
    let c := runThreads ({ cache := BlockCache.newLRU 100 },
      [compaction, .request (.getRecordAt () [1] 9)].map (·.prog storingEnv tables 7)) [0, 1, 0]
    ∃ p, c.2[0]? = some p ∧
      compaction.Outcome storingEnv tables (fun _ => sampleRecords) (p.run c.1).1 :=
  compaction_keeps_records crc32c_distinguishes storingEnv_inverts
    (soleTable_kept scratchedTable_altered) 100 (by decide) [0, 1, 0] rfl

end Jobs

end HyphaDB.Physical
