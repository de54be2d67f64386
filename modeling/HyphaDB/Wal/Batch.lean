import HyphaDB.Wal.Replay

/-!
# HyphaDB.Wal.Batch

The records `WriteBatch` frames, and what replay makes of them: a begin frame opens a
buffer, operation frames fill it, and the **commit frame** puts it. A begin frame resets
the buffer of its ID, so `run_batchRecords` holds whatever an earlier unfinished batch
left behind.
-/

namespace HyphaDB.Wal

def beginRecord (batchID : UInt64) : Record := { batchID, batchKind := .begin }
def operationRecord (batchID : UInt64) (rec : Record) : Record :=
  { rec with batchID, batchKind := .operation }
def commitRecord (batchID : UInt64) : Record := { batchID, batchKind := .commit }

/-- The records `WriteBatch` frames, in order. -/
def batchRecords (batchID : UInt64) (recs : List Record) : List Record :=
  beginRecord batchID :: (recs.map (operationRecord batchID) ++ [commitRecord batchID])

/-! ### Replay of a batch -/

theorem apply_puts_of_buffered {st : ReplayState} {rec : Record} {len : Nat}
    (h : rec.batchKind = .begin ∨ rec.batchKind = .operation) :
    (st.apply rec len).puts = st.puts := by
  unfold ReplayState.apply
  rcases h with h | h
  · rw [h]
  · rw [h]
    dsimp only
    split <;> rfl

/-- Begin and operation frames put nothing. -/
theorem run_puts_of_buffered {st : ReplayState} {recs : List Record}
    (h : ∀ r ∈ recs, r.batchKind = .begin ∨ r.batchKind = .operation) :
    (st.run recs).puts = st.puts := by
  induction recs generalizing st with
  | nil => rfl
  | cons rec recs ih =>
      rw [ReplayState.run_cons, ih (fun r hr => h r (List.mem_cons_of_mem _ hr)),
        apply_puts_of_buffered (h rec List.mem_cons_self)]

theorem run_operations {st : ReplayState} {id : UInt64} {buffered : List Record}
    (hp : st.pending id = some buffered) (recs : List Record) :
    (st.run (recs.map (operationRecord id))).pending id =
      some (buffered ++ recs.map (operationRecord id)) := by
  induction recs generalizing st buffered with
  | nil => simpa using hp
  | cons rec recs ih =>
      have hstep : (st.apply (operationRecord id rec)
          (encodePayload (operationRecord id rec)).length).pending id =
          some (buffered ++ [operationRecord id rec]) := by
        simp [ReplayState.apply, operationRecord, hp]
      rw [List.map_cons, ReplayState.run_cons, ih hstep]
      simp

/-- A whole batch is put at its commit frame, whatever was buffered before. -/
theorem run_batchRecords (st : ReplayState) (id : UInt64) (recs : List Record) :
    (st.run (batchRecords id recs)).puts = st.puts ++ recs.map Record.plain := by
  have hbegin : (st.apply (beginRecord id) (encodePayload (beginRecord id)).length).pending id =
      some [] := by
    simp [ReplayState.apply, beginRecord]
  have hops := run_operations hbegin recs
  have hputs : ((st.apply (beginRecord id) (encodePayload (beginRecord id)).length).run
      (recs.map (operationRecord id))).puts = st.puts := by
    rw [run_puts_of_buffered, apply_puts_of_buffered (Or.inl rfl)]
    intro r hr
    obtain ⟨_, -, rfl⟩ := List.mem_map.mp hr
    exact Or.inr rfl
  rw [batchRecords, ReplayState.run_cons, ReplayState.run_append, ReplayState.run_cons,
    ReplayState.run_nil]
  generalize hst : (st.apply (beginRecord id) (encodePayload (beginRecord id)).length).run
    (recs.map (operationRecord id)) = st1 at hops hputs ⊢
  have hplain : (recs.map (operationRecord id)).map Record.plain = recs.map Record.plain := by
    rw [List.map_map]
    rfl
  simp only [ReplayState.apply, commitRecord, hops, hputs, List.nil_append, hplain]

/-! ### The largest identifier -/

theorem apply_stats (st : ReplayState) (rec : Record) (len : Nat) :
    (st.apply rec len).stats.maxSequence =
      max (max st.stats.maxSequence rec.seq) rec.batchID := by
  unfold ReplayState.apply
  cases rec.batchKind with
  | none => rfl
  | begin => rfl
  | operation => dsimp only; split <;> rfl
  | commit => dsimp only; split <;> rfl

theorem run_stats (st : ReplayState) (recs : List Record) :
    (st.run recs).stats.maxSequence =
      (recs.flatMap fun r => [r.seq, r.batchID]).foldl max st.stats.maxSequence := by
  induction recs generalizing st with
  | nil => rfl
  | cons rec recs ih =>
      rw [ReplayState.run_cons, ih, apply_stats]
      rfl

end HyphaDB.Wal
