import HyphaDB.Refine.Abstraction

/-!
# HyphaDB.Refine.Log

**Writing to the active segment.** `WriteRecord` and `WriteBatch` are instances of one
notion: a program that `Logs` records either appends frames that replay to all of them,
or fails or dies having appended frames that replay to none, or dies having appended
everything. Behind a clean segment this is all a later `Open` can see of it.
-/

namespace HyphaDB.Refine

open Faults Store Wal

/-- Append to the active segment. -/
def appendActive (s : Sys) (bytes : Bytes) : Sys :=
  { s with disk := s.disk.appendWal s.db.wal bytes }

theorem appendWal_wals (d : Disk) (id : Nat) (bytes : Bytes) :
    (d.appendWal id bytes).wals =
      d.wals.map fun p => (p.1, if p.1 = id then p.2 ++ bytes else p.2) := by
  unfold Disk.appendWal
  refine List.map_congr_left fun p _ => ?_
  obtain ⟨i, f⟩ := p
  show (if i = id then (i, f ++ bytes) else (i, f)) = (i, if i = id then f ++ bytes else f)
  by_cases hid : i = id
  · rw [if_pos hid, if_pos hid]
  · rw [if_neg hid, if_neg hid]

theorem appendWal_appendWal (d : Disk) (id : Nat) (a b : Bytes) :
    (d.appendWal id a).appendWal id b = d.appendWal id (a ++ b) := by
  have hwals : ((d.appendWal id a).appendWal id b).wals = (d.appendWal id (a ++ b)).wals := by
    rw [appendWal_wals, appendWal_wals, appendWal_wals, List.map_map]
    refine List.map_congr_left fun p _ => ?_
    by_cases hid : p.1 = id
    · simp [hid]
    · simp [hid]
  exact congrArg (fun ws => { d with wals := ws }) hwals

theorem appendActive_appendActive (s : Sys) (a b : Bytes) :
    appendActive (appendActive s a) b = appendActive s (a ++ b) :=
  congrArg (fun d => ({ s with disk := d } : Sys)) (appendWal_appendWal s.disk s.db.wal a b)

theorem appendWal_nil (d : Disk) (id : Nat) : d.appendWal id [] = d := by
  have hwals : (d.appendWal id []).wals = d.wals := by
    rw [appendWal_wals]
    refine (List.map_congr_left fun p _ => ?_).trans (List.map_id' d.wals)
    by_cases hid : p.1 = id
    · rw [if_pos hid, List.append_nil]
    · rw [if_neg hid]
  exact congrArg (fun ws => { d with wals := ws }) hwals

theorem appendActive_nil (s : Sys) : appendActive s [] = s :=
  congrArg (fun d => ({ s with disk := d } : Sys)) (appendWal_nil s.disk s.db.wal)

theorem mem_appendWal {d : Disk} {id : Nat} {bytes : Bytes} {q : Nat × Bytes}
    (hq : q ∈ (d.appendWal id bytes).wals) :
    ∃ p ∈ d.wals, q.1 = p.1 ∧ q.2 = if p.1 = id then p.2 ++ bytes else p.2 := by
  rw [appendWal_wals] at hq
  obtain ⟨p, hp, rfl⟩ := List.mem_map.mp hq
  exact ⟨p, hp, rfl, rfl⟩

theorem exists_mem_appendWal {d : Disk} {p : Nat × Bytes} (hp : p ∈ d.wals) (id : Nat)
    (bytes : Bytes) : ∃ q ∈ (d.appendWal id bytes).wals, q.1 = p.1 := by
  rw [appendWal_wals]
  exact ⟨_, List.mem_map_of_mem hp, rfl⟩

theorem appendWal_ids (d : Disk) (id : Nat) (bytes : Bytes) :
    (d.appendWal id bytes).wals.map Prod.fst = d.wals.map Prod.fst := by
  rw [appendWal_wals, List.map_map]
  rfl

/-! ### Programs that log records -/

variable {cfg : Config} {M : Model Call} {g : Guard} {used : Nat}

/-- What a program that logs `added` may leave in the active segment. -/
structure LogPost (cfg : Config) (M : Model Call) (bound : Nat) (added : List Record) (s : Sys)
    (Q : Post Sys DBError Unit) : Prop where
  logged : ∀ {recs}, Chunk cfg.crc bound added recs [] →
    Q.ret () (appendActive s (frames cfg.crc recs ++ []))
  failed : ∀ {n recs t}, M .walFrame (.fail n) = true → Chunk cfg.crc bound [] recs t →
    t = [] ∨ TearsFrames M → Q.err (.io .walFrame) (appendActive s (frames cfg.crc recs ++ t))
  unsynced : ∀ {n recs}, M .walSync (.fail n) = true → Chunk cfg.crc bound added recs [] →
    Q.err (.io .walSync) (appendActive s (frames cfg.crc recs ++ []))
  killed : ∀ {c n recs t}, M c (.kill n) = true → Chunk cfg.crc bound [] recs t →
    Q.kill (appendActive s (frames cfg.crc recs ++ t))
  killedLogged : ∀ {c n recs}, M c (.kill n) = true → Chunk cfg.crc bound added recs [] →
    Q.kill (appendActive s (frames cfg.crc recs ++ []))

def Logs (cfg : Config) (M : Model Call) (bound : Nat) (added : List Record) (p : Op Unit) : Prop :=
  ∀ s Q, LogPost cfg M bound added s Q → wp M p Q s

/-- One frame. -/
theorem wp_writeRecord {Q : Post Sys DBError Unit} {s : Sys} {r : Record} (hfit : r.Fits)
    (hret : Q.ret () (appendActive s (frame cfg.crc r)))
    (herr : ∀ n, M .walFrame (.fail n) = true →
      Q.err (.io .walFrame) (appendActive s ((frame cfg.crc r).dropLast.take n)))
    (hkill : ∀ n, M .walFrame (.kill n) = true →
      Q.kill (appendActive s ((frame cfg.crc r).take n))) :
    wp M (writeRecord cfg r) Q s := by
  unfold writeRecord
  refine wp_bind (wp_ofExcept ?_ ?_)
  · intro payload hpayload
    have hok : encodeRecord r = .ok (encodePayload r) := encodeRecord_eq_ok.mpr ⟨hfit, rfl⟩
    rw [hok] at hpayload
    obtain rfl : encodePayload r = payload := Except.ok.inj hpayload
    exact wp_call hret herr hkill
  · intro e he
    have hok : encodeRecord r = .ok (encodePayload r) := encodeRecord_eq_ok.mpr ⟨hfit, rfl⟩
    rw [hok] at he
    cases he

/-- A failed frame write leaves a torn rest, or nothing when the model tears no frames. -/
theorem dropLast_take_cases {r : Record} (n : Nat) (hM : M .walFrame (.fail n) = true) :
    (frame cfg.crc r).dropLast.take n = [] ∨ TearsFrames M := by
  rcases Nat.eq_zero_or_pos n with rfl | hn
  · exact Or.inl (List.take_zero)
  · exact Or.inr ⟨n, by omega, hM⟩

theorem logs_writeRecord {bound : Nat} {r : Record} (hr : Framed bound [r])
    (hkind : r.batchKind = .none) : Logs cfg M bound [r] (writeRecord cfg r) := by
  intro s Q hQ
  have hfit : r.Fits := hr.fits r List.mem_cons_self
  have hone : frames cfg.crc [r] = frame cfg.crc r := by
    rw [frames_cons, frames_nil, List.append_nil]
  have hwhole := hQ.logged (Chunk.of_plain hr hkind)
  rw [hone, List.append_nil] at hwhole
  refine wp_writeRecord hfit hwhole ?_ ?_
  · intro n hM
    have ht : TornTail cfg.crc ((frame cfg.crc r).dropLast.take n) := tornTail_dropLast hfit n
    exact hQ.failed hM ⟨Framed.nil, ht, by simp⟩ (dropLast_take_cases n hM)
  · intro n hM
    by_cases hn : n < frameSize r
    · have ht : TornTail cfg.crc ((frame cfg.crc r).take n) := tornTail_take hfit hn
      exact hQ.killed hM ⟨Framed.nil, ht, by simp⟩
    · have hall := hQ.killedLogged hM (Chunk.of_plain hr hkind)
      rw [hone, List.append_nil] at hall
      rw [List.take_of_length_le (by rw [frame_length]; omega)]
      exact hall

/-! ### Batches -/

theorem frames_snoc (crc : Bytes → UInt32) (sent : List Record) (r : Record) :
    frames crc sent ++ frame crc r = frames crc (sent ++ [r]) := by
  rw [frames_append, frames_cons, frames_nil, List.append_nil]

section Batch

variable {bound : Nat} {added : List Record} {Q : Post Sys DBError Unit} {s : Sys}
  (hQ : LogPost cfg M bound added s Q)

include hQ

/-- One frame of a batch behind those `sent` before it. It fails or dies as the whole batch
does, except that when it is complete `hall` decides. -/
theorem wp_batchFrame {sent : List Record} {r : Record} (hsent : Framed bound sent)
    (hbuf : ∀ x ∈ sent, x.batchKind = .begin ∨ x.batchKind = .operation) (hfit : r.Fits)
    {K : Sys → Prop} (hnext : K (appendActive s (frames cfg.crc (sent ++ [r]))))
    (hall : ∀ {n}, M .walFrame (.kill n) = true →
      Q.kill (appendActive s (frames cfg.crc (sent ++ [r])))) :
    wp M (writeRecord cfg r) ⟨fun _ t => K t, Q.err, Q.kill⟩
      (appendActive s (frames cfg.crc sent)) := by
  refine wp_writeRecord hfit ?_ ?_ ?_
  · rw [appendActive_appendActive, frames_snoc]
    exact hnext
  · intro n hM
    rw [appendActive_appendActive]
    exact hQ.failed hM (.of_buffered hsent hbuf (tornTail_dropLast hfit n))
      (dropLast_take_cases n hM)
  · intro n hM
    rw [appendActive_appendActive]
    by_cases hn : n < frameSize r
    · exact hQ.killed hM (.of_buffered hsent hbuf (tornTail_take hfit hn))
    · rw [List.take_of_length_le (by rw [frame_length]; omega), frames_snoc]
      exact hall hM

/-- A begin or operation frame. -/
theorem wp_bufferedFrame {sent : List Record} {r : Record} (hsent : Framed bound (sent ++ [r]))
    (hbuf : ∀ x ∈ sent ++ [r], x.batchKind = .begin ∨ x.batchKind = .operation)
    {K : Sys → Prop} (hnext : K (appendActive s (frames cfg.crc (sent ++ [r])))) :
    wp M (writeRecord cfg r) ⟨fun _ t => K t, Q.err, Q.kill⟩
      (appendActive s (frames cfg.crc sent)) := by
  refine wp_batchFrame hQ (hsent.of_sub fun x hx => List.mem_append_left _ hx)
    (fun x hx => hbuf x (List.mem_append_left _ hx)) (hsent.fits r (by simp)) hnext ?_
  intro n hM
  have hdead := hQ.killed hM (.of_buffered hsent hbuf (TornTail.nil cfg.crc))
  rwa [List.append_nil] at hdead

end Batch

theorem logs_writeBatch {bound : Nat} {id : UInt64} {recs : List Record}
    (hframed : Framed bound (batchRecords id recs)) (hplain : ∀ r ∈ recs, r.plain = r)
    (sync : Bool) : Logs cfg M bound recs (writeBatch cfg id recs sync) := by
  intro s Q hQ
  have hbatch : Chunk cfg.crc bound recs (batchRecords id recs) [] := .of_batch hframed hplain
  have hsplit : batchRecords id recs =
      (beginRecord id :: recs.map (operationRecord id)) ++ [commitRecord id] := rfl
  have hbuf : ∀ x ∈ beginRecord id :: recs.map (operationRecord id),
      x.batchKind = .begin ∨ x.batchKind = .operation := by
    intro x hx
    rcases List.mem_cons.mp hx with rfl | hx
    · exact Or.inl rfl
    · obtain ⟨_, -, rfl⟩ := List.mem_map.mp hx
      exact Or.inr rfl
  have hsub : ∀ x ∈ beginRecord id :: recs.map (operationRecord id), x ∈ batchRecords id recs :=
    fun x hx => hsplit ▸ List.mem_append_left _ hx
  unfold writeBatch
  -- the begin frame
  refine wp_bind ?_
  have hbegin : ∀ x ∈ [] ++ [beginRecord id],
      x ∈ beginRecord id :: recs.map (operationRecord id) :=
    fun x hx => List.mem_cons.mpr (Or.inl (by simpa using hx))
  rw [← appendActive_nil s, ← frames_nil cfg.crc]
  refine wp_bufferedFrame hQ (hframed.of_sub fun x hx => hsub x (hbegin x hx))
    (fun x hx => hbuf x (hbegin x hx)) ?_
  -- the operation frames: those already sent and those to come make up the batch
  refine wp_bind (wp_forEach
    (fun todo t => ∃ done, done ++ todo = recs ∧
      t = appendActive s (frames cfg.crc (beginRecord id :: done.map (operationRecord id))))
    ?_ ?_ ⟨[], rfl, by rw [List.nil_append, List.map_nil]⟩)
  · intro r todo t hI
    obtain ⟨done, hrecs, rfl⟩ := hI
    have hmem : ∀ x ∈ (beginRecord id :: done.map (operationRecord id)) ++ [operationRecord id r],
        x ∈ beginRecord id :: recs.map (operationRecord id) := by
      intro x hx
      rw [← hrecs, List.map_append, List.map_cons]
      rcases List.mem_append.mp hx with hx | hx
      · rcases List.mem_cons.mp hx with rfl | hx
        · exact List.mem_cons_self
        · exact List.mem_cons_of_mem _ (List.mem_append_left _ hx)
      · rw [List.mem_singleton.mp hx]
        exact List.mem_cons_of_mem _ (List.mem_append_right _ List.mem_cons_self)
    refine wp_bufferedFrame hQ (hframed.of_sub fun x hx => hsub x (hmem x hx))
      (fun x hx => hbuf x (hmem x hx)) ⟨done ++ [r], by simpa using hrecs, ?_⟩
    rw [List.map_append, List.map_singleton, List.cons_append]
  · intro t hI
    obtain ⟨done, hrecs, rfl⟩ := hI
    obtain rfl : done = recs := by simpa using hrecs
    -- the commit frame
    refine wp_bind (wp_batchFrame hQ (hframed.of_sub hsub) hbuf ?_ ?_ ?_)
    · exact hframed.fits _ (by rw [hsplit]; simp)
    · rw [← hsplit]
      have hlogged := hQ.logged hbatch
      rw [List.append_nil] at hlogged
      by_cases hsync : sync = true
      · rw [if_pos hsync]
        refine wp_call hlogged ?_ ?_
        · intro n hM
          have hfail := hQ.unsynced hM hbatch
          rwa [List.append_nil] at hfail
        · intro n hM
          have hdead := hQ.killedLogged hM hbatch
          rwa [List.append_nil] at hdead
      · rw [if_neg hsync]
        exact wp_pure hlogged
    · intro n hM
      rw [← hsplit]
      have hdead := hQ.killedLogged hM hbatch
      rwa [List.append_nil] at hdead

end HyphaDB.Refine
