import HyphaDB.Wal.Batch

/-!
# HyphaDB.Wal.Segment

**Segments as the engine leaves them.** A segment file is empty, or it is a header, whole
frames, and the torn rest of a write that did not finish. `applied` is what its replay
puts into the memtable; the lemmas say what one more write adds to it.

A segment that may be appended to has no torn rest (`Clean`): bytes written behind one are
lost, or worse.
-/

namespace HyphaDB.Wal

variable (crc : Bytes → UInt32)

/-- The records the replay of a segment puts, in log order. -/
def applied (file : Bytes) : List Record := (replayFrames crc (file.drop walHeaderSize)).1.puts

/-- Whole frames that fit their format, with identifiers up to `bound`. -/
structure Framed (bound : Nat) (recs : List Record) : Prop where
  fits : ∀ r ∈ recs, r.Fits
  seq_le : ∀ r ∈ recs, r.seq.toNat ≤ bound
  batch_le : ∀ r ∈ recs, r.batchID.toNat ≤ bound

/-- A segment that ends on a frame boundary. -/
inductive Clean (bound : Nat) : Bytes → Prop
  | whole (recs : List Record) (h : Framed bound recs) : Clean bound (walHeader ++ frames crc recs)

/-- A segment as a process may leave it. -/
inductive Segment (bound : Nat) : Bytes → Prop
  | empty : Segment bound []
  | torn (file t : Bytes) (h : Clean crc bound file) (ht : TornTail crc t) :
      Segment bound (file ++ t)

variable {crc} {bound : Nat}

theorem Framed.nil : Framed bound [] := ⟨by simp, by simp, by simp⟩

theorem Framed.of_sub {bound : Nat} {xs ys : List Record} (h : Framed bound ys)
    (hsub : ∀ r ∈ xs, r ∈ ys) : Framed bound xs :=
  ⟨fun r hr => h.fits r (hsub r hr), fun r hr => h.seq_le r (hsub r hr),
    fun r hr => h.batch_le r (hsub r hr)⟩

theorem Framed.append {xs ys : List Record} (hx : Framed bound xs) (hy : Framed bound ys) :
    Framed bound (xs ++ ys) := by
  refine ⟨?_, ?_, ?_⟩ <;> intro r hr <;> rcases List.mem_append.mp hr with h | h
  · exact hx.fits r h
  · exact hy.fits r h
  · exact hx.seq_le r h
  · exact hy.seq_le r h
  · exact hx.batch_le r h
  · exact hy.batch_le r h

theorem Framed.mono {b : Nat} {recs : List Record} (h : Framed bound recs) (hb : bound ≤ b) :
    Framed b recs :=
  ⟨h.fits, fun r hr => (h.seq_le r hr).trans hb, fun r hr => (h.batch_le r hr).trans hb⟩

theorem Clean.mono {b : Nat} {file : Bytes} (h : Clean crc bound file) (hb : bound ≤ b) :
    Clean crc b file := by
  obtain ⟨recs, h⟩ := h
  exact .whole recs (h.mono hb)

theorem Clean.segment {file : Bytes} (h : Clean crc bound file) : Segment crc bound file := by
  have := Segment.torn file [] h (TornTail.nil crc)
  rwa [List.append_nil] at this

theorem Segment.mono {b : Nat} {file : Bytes} (h : Segment crc bound file) (hb : bound ≤ b) :
    Segment crc b file := by
  cases h with
  | empty => exact .empty
  | torn file t h ht => exact .torn file t (h.mono hb) ht

theorem Clean.ne_nil {file : Bytes} (h : Clean crc bound file) : file ≠ [] := by
  obtain ⟨recs, -⟩ := h
  exact List.append_ne_nil_of_left_ne_nil (by decide) _

/-- A bare header. -/
theorem Clean.validate {file : Bytes} (h : Clean crc bound file) :
    validateWALHeader file = .ok () := by
  obtain ⟨recs, -⟩ := h
  exact validateWALHeader_walHeader _

theorem Clean.header : Clean crc bound walHeader := by
  have hnil : Clean crc bound (walHeader ++ frames crc []) := .whole [] Framed.nil
  rwa [frames_nil, List.append_nil] at hnil

/-! ### What is applied -/

@[simp] theorem applied_nil : applied crc [] = [] := rfl

@[simp] theorem applied_header : applied crc walHeader = [] := by
  have hnil : ∀ r ∈ ([] : List Record), r.Fits := by simp
  unfold applied
  rw [show walHeader.drop walHeaderSize = frames crc [] ++ [] from rfl,
    replayFrames_frames crc hnil (TornTail.nil crc)]
  rfl

theorem applied_frames {recs : List Record} (hfit : ∀ r ∈ recs, r.Fits) {t : Bytes}
    (ht : TornTail crc t) :
    applied crc (walHeader ++ frames crc recs ++ t) = (ReplayState.run {} recs).puts := by
  unfold applied
  rw [List.append_assoc, List.drop_left' walHeader_length, replayFrames_frames crc hfit ht]

theorem applied_frames_clean {recs : List Record} (hfit : ∀ r ∈ recs, r.Fits) :
    applied crc (walHeader ++ frames crc recs) = (ReplayState.run {} recs).puts := by
  have := applied_frames hfit (TornTail.nil crc)
  rwa [List.append_nil] at this

/-- A torn rest is not applied. -/
theorem applied_torn {file t : Bytes} (h : Clean crc bound file) (ht : TornTail crc t) :
    applied crc (file ++ t) = applied crc file := by
  obtain ⟨recs, h⟩ := h
  rw [applied_frames h.fits ht, applied_frames_clean h.fits]

theorem frames_append_frames {recs more : List Record} :
    walHeader ++ frames crc recs ++ frames crc more = walHeader ++ frames crc (recs ++ more) := by
  rw [frames_append, List.append_assoc]

/-- Whole frames behind a clean segment leave it clean. -/
theorem Clean.append {file : Bytes} (h : Clean crc bound file) {recs : List Record}
    (hrecs : Framed bound recs) : Clean crc bound (file ++ frames crc recs) := by
  obtain ⟨old, h⟩ := h
  rw [frames_append_frames]
  exact .whole _ (h.append hrecs)

/-- What a list of frames behind a clean segment puts. -/
theorem applied_append {file : Bytes} (h : Clean crc bound file) {recs : List Record}
    (hrecs : Framed bound recs) {added : List Record}
    (hputs : ∀ st : ReplayState, (st.run recs).puts = st.puts ++ added) :
    applied crc (file ++ frames crc recs) = applied crc file ++ added := by
  obtain ⟨old, h⟩ := h
  rw [frames_append_frames, applied_frames_clean (h.append hrecs).fits,
    applied_frames_clean h.fits, ReplayState.run_append, hputs]

/-- Bytes that one write leaves behind a clean segment: whole frames that put `added`, and a
torn rest. -/
structure Chunk (crc : Bytes → UInt32) (bound : Nat) (added recs : List Record) (t : Bytes) :
    Prop where
  framed : Framed bound recs
  torn : TornTail crc t
  puts : ∀ st : ReplayState, (st.run recs).puts = st.puts ++ added

section Chunk

variable {file t : Bytes} {added recs : List Record} (h : Clean crc bound file)
  (hc : Chunk crc bound added recs t)

include h hc

theorem Chunk.segment : Segment crc bound (file ++ (frames crc recs ++ t)) := by
  rw [← List.append_assoc]
  exact .torn _ t (h.append hc.framed) hc.torn

theorem Chunk.clean (ht : t = []) : Clean crc bound (file ++ (frames crc recs ++ t)) := by
  rw [ht, List.append_nil]
  exact h.append hc.framed

theorem Chunk.applied :
    applied crc (file ++ (frames crc recs ++ t)) = applied crc file ++ added := by
  rw [← List.append_assoc, applied_torn (h.append hc.framed) hc.torn,
    applied_append h hc.framed hc.puts]

end Chunk

/-- Begin and operation frames, and the start of one more frame, put nothing. -/
theorem Chunk.of_buffered {recs : List Record} (hrecs : Framed bound recs)
    (hbuf : ∀ r ∈ recs, r.batchKind = .begin ∨ r.batchKind = .operation) {t : Bytes}
    (ht : TornTail crc t) : Chunk crc bound [] recs t :=
  ⟨hrecs, ht, fun st => by rw [run_puts_of_buffered hbuf, List.append_nil]⟩

theorem Chunk.of_plain {r : Record} (hr : Framed bound [r]) (hkind : r.batchKind = .none) :
    Chunk crc bound [r] [r] [] := by
  refine ⟨hr, TornTail.nil crc, fun st => ?_⟩
  simp [ReplayState.apply, hkind]

theorem Chunk.of_batch {id : UInt64} {recs : List Record}
    (hrecs : Framed bound (batchRecords id recs)) (hplain : ∀ r ∈ recs, r.plain = r) :
    Chunk crc bound recs (batchRecords id recs) [] := by
  refine ⟨hrecs, TornTail.nil crc, fun st => ?_⟩
  rw [run_batchRecords]
  congr 1
  exact (List.map_congr_left hplain).trans (List.map_id' recs)

/-- A proper prefix of a frame is a torn rest. -/
theorem tornTail_take {r : Record} (hfit : r.Fits) {n : Nat} (hn : n < frameSize r) :
    TornTail crc ((frame crc r).take n) := ⟨r, hfit, n, hn, rfl⟩

theorem tornTail_dropLast {r : Record} (hfit : r.Fits) (n : Nat) :
    TornTail crc ((frame crc r).dropLast.take n) := by
  have hpos := frameSize_pos r
  rw [List.dropLast_eq_take, List.take_take, frame_length]
  exact tornTail_take hfit (by omega)

/-- The loop tells a clean end from a torn one. -/
theorem Segment.clean {file : Bytes} (h : Segment crc bound file) (hne : file ≠ [])
    (hend : (replayFrames crc (file.drop walHeaderSize)).2 = .clean) : Clean crc bound file := by
  cases h with
  | empty => exact absurd rfl hne
  | torn file t h ht =>
      obtain ⟨recs, h⟩ := h
      rw [List.append_assoc, List.drop_left' walHeader_length, replayFrames_frames crc h.fits ht]
        at hend
      have hnil : t = [] := by
        unfold tailEnd at hend
        by_contra hne
        rw [if_neg hne] at hend
        cases hend
      rw [hnil, List.append_nil]
      exact .whole recs h

/-! ### Sequence numbers -/

/-- Everything put or buffered has a sequence number in `P`. -/
structure SeqsIn (P : UInt64 → Prop) (st : ReplayState) : Prop where
  puts : ∀ r ∈ st.puts, P r.seq
  pending : ∀ id recs, st.pending id = some recs → ∀ r ∈ recs, P r.seq

section Seqs

variable {P : UInt64 → Prop}

theorem SeqsIn.update {st : ReplayState} (h : SeqsIn P st) {id : UInt64}
    {new : Option (List Record)} (hnew : ∀ recs, new = some recs → ∀ r ∈ recs, P r.seq) :
    ∀ id' recs, Function.update st.pending id new id' = some recs → ∀ r ∈ recs, P r.seq := by
  intro id' recs heq
  by_cases hid : id' = id
  · rw [hid, Function.update_self] at heq
    exact hnew recs heq
  · rw [Function.update_of_ne hid] at heq
    exact h.pending id' recs heq

theorem SeqsIn.apply {st : ReplayState} (h : SeqsIn P st) {rec : Record} (hrec : P rec.seq)
    (len : Nat) : SeqsIn P (st.apply rec len) := by
  unfold ReplayState.apply
  cases rec.batchKind with
  | none =>
      refine ⟨fun r hr => ?_, h.pending⟩
      rcases List.mem_append.mp hr with hr | hr
      · exact h.puts r hr
      · exact List.mem_singleton.mp hr ▸ hrec
  | begin =>
      refine ⟨h.puts, h.update fun recs heq r hr => ?_⟩
      obtain rfl := Option.some.inj heq
      cases hr
  | operation =>
      dsimp only
      split
      · rename_i recs hrecs
        refine ⟨h.puts, h.update fun recs' heq r hr => ?_⟩
        obtain rfl := Option.some.inj heq
        rcases List.mem_append.mp hr with hr | hr
        · exact h.pending _ _ hrecs r hr
        · exact List.mem_singleton.mp hr ▸ hrec
      · exact ⟨h.puts, h.pending⟩
  | commit =>
      dsimp only
      split
      · rename_i recs hrecs
        refine ⟨fun r hr => ?_, h.update fun _ heq => by cases heq⟩
        rcases List.mem_append.mp hr with hr | hr
        · exact h.puts r hr
        · obtain ⟨x, hx, rfl⟩ := List.mem_map.mp hr
          exact h.pending _ _ hrecs x hx
      · exact ⟨h.puts, h.pending⟩

theorem SeqsIn.run {st : ReplayState} (h : SeqsIn P st) {recs : List Record}
    (hrecs : ∀ r ∈ recs, P r.seq) : SeqsIn P (st.run recs) := by
  induction recs generalizing st with
  | nil => exact h
  | cons rec recs ih =>
      rw [ReplayState.run_cons]
      exact ih (h.apply (hrecs rec List.mem_cons_self) _)
        fun r hr => hrecs r (List.mem_cons_of_mem _ hr)

end Seqs

theorem le_foldl_max {s : UInt64} {xs : List UInt64} {m : UInt64} (h : s ≤ m ∨ s ∈ xs) :
    s ≤ xs.foldl max m := by
  induction xs generalizing m with
  | nil => exact h.resolve_right (by simp)
  | cons x xs ih =>
      rw [List.foldl_cons]
      refine ih ?_
      rcases h with h | h
      · exact Or.inl (h.trans (le_max_left _ _))
      · rcases List.mem_cons.mp h with rfl | h
        · exact Or.inl (le_max_right _ _)
        · exact Or.inr h

theorem foldl_max_le {b : Nat} {xs : List UInt64} {m : UInt64} (hm : m.toNat ≤ b)
    (h : ∀ x ∈ xs, x.toNat ≤ b) : (xs.foldl max m).toNat ≤ b := by
  induction xs generalizing m with
  | nil => exact hm
  | cons x xs ih =>
      rw [List.foldl_cons]
      refine ih ?_ fun y hy => h y (List.mem_cons_of_mem _ hy)
      rcases max_choice m x with heq | heq
      · rw [heq]
        exact hm
      · rw [heq]
        exact h x List.mem_cons_self

/-- What the engine may rely on when it replays a segment. -/
structure Replays (crc : Bytes → UInt32) (bound : Nat) (file : Bytes) (mt : MemTable)
    (replay : Replay) : Prop where
  memtable : replay.memtable = mt.putAll (applied crc file)
  clean : replay.file = [] ∨ Clean crc bound replay.file
  applied : applied crc replay.file = applied crc file
  kept : ¬ replay.file.length < file.length → replay.file = file
  result : ∃ stats : ReplayStats, replay.result = .ok stats ∧ stats.maxSequence.toNat ≤ bound ∧
    ∀ r ∈ Wal.applied crc file, r.seq ≤ stats.maxSequence

theorem Segment.replays {file : Bytes} (h : Segment crc bound file) (mt : MemTable) :
    Replays crc bound file mt (replayInto crc file mt) := by
  cases h with
  | empty =>
      refine ⟨rfl, Or.inl rfl, rfl, fun _ => rfl, {}, rfl, Nat.zero_le _, ?_⟩
      exact fun r hr => by simp at hr
  | torn file t h ht =>
      obtain ⟨recs, h⟩ := h
      rw [replayInto_segment crc h.fits ht]
      refine ⟨by rw [applied_frames h.fits ht], Or.inr (.whole recs h), ?_, ?_, _, rfl, ?_, ?_⟩
      · rw [applied_frames h.fits ht, applied_frames_clean h.fits]
      · intro hlen
        have ht : t = [] := by
          simp only [List.length_append] at hlen
          exact List.length_eq_zero_iff.mp (by omega)
        rw [ht, List.append_nil]
      · rw [run_stats]
        refine foldl_max_le (Nat.zero_le _) fun x hx => ?_
        obtain ⟨r, hr, hx⟩ := List.mem_flatMap.mp hx
        rcases List.mem_cons.mp hx with rfl | hx
        · exact h.seq_le r hr
        · rw [List.mem_singleton.mp hx]
          exact h.batch_le r hr
      · rw [applied_frames h.fits ht, run_stats]
        have hin : SeqsIn (fun s => s ≤ (recs.flatMap fun r => [r.seq, r.batchID]).foldl max
            (ReplayState.stats {}).maxSequence) (ReplayState.run {} recs) := by
          refine SeqsIn.run ⟨by simp, by simp⟩ fun r hr => le_foldl_max (Or.inr ?_)
          exact List.mem_flatMap.mpr ⟨r, hr, List.mem_cons_self⟩
        exact hin.puts

end HyphaDB.Wal
