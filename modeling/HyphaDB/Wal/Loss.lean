import HyphaDB.Wal.CrashCut
import HyphaDB.Wal.Segment

/-!
# HyphaDB.Wal.Loss

**Segments that lose their end.** A power loss keeps some first part of a segment, behind its
synced header. What is left is a segment again, and replays to a first part of what it replayed to
(`Segment.take`).

The frames of one call count together or not at all: a segment that loses any byte of its last call
replays as if the call had never been made (`applied_take_call`).
-/

namespace HyphaDB.Wal

variable {crc : Bytes → UInt32} {bound : Nat}

theorem ReplayState.puts_prefix_apply (st : ReplayState) (rec : Record) (n : Nat) :
    st.puts <+: (st.apply rec n).puts := by
  unfold ReplayState.apply
  cases rec.batchKind with
  | none => exact List.prefix_append _ _
  | begin => exact List.prefix_rfl
  | operation =>
      dsimp only
      split
      · exact List.prefix_rfl
      · exact List.prefix_rfl
  | commit =>
      dsimp only
      split
      · exact List.prefix_append _ _
      · exact List.prefix_rfl

/-- More frames put more records. -/
theorem ReplayState.puts_prefix_run (st : ReplayState) (recs : List Record) :
    st.puts <+: (st.run recs).puts := by
  induction recs generalizing st with
  | nil => exact List.prefix_rfl
  | cons rec recs ih => exact (st.puts_prefix_apply rec _).trans (ih _)

theorem completeFrames_prefix (n off : Nat) (recs : List Record) :
    completeFrames n off recs <+: recs := by
  induction recs generalizing off with
  | nil => exact List.prefix_rfl
  | cons rec recs ih =>
      unfold completeFrames
      split
      · exact (List.prefix_append_right_inj [rec]).mpr (ih _)
      · exact List.nil_prefix

theorem TornTail.take {t : Bytes} (h : TornTail crc t) (n : Nat) : TornTail crc (t.take n) := by
  obtain ⟨rec, hfit, m, hm, rfl⟩ := h
  exact ⟨rec, hfit, min n m, by omega, List.take_take⟩

theorem Clean.header_le {file : Bytes} (h : Clean crc bound file) :
    walHeaderSize ≤ file.length := by
  obtain ⟨recs, -⟩ := h
  rw [List.length_append, walHeader_length]
  exact Nat.le_add_right _ _

/-- A part of a segment from its header on. -/
theorem Segment.take {file : Bytes} (h : Segment crc bound file) {n : Nat}
    (hn : walHeaderSize ≤ n) :
    Segment crc bound (file.take n) ∧ applied crc (file.take n) <+: applied crc file := by
  cases h with
  | empty =>
      rw [List.take_nil]
      exact ⟨.empty, List.prefix_rfl⟩
  | torn file t h ht =>
      by_cases hle : n ≤ file.length
      · -- the cut is in front of the torn rest
        rw [List.take_append_of_le_length hle, applied_torn h ht]
        obtain ⟨recs, hrecs⟩ := h
        rw [List.length_append, walHeader_length, frames_length] at hle
        obtain ⟨t', ht', hcut⟩ := frames_take crc hrecs.fits hn hle
        have htake : (walHeader ++ frames crc recs).take n =
            walHeader ++ frames crc (completeFrames n walHeaderSize recs) ++ t' := by
          rw [List.take_append, List.take_of_length_le (by rw [walHeader_length]; exact hn),
            walHeader_length, hcut, List.append_assoc]
        obtain ⟨rest, hrest⟩ := completeFrames_prefix n walHeaderSize recs
        have hframed : Framed bound (completeFrames n walHeaderSize recs) :=
          hrecs.of_sub fun r hr => hrest ▸ List.mem_append_left rest hr
        rw [htake, applied_frames hframed.fits ht', applied_frames_clean hrecs.fits]
        refine ⟨.torn _ _ (.whole _ hframed) ht', ?_⟩
        nth_rewrite 2 [← hrest]
        rw [ReplayState.run_append]
        exact ReplayState.puts_prefix_run _ _
      · rw [List.take_append, List.take_of_length_le (by omega), applied_torn h (ht.take _),
          applied_torn h ht]
        exact ⟨.torn file _ h (ht.take _), List.prefix_rfl⟩

/-- **A call that is not whole does not count.** -/
theorem applied_take_call {file : Bytes} (h : Clean crc bound file) {call : LogCall}
    (hfit : ∀ r ∈ call.records, r.Fits) {n : Nat}
    (hn : n < (file ++ frames crc call.records).length) :
    applied crc ((file ++ frames crc call.records).take n) = applied crc (file.take n) := by
  by_cases hle : n ≤ file.length
  · rw [List.take_append_of_le_length hle]
  · rw [List.length_append, frames_length] at hn
    obtain ⟨t, ht, hcut⟩ := frames_take crc hfit (Nat.le_of_not_le hle) hn.le
    rw [List.take_append, List.take_of_length_le (by omega), hcut]
    obtain ⟨recs, hrecs⟩ := h
    obtain ⟨rest, hrest⟩ := completeFrames_prefix n
      (walHeader ++ frames crc recs).length call.records
    have hall : ∀ r ∈ recs ++ completeFrames n (walHeader ++ frames crc recs).length call.records,
        r.Fits := by
      intro r hr
      rcases List.mem_append.mp hr with hr | hr
      · exact hrecs.fits r hr
      · exact hfit r (hrest ▸ List.mem_append_left rest hr)
    rw [← List.append_assoc, List.append_assoc walHeader, ← frames_append, applied_frames hall ht,
      ReplayState.run_append, run_partial_puts _ hn, applied_frames_clean hrecs.fits]

end HyphaDB.Wal
