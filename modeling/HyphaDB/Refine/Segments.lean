import HyphaDB.Refine.Log

/-!
# HyphaDB.Refine.Segments

Segments of a directory: what an append to one of them and the creation of a new one do to
the view and to what the engine maintains.
-/

namespace HyphaDB.Refine

open Faults Store Wal

variable {cfg : Config} {g : Guard} {M : Model Call} {used : Nat} {d : Disk} {db : DB}

/-! ### Appending -/

theorem appendLog_nil (id : Nat) (logs : List (Nat × List Record)) :
    appendLog id [] logs = logs := by
  unfold appendLog
  refine (List.map_congr_left fun p _ => ?_).trans (List.map_id' logs)
  by_cases hid : p.1 = id
  · rw [if_pos hid, List.append_nil]
  · rw [if_neg hid]

theorem logsOf_appendWal {id : Nat} {bytes : Bytes} {added : List Record}
    (h : ∀ p ∈ d.wals, p.1 = id → applied cfg.crc (p.2 ++ bytes) = applied cfg.crc p.2 ++ added) :
    logsOf cfg (d.appendWal id bytes) = appendLog id added (logsOf cfg d) := by
  unfold logsOf appendLog
  rw [appendWal_wals, List.map_map, List.map_map]
  refine List.map_congr_left fun p hp => ?_
  by_cases hid : p.1 = id
  · simp [hid, h p hp hid]
  · simp [hid]

theorem DiskSound.appendWal (h : DiskSound cfg g used d) {id : Nat} {bytes : Bytes}
    (hseg : ∀ p ∈ d.wals, p.1 = id → Segment cfg.crc used (p.2 ++ bytes)) :
    DiskSound cfg g used (d.appendWal id bytes) := by
  refine h.setWals (d.appendWal id bytes).wals ?_ ?_ ?_
  · have hids : ((d.appendWal id bytes).wals.map Prod.fst).Pairwise (· < ·) := by
      rw [appendWal_ids]
      exact List.pairwise_map.mpr h.sorted
    exact List.pairwise_map.mp hids
  · intro q hq
    obtain ⟨p, hp, -, hfile⟩ := mem_appendWal hq
    rw [hfile]
    by_cases hid : p.1 = id
    · rw [if_pos hid]
      exact hseg p hp hid
    · rw [if_neg hid]
      exact h.segments p hp
  · intro hg
    rcases h.next hg with hnil | ⟨p, hp, hle⟩
    · refine Or.inl ?_
      rw [appendWal_wals, hnil, List.map_nil]
    · obtain ⟨q, hq, hid⟩ := exists_mem_appendWal hp id bytes
      exact Or.inr ⟨q, hq, hid ▸ hle⟩

/-- Bytes behind the active segment. -/
theorem ProcSound.appendWal (h : ProcSound cfg g M used d db) {bytes : Bytes}
    (hclean : TearsFrames M ∨ ∀ p ∈ d.wals, p.1 = db.wal → Clean cfg.crc used (p.2 ++ bytes)) :
    ProcSound cfg g M used (d.appendWal db.wal bytes) db := by
  refine h.setWals (d.appendWal db.wal bytes).wals ?_ ?_ ?_ ?_
  · intro q hq
    obtain ⟨p, hp, hid, -⟩ := mem_appendWal hq
    exact hid ▸ h.wals_le p hp
  · obtain ⟨p, hp, hid⟩ := h.active
    obtain ⟨q, hq, hqid⟩ := exists_mem_appendWal hp db.wal bytes
    exact ⟨q, hq, hqid.trans hid⟩
  · intro q hq hw
    obtain ⟨p, hp, hid, hfile⟩ := mem_appendWal hq
    rw [hfile, if_pos (hid.symm.trans hw)]
    exact List.append_ne_nil_of_left_ne_nil (h.header p hp (hid.symm.trans hw)) _
  · refine hclean.imp_right fun hclean q hq hw => ?_
    obtain ⟨p, hp, hid, hfile⟩ := mem_appendWal hq
    rw [hfile, if_pos (hid.symm.trans hw)]
    exact hclean p hp (hid.symm.trans hw)

section Chunk

variable {added recs : List Record} {t : Bytes} (hclean : ActiveClean cfg used d db)
  (hc : Chunk cfg.crc used added recs t)

include hclean hc

theorem DiskSound.chunk (h : DiskSound cfg g used d) :
    DiskSound cfg g used (d.appendWal db.wal (frames cfg.crc recs ++ t)) :=
  h.appendWal fun p hp hw => hc.segment (hclean p hp hw)

theorem ProcSound.chunk (h : ProcSound cfg g M used d db) (ht : t = [] ∨ TearsFrames M) :
    ProcSound cfg g M used (d.appendWal db.wal (frames cfg.crc recs ++ t)) db := by
  refine h.appendWal ?_
  rcases ht with ht | ht
  · exact Or.inr fun p hp hw => hc.clean (hclean p hp hw) ht
  · exact Or.inl ht

theorem logsOf_chunk : logsOf cfg (d.appendWal db.wal (frames cfg.crc recs ++ t)) =
    appendLog db.wal added (logsOf cfg d) :=
  logsOf_appendWal fun p hp hw => hc.applied (hclean p hp hw)

end Chunk

/-! ### Looking a segment up -/

theorem wal?_eq_none {id : Nat} (h : ∀ p ∈ d.wals, p.1 ≠ id) : d.wal? id = none := by
  unfold Disk.wal?
  rw [List.lookup_eq_none_iff]
  exact fun p hp => by simpa using (h p hp).symm

theorem wal?_eq_some (hsorted : d.wals.Pairwise (fun p q => p.1 < q.1)) {p : Nat × Bytes}
    (hp : p ∈ d.wals) : d.wal? p.1 = some p.2 := by
  unfold Disk.wal?
  generalize d.wals = wals at hsorted hp
  induction wals with
  | nil => cases hp
  | cons q wals ih =>
      obtain ⟨hq, hwals⟩ := List.pairwise_cons.mp hsorted
      rcases List.mem_cons.mp hp with rfl | hp
      · rw [List.lookup_cons, beq_self_eq_true]
      · have hne : (p.1 == q.1) = false := beq_eq_false_iff_ne.mpr (hq p hp).ne'
        rw [List.lookup_cons, hne]
        exact ih hwals hp

theorem putWal_fresh {id : Nat} {file : Bytes} {wals : List (Nat × Bytes)}
    (h : ∀ p ∈ wals, p.1 < id) : Disk.putWal id file wals = wals ++ [(id, file)] := by
  induction wals with
  | nil => rfl
  | cons p wals ih =>
      obtain ⟨i, f⟩ := p
      have hlt : i < id := h (i, f) List.mem_cons_self
      unfold Disk.putWal
      rw [if_neg (by omega), if_neg (by omega), ih fun p hp => h p (List.mem_cons_of_mem _ hp)]
      rfl

/-! ### A new segment -/

/-- The directory with a segment behind the others. -/
def addWal (d : Disk) (id : Nat) (file : Bytes) : Disk := { d with wals := d.wals ++ [(id, file)] }

/-- How far the creation of a segment may have come. -/
inductive Created (d : Disk) (id : Nat) : Disk → Prop
  | nothing : Created d id d
  | file : Created d id (addWal d id [])
  | header : Created d id (addWal d id walHeader)

theorem addWal_append {id : Nat} (h : ∀ p ∈ d.wals, p.1 < id) (bytes : Bytes) :
    (addWal d id []).appendWal id bytes = addWal d id bytes := by
  have hwals : ((addWal d id []).appendWal id bytes).wals = d.wals ++ [(id, bytes)] := by
    rw [appendWal_wals]
    unfold addWal
    rw [List.map_append, List.map_singleton, if_pos rfl, List.nil_append]
    congr 1
    exact (List.map_congr_left fun p hp => by rw [if_neg (h p hp).ne]).trans (List.map_id' d.wals)
  exact congrArg (fun ws => { d with wals := ws }) hwals

/-- The errors of a creation that failed as the model allows. -/
def SegmentError (M : Model Call) (e : DBError) : Prop :=
  ∃ c n, e = .io c ∧ M c (.fail n) = true ∧
    (c = .segmentOpen ∨ c = .segmentHeader ∨ c = .segmentSync ∨ c = .segmentSyncDir)

/-- They leave the caller in the dark. -/
theorem SegmentError.unsettled {e : DBError} (h : SegmentError M e) : e.unsettled = true := by
  obtain ⟨c, n, rfl, -, rfl | rfl | rfl | rfl⟩ := h <;> rfl

theorem written_header_kill {n : Nat} (h : n = 0 ∨ walHeaderSize ≤ n) :
    written walHeader (.kill n) = [] ∨ written walHeader (.kill n) = walHeader := by
  rcases h with rfl | h
  · exact Or.inl rfl
  · exact Or.inr (List.take_of_length_le h)

section New

variable {id : Nat} {Q : Post Disk DBError Unit} (ha : Allowed g M)

include ha

/-- The header and the two syncs behind it, on a file that is empty. -/
theorem wp_writeHeader (hret : Q.ret () (d.appendWal id walHeader))
    (herr : g.rotateFail → ∀ e d', SegmentError M e → d' = d ∨ d' = d.appendWal id walHeader →
      Q.err e d')
    (hkill : g.crash → ∀ d', d' = d ∨ d' = d.appendWal id walHeader → Q.kill d') :
    wp M (do
      Prog.call .segmentHeader (.io .segmentHeader) fun d fate =>
        d.appendWal id (written walHeader fate)
      Prog.call .segmentSync (.io .segmentSync) fun d _ => d
      Prog.call .segmentSyncDir (.io .segmentSyncDir) fun d _ => d) Q d := by
  refine wp_bind (wp_call ?_ ?_ ?_)
  · refine wp_bind (wp_call (wp_call hret ?_ ?_) ?_ ?_)
    · intro n hM
      exact herr (ha.segment hM (by simp)) _ _ ⟨_, n, rfl, hM, by simp⟩ (Or.inr rfl)
    · exact fun n hM => hkill (ha.kill hM) _ (Or.inr rfl)
    · intro n hM
      exact herr (ha.segment hM (by simp)) _ _ ⟨_, n, rfl, hM, by simp⟩ (Or.inr rfl)
    · exact fun n hM => hkill (ha.kill hM) _ (Or.inr rfl)
  · intro n hM
    obtain rfl := ha.header_fail hM
    refine herr (ha.segment hM (by simp)) _ _ ⟨_, _, rfl, hM, by simp⟩ (Or.inl ?_)
    exact appendWal_nil d id
  · intro n hM
    refine hkill (ha.kill hM) _ ?_
    rcases written_header_kill (ha.header_kill hM) with heq | heq
    · rw [heq]
      exact Or.inl (appendWal_nil d id)
    · rw [heq]
      exact Or.inr rfl

/-- A segment with a number above all others. -/
theorem wp_newSegment_fresh (hid : ∀ p ∈ d.wals, p.1 < id) (hret : Q.ret () (addWal d id walHeader))
    (herr : g.rotateFail → ∀ e d', SegmentError M e → Created d id d' → Q.err e d')
    (hkill : g.crash → ∀ d', Created d id d' → Q.kill d') : wp M (newSegmentInDir id) Q d := by
  have hnone : d.wal? id = none := wal?_eq_none fun p hp => (hid p hp).ne
  have hset : d.setWal id [] = addWal d id [] :=
    congrArg (fun ws => { d with wals := ws }) (putWal_fresh hid)
  have hfile : (addWal d id []).wal? id = some [] := by
    unfold addWal Disk.wal?
    rw [List.lookup_append, show d.wals.lookup id = none from hnone]
    simp
  have hopened : (if d.wal? id = none then d.setWal id [] else d) = addWal d id [] := by
    rw [if_pos hnone, hset]
  unfold newSegmentInDir
  refine wp_bind (wp_call ?_ ?_ ?_)
  · show wp M _ Q (if d.wal? id = none then d.setWal id [] else d)
    rw [hopened]
    refine wp_bind (wp_get ?_)
    dsimp only
    rw [hfile]
    refine wp_writeHeader ha ?_ ?_ ?_
    · rw [addWal_append hid]
      exact hret
    · intro hg e d' he hd'
      rw [addWal_append hid] at hd'
      rcases hd' with rfl | rfl
      · exact herr hg e _ he .file
      · exact herr hg e _ he .header
    · intro hg d' hd'
      rw [addWal_append hid] at hd'
      rcases hd' with rfl | rfl
      · exact hkill hg _ .file
      · exact hkill hg _ .header
  · exact fun n hM => herr (ha.segment hM (by simp)) _ _ ⟨_, n, rfl, hM, by simp⟩ .nothing
  · intro n hM
    cases n with
    | zero => exact hkill (ha.kill hM) _ .nothing
    | succ n =>
        show Q.kill (if d.wal? id = none then d.setWal id [] else d)
        rw [hopened]
        exact hkill (ha.kill hM) _ .file

/-- A segment that is there: its header is checked, or written when the file is empty. -/
theorem wp_newSegment_existing (hsorted : d.wals.Pairwise (fun p q => p.1 < q.1))
    {file : Bytes} (hmem : (id, file) ∈ d.wals)
    (hheader : file ≠ [] → validateWALHeader file = .ok ())
    (hret : Q.ret () (if file = [] then d.appendWal id walHeader else d))
    (herr : g.rotateFail → ∀ e d', SegmentError M e →
      d' = d ∨ file = [] ∧ d' = d.appendWal id walHeader → Q.err e d')
    (hkill : g.crash → ∀ d', d' = d ∨ file = [] ∧ d' = d.appendWal id walHeader → Q.kill d') :
    wp M (newSegmentInDir id) Q d := by
  have hsome : d.wal? id = some file := wal?_eq_some hsorted hmem
  have hopened : (if d.wal? id = none then d.setWal id [] else d) = d := by
    rw [if_neg (by rw [hsome]; simp)]
  unfold newSegmentInDir
  refine wp_bind (wp_call ?_ ?_ ?_)
  · show wp M _ Q (if d.wal? id = none then d.setWal id [] else d)
    rw [hopened]
    refine wp_bind (wp_get ?_)
    dsimp only
    rw [hsome]
    cases file with
    | nil =>
        refine wp_writeHeader ha hret ?_ ?_
        · exact fun hg e d' he hd' => herr hg e d' he (hd'.imp_right fun h => ⟨rfl, h⟩)
        · exact fun hg d' hd' => hkill hg d' (hd'.imp_right fun h => ⟨rfl, h⟩)
    | cons b bs =>
        refine wp_ofExcept (fun _ _ => hret) fun e he => ?_
        rw [show Option.getD (some (b :: bs)) [] = b :: bs from rfl, hheader (by simp)] at he
        cases he
  · exact fun n hM => herr (ha.segment hM (by simp)) _ _ ⟨_, n, rfl, hM, by simp⟩ (Or.inl rfl)
  · intro n hM
    refine hkill (ha.kill hM) _ (Or.inl ?_)
    cases n with
    | zero => rfl
    | succ n =>
        show (if d.wal? id = none then d.setWal id [] else d) = d
        exact hopened

end New

/-! ### What a creation leaves -/

variable (cfg) in
theorem addWal_logs (d : Disk) (id : Nat) {file : Bytes} (hfile : applied cfg.crc file = []) :
    logsOf cfg (addWal d id file) = logsOf cfg d ++ [(id, [])] := by
  unfold logsOf addWal
  rw [List.map_append, List.map_singleton, hfile]

variable (cfg) in
theorem Created.logs {id : Nat} {d' : Disk} (h : Created d id d') :
    logsOf cfg d' = logsOf cfg d ∨ logsOf cfg d' = logsOf cfg d ++ [(id, [])] := by
  cases h with
  | nothing => exact Or.inl rfl
  | file => exact Or.inr (addWal_logs cfg d id applied_nil)
  | header => exact Or.inr (addWal_logs cfg d id applied_header)

theorem Created.mem {id : Nat} {d' : Disk} (h : Created d id d') {p : Nat × Bytes}
    (hp : p ∈ d'.wals) : p ∈ d.wals ∨ p.1 = id := by
  cases h with
  | nothing => exact Or.inl hp
  | file | header =>
      rcases List.mem_append.mp hp with hp | hp
      · exact Or.inl hp
      · rw [List.mem_singleton.mp hp]
        exact Or.inr rfl

theorem Created.sub {id : Nat} {d' : Disk} (h : Created d id d') {p : Nat × Bytes}
    (hp : p ∈ d.wals) : p ∈ d'.wals := by
  cases h with
  | nothing => exact hp
  | file | header => exact List.mem_append_left _ hp

theorem Created.eq_wals {id : Nat} {d' : Disk} (h : Created d id d') :
    d' = { d with wals := d'.wals } := by
  cases h with
  | nothing | file | header => rfl

theorem Created.tabs {id : Nat} {d' : Disk} (h : Created d id d') : tabsOf d' = tabsOf d := by
  cases h with
  | nothing => rfl
  | file => rfl
  | header => rfl

theorem DiskSound.addWal (h : DiskSound cfg g used d) {id : Nat} (hid : ∀ p ∈ d.wals, p.1 < id)
    (hnext : (Manifest.read d.manifest).nextWALSegmentID ≤ id) {file : Bytes}
    (hfile : Segment cfg.crc used file) : DiskSound cfg g used (addWal d id file) := by
  refine h.setWals (d.wals ++ [(id, file)]) ?_ ?_ ?_
  · refine List.pairwise_append.mpr ⟨h.sorted, List.pairwise_singleton _ _, fun p hp q hq => ?_⟩
    rw [List.mem_singleton.mp hq]
    exact hid p hp
  · intro p hp
    rcases List.mem_append.mp hp with hp | hp
    · exact h.segments p hp
    · rw [List.mem_singleton.mp hp]
      exact hfile
  · exact fun _ => Or.inr ⟨_, List.mem_append_right _ List.mem_cons_self, hnext⟩

theorem Created.disk {id : Nat} {d' : Disk} (h : Created d id d') (hd : DiskSound cfg g used d)
    (hid : ∀ p ∈ d.wals, p.1 < id) (hnext : (Manifest.read d.manifest).nextWALSegmentID ≤ id) :
    DiskSound cfg g used d' := by
  cases h with
  | nothing => exact hd
  | file => exact hd.addWal hid hnext .empty
  | header => exact hd.addWal hid hnext Clean.header.segment

theorem logsOf_lt {id : Nat} (hid : ∀ p ∈ d.wals, p.1 < id) : ∀ p ∈ logsOf cfg d, p.1 < id := by
  intro p hp
  obtain ⟨q, hq, rfl⟩ := List.mem_map.mp hp
  exact hid q hq

end HyphaDB.Refine
