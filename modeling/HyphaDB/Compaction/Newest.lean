import HyphaDB.Compaction.Merge

/-!
# HyphaDB.Compaction.Newest

**What a merge leaves of each key.** The newest version of a key over several tables is the
one with the largest sequence number, and among copies of that number the one of the last
table (`newestVersion`). The heap hands out the records so that this version comes before
every other visible one (`find_popAll`), and the loop never drops it unless it may
(`mergeRecords_semantics`).

Two tables can hold different records under one key and sequence number, so the argument
follows the records with the index of their table through the merge and does not go by sets
of records.
-/

namespace HyphaDB.Compaction

open Versions

/-- The newest version of a key at or below `s`: the largest sequence number over all
tables, on a tie that of the later table. -/
def newestVersion (tables : List (List Record)) (k : Key) (s : UInt64) : Option Record :=
  tables.foldr (fun recs best => better Record.seq best (recs.find? (visible k s))) none

/-! ### Records with the index of their table -/

/-- The records with the index of their table, as the heap gets them. -/
def indexed (tables : List (List Record)) : List (List (Record × Nat)) :=
  tables.zipIdx.map fun p => p.1.map (·, p.2)

theorem mem_indexed {tables : List (List Record)} {as : List (Record × Nat)} :
    as ∈ indexed tables ↔
      ∃ (i : Nat) (recs : List Record), tables[i]? = some recs ∧ as = recs.map (·, i) := by
  unfold indexed
  rw [List.mem_map]
  constructor
  · intro h
    obtain ⟨⟨recs, i⟩, hmem, rfl⟩ := h
    exact ⟨i, recs, List.mem_zipIdx_iff_getElem?.mp hmem, rfl⟩
  · intro h
    obtain ⟨i, recs, hget, rfl⟩ := h
    exact ⟨(recs, i), List.mem_zipIdx_iff_getElem?.mpr hget, rfl⟩

theorem popAll_eq (tables : List (List Record)) :
    popAll tables = (Merge.merge heapLess (indexed tables)).map Prod.fst := rfl

/-- Records under another index are not those of the table. -/
theorem mark_eq_false {xs : List (List Record)} {i k : Nat} (h : i < k ∨ k + xs.length ≤ i) :
    ∀ bs ∈ (xs.zipIdx k).map (fun p => p.1.map (·, p.2)), ∀ b ∈ bs,
      decide (b.2 = i) = false := by
  intro bs hbs b hb
  obtain ⟨⟨recs, j⟩, hmem, rfl⟩ := List.mem_map.mp hbs
  obtain ⟨r, -, rfl⟩ := List.mem_map.mp hb
  obtain ⟨hle, hlt, -⟩ := List.mem_zipIdx hmem
  simp only [decide_eq_false_iff_not]
  omega

/-- The merge holds each table in its order. -/
theorem filter_indexed {tables : List (List Record)} {i : Nat} {recs : List Record}
    (h : tables[i]? = some recs) :
    (Merge.merge heapLess (indexed tables)).filter (fun a => a.2 = i) = recs.map (·, i) := by
  obtain ⟨hi, rfl⟩ := List.getElem?_eq_some_iff.mp h
  have hlen : (tables.take i).length = i := List.length_take_of_le hi.le
  have hsplit : indexed tables =
      ((tables.take i).zipIdx 0).map (fun p => p.1.map (·, p.2)) ++
        (tables[i].map (·, i)) ::
          ((tables.drop (i + 1)).zipIdx (i + 1)).map (fun p => p.1.map (·, p.2)) := by
    have htables : tables = tables.take i ++ tables[i] :: tables.drop (i + 1) := by simp
    unfold indexed
    conv_lhs => rw [htables]
    rw [List.zipIdx_append, List.map_append, List.zipIdx_cons, List.map_cons, hlen, Nat.zero_add]
  rw [hsplit]
  refine Merge.merge_filter (fun a ha => ?_) (mark_eq_false (by omega)) (mark_eq_false (by omega))
  obtain ⟨r, -, rfl⟩ := List.mem_map.mp ha
  exact decide_eq_true rfl

/-! ### The first visible record -/

theorem exists_of_newestVersion {tables : List (List Record)} {k : Key} {s : UInt64} {b : Record}
    (h : newestVersion tables k s = some b) :
    ∃ (i : Nat) (recs : List Record),
      tables[i]? = some recs ∧ recs.find? (visible k s) = some b := by
  induction tables with
  | nil => cases h
  | cons recs tables ih =>
      have hbetter : better Record.seq (newestVersion tables k s) (recs.find? (visible k s)) =
        some b := h
      have hcases : newestVersion tables k s = some b ∨ recs.find? (visible k s) = some b := by
        unfold better at hbetter
        split at hbetter
        · exact Or.inr hbetter
        · exact Or.inl (by rw [← hbetter]; assumption)
        · split at hbetter
          · exact Or.inr (by rw [← hbetter]; assumption)
          · exact Or.inl (by rw [← hbetter]; assumption)
      rcases hcases with hb | hb
      · obtain ⟨i, recs', hget, hfind⟩ := ih hb
        exact ⟨i + 1, recs', hget, hfind⟩
      · exact ⟨0, recs, rfl, hb⟩

/-- The newest version is the candidate that no table exceeds, and no later one equals. -/
theorem newestVersion_eq {tables : List (List Record)} {k : Key} {s : UInt64} {i : Nat}
    {recs : List Record} {t : Record} (hget : tables[i]? = some recs)
    (hfind : recs.find? (visible k s) = some t)
    (hmax : ∀ (j : Nat) (recs' : List Record) (x : Record), tables[j]? = some recs' →
      recs'.find? (visible k s) = some x → x.seq < t.seq ∨ x.seq = t.seq ∧ j ≤ i) :
    newestVersion tables k s = some t := by
  induction tables generalizing i with
  | nil => cases hget
  | cons recs₀ tables ih =>
      show better Record.seq (newestVersion tables k s) (recs₀.find? (visible k s)) = some t
      cases i with
      | zero =>
          obtain rfl := Option.some.inj hget
          rw [hfind]
          cases hrest : newestVersion tables k s with
          | none => rfl
          | some b =>
              obtain ⟨j, recs', hj, hb⟩ := exists_of_newestVersion hrest
              have hlt : b.seq < t.seq := by
                rcases hmax (j + 1) recs' b hj hb with hlt | ⟨-, hle⟩
                · exact hlt
                · omega
              exact if_pos hlt
      | succ i =>
          have hrest : newestVersion tables k s = some t := by
            refine ih hget fun j recs' x hj hx => ?_
            refine (hmax (j + 1) recs' x hj hx).imp_right fun h => ⟨h.1, by omega⟩
          rw [hrest]
          cases hx : recs₀.find? (visible k s) with
          | none => rfl
          | some x =>
              have hle : x.seq ≤ t.seq := by
                rcases hmax 0 recs₀ x rfl hx with hlt | ⟨heq, -⟩
                · exact hlt.le
                · exact heq.le
              exact if_neg (not_lt.mpr hle)

/-- The candidate of a table is in the merge. -/
theorem mem_merge_of_find {tables : List (List Record)} {k : Key} {s : UInt64} {i : Nat}
    {recs : List Record} {t : Record} (hget : tables[i]? = some recs)
    (hfind : recs.find? (visible k s) = some t) :
    (t, i) ∈ Merge.merge heapLess (indexed tables) := by
  refine (Merge.merge_perm _).mem_iff.mpr (List.mem_flatten.mpr ⟨recs.map (·, i), ?_, ?_⟩)
  · exact mem_indexed.mpr ⟨i, recs, hget, rfl⟩
  · exact List.mem_map_of_mem (List.mem_of_find?_eq_some hfind)

/-- **The heap hands out the newest version first.** -/
theorem find_popAll {tables : List (List Record)} (h : ∀ recs ∈ tables, InOrder recs) (k : Key)
    (s : UInt64) : (popAll tables).find? (visible k s) = newestVersion tables k s := by
  have hsorted :
      (Merge.merge heapLess (indexed tables)).Pairwise (fun a b => heapLess b a = false) :=
    Merge.merge_sorted heapLess_asymm heapLess_trans (sources_sorted h)
  have hperm := @Merge.merge_perm _ heapLess (indexed tables)
  rw [popAll_eq, List.find?_map]
  cases hf : (Merge.merge heapLess (indexed tables)).find? (visible k s ∘ Prod.fst) with
  | none =>
      cases hn : newestVersion tables k s with
      | none => rfl
      | some b =>
          obtain ⟨i, recs, hget, hb⟩ := exists_of_newestVersion hn
          exact absurd (List.find?_some hb)
            (List.find?_eq_none.mp hf _ (mem_merge_of_find hget hb))
  | some a =>
      obtain ⟨t, i⟩ := a
      obtain ⟨hv, pre, post, hsplit, hpre⟩ := List.find?_eq_some_iff_append.mp hf
      have hin : (t, i) ∈ Merge.merge heapLess (indexed tables) := List.mem_of_find?_eq_some hf
      obtain ⟨as, has, hta⟩ := List.mem_flatten.mp (hperm.mem_iff.mp hin)
      obtain ⟨i', recs, hget, rfl⟩ := mem_indexed.mp has
      obtain ⟨t', -, heq⟩ := List.mem_map.mp hta
      obtain ⟨rfl, rfl⟩ := Prod.mk.inj heq
      refine (newestVersion_eq hget ?_ ?_).symm
      · -- the records of the table come in its order, and none before is visible
        have hfilter := filter_indexed hget
        have hfirst : ((Merge.merge heapLess (indexed tables)).filter (fun a => a.2 = i')).find?
            (visible k s ∘ Prod.fst) = some (t', i') := by
          rw [hsplit, List.filter_append, List.filter_cons_of_pos (by simp), List.find?_append]
          have hno : (pre.filter fun a => a.2 = i').find? (visible k s ∘ Prod.fst) = none :=
            List.find?_eq_none.mpr fun a ha => by
              have hno := hpre a (List.mem_of_mem_filter ha)
              rw [Bool.not_eq_true'] at hno
              exact Bool.not_eq_true _ ▸ hno
          rw [hno, Option.none_or, List.find?_cons_of_pos hv]
        rw [hfilter, List.find?_map] at hfirst
        obtain ⟨x, hx, hxt⟩ := Option.map_eq_some_iff.mp hfirst
        rw [← (Prod.mk.inj hxt).1]
        exact hx
      · intro j recs' x hj hx
        have hmem := mem_merge_of_find hj hx
        rw [hsplit] at hmem hsorted
        have htk := (visible_iff.mp hv).1
        have hxk := (visible_iff.mp (List.find?_some hx)).1
        rcases List.mem_append.mp hmem with hmem | hmem
        · have hno := hpre (x, j) hmem
          simp [List.find?_some hx] at hno
        · rcases List.mem_cons.mp hmem with heq | hmem
          · obtain ⟨rfl, rfl⟩ := Prod.mk.inj heq
            exact Or.inr ⟨rfl, le_refl _⟩
          · have hlater := (List.pairwise_cons.mp (List.pairwise_append.mp hsorted).2.1).1 _ hmem
            rcases heapLess_eq_false.mp hlater with hlt | ⟨-, hle⟩
            · exact absurd (htk.trans hxk.symm) hlt.ne
            · exact hle

/-! ### The records of one key that the loop keeps -/

/-- The loop's variables behind some records. -/
def Retention.after (options : MergeOptions) (st : Retention) (recs : List Record) : Retention :=
  recs.foldl (fun st r => (st.next options r).2) st

theorem retain_append (options : MergeOptions) (st : Retention) (xs ys : List Record) :
    retain options st (xs ++ ys) =
      retain options st xs ++ retain options (st.after options xs) ys := by
  induction xs generalizing st with
  | nil => rfl
  | cons x xs ih =>
      rw [List.cons_append, retain, retain]
      dsimp only
      rw [ih]
      split
      · rfl
      · rfl

theorem Tracks.after {options : MergeOptions} {before recs : List Record} {st : Retention}
    (ht : Tracks options before st) (h : InOrder (before ++ recs)) :
    Tracks options (before ++ recs) (st.after options recs) := by
  induction recs generalizing before st with
  | nil =>
      rw [List.append_nil]
      exact ht
  | cons x recs ih =>
      have hx : InOrder (before ++ [x]) := by
        refine List.Pairwise.sublist ?_ h
        exact List.Sublist.append_left (List.Sublist.cons_cons x (List.nil_sublist _)) before
      rw [← List.singleton_append, ← List.append_assoc] at h ⊢
      exact ih (ht.next hx).2 h

/-- A record that is kept is found by a read of which it is the first visible record. -/
theorem find_retain {options : MergeOptions} {pre post : List Record} {t : Record} {k : Key}
    {s : UInt64} (h : InOrder (pre ++ t :: post)) (hkeep : Keeps options pre t)
    (hv : visible k s t = true) (hpre : ∀ x ∈ pre, visible k s x = false) :
    (retain options {} (pre ++ t :: post)).find? (visible k s) = some t := by
  have hone : InOrder (pre ++ [t]) := by
    refine List.Pairwise.sublist ?_ h
    exact List.Sublist.append_left (List.Sublist.cons_cons t (List.nil_sublist _)) pre
  have hpre' : InOrder ([] ++ pre) := List.Pairwise.sublist (List.sublist_append_left _ _) h
  have ht : Tracks options pre (({} : Retention).after options pre) :=
    (Tracks.start options).after hpre'
  have hno : (retain options {} pre).find? (visible k s) = none := by
    refine List.find?_eq_none.mpr fun x hx => ?_
    rw [hpre x ((retain_sublist options {} pre).subset hx)]
    exact Bool.false_ne_true
  rw [retain_append, List.find?_append, hno, Option.none_or]
  unfold retain
  dsimp only
  rw [if_pos ((ht.next hone).1.mpr hkeep), List.find?_cons_of_pos hv]

/-- Of the records of a key that set the loop's flag, at most one is kept. -/
theorem retain_pairwise {options : MergeOptions} {before recs : List Record} {st : Retention}
    (ht : Tracks options before st) (h : InOrder (before ++ recs)) :
    (retain options st recs).Pairwise
      (fun a b => a.key = b.key → Passes options a → ¬ Passes options b) := by
  induction recs generalizing before st with
  | nil => exact List.Pairwise.nil
  | cons x recs ih =>
      have hx : InOrder (before ++ [x]) := by
        refine List.Pairwise.sublist ?_ h
        exact List.Sublist.append_left (List.Sublist.cons_cons x (List.nil_sublist _)) before
      have hnext := (ht.next hx).2
      have hrest : InOrder ((before ++ [x]) ++ recs) := by
        rw [List.append_assoc]
        exact h
      unfold retain
      dsimp only
      split
      · refine List.pairwise_cons.mpr ⟨fun b hb hk hpass hpassb => ?_, ih hnext hrest⟩
        obtain ⟨pre, post, -, hkeep⟩ := (mem_retain hnext hrest).mp hb
        have hmem : x ∈ before ++ [x] ++ pre := by simp
        unfold Keeps at hkeep
        cases hreader : options.oldestReader with
        | none =>
            rw [hreader] at hkeep
            exact hkeep.1 x hmem hk
        | some reader =>
            rw [hreader] at hkeep
            rcases hkeep with hlt | hall
            · exact absurd (hpassb reader hreader) (not_le.mpr hlt)
            · exact absurd (hpass reader hreader) (not_le.mpr (hall x hmem hk))
      · exact ih hnext hrest

/-- A list in which no two members may both stand has at most one. -/
theorem length_le_one {xs : List Record} (h : xs.Pairwise (fun _ _ => False)) : xs.length ≤ 1 := by
  cases xs with
  | nil => exact Nat.zero_le _
  | cons a xs =>
      cases xs with
      | nil => exact le_refl _
      | cons b xs => exact absurd ((List.pairwise_cons.mp h).1 b List.mem_cons_self) not_false

section Semantics

variable {options : MergeOptions} {tables : List (List Record)}
  (h : ∀ recs ∈ tables, InOrder recs)

include h

/-- At most one record of a key sets the flag. -/
theorem mergeRecords_filter_length (k : Key) {p : Record → Bool}
    (hp : ∀ r, p r = true → r.key = k ∧ Passes options r) :
    ((mergeRecords options tables).filter p).length ≤ 1 := by
  refine length_le_one ?_
  have hpair := retain_pairwise (Tracks.start options) (popAll_inOrder h)
  refine List.Pairwise.imp_of_mem ?_ (List.Pairwise.filter p hpair)
  intro a b ha hb hab
  obtain ⟨hak, hap⟩ := hp a (List.mem_filter.mp ha).2
  obtain ⟨hbk, hbp⟩ := hp b (List.mem_filter.mp hb).2
  exact hab (hak.trans hbk.symm) hap hbp

/-- With a reader, every read at or above it finds the newest version. -/
theorem find_mergeRecords {reader : UInt64} (hreader : options.oldestReader = some reader) (k : Key)
    {s : UInt64} (hs : reader ≤ s) :
    (mergeRecords options tables).find? (visible k s) = newestVersion tables k s := by
  rw [← find_popAll h]
  have hord := popAll_inOrder h
  cases hf : (popAll tables).find? (visible k s) with
  | none =>
      refine List.find?_eq_none.mpr fun x hx => ?_
      exact List.find?_eq_none.mp hf x ((retain_sublist options {} _).subset hx)
  | some t =>
      obtain ⟨hv, pre, post, hsplit, hpre⟩ := List.find?_eq_some_iff_append.mp hf
      have hpre' : ∀ x ∈ pre, visible k s x = false := fun x hx => by simpa using hpre x hx
      unfold mergeRecords
      rw [hsplit] at hord ⊢
      refine find_retain hord ?_ hv hpre'
      -- what comes before it in its key is above `s`, and so above the reader
      unfold Keeps
      rw [hreader]
      refine Or.inr fun x hx hxk => lt_of_le_of_lt hs ?_
      by_contra hle
      have hxv : visible k s x = true :=
        visible_iff.mpr ⟨hxk.trans (visible_iff.mp hv).1, not_lt.mp hle⟩
      rw [hpre' x hx] at hxv
      cases hxv

/-- Without a reader, only the newest version of a key is kept, if it is not dropped. -/
theorem filter_mergeRecords (hreader : options.oldestReader = none) (k : Key) :
    (mergeRecords options tables).filter (fun r => r.key = k) =
      match newestVersion tables k newest with
      | none => []
      | some t => if t.deleted && options.dropTombstones then [] else [t] := by
  rw [← find_popAll h]
  have hord := popAll_inOrder h
  have hmem : ∀ r, r ∈ mergeRecords options tables ↔
      ∃ pre post, popAll tables = pre ++ r :: post ∧ Keeps options pre r := fun r =>
    mem_retain (Tracks.start options) hord
  -- the kept record of a key is the first one the heap hands out
  have hfirst : ∀ r ∈ mergeRecords options tables, r.key = k →
      (popAll tables).find? (visible k newest) = some r ∧
        (r.deleted = true → options.dropTombstones = false) := by
    intro r hr hk
    obtain ⟨pre, post, hsplit, hkeep⟩ := (hmem r).mp hr
    unfold Keeps at hkeep
    rw [hreader] at hkeep
    refine ⟨List.find?_eq_some_iff_append.mpr
      ⟨visible_iff.mpr ⟨hk, le_newest _⟩, pre, post, hsplit, fun x hx => ?_⟩, hkeep.2⟩
    have hne : x.key ≠ k := hk ▸ hkeep.1 x hx
    simp [visible, hne]
  cases hf : (popAll tables).find? (visible k newest) with
  | none =>
      refine List.filter_eq_nil_iff.mpr fun r hr hk => ?_
      have := (hfirst r hr (by simpa using hk)).1
      rw [hf] at this
      cases this
  | some t =>
      dsimp only
      split
      · rename_i hdrop
        obtain ⟨hdel, hdt⟩ := Bool.and_eq_true _ _ ▸ hdrop
        refine List.filter_eq_nil_iff.mpr fun r hr hk => ?_
        obtain ⟨hr', hdrop'⟩ := hfirst r hr (by simpa using hk)
        obtain rfl := Option.some.inj (hf.symm.trans hr')
        rw [hdrop' hdel] at hdt
        cases hdt
      · rename_i hkept
        obtain ⟨hv, pre, post, hsplit, hpre⟩ := List.find?_eq_some_iff_append.mp hf
        have htk := (visible_iff.mp hv).1
        have ht : t ∈ (mergeRecords options tables).filter (fun r => r.key = k) := by
          refine List.mem_filter.mpr ⟨(hmem t).mpr ⟨pre, post, hsplit, ?_⟩, by simpa using htk⟩
          unfold Keeps
          rw [hreader]
          refine ⟨fun x hx hxk => ?_, fun hdel => ?_⟩
          · have hno := hpre x hx
            rw [visible_iff.mpr ⟨hxk.trans htk, le_newest _⟩] at hno
            cases hno
          · simpa [hdel] using hkept
        have hpass : ∀ r, Passes options r := by
          intro r R hR
          rw [hreader] at hR
          cases hR
        have hone : ((mergeRecords options tables).filter (fun r => r.key = k)).length ≤ 1 :=
          mergeRecords_filter_length h k fun r hr => ⟨by simpa using hr, hpass r⟩
        obtain ⟨x, hx⟩ := List.length_eq_one_iff.mp
          (le_antisymm hone (List.length_pos_of_mem ht))
        rw [hx] at ht ⊢
        rw [List.mem_singleton.mp ht]

/-- The merged records with the tables they come from: copies of one version stand in the
order of descending table indices. -/
theorem exists_indexed : ∃ marked : List (Record × Nat),
    marked.map Prod.fst = mergeRecords options tables ∧
    (∀ a ∈ marked, ∃ recs, tables[a.2]? = some recs ∧ a.1 ∈ recs) ∧
    marked.Pairwise (fun a b => a.1.key = b.1.key → a.1.seq = b.1.seq → b.2 ≤ a.2) := by
  have hsub : (mergeRecords options tables).Sublist
      ((Merge.merge heapLess (indexed tables)).map Prod.fst) := retain_sublist options {} _
  obtain ⟨marked, hmarked, heq⟩ := List.sublist_map_iff.mp hsub
  refine ⟨marked, heq.symm, fun a ha => ?_, ?_⟩
  · obtain ⟨as, has, haa⟩ :=
      List.mem_flatten.mp ((Merge.merge_perm _).mem_iff.mp (hmarked.subset ha))
    obtain ⟨i, recs, hget, rfl⟩ := mem_indexed.mp has
    obtain ⟨r, hr, rfl⟩ := List.mem_map.mp haa
    exact ⟨recs, hget, hr⟩
  · have hsorted : (Merge.merge heapLess (indexed tables)).Pairwise
        (fun a b => heapLess b a = false) :=
      Merge.merge_sorted heapLess_asymm heapLess_trans (sources_sorted h)
    refine (List.Pairwise.sublist hmarked hsorted).imp fun hab hk hs => ?_
    rcases heapLess_eq_false.mp hab with hlt | ⟨-, hlt | ⟨-, hle⟩⟩
    · exact absurd hk hlt.ne
    · exact absurd hs.symm hlt.ne
    · exact hle

omit h in
theorem mergeRecords_subperm : (mergeRecords options tables).Subperm tables.flatten := by
  have hflat : ((indexed tables).flatten).map Prod.fst = tables.flatten := by
    unfold indexed
    rw [List.map_flatten, List.map_map]
    congr 1
    conv_rhs => rw [← List.zipIdx_map_fst 0 tables]
    refine List.map_congr_left fun p _ => ?_
    rw [Function.comp_apply, List.map_map]
    exact List.map_id _
  refine (retain_sublist options {} (popAll tables)).subperm.trans ?_
  rw [← hflat]
  exact ((Merge.merge_perm (indexed tables)).map Prod.fst).subperm

end Semantics

/-- **What `MergeSSTablesWithOptions` hands to the table writer**, for input tables in order.
The writer accepts the records, and they are input records, none more often than it was
given. With an oldest reader, reads from it on find the newest version of the inputs, and of
each key at most one version at or below the reader is left. Without a reader just the newest
version of each key is left, or none when it is a tombstone that may be dropped. Copies of a
version stand by descending table index. -/
theorem mergeRecords_semantics (options : MergeOptions) (tables : List (List Record))
    (h : ∀ recs ∈ tables, InOrder recs) :
    SSTable.writable (mergeRecords options tables) = true ∧
    (mergeRecords options tables).Subperm tables.flatten ∧
    (∀ reader, options.oldestReader = some reader → ∀ k,
      (∀ s, reader ≤ s →
        (mergeRecords options tables).find? (visible k s) = newestVersion tables k s) ∧
      ((mergeRecords options tables).filter fun r => r.key = k && r.seq ≤ reader).length ≤ 1) ∧
    (options.oldestReader = none → ∀ k,
      (mergeRecords options tables).filter (fun r => r.key = k) =
        match newestVersion tables k newest with
        | none => []
        | some t => if t.deleted && options.dropTombstones then [] else [t]) ∧
    ∃ marked : List (Record × Nat),
      marked.map Prod.fst = mergeRecords options tables ∧
      (∀ a ∈ marked, ∃ recs, tables[a.2]? = some recs ∧ a.1 ∈ recs) ∧
      marked.Pairwise (fun a b => a.1.key = b.1.key → a.1.seq = b.1.seq → b.2 ≤ a.2) := by
  refine ⟨SSTable.writable_iff.mpr (mergeRecords_inOrder h), mergeRecords_subperm, ?_,
    filter_mergeRecords h, exists_indexed h⟩
  intro reader hreader k
  refine ⟨fun s hs => find_mergeRecords h hreader k hs, ?_⟩
  refine mergeRecords_filter_length h k fun r hr => ?_
  obtain ⟨hk, hs⟩ := Bool.and_eq_true _ _ ▸ hr
  refine ⟨by simpa using hk, fun R hR => ?_⟩
  obtain rfl := Option.some.inj (hreader.symm.trans hR)
  simpa using hs

/-- Two tables with different copies of one version, and a tombstone. -/
def copies : List (List Record) :=
  [[{ key := [1], seq := 3, value := [7] }, { key := [1], seq := 1, value := [5] }],
    [{ key := [1], seq := 3, value := [8] }, { key := [2], seq := 2, deleted := true }]]

theorem mergeRecords_semantics_copies :
    (mergeRecords ⟨some 2, true⟩ copies).find? (visible [1] 3) =
      some { key := [1], seq := 3, value := [8] } ∧
    (mergeRecords ⟨none, true⟩ copies).filter (fun r => r.key = [2]) = [] := by
  have hord : ∀ recs ∈ copies, InOrder recs := by
    intro recs hrecs
    refine SSTable.writable_iff.mp ?_
    exact (by decide +kernel : ∀ recs ∈ copies, SSTable.writable recs = true) recs hrecs
  obtain ⟨-, -, hreader, -⟩ := mergeRecords_semantics ⟨some 2, true⟩ copies hord
  obtain ⟨-, -, -, hnone, -⟩ := mergeRecords_semantics ⟨none, true⟩ copies hord
  exact ⟨(hreader 2 rfl [1]).1 3 (by decide), hnone rfl [2]⟩

end HyphaDB.Compaction
