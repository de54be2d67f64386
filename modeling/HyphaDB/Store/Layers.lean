import HyphaDB.Store.Reads

/-!
# HyphaDB.Store.Layers

**Recency of layers.** In a store that never restarted from several segments, the newer a
version of a key the higher it lies: memtables above tables, level 0 above level 1 above
level 2, and from level 1 on the tables of a level lie beside each other, so at most one of
them holds a key. This is what makes it safe to drop a tombstone at the last level: nothing
older is left anywhere.
-/

namespace HyphaDB.Store

open Compaction

/-- Every key of one lies before every key of the other. -/
def Beside (xs ys : List Record) : Prop :=
  (∀ a ∈ xs, ∀ b ∈ ys, a.key < b.key) ∨ ∀ a ∈ xs, ∀ b ∈ ys, b.key < a.key

theorem Beside.symm {xs ys : List Record} (h : Beside xs ys) : Beside ys xs :=
  (Or.symm h).imp (fun h b hb a ha => h a ha b hb) (fun h b hb a ha => h a ha b hb)

theorem Beside.key_ne {xs ys : List Record} (h : Beside xs ys) {a b : Record} (ha : a ∈ xs)
    (hb : b ∈ ys) : a.key ≠ b.key := by
  rcases h with h | h
  · exact (h a ha b hb).ne
  · exact (h a ha b hb).ne'

/-- Memtables, oldest first, over tables. -/
structure Layers (mems : List (List Record)) (tabs : List Tab) : Prop where
  level_le : ∀ t ∈ tabs, t.level ≤ 2
  mem_above : ∀ m ∈ mems, Above (recordsOf m) (tabRecs tabs)
  mems_above : mems.Pairwise (fun a b => Above (recordsOf b) (recordsOf a))
  level_above : ∀ t ∈ tabs, ∀ u ∈ tabs, t.level < u.level →
    Above (recordsOf t.recs) (recordsOf u.recs)
  beside : ∀ t ∈ tabs, ∀ u ∈ tabs, t ≠ u → t.level = u.level → 1 ≤ t.level →
    Beside t.recs u.recs

theorem Layers.empty : Layers [] [] :=
  ⟨by simp, by simp, List.Pairwise.nil, by simp, by simp⟩

/-- New versions go to the top. -/
theorem Layers.write {mems : List (List Record)} {m m' recs : List Record} {tabs : List Tab}
    (h : Layers (mems ++ [m]) tabs) (hsub : ∀ r ∈ m', r ∈ m ∨ r ∈ recs)
    (htabs : Above (recordsOf recs) (tabRecs tabs))
    (hmems : ∀ a ∈ mems, Above (recordsOf recs) (recordsOf a)) : Layers (mems ++ [m']) tabs := by
  have hold := List.pairwise_append.mp h.mems_above
  refine ⟨h.level_le, ?_, ?_, h.level_above, h.beside⟩
  · intro a ha
    rcases List.mem_append.mp ha with ha | ha
    · exact h.mem_above a (List.mem_append_left _ ha)
    · obtain rfl := List.mem_singleton.mp ha
      intro r hr b hb hk
      rcases hsub r hr with hr | hr
      · exact h.mem_above m (List.mem_append_right _ List.mem_cons_self) r hr b hb hk
      · exact htabs r hr b hb hk
  · refine List.pairwise_append.mpr ⟨hold.1, List.pairwise_singleton _ _, ?_⟩
    intro a ha b hb
    obtain rfl := List.mem_singleton.mp hb
    intro r hr x hx hk
    rcases hsub r hr with hr | hr
    · exact hold.2.2 a ha m List.mem_cons_self r hr x hx hk
    · exact hmems a ha r hr x hx hk

/-- An empty memtable on top. -/
theorem Layers.rotate {mems : List (List Record)} {tabs : List Tab} (h : Layers mems tabs) :
    Layers (mems ++ [[]]) tabs := by
  refine ⟨h.level_le, ?_, ?_, h.level_above, h.beside⟩
  · intro a ha
    rcases List.mem_append.mp ha with ha | ha
    · exact h.mem_above a ha
    · obtain rfl := List.mem_singleton.mp ha
      exact fun r hr => absurd hr (by simp)
  · refine List.pairwise_append.mpr ⟨h.mems_above, List.pairwise_singleton _ _, ?_⟩
    intro a _ b hb
    obtain rfl := List.mem_singleton.mp hb
    exact fun r hr => absurd hr (by simp)

/-- The oldest memtable becomes a table of level 0. -/
theorem Layers.publish {m : List Record} {mems : List (List Record)} {tabs : List Tab} {tab : Tab}
    (h : Layers (m :: mems) tabs) (hrecs : tab.recs = m) (hlevel : tab.level = 0) :
    Layers mems (tabs ++ [tab]) := by
  obtain ⟨hm, hmems⟩ := List.pairwise_cons.mp h.mems_above
  have htab : Above (recordsOf tab.recs) (tabRecs tabs) :=
    hrecs ▸ h.mem_above m List.mem_cons_self
  refine ⟨?_, ?_, hmems, ?_, ?_⟩
  · intro t ht
    rcases List.mem_append.mp ht with ht | ht
    · exact h.level_le t ht
    · obtain rfl := List.mem_singleton.mp ht
      omega
  · intro a ha r hr b hb hk
    rcases mem_tabRecs_append.mp hb with hb | hb
    · exact h.mem_above a (List.mem_cons_of_mem _ ha) r hr b hb hk
    · exact hm a ha r hr b (hrecs ▸ hb) hk
  · intro t ht u hu hlt
    rcases List.mem_append.mp hu with hold | hu
    · rcases List.mem_append.mp ht with ht | ht
      · exact h.level_above t ht u hold hlt
      · obtain rfl := List.mem_singleton.mp ht
        exact htab.mono (fun _ hr => hr) (fun r hr => ⟨u, hold, hr⟩)
    · obtain rfl := List.mem_singleton.mp hu
      omega
  · intro t ht u hu hne hl hpos
    have htl : t ∈ tabs := by
      rcases List.mem_append.mp ht with ht | ht
      · exact ht
      · obtain rfl := List.mem_singleton.mp ht
        omega
    have hul : u ∈ tabs := by
      rcases List.mem_append.mp hu with hu | hu
      · exact hu
      · obtain rfl := List.mem_singleton.mp hu
        omega
    exact h.beside t htl u hul hne hl hpos

section Compacts

variable {readers : List UInt64} {mems : List (List Record)} {tabs tabs' inputs : List Tab}
  {options : MergeOptions} {out : Tab} (hc : Compacts readers tabs tabs' inputs options out)
  (h : Layers mems tabs)

include hc h

/-- A table that stays lies beside the output if that is of its level. The source tables lie
on one side of it, and a table that joined them cannot lie on the other. -/
theorem Layers.out_beside {t : Tab} (ht : t ∈ tabs) (hnot : t ∉ inputs)
    (hl : t.level = out.level) : Beside t.recs out.recs := by
  have hpos : 1 ≤ t.level := by
    rcases hc.source with ⟨hout, -⟩ | hout <;> omega
  have hjoined : ∀ s ∈ inputs, s.level = out.level → Beside t.recs s.recs := by
    intro s hs hsl
    have hne : t ≠ s := fun heq => hnot (heq ▸ hs)
    exact h.beside t ht s (hc.sub s hs) hne (hl.trans hsl.symm) hpos
  obtain ⟨lo, hi, hsource, hmeets, hside⟩ := hc.apart t ht hnot hl
  refine hside.imp (fun hbefore a ha b hb => ?_) (fun hafter a ha b hb => ?_)
  · obtain ⟨s, hs, hb⟩ := hc.out_sub hb
    rcases hc.levels s hs with hsl | hsl
    · exact (hbefore a ha).trans_le (hsource s hs hsl b hb).1
    · rcases hjoined s hs hsl with hlt | hgt
      · exact hlt a ha b hb
      · obtain ⟨⟨r, hr, hle⟩, -⟩ := hmeets s hs hsl (List.ne_nil_of_mem hb)
        exact absurd ((hgt a ha r hr).trans (hbefore a ha)) (not_lt.mpr hle)
  · obtain ⟨s, hs, hb⟩ := hc.out_sub hb
    rcases hc.levels s hs with hsl | hsl
    · exact (hsource s hs hsl b hb).2.trans_lt (hafter a ha)
    · rcases hjoined s hs hsl with hlt | hgt
      · obtain ⟨-, r, hr, hle⟩ := hmeets s hs hsl (List.ne_nil_of_mem hb)
        exact absurd ((hafter a ha).trans (hlt a ha r hr)) (not_lt.mpr hle)
      · exact hgt a ha b hb

/-- A compaction keeps the layers. -/
theorem Layers.compact : Layers mems tabs' := by
  have hmem : ∀ t ∈ tabs', t = out ∨ t ∈ tabs ∧ t ∉ inputs := fun t ht => (hc.mem_iff t).mp ht
  refine ⟨?_, ?_, h.mems_above, ?_, ?_⟩
  · intro t ht
    rcases hmem t ht with rfl | ⟨ht, -⟩
    · rcases hc.source with ⟨hout, -⟩ | hout <;> omega
    · exact h.level_le t ht
  · exact fun m hm => (h.mem_above m hm).mono (fun _ hr => hr) hc.tabRecs_sub
  · intro t ht u hu hlt
    rcases hmem t ht with rfl | ⟨ht, htin⟩
    · rcases hmem u hu with rfl | ⟨hu, huin⟩
      · omega
      · -- the output against a deeper table that stays
        intro r hr x hx hk
        obtain ⟨s, hs, hr⟩ := hc.out_sub hr
        refine h.level_above s (hc.sub s hs) u hu ?_ r hr x hx hk
        rcases hc.levels s hs with hsl | hsl <;> omega
    · rcases hmem u hu with rfl | ⟨hu, huin⟩
      · -- a higher table that stays against the output
        intro r hr x hx hk
        obtain ⟨s, hs, hx⟩ := hc.out_sub hx
        rcases Nat.lt_or_ge t.level s.level with hts | hts
        · exact h.level_above t ht s (hc.sub s hs) hts r hr x hx hk
        · -- both lie in the source level, which is not level 0
          have hsl : t.level = s.level := by
            rcases hc.levels s hs with hsl | hsl <;> omega
          have hpos : 1 ≤ t.level := by
            rcases hc.source with ⟨-, hall⟩ | hout
            · by_contra h0
              exact htin (hall t ht (by omega))
            · rcases hc.levels s hs with hsl' | hsl' <;> omega
          have hne : t ≠ s := fun heq => htin (heq ▸ hs)
          exact absurd hk ((h.beside t ht s (hc.sub s hs) hne hsl hpos).key_ne hr hx)
      · exact h.level_above t ht u hu hlt
  · intro t ht u hu hne hl hpos
    rcases hmem t ht with rfl | ⟨ht, htin⟩
    · rcases hmem u hu with rfl | ⟨hu, huin⟩
      · exact absurd rfl hne
      · exact (h.out_beside hc hu huin hl.symm).symm
    · rcases hmem u hu with rfl | ⟨hu, huin⟩
      · exact h.out_beside hc ht htin hl
      · exact h.beside t ht u hu hne hl hpos

/-- When the newest version of a key is dropped, no other version is left in the tables:
what lies higher would be newer, and what lies deeper or beside it was an input. -/
theorem Layers.nothing_below {k : Key} {t : Record} (ht : t ∈ tabRecs inputs) (htk : t.key = k)
    (hdrop : options.dropTombstones = true) (hout : ∀ r ∈ out.recs, r.key ≠ k)
    (hnew : ∀ r ∈ tabRecs tabs, r.key = k → r.seq ≤ t.seq) : ∀ r ∈ tabRecs tabs', r.key ≠ k := by
  intro r hr hk
  have hlevel := hc.drop hdrop
  obtain ⟨u, hu, hr⟩ := hr
  rcases (hc.mem_iff u).mp hu with rfl | ⟨hu, huin⟩
  · exact hout r hr hk
  · obtain ⟨s, hs, ht⟩ := ht
    have hsl : 1 ≤ s.level := by rcases hc.levels s hs with h | h <;> omega
    rcases Nat.lt_trichotomy u.level s.level with hlt | heq | hgt
    · have hnewer := h.level_above u hu s (hc.sub s hs) hlt r hr t ht (hk.trans htk.symm)
      exact absurd hnewer (not_lt.mpr (hnew r ⟨u, hu, hr⟩ hk))
    · have hne : u ≠ s := fun he => huin (he ▸ hs)
      exact (h.beside u hu s (hc.sub s hs) hne heq (by omega)).key_ne hr ht (hk.trans htk.symm)
    · rcases hc.levels s hs with hsl' | hsl'
      · by_cases hul : u.level = out.level
        · -- the key lies in the range of the source tables, so not in a table that stays
          obtain ⟨lo, hi, hsource, -, hside⟩ := hc.apart u hu huin hul
          obtain ⟨hlo, hhi⟩ := hsource s hs hsl' t ht
          rw [htk, ← hk] at hlo hhi
          rcases hside with hside | hside
          · exact absurd (hside r hr) (not_lt.mpr hlo)
          · exact absurd (hside r hr) (not_lt.mpr hhi)
        · exact absurd (h.level_le u hu) (by omega)
      · exact absurd (h.level_le u hu) (by omega)

end Compacts

end HyphaDB.Store
