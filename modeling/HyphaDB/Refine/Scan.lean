import HyphaDB.Refine.Reads

/-!
# HyphaDB.Refine.Scan

**A scan lists what reads find.** An iterator merges its sources and yields, key by key, the
newest version at or below its sequence, without the keys whose newest version is a
tombstone. So its output is the list, by ascending key, of the records `Get` would find in
its range (`scan_spec`).
-/

namespace HyphaDB.Refine

open Faults Store Wal Versions Merge

/-! ### One key after the other -/

theorem less_asymm (a b : Record) (h : less a b = true) : less b a = false := by
  rw [less_eq_false]
  rcases less_iff.mp h with h | ⟨h, hs⟩
  · exact Or.inl h
  · exact Or.inr ⟨h, hs.le⟩

theorem not_less_trans (a b c : Record) (hab : less b a = false) (hbc : less c b = false) :
    less c a = false := by
  rw [less_eq_false] at *
  rcases hab with h | ⟨h, hs⟩ <;> rcases hbc with h' | ⟨h', hs'⟩
  · exact Or.inl (h.trans h')
  · exact Or.inl (h' ▸ h)
  · exact Or.inl (h ▸ h')
  · exact Or.inr ⟨h.trans h', hs'.trans hs⟩

theorem key_le_of_not_less {a b : Record} (h : less b a = false) : a.key ≤ b.key := by
  rcases less_eq_false.mp h with h | ⟨h, -⟩
  · exact h.le
  · exact h.le

/-- The heap behind a key: `r` is the newest of its key, and `rest` has what is behind it. -/
structure Resolves (heap : List (Cursor Record)) (r : Record) (rest : List (Cursor Record)) :
    Prop where
  sorted : SortedHeap less rest
  shorter : (elements rest).length < (elements heap).length
  behind : ∀ x, x ∈ elements rest ↔ x ∈ elements heap ∧ r.key < x.key
  mem : r ∈ elements heap
  newest : ∀ x ∈ elements heap, x.key = r.key → x.seq ≤ r.seq

/-- What `absorb` leaves of a heap in which no key is smaller than that of `best`. -/
structure Absorbs (heap : List (Cursor Record)) (best r : Record) (rest : List (Cursor Record)) :
    Prop where
  sorted : SortedHeap less rest
  shorter : (elements rest).length ≤ (elements heap).length
  behind : ∀ x, x ∈ elements rest ↔ x ∈ elements heap ∧ best.key < x.key
  mem : r = best ∨ r ∈ elements heap
  key_eq : r.key = best.key
  le : best.seq ≤ r.seq
  newest : ∀ x ∈ elements heap, x.key = best.key → x.seq ≤ r.seq

theorem absorb_spec {fuel : Nat} {best : Record} {heap : List (Cursor Record)}
    (hs : SortedHeap less heap) (hfuel : (elements heap).length ≤ fuel)
    (hmin : ∀ x ∈ elements heap, best.key ≤ x.key) :
    Absorbs heap best (absorb fuel best heap).1 (absorb fuel best heap).2 := by
  induction fuel generalizing best heap with
  | zero =>
      have hnil : elements heap = [] := List.length_eq_zero_iff.mp (Nat.le_zero.mp hfuel)
      exact ⟨hs, le_refl _, fun x => by simp [absorb, hnil], Or.inl rfl, rfl, le_refl _,
        fun x hx => by simp [hnil] at hx⟩
  | succ fuel ih =>
      unfold absorb
      cases hp : pop less heap with
      | none =>
          have hnil : elements heap = [] := congrArg elements (pop_eq_none hp)
          exact ⟨hs, le_refl _, fun x => by simp [hnil], Or.inl rfl, rfl, le_refl _,
            fun x hx => by simp [hnil] at hx⟩
      | some p =>
          obtain ⟨r, rest⟩ := p
          obtain ⟨hperm, hsorted, hrest⟩ := pop_spec less_asymm not_less_trans hs hp
          have hlen : (elements heap).length = (elements rest).length + 1 := hperm.length_eq
          have hr : r ∈ elements heap := hperm.mem_iff.mpr List.mem_cons_self
          have hmem : ∀ x, x ∈ elements heap ↔ x = r ∨ x ∈ elements rest :=
            fun x => hperm.mem_iff.trans List.mem_cons
          dsimp only
          by_cases hk : r.key = best.key
          · rw [if_pos hk]
            have hkey : (if best.seq < r.seq then r else best).key = best.key := by
              split
              · exact hk
              · rfl
            have hih := @ih (if best.seq < r.seq then r else best) _ hsorted (by omega)
              fun x hx => hkey ▸ hmin x ((hmem x).mpr (Or.inr hx))
            have hle : best.seq ≤ (if best.seq < r.seq then r else best).seq ∧
                r.seq ≤ (if best.seq < r.seq then r else best).seq := by
              split
              · rename_i hlt
                exact ⟨hlt.le, le_refl _⟩
              · rename_i hlt
                exact ⟨le_refl _, not_lt.mp hlt⟩
            refine ⟨hih.sorted, hih.shorter.trans (by omega), fun x => ?_, ?_,
              hih.key_eq.trans hkey, hle.1.trans hih.le, fun x hx hxk => ?_⟩
            · rw [hih.behind, hkey, hmem]
              refine and_congr_left fun hlt => ⟨Or.inr, fun h => h.resolve_left ?_⟩
              rintro rfl
              exact hlt.ne' hk
            · rcases hih.mem with h | h
              · rw [h]
                split
                · exact Or.inr hr
                · exact Or.inl rfl
              · exact Or.inr ((hmem _).mpr (Or.inr h))
            · rcases (hmem x).mp hx with rfl | hx
              · exact hle.2.trans hih.le
              · exact hih.newest x hx (hxk.trans hkey.symm)
          · rw [if_neg hk]
            have hgt : best.key < r.key := lt_of_le_of_ne (hmin r hr) (Ne.symm hk)
            have hall : ∀ x ∈ elements heap, best.key < x.key := by
              intro x hx
              rcases (hmem x).mp hx with rfl | hx
              · exact hgt
              · exact hgt.trans_le (key_le_of_not_less (hrest x hx))
            exact ⟨hs, le_refl _, fun x => (and_iff_left_of_imp (hall x)).symm, Or.inl rfl, rfl,
              le_refl _, fun x hx hxk => absurd hxk (hall x hx).ne'⟩

theorem resolveNextKey_none {heap : List (Cursor Record)} (h : resolveNextKey heap = none) :
    elements heap = [] := by
  unfold resolveNextKey at h
  cases hp : pop less heap with
  | none => exact congrArg elements (pop_eq_none hp)
  | some p => rw [hp] at h; cases h

theorem resolveNextKey_some {heap rest : List (Cursor Record)} {r : Record}
    (hs : SortedHeap less heap) (h : resolveNextKey heap = some (r, rest)) :
    Resolves heap r rest ∧ ∀ x ∈ elements heap, r.key ≤ x.key := by
  unfold resolveNextKey at h
  cases hp : pop less heap with
  | none => rw [hp] at h; cases h
  | some p =>
      obtain ⟨b, mid⟩ := p
      rw [hp] at h
      obtain ⟨hperm, hsorted, hrest⟩ := pop_spec less_asymm not_less_trans hs hp
      have ha := absorb_spec hsorted (le_refl _) fun x hx => key_le_of_not_less (hrest x hx)
      rw [show absorb (elements mid).length b mid = (r, rest) from Option.some.inj h] at ha
      have hlen : (elements heap).length = (elements mid).length + 1 := hperm.length_eq
      have hmem : ∀ x, x ∈ elements heap ↔ x = b ∨ x ∈ elements mid :=
        fun x => hperm.mem_iff.trans List.mem_cons
      have hkey : r.key = b.key := ha.key_eq
      refine ⟨⟨ha.sorted, ?_, fun x => ?_, ?_, fun x hx hxk => ?_⟩, fun x hx => ?_⟩
      · have := ha.shorter
        dsimp only at this
        omega
      · rw [ha.behind, hmem, hkey]
        refine and_congr_left fun hlt => ⟨Or.inr, fun h => h.resolve_left ?_⟩
        rintro rfl
        exact lt_irrefl _ hlt
      · exact (hmem r).mpr ha.mem
      · rcases (hmem x).mp hx with rfl | hx
        · exact ha.le
        · exact ha.newest x hx (hxk.trans hkey)
      · rw [hkey]
        rcases (hmem x).mp hx with rfl | hx
        · exact le_refl _
        · exact key_le_of_not_less (hrest x hx)

/-! ### The output -/

/-- The records a scan yields: the newest of their key, and no tombstone. -/
def Yields (recs : List Record) (r : Record) : Prop :=
  r ∈ recs ∧ (∀ x ∈ recs, x.key = r.key → x.seq ≤ r.seq) ∧ r.deleted = false

/-- Behind a key the same records are yielded. -/
theorem Resolves.yields {heap rest : List (Cursor Record)} {r : Record}
    (h : Resolves heap r rest) {y : Record} :
    Yields (elements rest) y ↔ Yields (elements heap) y ∧ r.key < y.key := by
  constructor
  · intro hy
    obtain ⟨hmem, hnew, hdel⟩ := hy
    obtain ⟨hin, hlt⟩ := (h.behind y).mp hmem
    refine ⟨⟨hin, fun x hx hk => hnew x ((h.behind x).mpr ⟨hx, hk ▸ hlt⟩) hk, hdel⟩, hlt⟩
  · intro hy
    obtain ⟨⟨hin, hnew, hdel⟩, hlt⟩ := hy
    exact ⟨(h.behind y).mpr ⟨hin, hlt⟩, fun x hx => hnew x ((h.behind x).mp hx).1, hdel⟩

theorem Resolves.consistent {heap rest : List (Cursor Record)} {r : Record}
    (h : Resolves heap r rest) (hc : Consistent (recordsOf (elements heap))) :
    Consistent (recordsOf (elements rest)) :=
  hc.mono fun x hx => ((h.behind x).mp hx).1

/-- What `nextRecord` finds in a heap. -/
def Finds (heap : List (Cursor Record)) : Option (Record × List (Cursor Record)) → Prop
  | none => ∀ y, ¬ Yields (elements heap) y
  | some (r, rest) => Yields (elements heap) r ∧ Resolves heap r rest ∧
      ∀ y, Yields (elements heap) y → r.key ≤ y.key

theorem nextRecord_finds {fuel : Nat} {heap : List (Cursor Record)} (hs : SortedHeap less heap)
    (hc : Consistent (recordsOf (elements heap))) (hfuel : (elements heap).length ≤ fuel) :
    Finds heap (nextRecord fuel heap) := by
  induction fuel generalizing heap with
  | zero =>
      have hnil : elements heap = [] := List.length_eq_zero_iff.mp (Nat.le_zero.mp hfuel)
      intro y hy
      rw [hnil] at hy
      exact absurd hy.1 (by simp)
  | succ fuel ih =>
      unfold nextRecord
      cases hr : resolveNextKey heap with
      | none =>
          intro y hy
          rw [resolveNextKey_none hr] at hy
          exact absurd hy.1 (by simp)
      | some p =>
          obtain ⟨r, rest⟩ := p
          obtain ⟨hres, hfirst⟩ := resolveNextKey_some hs hr
          dsimp only
          by_cases hdel : r.deleted = true
          · rw [if_pos hdel]
            -- a deleted key yields nothing, and the rest is behind it
            have hskip : ∀ y, Yields (elements heap) y → r.key < y.key := by
              intro y hy
              refine lt_of_le_of_ne (hfirst y hy.1) fun hk => ?_
              have heq : r = y := hc r hres.mem y hy.1 hk
                (le_antisymm (hy.2.1 r hres.mem hk) (hres.newest y hy.1 hk.symm))
              rw [heq, hy.2.2] at hdel
              cases hdel
            have hshort := hres.shorter
            have hih := ih hres.sorted (hres.consistent hc) (by omega)
            cases hn : nextRecord fuel rest with
            | none =>
                rw [hn] at hih
                exact fun y hy => hih y (hres.yields.mpr ⟨hy, hskip y hy⟩)
            | some p =>
                obtain ⟨x, rest'⟩ := p
                rw [hn] at hih
                obtain ⟨hx, hres', hmin⟩ := hih
                obtain ⟨hyx, hlt⟩ := hres.yields.mp hx
                refine ⟨hyx, ⟨hres'.sorted, hres'.shorter.trans hshort, fun y => ?_, hyx.1,
                  hyx.2.1⟩, fun y hy => hmin y (hres.yields.mpr ⟨hy, hskip y hy⟩)⟩
                rw [hres'.behind, hres.behind, and_assoc]
                exact and_congr_right fun _ => and_iff_right_of_imp hlt.trans
          · rw [if_neg hdel]
            refine ⟨⟨hres.mem, hres.newest, by simpa using hdel⟩, hres, fun y hy => hfirst y hy.1⟩

/-- Records by strictly ascending key. -/
def Ascending (recs : List Record) : Prop := recs.Pairwise (fun a b => a.key < b.key)

/-- Such a list is given by its members. -/
theorem Ascending.ext {xs ys : List Record} (hx : Ascending xs) (hy : Ascending ys)
    (h : ∀ r, r ∈ xs ↔ r ∈ ys) : xs = ys := by
  have hnodup : ∀ {zs : List Record}, Ascending zs → zs.Nodup :=
    fun hz => hz.imp fun hlt heq => hlt.ne (congrArg Record.key heq)
  refine ((List.perm_ext_iff_of_nodup (hnodup hx) (hnodup hy)).mpr h).eq_of_pairwise ?_ hx hy
  exact fun a b _ _ hab hba => absurd (hab.trans hba) (lt_irrefl _)

theorem next_open {it : Iterator} (hopen : it.closed = false) :
    it.next = match nextRecord (elements it.heap).length it.heap with
      | none => (none, { it with heap := [] })
      | some (r, rest) => (some r, { it with heap := rest }) := by
  unfold Iterator.next
  exact if_neg (by simp [hopen])

theorem drain_spec {fuel : Nat} {it : Iterator} (hopen : it.closed = false)
    (hs : SortedHeap less it.heap) (hc : Consistent (recordsOf (elements it.heap)))
    (hfuel : (elements it.heap).length ≤ fuel) :
    Ascending (it.drain fuel) ∧ ∀ r, r ∈ it.drain fuel ↔ Yields (elements it.heap) r := by
  induction fuel generalizing it with
  | zero =>
      have hnil : elements it.heap = [] := List.length_eq_zero_iff.mp (Nat.le_zero.mp hfuel)
      refine ⟨List.Pairwise.nil, fun r => ⟨fun h => (by cases h), fun h => ?_⟩⟩
      rw [hnil] at h
      exact absurd h.1 (by simp)
  | succ fuel ih =>
      have hfind := nextRecord_finds hs hc (le_refl _)
      unfold Iterator.drain
      rw [next_open hopen]
      cases hn : nextRecord (elements it.heap).length it.heap with
      | none =>
          rw [hn] at hfind
          exact ⟨List.Pairwise.nil, fun r => ⟨fun h => (by cases h), fun h => absurd h (hfind r)⟩⟩
      | some p =>
          obtain ⟨r, rest⟩ := p
          rw [hn] at hfind
          obtain ⟨hr, hres, hmin⟩ := hfind
          have hshort := hres.shorter
          obtain ⟨hasc, hmem⟩ := @ih { it with heap := rest } hopen hres.sorted
            (hres.consistent hc) (by dsimp only; omega)
          have hrest : ∀ x, x ∈ Iterator.drain fuel { it with heap := rest } ↔
              Yields (elements it.heap) x ∧ r.key < x.key :=
            fun x => (hmem x).trans hres.yields
          refine ⟨List.pairwise_cons.mpr ⟨fun x hx => ((hrest x).mp hx).2, hasc⟩, fun x => ?_⟩
          dsimp only
          rw [List.mem_cons, hrest]
          constructor
          · intro h
            rcases h with rfl | h
            · exact hr
            · exact h.1
          · intro hx
            rcases (hmin x hx).lt_or_eq with hlt | heq
            · exact Or.inr ⟨hx, hlt⟩
            · refine Or.inl (hc x hx.1 r hr.1 heq.symm ?_)
              exact le_antisymm (hr.2.1 x hx.1 heq.symm) (hx.2.1 r hr.1 heq)

/-- **The output of an iterator.** -/
theorem output_spec {it : Iterator} (hopen : it.closed = false) (hs : SortedHeap less it.heap)
    (hc : Consistent (recordsOf (elements it.heap))) :
    Ascending it.output ∧ ∀ r, r ∈ it.output ↔ Yields (elements it.heap) r :=
  drain_spec hopen hs hc (le_refl _)

/-- One call of `Next` takes the first record of the output. -/
theorem output_next {it : Iterator} (hopen : it.closed = false) (hs : SortedHeap less it.heap)
    (hc : Consistent (recordsOf (elements it.heap))) :
    it.next.2.closed = false ∧ it.next.2.maxSeq = it.maxSeq ∧ SortedHeap less it.next.2.heap ∧
      Consistent (recordsOf (elements it.next.2.heap)) ∧
      it.output = it.next.1.toList ++ it.next.2.output := by
  obtain ⟨hasc, hmem⟩ := output_spec hopen hs hc
  have hfind := nextRecord_finds hs hc (le_refl _)
  rw [next_open hopen]
  cases hn : nextRecord (elements it.heap).length it.heap with
  | none =>
      rw [hn] at hfind
      have hnil : it.output = [] := by
        refine List.eq_nil_iff_forall_not_mem.mpr fun r hr => ?_
        exact hfind r ((hmem r).mp hr)
      refine ⟨hopen, rfl, fun c hc => (by cases hc), fun r hr => (by cases hr), ?_⟩
      rw [hnil]
      rfl
  | some p =>
      obtain ⟨r, rest⟩ := p
      rw [hn] at hfind
      obtain ⟨hr, hres, hmin⟩ := hfind
      have hc' := hres.consistent hc
      obtain ⟨hasc', hmem'⟩ := @output_spec { it with heap := rest } hopen hres.sorted hc'
      have hrest : ∀ x, x ∈ Iterator.output { it with heap := rest } ↔
          Yields (elements it.heap) x ∧ r.key < x.key :=
        fun x => (hmem' x).trans hres.yields
      refine ⟨hopen, rfl, hres.sorted, hc', ?_⟩
      refine hasc.ext (List.pairwise_cons.mpr ⟨fun x hx => ((hrest x).mp hx).2, hasc'⟩) fun x => ?_
      rw [hmem]
      show _ ↔ x ∈ r :: Iterator.output { it with heap := rest }
      rw [List.mem_cons, hrest]
      constructor
      · intro hx
        rcases (hmin x hx).lt_or_eq with hlt | heq
        · exact Or.inr ⟨hx, hlt⟩
        · refine Or.inl (hc x hx.1 r hr.1 heq.symm ?_)
          exact le_antisymm (hr.2.1 x hx.1 heq.symm) (hx.2.1 r hr.1 heq)
      · intro h
        rcases h with rfl | h
        · exact hr
        · exact h.1

/-! ### The sources -/

/-- A key of the range. -/
def inRange (opts : IteratorOptions) (key : Key) : Bool :=
  !beforeStart opts key && !atOrPastEnd opts key

/-- Where what is wanted comes first, `takeWhile` finds all of it. -/
theorem mem_takeWhile {α : Type} {p : α → Bool} {xs : List α}
    (h : xs.Pairwise (fun a b => p b = true → p a = true)) {x : α} :
    x ∈ xs.takeWhile p ↔ x ∈ xs ∧ p x = true := by
  induction xs with
  | nil => simp
  | cons a xs ih =>
      obtain ⟨ha, hxs⟩ := List.pairwise_cons.mp h
      by_cases hp : p a = true
      · rw [List.takeWhile_cons_of_pos hp, List.mem_cons, List.mem_cons, ih hxs]
        constructor
        · intro hx
          rcases hx with rfl | ⟨hx, hpx⟩
          · exact ⟨Or.inl rfl, hp⟩
          · exact ⟨Or.inr hx, hpx⟩
        · intro hx
          exact hx.1.imp_right fun h => ⟨h, hx.2⟩
      · rw [List.takeWhile_cons_of_neg hp]
        refine ⟨fun hx => (by cases hx), fun hx => ?_⟩
        rcases List.mem_cons.mp hx.1 with rfl | hmem
        · exact absurd hx.2 hp
        · exact absurd (ha x hmem hx.2) hp

theorem atOrPastEnd_mono {opts : IteratorOptions} {a b : Key} (hle : a ≤ b)
    (h : atOrPastEnd opts a = true) : atOrPastEnd opts b = true := by
  unfold atOrPastEnd at h ⊢
  simp only [Bool.and_eq_true, decide_eq_true_eq] at h ⊢
  exact ⟨h.1, h.2.trans hle⟩

theorem mem_sourceRecords {opts : IteratorOptions} {maxSeq : UInt64} {recs : List Record}
    (h : InOrder recs) {r : Record} :
    r ∈ sourceRecords opts maxSeq recs ↔
      r ∈ recs ∧ r.seq ≤ maxSeq ∧ inRange opts r.key = true := by
  have hmono : (recs.filter fun r => r.seq ≤ maxSeq && !beforeStart opts r.key).Pairwise
      (fun a b => (!atOrPastEnd opts b.key) = true → (!atOrPastEnd opts a.key) = true) := by
    refine (List.Pairwise.sublist List.filter_sublist h).imp fun hab hb => ?_
    rw [Bool.not_eq_true', ← Bool.not_eq_true] at hb ⊢
    exact fun ha => hb (atOrPastEnd_mono (key_le_of_not_less hab) ha)
  unfold sourceRecords inRange
  rw [mem_takeWhile hmono, List.mem_filter]
  simp only [Bool.and_eq_true, decide_eq_true_eq, and_assoc]

theorem sourceRecords_inOrder {opts : IteratorOptions} {maxSeq : UInt64} {recs : List Record}
    (h : InOrder recs) : InOrder (sourceRecords opts maxSeq recs) :=
  List.Pairwise.sublist ((List.takeWhile_sublist _).trans List.filter_sublist) h

section Held

variable {s : Sys} (hs : TablesInOrder s) (opts : IteratorOptions) (maxSeq : UInt64)

include hs

/-- A new iterator holds the visible versions of its range. -/
theorem TablesInOrder.newIterator :
    ∃ it, HyphaDB.newIterator s opts maxSeq = .ok it ∧ it.closed = false ∧ it.maxSeq = maxSeq ∧
      SortedHeap less it.heap ∧
      ∀ r, r ∈ elements it.heap ↔ r ∈ held s ∧ r.seq ≤ maxSeq ∧ inRange opts r.key = true := by
  have hsorted := hs.sources_inOrder
  unfold HyphaDB.newIterator
  rw [hs.readTables]
  refine ⟨_, rfl, rfl, rfl, ?_, fun r => ?_⟩
  · refine sortedHeap_sources fun recs hrecs => ?_
    obtain ⟨src, hsrc, rfl⟩ := List.mem_map.mp hrecs
    exact sourceRecords_inOrder (hsorted src hsrc)
  · dsimp only
    rw [elements_sources, List.mem_flatten]
    constructor
    · intro h
      obtain ⟨recs, hrecs, hr⟩ := h
      obtain ⟨src, hsrc, rfl⟩ := List.mem_map.mp hrecs
      obtain ⟨hr, hrest⟩ := (mem_sourceRecords (hsorted src hsrc)).mp hr
      exact ⟨⟨src, hsrc, hr⟩, hrest⟩
    · intro h
      obtain ⟨⟨src, hsrc, hr⟩, hrest⟩ := h
      exact ⟨_, List.mem_map_of_mem hsrc, (mem_sourceRecords (hsorted src hsrc)).mpr ⟨hr, hrest⟩⟩

/-- **A scan lists what reads find**, where the versions are consistent. -/
theorem TablesInOrder.scan (hc : Consistent (held s)) :
    ∃ it, HyphaDB.newIterator s opts maxSeq = .ok it ∧ it.closed = false ∧ it.maxSeq = maxSeq ∧
      SortedHeap less it.heap ∧ Consistent (recordsOf (elements it.heap)) ∧
      Ascending it.output ∧ ∀ r, r ∈ it.output ↔ inRange opts r.key = true ∧
        ReadsAt (held s) r.key maxSeq (some r) ∧ r.deleted = false := by
  obtain ⟨it, hit, hopen, hmax, hsorted, helems⟩ := hs.newIterator opts maxSeq
  have hc' : Consistent (recordsOf (elements it.heap)) :=
    hc.mono fun r hr => ((helems r).mp hr).1
  obtain ⟨hasc, hmem⟩ := output_spec hopen hsorted hc'
  refine ⟨it, hit, hopen, hmax, hsorted, hc', hasc, fun r => (hmem r).trans ?_⟩
  constructor
  · intro hy
    obtain ⟨hin, hnew, hdel⟩ := hy
    obtain ⟨hheld, hle, hrange⟩ := (helems r).mp hin
    refine ⟨hrange, ⟨hheld, rfl, hle, fun x hx hk hxle => ?_⟩, hdel⟩
    exact hnew x ((helems x).mpr ⟨hx, hxle, hk ▸ hrange⟩) hk
  · intro h
    obtain ⟨hrange, hreads, hdel⟩ := h
    refine ⟨(helems r).mpr ⟨hreads.mem, hreads.seq_le, hrange⟩, fun x hx hk => ?_, hdel⟩
    obtain ⟨hheld, hle, -⟩ := (helems x).mp hx
    exact hreads.max x hheld hk hle

end Held

/-- A scan of a sound process. -/
theorem scan_spec {cfg : Config} {g : Guard} {M : Model Call} {used : Nat} {s : Sys}
    (hs : SysSound cfg g M used s) (opts : IteratorOptions) (maxSeq : UInt64)
    (hc : Consistent ((viewSys cfg s).live (handleOf s.disk s.db))) :
    ∃ it, newIterator s opts maxSeq = .ok it ∧ it.closed = false ∧ it.maxSeq = maxSeq ∧
      SortedHeap less it.heap ∧ Consistent (recordsOf (elements it.heap)) ∧
      Ascending it.output ∧ ∀ r, r ∈ it.output ↔ inRange opts r.key = true ∧
        ReadsAt ((viewSys cfg s).live (handleOf s.disk s.db)) r.key maxSeq (some r) ∧
        r.deleted = false := by
  rw [← held_eq hs] at hc ⊢
  exact (tablesInOrder hs).scan opts maxSeq hc

/-! ### Scans and point reads -/

theorem inRange_iff {opts : IteratorOptions} {k : Key} :
    inRange opts k = true ↔ opts.start ≤ k ∧ (opts.stop = [] ∨ k < opts.stop) := by
  unfold inRange beforeStart atOrPastEnd
  simp only [Bool.and_eq_true, Bool.not_eq_true', Bool.and_eq_false_iff, decide_eq_false_iff_not,
    not_not, not_lt, not_le]
  refine and_congr_left fun _ => or_iff_right_of_imp fun hnil => ?_
  rw [hnil]
  exact not_lt.mp (List.not_lt_nil k)

/-- An iterator whose `Next` finds nothing has no output. -/
theorem output_of_next_none {it : Iterator} (h : it.next.1 = none) : it.output = [] := by
  unfold Iterator.output
  cases (elements it.heap).length with
  | zero => rfl
  | succ n =>
      unfold Iterator.drain
      split
      · rfl
      · rename_i r it' heq
        rw [heq] at h
        cases h

/-- Calls of `Next` behind the output find nothing more. -/
theorem drain_of_length_le {fuel : Nat} {it : Iterator} (hopen : it.closed = false)
    (hs : SortedHeap less it.heap) (hc : Consistent (recordsOf (elements it.heap)))
    (hfuel : it.output.length ≤ fuel) : it.drain fuel = it.output := by
  induction fuel generalizing it with
  | zero => exact (List.length_eq_zero_iff.mp (Nat.le_zero.mp hfuel)).symm
  | succ fuel ih =>
      obtain ⟨hopen', -, hs', hc', hout⟩ := output_next hopen hs hc
      unfold Iterator.drain
      split
      · rename_i it' heq
        rw [output_of_next_none (congrArg Prod.fst heq)]
      · rename_i r it' heq
        rw [heq] at hopen' hs' hc' hout
        rw [hout] at hfuel ⊢
        rw [ih hopen' hs' hc' (by simpa using hfuel)]
        rfl

/-- The entries of a scan are the values `getAt` finds in its range. -/
theorem TablesInOrder.scan_getAt {s : Sys} (hs : TablesInOrder s) (hc : Consistent (held s))
    (opts : IteratorOptions) (maxSeq : UInt64) :
    ∃ it, HyphaDB.newIterator s opts maxSeq = .ok it ∧ it.closed = false ∧
      SortedHeap less it.heap ∧ Consistent (recordsOf (elements it.heap)) ∧ Ascending it.output ∧
      ∀ k v, (∃ r ∈ it.output, r.key = k ∧ r.value = v) ↔
        (opts.start ≤ k ∧ (opts.stop = [] ∨ k < opts.stop)) ∧ getAt s k maxSeq = .ok v := by
  obtain ⟨it, hit, hopen, -, hsorted, hc', hasc, hmem⟩ := hs.scan opts maxSeq hc
  refine ⟨it, hit, hopen, hsorted, hc', hasc, fun k v => ?_⟩
  obtain ⟨best, hfind, hbest⟩ := hs.findAt k maxSeq
  rw [← inRange_iff]
  unfold getAt
  rw [hfind]
  constructor
  · intro h
    obtain ⟨r, hr, rfl, rfl⟩ := h
    obtain ⟨hrange, hreads, hdel⟩ := (hmem r).mp hr
    obtain rfl := ReadsAt.unique hc hreads hbest
    refine ⟨hrange, ?_⟩
    show (if r.deleted then _ else _) = _
    rw [if_neg (by simp [hdel])]
  · intro h
    obtain ⟨hrange, hv⟩ := h
    cases best with
    | none => cases hv
    | some r =>
        obtain rfl : r.key = k := hbest.key_eq
        dsimp only [answer] at hv
        split at hv
        · cases hv
        · rename_i hdel
          exact ⟨r, (hmem r).mpr ⟨hrange, hbest, by simpa using hdel⟩, rfl, Except.ok.inj hv⟩

/-- **Scans agree with point reads.** For a process whose sources are sorted and hold no two
records of one version, an iterator yields the keys of its range that `getAt` has a value
for, by ascending key, each once and with that value, and then nothing more. -/
theorem scan_agrees_with_getAt {s : Sys} (hs : TablesInOrder s) (hc : Consistent (held s))
    (opts : IteratorOptions) (maxSeq : UInt64) :
    ∃ it, newIterator s opts maxSeq = .ok it ∧
      (∀ extra, it.drain (it.output.length + extra) = it.output) ∧
      it.output.Pairwise (fun a b => a.key < b.key) ∧
      ∀ k v, (∃ r ∈ it.output, r.key = k ∧ r.value = v) ↔
        (opts.start ≤ k ∧ (opts.stop = [] ∨ k < opts.stop)) ∧ getAt s k maxSeq = .ok v := by
  obtain ⟨it, hit, hopen, hsorted, hc', hasc, hmem⟩ := hs.scan_getAt hc opts maxSeq
  refine ⟨it, hit, fun extra => ?_, hasc, hmem⟩
  exact drain_of_length_le hopen hsorted hc' (Nat.le_add_right _ _)

/-- A process with these records in its active memtable, in two queued ones and in a table. -/
def layered (active newer older table : List Record) : Sys where
  disk := Disk.putTable {} (.data 0) table
  db := { newDB ⟨1, 4, ⟨16, 16, 16, 64⟩⟩ .new {} 0 with
    heap := fun ref => MemTable.new.putAll
      (if ref = 0 then active else if ref = 1 then newer else older)
    immutableMemtables := [⟨2, 0⟩, ⟨1, 1⟩]
    sstables := [⟨0, .data 0, 0, 0, SSTable.smallestKey table, SSTable.largestKey table⟩] }

/-- The put of a key in these layers. -/
def putOf (key : Key) (seq : UInt64) (value : Bytes) : Record := { key, seq, value }

/-- A version that is in two sources, an overwritten one and a deleted one. -/
def copied : Sys :=
  layered [putOf [1] 4 [9]] [putOf [1] 2 [7], { key := [2], seq := 3, deleted := true }]
    [putOf [1] 2 [7], putOf [3] 1 [5]] [putOf [2] 1 [6], putOf [3] 1 [5]]

theorem scan_agrees_with_getAt_copied :
    ∃ it, newIterator copied {} 4 = .ok it ∧
      (∀ extra, it.drain (it.output.length + extra) = it.output) ∧
      it.output.Pairwise (fun a b => a.key < b.key) ∧
      ∀ k v, (∃ r ∈ it.output, r.key = k ∧ r.value = v) ↔
        (([] : Key) ≤ k ∧ (([] : Key) = [] ∨ k < [])) ∧ getAt copied k 4 = .ok v := by
  have hcons : ∀ r ∈ (sources copied).flatten, ∀ r' ∈ (sources copied).flatten,
      r.key = r'.key → r.seq = r'.seq → r = r' := by decide +kernel
  refine scan_agrees_with_getAt (fun t ht => ?_) (fun r hr r' hr' => ?_) {} 4
  · obtain rfl := List.mem_singleton.mp ht
    exact ⟨[putOf [2] 1 [6], putOf [3] 1 [5]], rfl, SSTable.writable_iff.mp (by decide +kernel)⟩
  · exact hcons r (List.mem_flatten.mpr hr) r' (List.mem_flatten.mpr hr')

/-- Two sources with different records of one version. -/
def conflicting : Sys :=
  layered [putOf [2] 1 []] [putOf [3] 1 [7]] [putOf [1] 1 [], putOf [3] 1 [8]] []

/-- Then the merge queue decides which record a scan yields, and `getAt` decides otherwise. -/
theorem scan_conflicting : TablesInOrder conflicting ∧
    getAt conflicting [3] 1 = .ok [7] ∧
    (newIterator conflicting {} 1).toOption.map
        (fun it => it.output.map fun r => (r.key, r.value)) =
      some [([1], []), ([2], []), ([3], [8])] := by
  refine ⟨fun t ht => ?_, by decide +kernel, by decide +kernel⟩
  obtain rfl := List.mem_singleton.mp ht
  exact ⟨_, rfl, List.Pairwise.nil⟩

end HyphaDB.Refine
