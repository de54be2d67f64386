import Mathlib.Data.List.Perm.Basic
import Mathlib.Data.List.Pairwise
import Mathlib.Data.List.Flatten

/-!
# HyphaDB.Lib.Merge

**K-way merge** through a priority queue of cursors. A cursor is a source with its
current element; the queue hands out the cursor whose current element is smallest, and
the source's next element takes its place.

Whatever the order `lt` of the queue is, the merge holds exactly the elements of its sources
(`merge_perm`) and keeps the order of each (`merge_filter`). All it needs of `lt` to turn
sorted sources into a sorted list (`merge_sorted`) is that `¬ lt b a` (`a` may stand before
`b`) is transitive and that `lt` is asymmetric.
-/

namespace HyphaDB.Merge

/-- A source with its current element. -/
structure Cursor (α : Type) where
  current : α
  rest : List α

/-- The elements a cursor still has. -/
def Cursor.elements {α : Type} (c : Cursor α) : List α := c.current :: c.rest

/-- The cursor of a source, if the source has an element. -/
def cursorOf {α : Type} : List α → List (Cursor α)
  | [] => []
  | a :: as => [⟨a, as⟩]

/-- The elements of all cursors. -/
def elements {α : Type} (heap : List (Cursor α)) : List α := heap.flatMap Cursor.elements

variable {α : Type} (lt : α → α → Bool)

/-- Take the cursor with the smallest current element, the first one on a tie. -/
def popMin : List (Cursor α) → Option (Cursor α × List (Cursor α))
  | [] => none
  | c :: cs =>
      match popMin cs with
      | none => some (c, [])
      | some (d, ds) => if lt d.current c.current then some (d, c :: ds) else some (c, d :: ds)

/-- Take the smallest element and advance its source. -/
def pop (heap : List (Cursor α)) : Option (α × List (Cursor α)) :=
  match popMin lt heap with
  | none => none
  | some (c, cs) => some (c.current, cursorOf c.rest ++ cs)

/-- Take elements until the queue is empty. -/
def mergeLoop : Nat → List (Cursor α) → List α
  | 0, _ => []
  | fuel + 1, heap =>
      match pop lt heap with
      | none => []
      | some (a, heap) => a :: mergeLoop fuel heap

/-- Merge sources. Every turn takes one element, so their number is fuel enough. -/
def merge (sources : List (List α)) : List α :=
  mergeLoop lt sources.flatten.length (sources.flatMap cursorOf)

theorem elements_cursorOf (as : List α) : elements (cursorOf as) = as := by
  cases as <;> simp [cursorOf, elements, Cursor.elements]

theorem elements_append (xs ys : List (Cursor α)) :
    elements (xs ++ ys) = elements xs ++ elements ys := by
  simp [elements]

theorem elements_sources (sources : List (List α)) :
    elements (sources.flatMap cursorOf) = sources.flatten := by
  induction sources with
  | nil => rfl
  | cons as sources ih =>
      rw [List.flatMap_cons, elements_append, elements_cursorOf, ih, List.flatten_cons]

variable {lt}

theorem popMin_eq_none {heap : List (Cursor α)} (h : popMin lt heap = none) : heap = [] := by
  cases heap with
  | nil => rfl
  | cons c cs =>
      unfold popMin at h
      cases hp : popMin lt cs with
      | none => simp [hp] at h
      | some p =>
          simp only [hp] at h
          split at h <;> cases h

theorem popMin_perm {heap cs : List (Cursor α)} {c : Cursor α}
    (h : popMin lt heap = some (c, cs)) : heap.Perm (c :: cs) := by
  induction heap generalizing c cs with
  | nil => cases h
  | cons x xs ih =>
      unfold popMin at h
      cases hp : popMin lt xs with
      | none =>
          obtain rfl := popMin_eq_none hp
          simp only [hp, Option.some.injEq, Prod.mk.injEq] at h
          obtain ⟨rfl, rfl⟩ := h
          exact List.Perm.refl _
      | some p =>
          obtain ⟨d, ds⟩ := p
          have hperm := ih hp
          simp only [hp] at h
          split at h
          · simp only [Option.some.injEq, Prod.mk.injEq] at h
            obtain ⟨rfl, rfl⟩ := h
            exact (hperm.cons x).trans (List.Perm.swap d x ds)
          · simp only [Option.some.injEq, Prod.mk.injEq] at h
            obtain ⟨rfl, rfl⟩ := h
            exact hperm.cons x

theorem pop_perm {heap heap' : List (Cursor α)} {a : α} (h : pop lt heap = some (a, heap')) :
    (elements heap).Perm (a :: elements heap') := by
  unfold pop at h
  cases hp : popMin lt heap with
  | none => simp [hp] at h
  | some p =>
      obtain ⟨c, cs⟩ := p
      simp only [hp, Option.some.injEq, Prod.mk.injEq] at h
      obtain ⟨rfl, rfl⟩ := h
      rw [elements_append, elements_cursorOf]
      exact (popMin_perm hp).flatMap_right _

theorem pop_eq_none {heap : List (Cursor α)} (h : pop lt heap = none) : heap = [] := by
  unfold pop at h
  cases hp : popMin lt heap with
  | none => exact popMin_eq_none hp
  | some p => simp [hp] at h

theorem mergeLoop_perm {fuel : Nat} {heap : List (Cursor α)}
    (hfuel : (elements heap).length ≤ fuel) : (mergeLoop lt fuel heap).Perm (elements heap) := by
  induction fuel generalizing heap with
  | zero =>
      have hnil : elements heap = [] := List.length_eq_zero_iff.mp (Nat.le_zero.mp hfuel)
      rw [hnil]
      exact List.Perm.refl _
  | succ fuel ih =>
      unfold mergeLoop
      cases hp : pop lt heap with
      | none =>
          rw [pop_eq_none hp]
          exact List.Perm.refl _
      | some p =>
          obtain ⟨a, heap'⟩ := p
          have hperm := pop_perm hp
          have hlen : (elements heap).length = (elements heap').length + 1 := hperm.length_eq
          exact ((ih (by omega)).cons a).trans hperm.symm

/-- The merge holds exactly the elements of its sources. -/
theorem merge_perm (sources : List (List α)) : (merge lt sources).Perm sources.flatten := by
  have h := @mergeLoop_perm α lt _ _
    (Nat.le_of_eq (congrArg List.length (elements_sources sources)))
  rwa [elements_sources] at h

/-! ### The order of each source -/

theorem mergeLoop_sublist {fuel : Nat} {heap : List (Cursor α)}
    (hfuel : (elements heap).length ≤ fuel) {c : Cursor α} (hc : c ∈ heap) :
    c.elements.Sublist (mergeLoop lt fuel heap) := by
  induction fuel generalizing heap c with
  | zero =>
      have hnil : elements heap = [] := List.length_eq_zero_iff.mp (Nat.le_zero.mp hfuel)
      have hmem : c.current ∈ elements heap := List.mem_flatMap.mpr ⟨c, hc, List.mem_cons_self⟩
      rw [hnil] at hmem
      cases hmem
  | succ fuel ih =>
      unfold mergeLoop
      cases hp : pop lt heap with
      | none =>
          rw [pop_eq_none hp] at hc
          cases hc
      | some p =>
          obtain ⟨a, heap'⟩ := p
          have hlen : (elements heap).length = (elements heap').length + 1 :=
            (pop_perm hp).length_eq
          have hrest := @ih heap' (by omega)
          unfold pop at hp
          cases hm : popMin lt heap with
          | none => simp [hm] at hp
          | some q =>
              obtain ⟨d, ds⟩ := q
              simp only [hm, Option.some.injEq, Prod.mk.injEq] at hp
              obtain ⟨rfl, rfl⟩ := hp
              rcases List.mem_cons.mp ((popMin_perm hm).mem_iff.mp hc) with rfl | hd
              · -- the cursor that is popped: what is left of it is in the rest
                refine List.Sublist.cons_cons _ ?_
                cases hcr : c.rest with
                | nil => exact List.nil_sublist _
                | cons b bs =>
                    rw [hcr] at hrest
                    exact hrest (List.mem_append_left _ (List.mem_singleton.mpr rfl))
              · exact (hrest (List.mem_append_right _ hd)).cons _

/-- A merge keeps the order of each source. -/
theorem merge_sublist {sources : List (List α)} {as : List α} (has : as ∈ sources) :
    as.Sublist (merge lt sources) := by
  cases as with
  | nil => exact List.nil_sublist _
  | cons a as =>
      have hc : (⟨a, as⟩ : Cursor α) ∈ sources.flatMap cursorOf :=
        List.mem_flatMap.mpr ⟨_, has, List.mem_singleton.mpr rfl⟩
      exact mergeLoop_sublist (Nat.le_of_eq (congrArg List.length (elements_sources sources))) hc

/-- What marks a source finds it in the merge, in its order. -/
theorem merge_filter {pre post : List (List α)} {as : List α} {mark : α → Bool}
    (has : ∀ a ∈ as, mark a = true) (hpre : ∀ bs ∈ pre, ∀ b ∈ bs, mark b = false)
    (hpost : ∀ bs ∈ post, ∀ b ∈ bs, mark b = false) :
    (merge lt (pre ++ as :: post)).filter mark = as := by
  have hnone : ∀ {rest : List (List α)}, (∀ bs ∈ rest, ∀ b ∈ bs, mark b = false) →
      rest.flatten.filter mark = [] := by
    intro rest hrest
    refine List.filter_eq_nil_iff.mpr fun b hb => ?_
    obtain ⟨bs, hbs, hb⟩ := List.mem_flatten.mp hb
    simp [hrest bs hbs b hb]
  have hself : as.filter mark = as := List.filter_eq_self.mpr has
  have hperm := (@merge_perm α lt (pre ++ as :: post)).filter mark
  rw [List.flatten_append, List.flatten_cons, List.filter_append, List.filter_append, hnone hpre,
    hnone hpost, hself, List.nil_append, List.append_nil] at hperm
  have hsub : as.Sublist ((merge lt (pre ++ as :: post)).filter mark) := by
    have h := (@merge_sublist α lt (pre ++ as :: post) as (by simp)).filter mark
    rwa [hself] at h
  exact (hsub.eq_of_length hperm.length_eq.symm).symm

section Order

variable (hasymm : ∀ a b, lt a b = true → lt b a = false)
  (htrans : ∀ a b c, lt b a = false → lt c b = false → lt c a = false)

include hasymm htrans

theorem popMin_min {heap cs : List (Cursor α)} {c : Cursor α}
    (h : popMin lt heap = some (c, cs)) : ∀ d ∈ cs, lt d.current c.current = false := by
  induction heap generalizing c cs with
  | nil => cases h
  | cons x xs ih =>
      unfold popMin at h
      cases hp : popMin lt xs with
      | none =>
          simp only [hp, Option.some.injEq, Prod.mk.injEq] at h
          obtain ⟨-, rfl⟩ := h
          simp
      | some p =>
          obtain ⟨d, ds⟩ := p
          have hmin := ih hp
          simp only [hp] at h
          split at h
          · rename_i hlt
            simp only [Option.some.injEq, Prod.mk.injEq] at h
            obtain ⟨rfl, rfl⟩ := h
            intro e he
            rcases List.mem_cons.mp he with rfl | he
            · exact hasymm _ _ hlt
            · exact hmin e he
          · rename_i hge
            simp only [Option.some.injEq, Prod.mk.injEq] at h
            obtain ⟨rfl, rfl⟩ := h
            have hdx : lt d.current x.current = false := by simpa using hge
            intro e he
            rcases List.mem_cons.mp he with rfl | he
            · exact hdx
            · exact htrans _ _ _ hdx (hmin e he)

/-- Every cursor of the queue is sorted. -/
def SortedHeap (lt : α → α → Bool) (heap : List (Cursor α)) : Prop :=
  ∀ c ∈ heap, c.elements.Pairwise (fun a b => lt b a = false)

/-- Taking an element: nothing left over is smaller, the rest stays sorted, and the
elements are split exactly. -/
theorem pop_spec {heap heap' : List (Cursor α)} {a : α} (hs : SortedHeap lt heap)
    (h : pop lt heap = some (a, heap')) :
    (elements heap).Perm (a :: elements heap') ∧ SortedHeap lt heap' ∧
      ∀ b ∈ elements heap', lt b a = false := by
  refine ⟨pop_perm h, ?_⟩
  unfold pop at h
  cases hp : popMin lt heap with
  | none => simp [hp] at h
  | some p =>
      obtain ⟨c, cs⟩ := p
      simp only [hp, Option.some.injEq, Prod.mk.injEq] at h
      obtain ⟨rfl, rfl⟩ := h
      have hperm := popMin_perm hp
      have hmin := popMin_min hasymm htrans hp
      have hc := hs c (hperm.mem_iff.mpr List.mem_cons_self)
      have hcs : ∀ d ∈ cs, d.elements.Pairwise (fun a b => lt b a = false) :=
        fun d hd => hs d (hperm.mem_iff.mpr (List.mem_cons_of_mem _ hd))
      unfold Cursor.elements at hc
      rw [List.pairwise_cons] at hc
      refine ⟨?_, ?_⟩
      · intro d hd
        rcases List.mem_append.mp hd with hd | hd
        · cases hrest : c.rest with
          | nil => rw [hrest] at hd; simp [cursorOf] at hd
          | cons b bs =>
              rw [hrest] at hd
              obtain rfl := List.mem_singleton.mp hd
              rw [hrest] at hc
              exact hc.2
        · exact hcs d hd
      · intro b hb
        rw [elements_append, elements_cursorOf, List.mem_append] at hb
        rcases hb with hb | hb
        · exact hc.1 b hb
        · obtain ⟨d, hd, hbd⟩ := List.mem_flatMap.mp hb
          have hds := hcs d hd
          unfold Cursor.elements at hds hbd
          rw [List.pairwise_cons] at hds
          rcases List.mem_cons.mp hbd with rfl | hbd
          · exact hmin d hd
          · exact htrans _ _ _ (hmin d hd) (hds.1 b hbd)

theorem mergeLoop_sorted {fuel : Nat} {heap : List (Cursor α)} (hs : SortedHeap lt heap)
    (hfuel : (elements heap).length ≤ fuel) :
    (mergeLoop lt fuel heap).Pairwise (fun a b => lt b a = false) := by
  induction fuel generalizing heap with
  | zero => exact List.Pairwise.nil
  | succ fuel ih =>
      unfold mergeLoop
      cases hp : pop lt heap with
      | none => exact List.Pairwise.nil
      | some p =>
          obtain ⟨a, heap'⟩ := p
          obtain ⟨hperm, hs', hmin⟩ := pop_spec hasymm htrans hs hp
          have hlen : (elements heap).length = (elements heap').length + 1 := hperm.length_eq
          have hfuel' : (elements heap').length ≤ fuel := by omega
          rw [List.pairwise_cons]
          exact ⟨fun b hb => hmin b ((mergeLoop_perm hfuel').mem_iff.mp hb), ih hs' hfuel'⟩

omit hasymm htrans in
theorem sortedHeap_sources {sources : List (List α)}
    (hs : ∀ as ∈ sources, as.Pairwise (fun a b => lt b a = false)) :
    SortedHeap lt (sources.flatMap cursorOf) := by
  intro c hc
  obtain ⟨as, has, hcas⟩ := List.mem_flatMap.mp hc
  cases as with
  | nil => simp [cursorOf] at hcas
  | cons a as =>
      obtain rfl := List.mem_singleton.mp hcas
      exact hs _ has

/-- The merge of sorted sources is sorted. -/
theorem merge_sorted {sources : List (List α)}
    (hs : ∀ as ∈ sources, as.Pairwise (fun a b => lt b a = false)) :
    (merge lt sources).Pairwise (fun a b => lt b a = false) :=
  mergeLoop_sorted hasymm htrans (sortedHeap_sources hs)
    (Nat.le_of_eq (congrArg List.length (elements_sources sources)))

/-! ### The queue without its sources -/

/-- Take the smallest item. -/
def takeMin (lt : α → α → Bool) (items : List α) : Option (α × List α) :=
  (popMin lt (items.map fun a => ⟨a, []⟩)).map fun p => (p.1.current, p.2.map Cursor.current)

omit hasymm htrans in
theorem takeMin_eq_none {items : List α} (h : takeMin lt items = none) : items = [] :=
  List.map_eq_nil_iff.mp (popMin_eq_none (Option.map_eq_none_iff.mp h))

theorem takeMin_spec {items rest : List α} {a : α} (h : takeMin lt items = some (a, rest)) :
    items.Perm (a :: rest) ∧ ∀ b ∈ rest, lt b a = false := by
  obtain ⟨⟨c, cs⟩, hp, heq⟩ := Option.map_eq_some_iff.mp h
  cases heq
  have hperm := (popMin_perm hp).map Cursor.current
  rw [List.map_map, show Cursor.current ∘ (fun a : α => ⟨a, []⟩) = id from rfl,
    List.map_id] at hperm
  refine ⟨hperm, fun b hb => ?_⟩
  obtain ⟨d, hd, rfl⟩ := List.mem_map.mp hb
  exact popMin_min hasymm htrans hp d hd

/-- A cursor before all others is the one the queue takes, in whatever order it has them. -/
theorem pop_of_least {queue cs : List (Cursor α)} {c : Cursor α} (hperm : queue.Perm (c :: cs))
    (hleast : ∀ d ∈ cs, lt c.current d.current = true) :
    ∃ rest, pop lt queue = some (c.current, rest) ∧ rest.Perm (cursorOf c.rest ++ cs) := by
  unfold pop
  cases hp : popMin lt queue with
  | none =>
      rw [popMin_eq_none hp] at hperm
      exact absurd hperm.length_eq (by simp)
  | some q =>
      obtain ⟨d, ds⟩ := q
      have hmin := popMin_min hasymm htrans hp
      have hsplit : (c :: cs).Perm (d :: ds) := hperm.symm.trans (popMin_perm hp)
      have hd : d = c := by
        rcases List.mem_cons.mp (hsplit.mem_iff.mpr List.mem_cons_self) with hd | hd
        · exact hd
        · -- then `c` is left in the queue, before the cursor that was taken
          rcases List.mem_cons.mp (hsplit.mem_iff.mp List.mem_cons_self) with hc | hc
          · exact hc.symm
          · have hlt := hleast d hd
            rw [hmin c hc] at hlt
            cases hlt
      subst hd
      exact ⟨_, rfl, (hsplit.cons_inv.symm).append_left _⟩

end Order

end HyphaDB.Merge
