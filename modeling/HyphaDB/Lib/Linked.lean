import Mathlib.Data.List.Basic
import Mathlib.Data.List.Nodup

/-!
# HyphaDB.Lib.Linked

**Linked lists in a heap.** `next x` is the pointer in the cell `x`: `none` if the cell has no
such pointer, `some none` at the end of a list. `Chain next x l` says that the pointers lead from
`x` through the cells of `l` and end there.

A new cell is linked in by two writes, and `Chain.insert` says what becomes of the chain. What
happens to other cells is of no concern to it (`Chain.congr`).
-/

namespace HyphaDB.Linked

variable {α : Type} {next next' : α → Option (Option α)}

def Chain (next : α → Option (Option α)) : α → List α → Prop
  | x, [] => next x = some none
  | x, y :: l => next x = some (some y) ∧ Chain next y l

/-- The pointer of the cell before `v`. -/
theorem Chain.next_last {x : α} {u v : List α} (h : Chain next x (u ++ v)) :
    next (u.getLastD x) = some v.head? := by
  induction u generalizing x with
  | nil =>
      cases v with
      | nil => exact h
      | cons y v => exact h.1
  | cons a u ih =>
      rw [List.getLastD_cons]
      exact ih h.2

/-- The rest of a chain. -/
theorem Chain.rest {x y : α} {u v : List α} (h : Chain next x (u ++ y :: v)) : Chain next y v := by
  induction u generalizing x with
  | nil => exact h.2
  | cons a u ih => exact ih h.2

/-- Only the pointers of its cells count. -/
theorem Chain.congr {x : α} {l : List α} (h : Chain next x l)
    (heq : ∀ z ∈ x :: l, next' z = next z) : Chain next' x l := by
  induction l generalizing x with
  | nil => exact (heq x List.mem_cons_self).trans h
  | cons y l ih =>
      refine ⟨(heq x List.mem_cons_self).trans h.1, ih h.2 fun z hz => ?_⟩
      exact heq z (List.mem_cons_of_mem x hz)

/-- **Linking in a cell**: `new` gets the pointer of the cell before it, which then points to
`new`. -/
theorem Chain.insert {x new : α} {u v : List α} (h : Chain next x (u ++ v))
    (hnodup : (x :: (u ++ v)).Nodup) (hnew : new ∉ x :: (u ++ v))
    (hfirst : next' new = next (u.getLastD x)) (hlast : next' (u.getLastD x) = some (some new))
    (hother : ∀ z, z ≠ new → z ≠ u.getLastD x → next' z = next z) :
    Chain next' x (u ++ new :: v) := by
  induction u generalizing x with
  | nil =>
      refine ⟨hlast, ?_⟩
      obtain ⟨hx, -⟩ := List.nodup_cons.mp hnodup
      cases v with
      | nil => exact hfirst.trans h
      | cons y v =>
          refine ⟨hfirst.trans h.1, Chain.congr h.2 fun z hz => hother z ?_ ?_⟩
          · rintro rfl
            exact hnew (List.mem_cons_of_mem x hz)
          · rintro rfl
            exact hx hz
  | cons a u ih =>
      obtain ⟨hx, hrest⟩ := List.nodup_cons.mp hnodup
      rw [List.getLastD_cons] at hfirst hlast hother
      have hlastMem : u.getLastD a ∈ a :: u := by
        cases u with
        | nil => exact List.mem_cons_self
        | cons b u => exact List.mem_cons_of_mem a (List.getLast_mem (List.cons_ne_nil b u))
      have hne : x ≠ u.getLastD a := by
        rintro rfl
        exact hx (List.mem_append_left v hlastMem)
      have hxnew : x ≠ new := fun heq => hnew (heq ▸ List.mem_cons_self)
      exact ⟨(hother x hxnew hne).trans h.1,
        ih h.2 hrest (fun hmem => hnew (List.mem_cons_of_mem x hmem)) hfirst hlast hother⟩

/-! ### Searching a list in order

A search passes the elements `p` holds of. In a list in order they are the first ones, so where it
stops does not depend on where it started. -/

theorem getLastD_append_cons (u v : List α) (x d : α) :
    (u ++ x :: v).getLastD d = v.getLastD x := by
  induction u generalizing d with
  | nil => exact List.getLastD_cons
  | cons a u ih =>
      rw [List.cons_append, List.getLastD_cons]
      exact ih a

/-- The elements `p` holds of come first. -/
def Leading (p : α → Bool) (l : List α) : Prop := l.Pairwise fun a b => p b = true → p a = true

theorem Leading.filter_not {p : α → Bool} {x : α} {l : List α} (h : Leading p (x :: l))
    (hx : p x = false) : l.filter p = [] := by
  rw [List.filter_eq_nil_iff]
  intro y hy hpy
  have := (List.pairwise_cons.mp h).1 y hy hpy
  rw [hx] at this
  cases this

theorem Leading.takeWhile_eq {p : α → Bool} {l : List α} (h : Leading p l) :
    l.takeWhile p = l.filter p := by
  induction l with
  | nil => rfl
  | cons x l ih =>
      cases hx : p x with
      | true =>
          rw [List.takeWhile_cons_of_pos hx, List.filter_cons_of_pos hx,
            ih (List.pairwise_cons.mp h).2]
      | false =>
          rw [List.takeWhile_cons_of_neg (by simp [hx]), List.filter_cons_of_neg (by simp [hx]),
            h.filter_not hx]

theorem Leading.dropWhile_eq {p : α → Bool} {l : List α} (h : Leading p l) :
    l.dropWhile p = l.filter (fun a => !p a) := by
  induction l with
  | nil => rfl
  | cons x l ih =>
      cases hx : p x with
      | true =>
          rw [List.dropWhile_cons_of_pos hx, List.filter_cons_of_neg (by simp [hx]),
            ih (List.pairwise_cons.mp h).2]
      | false =>
          have hall : ∀ y ∈ x :: l, (!p y) = true := by
            intro y hy
            rcases List.mem_cons.mp hy with rfl | hy
            · simp [hx]
            · have := List.filter_eq_nil_iff.mp (h.filter_not hx) y hy
              simpa using this
          rw [List.dropWhile_cons_of_neg (by simp [hx]), List.filter_eq_self.mpr hall]

theorem Leading.split {p : α → Bool} {l : List α} (h : Leading p l) :
    l.filter p ++ l.filter (fun a => !p a) = l := by
  rw [← h.takeWhile_eq, ← h.dropWhile_eq, List.takeWhile_append_dropWhile]

theorem Leading.sublist {p : α → Bool} {l l' : List α} (h : Leading p l) (hsub : l'.Sublist l) :
    Leading p l' :=
  List.Pairwise.sublist hsub h

/-- A search may start at any element it would pass. -/
theorem Leading.getLastD_of_mem {p : α → Bool} {u v : List α} {x d : α}
    (h : Leading p (u ++ x :: v)) (hx : p x = true) :
    ((u ++ x :: v).filter p).getLastD d = (v.takeWhile p).getLastD x := by
  have hv : Leading p v := h.sublist
    ((List.sublist_cons_self x v).trans (List.sublist_append_right u _))
  rw [List.filter_append, List.filter_cons_of_pos hx, getLastD_append_cons, hv.takeWhile_eq]

end HyphaDB.Linked
