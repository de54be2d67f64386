import Mathlib.Data.List.Perm.Basic
import Mathlib.Data.List.Nodup
import Mathlib.Data.List.Basic
import Mathlib.Algebra.BigOperators.Group.List.Basic
import Mathlib.Algebra.GroupWithZero.Nat

/-!
# HyphaDB.Lib.Recency

**Lists in order of use**, the last used element first, and the weight they may have. A use
brings an element to the front (`touch`, `put`), and `trim` keeps the longest front part that is
not too heavy.

`Ordered time l` says that the list is in order of the last use, for any assignment of times. It
implies that a key occurs once, and it is all that is needed of the order: what `trim` drops was
used before everything it keeps (`Ordered.trim_lt`).
-/

namespace HyphaDB.Recency

variable {K V : Type}

/-- Take a key out. -/
def drop [DecidableEq K] (k : K) (l : List (K × V)) : List (K × V) := l.filter fun a => a.1 ≠ k

/-- Bring a key to the front. -/
def touch [DecidableEq K] (k : K) (l : List (K × V)) : List (K × V) :=
  (l.filter fun a => a.1 = k) ++ drop k l

/-- A new value of a key, at the front. -/
def put [DecidableEq K] (k : K) (v : V) (l : List (K × V)) : List (K × V) :=
  (k, v) :: drop k l

def weight (w : V → Nat) (l : List (K × V)) : Nat := (l.map fun a => w a.2).sum

/-- The longest front part that weighs at most `cap`. -/
def trim (w : V → Nat) : Nat → List (K × V) → List (K × V)
  | _, [] => []
  | cap, a :: l => if w a.2 ≤ cap then a :: trim w (cap - w a.2) l else []

/-! ### Membership -/

section Membership

variable [DecidableEq K]

@[simp] theorem mem_drop {k : K} {a : K × V} {l : List (K × V)} :
    a ∈ drop k l ↔ a ∈ l ∧ a.1 ≠ k := by
  simp [drop]

@[simp] theorem mem_touch {k : K} {a : K × V} {l : List (K × V)} : a ∈ touch k l ↔ a ∈ l := by
  by_cases h : a.1 = k
  · simp [touch, h]
  · simp [touch, h]

@[simp] theorem mem_put {k : K} {v : V} {a : K × V} {l : List (K × V)} :
    a ∈ put k v l ↔ a = (k, v) ∨ a ∈ l ∧ a.1 ≠ k := by
  simp [put]

end Membership

theorem trim_isPrefixOf (w : V → Nat) (cap : Nat) (l : List (K × V)) : trim w cap l <+: l := by
  induction l generalizing cap with
  | nil => exact List.prefix_rfl
  | cons a l ih =>
      unfold trim
      split
      · exact (List.prefix_cons_inj a).mpr (ih _)
      · exact List.nil_prefix

/-! ### Weights -/

section Weight

variable (w : V → Nat)

@[simp] theorem weight_cons (a : K × V) (l : List (K × V)) :
    weight w (a :: l) = w a.2 + weight w l := by
  simp [weight]

theorem weight_put [DecidableEq K] (k : K) (v : V) (l : List (K × V)) :
    weight w (put k v l) = w v + weight w (drop k l) := weight_cons w (k, v) (drop k l)

theorem weight_append (l l' : List (K × V)) :
    weight w (l ++ l') = weight w l + weight w l' := by
  simp [weight]

theorem weight_trim_le (cap : Nat) (l : List (K × V)) : weight w (trim w cap l) ≤ cap := by
  induction l generalizing cap with
  | nil => exact Nat.zero_le cap
  | cons a l ih =>
      unfold trim
      split
      · have := ih (cap - w a.2)
        rw [weight_cons]
        omega
      · exact Nat.zero_le cap

theorem trim_eq_self {cap : Nat} {l : List (K × V)} (h : weight w l ≤ cap) :
    trim w cap l = l := by
  induction l generalizing cap with
  | nil => rfl
  | cons a l ih =>
      rw [weight_cons] at h
      unfold trim
      rw [if_pos (by omega), ih (by omega)]

/-- The last element of a list that is too heavy goes. -/
theorem trim_append_singleton {cap : Nat} {l : List (K × V)} {a : K × V}
    (h : cap < weight w (l ++ [a])) : trim w cap (l ++ [a]) = trim w cap l := by
  induction l generalizing cap with
  | nil =>
      have hlast : ¬ w a.2 ≤ cap := by
        rw [List.nil_append, weight_cons] at h
        exact Nat.not_le.mpr (by simpa [weight] using h)
      show trim w cap [a] = []
      unfold trim
      rw [if_neg hlast]
  | cons b l ih =>
      rw [List.cons_append, weight_cons] at h
      rw [List.cons_append]
      unfold trim
      split
      · rw [ih (by omega)]
      · rfl

/-- The parts of a list by a test weigh what the list weighs. -/
theorem weight_filter (p : K × V → Bool) (l : List (K × V)) :
    weight w (l.filter p) + weight w (l.filter fun a => !p a) = weight w l := by
  induction l with
  | nil => rfl
  | cons a l ih =>
      cases hp : p a with
      | true =>
          rw [List.filter_cons_of_pos hp, List.filter_cons_of_neg (by simp [hp]), weight_cons,
            weight_cons]
          omega
      | false =>
          rw [List.filter_cons_of_neg (by simp [hp]), List.filter_cons_of_pos (by simp [hp]),
            weight_cons, weight_cons]
          omega

theorem weight_touch [DecidableEq K] (k : K) (l : List (K × V)) :
    weight w (touch k l) = weight w l := by
  unfold touch drop
  rw [weight_append, ← weight_filter w (fun a => decide (a.1 = k)) l]
  congr 3
  funext a
  simp

theorem weight_filter_le (p : K × V → Bool) (l : List (K × V)) :
    weight w (l.filter p) ≤ weight w l := by
  rw [← weight_filter w p l]
  omega

theorem weight_drop_le [DecidableEq K] (k : K) (l : List (K × V)) :
    weight w (drop k l) ≤ weight w l := weight_filter_le w _ l

end Weight

/-! ### The order of use -/

/-- The later used comes first. -/
def Ordered (time : K → Nat) (l : List (K × V)) : Prop :=
  l.Pairwise fun a b => time b.1 < time a.1

section Ordered

variable {time time' : K → Nat} {l : List (K × V)}

/-- Every key once. -/
theorem Ordered.nodup (h : Ordered time l) : (l.map Prod.fst).Nodup := by
  unfold List.Nodup
  rw [List.pairwise_map]
  refine h.imp fun hab heq => ?_
  rw [heq] at hab
  exact Nat.lt_irrefl _ hab

theorem Ordered.sublist {l' : List (K × V)} (h : Ordered time l) (hsub : l'.Sublist l) :
    Ordered time l' := List.Pairwise.sublist hsub h

/-- The order is the same for the same times. -/
theorem Ordered.congr (h : Ordered time l) (heq : ∀ a ∈ l, time' a.1 = time a.1) :
    Ordered time' l := by
  refine List.Pairwise.imp_of_mem (fun ha hb hab => ?_) h
  rw [heq _ ha, heq _ hb]
  exact hab

/-- A key that is used now comes first. -/
theorem ordered_put [DecidableEq K] {k : K} (v : V) (h : Ordered time l)
    (heq : ∀ a ∈ l, a.1 ≠ k → time' a.1 = time a.1)
    (hlt : ∀ a ∈ l, a.1 ≠ k → time a.1 < time' k) : Ordered time' (put k v l) := by
  unfold put
  refine List.pairwise_cons.mpr ⟨fun a ha => ?_, ?_⟩
  · obtain ⟨hmem, hne⟩ := mem_drop.mp ha
    rw [heq a hmem hne]
    exact hlt a hmem hne
  · refine (h.sublist List.filter_sublist).congr fun a ha => ?_
    obtain ⟨hmem, hne⟩ := mem_drop.mp ha
    exact heq a hmem hne

/-- A key that is there is brought to the front with its value. -/
theorem touch_eq_put [DecidableEq K] {k : K} {v : V} (h : (l.map Prod.fst).Nodup)
    (hmem : (k, v) ∈ l) :
    touch k l = put k v l := by
  have hone : (l.filter fun a => a.1 = k) = [(k, v)] := by
    induction l with
    | nil => cases hmem
    | cons a l ih =>
        rw [List.map_cons, List.nodup_cons] at h
        rcases List.mem_cons.mp hmem with rfl | hmem
        · rw [List.filter_cons_of_pos (by simp)]
          have hnone : (l.filter fun a => a.1 = k) = [] := by
            rw [List.filter_eq_nil_iff]
            intro b hb hbk
            exact h.1 (List.mem_map.mpr ⟨b, hb, by simpa using hbk⟩)
          rw [hnone]
        · have hne : a.1 ≠ k := fun heq => h.1 (List.mem_map.mpr ⟨(k, v), hmem, heq.symm⟩)
          rw [List.filter_cons_of_neg (by simp [hne]), ih h.2 hmem]
  unfold touch put
  rw [hone]
  rfl

theorem drop_eq_self [DecidableEq K] {k : K} (h : ∀ a ∈ l, a.1 ≠ k) : drop k l = l := by
  unfold drop
  rw [List.filter_eq_self]
  intro a ha
  simpa using h a ha

theorem touch_eq_self [DecidableEq K] {k : K} (h : ∀ a ∈ l, a.1 ≠ k) : touch k l = l := by
  have hnone : (l.filter fun a => a.1 = k) = [] := by
    rw [List.filter_eq_nil_iff]
    intro a ha
    simpa using h a ha
  unfold touch
  rw [hnone, drop_eq_self h, List.nil_append]

/-- A key weighs what its value weighs. -/
theorem weight_drop [DecidableEq K] {k : K} {v : V} (w : V → Nat) (h : (l.map Prod.fst).Nodup)
    (hmem : (k, v) ∈ l) : w v + weight w (drop k l) = weight w l := by
  rw [← weight_touch w k l, touch_eq_put h hmem, weight_put]

/-- **What `trim` drops was used before everything it keeps.** -/
theorem Ordered.trim_lt (h : Ordered time l) (w : V → Nat) (cap : Nat) {a b : K × V}
    (ha : a ∈ trim w cap l) (hb : b ∈ l) (hgone : b ∉ trim w cap l) : time b.1 < time a.1 := by
  obtain ⟨rest, hrest⟩ := trim_isPrefixOf w cap l
  have hpair : Ordered time (trim w cap l ++ rest) := by rwa [hrest]
  have hb' : b ∈ rest := by
    rw [← hrest] at hb
    exact (List.mem_append.mp hb).resolve_left hgone
  exact (List.pairwise_append.mp hpair).2.2 a ha b hb'

end Ordered

end HyphaDB.Recency
