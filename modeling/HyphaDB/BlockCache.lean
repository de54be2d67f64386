import HyphaDB.Lib.Recency
import HyphaDB.Record
import Mathlib.Data.List.AList

/-!
# HyphaDB.BlockCache

The **LRU block cache** (`internal/blockcache`). The map from keys to list elements is an
`AList`, the list is the list of its elements, the most recently used first, and `items` holds
what the elements point to. `usedBytes` is a 64-bit `int` and wraps around.

`LRU.view` reads the blocks off the list. Every call of the cache is the operation of
`HyphaDB.Lib.Recency` on the view (`apply_view`), as long as the byte counter does not wrap: what
the cache holds, in which order and since when, is then a fact about lists in order of use. The
counter wraps only when blocks of 2^63 bytes in all are in the list, which a capacity below 2^62
excludes (`lru_cache`); the same block may be in the list under many keys, so the bound is not
one of memory.
-/

namespace HyphaDB.BlockCache

open Recency

structure Key where
  tableID : UInt64
  offset : UInt64
  deriving Repr, DecidableEq, Inhabited

/-- What a list element points to. -/
structure Entry where
  key : Key
  block : Bytes
  size : Int
  deriving Repr, DecidableEq, Inhabited

/-- The value of an `int`. -/
def int64 (n : Int) : Int := n.bmod (2 ^ 64)

structure LRU where
  capacityBytes : Int
  usedBytes : Int := 0
  entries : AList fun _ : Key => Nat := ∅
  order : List Nat := []
  items : Nat → Entry := fun _ => default
  nextElement : Nat := 0

def newLRU (capacityBytes : Int) : LRU :=
  { capacityBytes := if capacityBytes ≤ 0 then 0 else capacityBytes }

/-- The order in which a `range` over a map gives its entries. -/
structure MapOrder (α : Type) where
  order : List α → List α
  perm : ∀ l, (order l).Perm l

/-- `list.List.MoveToFront`. -/
def moveToFront (order : List Nat) (elem : Nat) : List Nat :=
  if elem ∈ order then elem :: order.erase elem else order

namespace LRU

/-- The three lines with which an entry goes. -/
def removeElement (c : LRU) (key : Key) (elem : Nat) : LRU :=
  { c with
    usedBytes := int64 (c.usedBytes - (c.items elem).size)
    order := c.order.erase elem
    entries := c.entries.erase key }

def get (c : LRU) (key : Key) : Option Bytes × LRU :=
  match c.entries.lookup key with
  | none => (none, c)
  | some elem => (some (c.items elem).block, { c with order := moveToFront c.order elem })

def deleteLocked (c : LRU) (key : Key) : LRU :=
  match c.entries.lookup key with
  | none => c
  | some elem => c.removeElement key elem

/-- The loop of `evictLocked`; every round takes an element off the list. -/
def evictLoop : Nat → LRU → LRU
  | 0, c => c
  | rounds + 1, c =>
      if c.capacityBytes < c.usedBytes then
        match c.order.getLast? with
        | none => c
        | some elem => evictLoop rounds (c.removeElement (c.items elem).key elem)
      else c

def evictLocked (c : LRU) : LRU := evictLoop c.order.length c

/-- The branch of `Set` for a key that is there. -/
def replace (c : LRU) (elem : Nat) (block : Bytes) : LRU :=
  let item := c.items elem
  { c with
    usedBytes := int64 (int64 (c.usedBytes - item.size) + block.length)
    items := Function.update c.items elem { item with block, size := block.length }
    order := moveToFront c.order elem }

/-- The branch of `Set` for a new key. -/
def pushFront (c : LRU) (key : Key) (block : Bytes) : LRU :=
  { c with
    items := Function.update c.items c.nextElement { key, block, size := block.length }
    order := c.nextElement :: c.order
    nextElement := c.nextElement + 1
    entries := c.entries.insert key c.nextElement
    usedBytes := int64 (c.usedBytes + block.length) }

def set (c : LRU) (key : Key) (block : Bytes) : LRU :=
  if block.length = 0 then c
  else if c.capacityBytes = 0 ∨ c.capacityBytes < block.length then c.deleteLocked key
  else
    match c.entries.lookup key with
    | some elem => (c.replace elem block).evictLocked
    | none => (c.pushFront key block).evictLocked

def delete (c : LRU) (key : Key) : LRU := c.deleteLocked key

def purgeTable (c : LRU) (tableID : UInt64) (range : MapOrder (Sigma fun _ : Key => Nat)) : LRU :=
  (range.order c.entries.entries).foldl (fun c entry =>
    if entry.1.tableID ≠ tableID then c else c.removeElement entry.1 entry.2) c

end LRU

inductive Call
  | get (key : Key)
  | set (key : Key) (block : Bytes)
  | delete (key : Key)
  | purgeTable (tableID : UInt64) (range : MapOrder (Sigma fun _ : Key => Nat))

def LRU.apply (c : LRU) : Call → LRU
  | .get key => (c.get key).2
  | .set key block => c.set key block
  | .delete key => c.delete key
  | .purgeTable tableID range => c.purgeTable tableID range

def LRU.run (c : LRU) (calls : List Call) : LRU := calls.foldl LRU.apply c

/-! ### The blocks in the list -/

namespace LRU

/-- The key and the block of an element. -/
def item (c : LRU) (elem : Nat) : Key × Bytes := ((c.items elem).key, (c.items elem).block)

/-- The keys with their blocks, the most recently used first. -/
def view (c : LRU) : List (Key × Bytes) := c.order.map c.item

/-- The sum of the sizes. -/
abbrev total (c : LRU) : Nat := weight List.length c.view

/-- Map, list and counter agree. -/
structure Sound (c : LRU) : Prop where
  distinct : c.order.Nodup
  made : ∀ elem ∈ c.order, elem < c.nextElement
  sizes : ∀ elem ∈ c.order, (c.items elem).size = (c.items elem).block.length
  keys : (c.view.map Prod.fst).Nodup
  entries : ∀ key elem,
    c.entries.lookup key = some elem ↔ elem ∈ c.order ∧ (c.items elem).key = key
  used : c.usedBytes = c.total
  fits : c.total < 2 ^ 63

theorem int64_eq {n : Int} (hlow : -2 ^ 63 ≤ n) (hhigh : n < 2 ^ 63) : int64 n = n := by
  unfold int64
  rw [Int.bmod_eq_of_le (by omega) (by omega)]

theorem moveToFront_perm (order : List Nat) (elem : Nat) :
    (moveToFront order elem).Perm order := by
  unfold moveToFront
  split
  · rename_i hmem
    exact (List.perm_cons_erase hmem).symm
  · exact List.Perm.refl _

theorem sound_new (capacityBytes : Int) : (newLRU capacityBytes).Sound where
  distinct := List.nodup_nil
  made := fun _ h => nomatch h
  sizes := fun _ h => nomatch h
  keys := List.nodup_nil
  entries := fun _ _ => ⟨fun hnone => (nomatch hnone), fun hmem => (nomatch hmem.1)⟩
  used := rfl
  fits := Nat.two_pow_pos 63

section Sound

variable {c : LRU} (h : c.Sound)
include h

theorem Sound.elem_eq {elem elem' : Nat} (he : elem ∈ c.order) (he' : elem' ∈ c.order)
    (hkey : (c.items elem).key = (c.items elem').key) : elem = elem' := by
  have hnodup : (c.order.map fun e => (c.items e).key).Nodup := by
    have := h.keys
    rwa [view, List.map_map] at this
  exact List.inj_on_of_nodup_map hnodup he he' hkey

/-- The list in another order. -/
theorem Sound.perm {order : List Nat} (hperm : order.Perm c.order) :
    Sound { c with order } := by
  have hview : (LRU.view { c with order }).Perm c.view := hperm.map _
  have htotal : LRU.total { c with order } = c.total := by
    show weight _ _ = weight _ _
    exact (hview.map _).sum_eq
  refine ⟨hperm.nodup_iff.mpr h.distinct, fun e he => h.made e (hperm.mem_iff.mp he),
    fun e he => h.sizes e (hperm.mem_iff.mp he), (hview.map Prod.fst).nodup_iff.mpr h.keys,
    fun key elem => ?_, ?_, ?_⟩
  · rw [show elem ∈ order ↔ elem ∈ c.order from hperm.mem_iff]
    exact h.entries key elem
  · rw [htotal]
    exact h.used
  · rw [htotal]
    exact h.fits

/-- The list without an element is the view without its key. -/
theorem Sound.erase_view {elem : Nat} (he : elem ∈ c.order) :
    (c.order.erase elem).map c.item = drop (c.items elem).key c.view := by
  unfold drop view
  rw [h.distinct.erase_eq_filter, List.filter_map]
  congr 1
  refine List.filter_congr fun e hmem => ?_
  have hiff : e ≠ elem ↔ (c.items e).key ≠ (c.items elem).key :=
    not_congr ⟨fun heq => by rw [heq], h.elem_eq hmem he⟩
  by_cases heq : e = elem
  · simp [item, heq]
  · simp [item, heq, hiff.mp heq]

theorem Sound.total_eq {elem : Nat} (he : elem ∈ c.order) :
    (c.items elem).block.length + weight List.length (drop (c.items elem).key c.view) = c.total :=
  weight_drop List.length h.keys (List.mem_map_of_mem he)

theorem Sound.removeElement {elem : Nat} (he : elem ∈ c.order) :
    (c.removeElement (c.items elem).key elem).Sound ∧
      (c.removeElement (c.items elem).key elem).view = drop (c.items elem).key c.view := by
  have hview : (c.removeElement (c.items elem).key elem).view = drop (c.items elem).key c.view :=
    h.erase_view he
  have htotal := h.total_eq he
  have hfits := h.fits
  refine ⟨⟨h.distinct.erase elem, fun e hmem => h.made e (List.mem_of_mem_erase hmem),
    fun e hmem => h.sizes e (List.mem_of_mem_erase hmem), ?_, fun key e => ?_, ?_, ?_⟩, hview⟩
  · rw [hview]
    exact (h.keys.sublist (List.filter_sublist.map Prod.fst))
  · show (c.entries.erase (c.items elem).key).lookup key = some e ↔
      e ∈ c.order.erase elem ∧ (c.items e).key = key
    rw [h.distinct.mem_erase_iff]
    by_cases hkey : key = (c.items elem).key
    · subst hkey
      rw [AList.lookup_erase]
      refine ⟨fun hnone => (nomatch hnone), ?_⟩
      rintro ⟨⟨hne, hmem⟩, heq⟩
      exact absurd (h.elem_eq hmem he heq) hne
    · rw [AList.lookup_erase_ne hkey, h.entries]
      refine ⟨fun ⟨hmem, heq⟩ => ⟨⟨?_, hmem⟩, heq⟩, fun ⟨⟨_, hmem⟩, heq⟩ => ⟨hmem, heq⟩⟩
      rintro rfl
      exact hkey heq.symm
  · show int64 (c.usedBytes - (c.items elem).size) = _
    rw [total, hview, h.used, h.sizes elem he, int64_eq (by omega) (by omega)]
    omega
  · rw [total, hview]
    omega

theorem Sound.lookup_none {key : Key} (hnone : c.entries.lookup key = none) :
    ∀ a ∈ c.view, a.1 ≠ key := by
  rintro a ha rfl
  obtain ⟨elem, helem, rfl⟩ := List.mem_map.mp ha
  have hsome := (h.entries (c.item elem).1 elem).mpr ⟨helem, rfl⟩
  rw [hnone] at hsome
  cases hsome

theorem Sound.moveToFront_view {elem : Nat} (he : elem ∈ c.order) :
    (moveToFront c.order elem).map c.item =
      put (c.items elem).key (c.items elem).block c.view := by
  unfold moveToFront
  rw [if_pos he, List.map_cons, h.erase_view he]
  rfl

theorem Sound.get (key : Key) :
    (c.get key).2.Sound ∧ (c.get key).2.view = touch key c.view ∧
      ∀ block, (c.get key).1 = some block ↔ (key, block) ∈ c.view := by
  unfold LRU.get
  cases hlookup : c.entries.lookup key with
  | none =>
      have hnone := h.lookup_none hlookup
      refine ⟨h, (touch_eq_self hnone).symm, fun block => ⟨fun hb => (nomatch hb), fun hmem => ?_⟩⟩
      exact absurd rfl (hnone _ hmem)
  | some elem =>
      obtain ⟨helem, rfl⟩ := (h.entries key elem).mp hlookup
      have hmem : ((c.items elem).key, (c.items elem).block) ∈ c.view := List.mem_map_of_mem helem
      refine ⟨h.perm (moveToFront_perm c.order elem), ?_, fun block => ⟨fun hb => ?_, fun hb => ?_⟩⟩
      · rw [touch_eq_put h.keys hmem]
        exact h.moveToFront_view helem
      · cases hb
        exact hmem
      · show some (c.items elem).block = some block
        obtain ⟨elem', helem', heq⟩ := List.mem_map.mp hb
        have hkey : (c.items elem').key = (c.items elem).key := congrArg Prod.fst heq
        rw [← h.elem_eq helem' helem hkey]
        exact congrArg (fun a => some a.2) heq

theorem Sound.deleteLocked (key : Key) :
    (c.deleteLocked key).Sound ∧ (c.deleteLocked key).view = drop key c.view := by
  unfold LRU.deleteLocked
  cases hlookup : c.entries.lookup key with
  | none =>
      exact ⟨h, (drop_eq_self (h.lookup_none hlookup)).symm⟩
  | some elem =>
      obtain ⟨helem, rfl⟩ := (h.entries key elem).mp hlookup
      exact h.removeElement helem

/-- A block of a key that is there: the block is new, and the element moves to the front. -/
theorem Sound.replace {elem : Nat} (he : elem ∈ c.order) {block : Bytes}
    (hfits : weight List.length (put (c.items elem).key block c.view) < 2 ^ 63) :
    (c.replace elem block).Sound ∧
      (c.replace elem block).view = put (c.items elem).key block c.view := by
  have hother : ∀ e, e ≠ elem → (c.replace elem block).items e = c.items e := fun e hne =>
    Function.update_of_ne hne _ _
  have hself : (c.replace elem block).items elem =
      { c.items elem with block, size := block.length } := Function.update_self _ _ _
  have hkey : ∀ e, ((c.replace elem block).items e).key = (c.items e).key := by
    intro e
    by_cases heq : e = elem
    · rw [heq, hself]
    · rw [hother e heq]
  have hview : (c.replace elem block).view = put (c.items elem).key block c.view := by
    show (moveToFront c.order elem).map _ = _
    unfold moveToFront
    rw [if_pos he, List.map_cons, put, ← h.erase_view he]
    congr 1
    · unfold item
      rw [hself]
    · refine List.map_congr_left fun e hmem => ?_
      unfold item
      rw [hother e (h.distinct.mem_erase_iff.mp hmem).1]
  have hperm := moveToFront_perm c.order elem
  have htotal := h.total_eq he
  have hold := h.fits
  rw [weight_put] at hfits
  refine ⟨⟨hperm.nodup_iff.mpr h.distinct, fun e hmem => h.made e (hperm.mem_iff.mp hmem),
    fun e hmem => ?_, ?_, fun key e => ?_, ?_, ?_⟩, hview⟩
  · by_cases heq : e = elem
    · rw [heq, hself]
    · rw [hother e heq]
      exact h.sizes e (hperm.mem_iff.mp hmem)
  · have hkeys : ((c.replace elem block).view.map Prod.fst).Perm (c.view.map Prod.fst) := by
      unfold view
      rw [List.map_map, List.map_map]
      refine List.Perm.trans (hperm.map _) (List.Perm.of_eq ?_)
      exact List.map_congr_left fun e _ => hkey e
    exact hkeys.nodup_iff.mpr h.keys
  · rw [hkey, show e ∈ (c.replace elem block).order ↔ e ∈ c.order from hperm.mem_iff]
    exact h.entries key e
  · show int64 (int64 (c.usedBytes - (c.items elem).size) + block.length) = _
    rw [total, hview, weight_put, h.used, h.sizes elem he,
      int64_eq (n := _ - _) (by omega) (by omega), int64_eq (by omega) (by omega)]
    omega
  · rw [total, hview, weight_put]
    exact hfits

/-- A block of a new key. -/
theorem Sound.pushFront {key : Key} (hnone : c.entries.lookup key = none) {block : Bytes}
    (hfits : weight List.length (put key block c.view) < 2 ^ 63) :
    (c.pushFront key block).Sound ∧ (c.pushFront key block).view = put key block c.view := by
  have hnew : ∀ a ∈ c.view, a.1 ≠ key := h.lookup_none hnone
  have hfresh : c.nextElement ∉ c.order := fun hmem => lt_irrefl _ (h.made _ hmem)
  have hother : ∀ e ∈ c.order, (c.pushFront key block).items e = c.items e := fun e he =>
    Function.update_of_ne (ne_of_mem_of_not_mem he hfresh) _ _
  have hself : (c.pushFront key block).items c.nextElement =
      { key, block, size := block.length } := Function.update_self _ _ _
  have hview : (c.pushFront key block).view = put key block c.view := by
    show (c.nextElement :: c.order).map _ = _
    rw [List.map_cons, put, drop_eq_self hnew]
    congr 1
    · unfold item
      rw [hself]
    · refine List.map_congr_left fun e hmem => ?_
      unfold item
      rw [hother e hmem]
  rw [weight_put, drop_eq_self hnew] at hfits
  refine ⟨⟨List.nodup_cons.mpr ⟨hfresh, h.distinct⟩, fun e hmem => ?_, fun e hmem => ?_, ?_,
    fun key' e => ?_, ?_, ?_⟩, hview⟩
  · show e < c.nextElement + 1
    rcases List.mem_cons.mp hmem with rfl | hmem
    · omega
    · have := h.made e hmem
      omega
  · rcases List.mem_cons.mp hmem with rfl | hmem
    · rw [hself]
    · rw [hother e hmem]
      exact h.sizes e hmem
  · rw [hview, put, drop_eq_self hnew, List.map_cons]
    refine List.nodup_cons.mpr ⟨fun hmem => ?_, h.keys⟩
    obtain ⟨a, ha, heq⟩ := List.mem_map.mp hmem
    exact hnew a ha heq
  · show (c.entries.insert key c.nextElement).lookup key' = some e ↔
      e ∈ c.nextElement :: c.order ∧ _
    rw [List.mem_cons]
    by_cases hkey : key' = key
    · subst hkey
      rw [AList.lookup_insert]
      constructor
      · intro heq
        cases heq
        exact ⟨.inl rfl, by rw [hself]⟩
      · rintro ⟨rfl | hmem, heq⟩
        · rfl
        · rw [hother e hmem] at heq
          have hsome := (h.entries key' e).mpr ⟨hmem, heq⟩
          rw [hnone] at hsome
          cases hsome
    · rw [AList.lookup_insert_ne hkey, h.entries]
      constructor
      · rintro ⟨hmem, heq⟩
        exact ⟨.inr hmem, by rw [hother e hmem]; exact heq⟩
      · rintro ⟨rfl | hmem, heq⟩
        · rw [hself] at heq
          exact absurd heq.symm hkey
        · rw [hother e hmem] at heq
          exact ⟨hmem, heq⟩
  · show int64 (c.usedBytes + block.length) = _
    have hused : c.usedBytes = weight List.length c.view := h.used
    rw [total, hview, weight_put, drop_eq_self hnew, hused, int64_eq (by omega) (by omega)]
    omega
  · rw [total, hview, weight_put, drop_eq_self hnew]
    exact hfits

end Sound

/-- The loop takes elements off the end until the rest is not too heavy. -/
theorem Sound.evictLoop {c : LRU} (h : c.Sound) (hcap : 0 ≤ c.capacityBytes) {rounds : Nat}
    (hrounds : c.order.length ≤ rounds) :
    (evictLoop rounds c).Sound ∧
      (evictLoop rounds c).view = trim List.length c.capacityBytes.toNat c.view := by
  induction rounds generalizing c with
  | zero =>
      have hnil : c.order = [] := List.length_eq_zero_iff.mp (Nat.le_zero.mp hrounds)
      refine ⟨h, ?_⟩
      show c.view = _
      unfold view
      rw [hnil]
      rfl
  | succ rounds ih =>
      unfold LRU.evictLoop
      have hused := h.used
      by_cases hover : c.capacityBytes < c.usedBytes
      · rw [if_pos hover]
        cases hlast : c.order.getLast? with
        | none =>
            have hnil : c.order = [] := List.getLast?_eq_none_iff.mp hlast
            have hzero : c.total = 0 := by
              unfold total view
              rw [hnil]
              rfl
            omega
        | some elem =>
            obtain ⟨init, horder⟩ := List.getLast?_eq_some_iff.mp hlast
            have helem : elem ∈ c.order := by
              rw [horder]
              exact List.mem_append_right _ List.mem_cons_self
            obtain ⟨hsound, -⟩ := h.removeElement helem
            have hnotin : elem ∉ init := by
              have := h.distinct
              rw [horder, List.nodup_append] at this
              exact fun hmem => this.2.2 elem hmem elem List.mem_cons_self rfl
            have herase : c.order.erase elem = init := by
              rw [horder, List.erase_append_right _ hnotin, List.erase_cons_head, List.append_nil]
            have hview : (c.removeElement (c.items elem).key elem).view = init.map c.item := by
              show (c.order.erase elem).map c.item = _
              rw [herase]
            have hsplit : c.view = init.map c.item ++ [c.item elem] := by
              unfold view
              rw [horder, List.map_append, List.map_singleton]
            have hlen : (c.removeElement (c.items elem).key elem).order.length ≤ rounds := by
              show (c.order.erase elem).length ≤ rounds
              rw [List.length_erase_of_mem helem]
              omega
            obtain ⟨hrest, hrestView⟩ := ih hsound hcap hlen
            refine ⟨hrest, hrestView.trans ?_⟩
            rw [hview, hsplit]
            refine (trim_append_singleton List.length ?_).symm
            rw [← hsplit]
            show c.capacityBytes.toNat < c.total
            omega
      · rw [if_neg hover]
        refine ⟨h, (trim_eq_self List.length ?_).symm⟩
        show c.total ≤ c.capacityBytes.toNat
        omega

/-- The loop of `PurgeTable` over any entries of the map, each once. -/
theorem Sound.purgeLoop {c : LRU} (h : c.Sound) (tableID : UInt64)
    {visit : List (Sigma fun _ : Key => Nat)} (hnodup : (visit.map Sigma.fst).Nodup)
    (hvisit : ∀ entry ∈ visit, c.entries.lookup entry.1 = some entry.2) :
    let last := visit.foldl (fun c entry =>
      if entry.1.tableID ≠ tableID then c else c.removeElement entry.1 entry.2) c
    last.Sound ∧ last.view = c.view.filter fun a =>
      !(decide (a.1.tableID = tableID) && decide (a.1 ∈ visit.map Sigma.fst)) := by
  induction visit generalizing c with
  | nil =>
      refine ⟨h, (List.filter_eq_self.mpr fun a _ => ?_).symm⟩
      simp
  | cons entry visit ih =>
      obtain ⟨key, elem⟩ := entry
      rw [List.map_cons, List.nodup_cons] at hnodup
      rw [List.foldl_cons]
      dsimp only
      by_cases htable : key.tableID ≠ tableID
      · rw [if_pos htable]
        obtain ⟨hsound, hview⟩ := ih h hnodup.2 fun e he => hvisit e (List.mem_cons_of_mem _ he)
        refine ⟨hsound, hview.trans (List.filter_congr fun a _ => ?_)⟩
        by_cases ha : a.1 = key
        · simp [ha, htable]
        · simp only [List.map_cons, List.mem_cons, ha, false_or]
      · rw [if_neg htable]
        have hfirst := hvisit ⟨key, elem⟩ List.mem_cons_self
        obtain ⟨helem, rfl⟩ := (h.entries key elem).mp hfirst
        obtain ⟨hsound, hdrop⟩ := h.removeElement helem
        have hrest : ∀ e ∈ visit,
            (c.removeElement (c.items elem).key elem).entries.lookup e.1 = some e.2 := by
          intro e he
          have hne : e.1 ≠ (c.items elem).key := fun heq =>
            hnodup.1 (List.mem_map.mpr ⟨e, he, heq⟩)
          exact (AList.lookup_erase_ne hne).trans (hvisit e (List.mem_cons_of_mem _ he))
        obtain ⟨hlast, hview⟩ := ih hsound hnodup.2 hrest
        refine ⟨hlast, hview.trans ?_⟩
        rw [hdrop, drop, List.filter_filter]
        refine List.filter_congr fun a _ => ?_
        by_cases ha : a.1 = (c.items elem).key
        · simp [ha, not_not.mp htable]
        · simp only [List.map_cons, List.mem_cons, ha, false_or, ne_eq, not_false_iff, decide_true,
            Bool.and_true]

theorem Sound.purgeTable {c : LRU} (h : c.Sound) (tableID : UInt64)
    (range : MapOrder (Sigma fun _ : Key => Nat)) :
    (c.purgeTable tableID range).Sound ∧
      (c.purgeTable tableID range).view = c.view.filter fun a => a.1.tableID ≠ tableID := by
  have hperm := range.perm c.entries.entries
  have hnodup : ((range.order c.entries.entries).map Sigma.fst).Nodup :=
    (hperm.map Sigma.fst).nodup_iff.mpr c.entries.nodupKeys
  obtain ⟨hsound, hview⟩ := h.purgeLoop tableID hnodup fun entry hentry =>
    AList.mem_lookup_iff.mpr (hperm.mem_iff.mp hentry)
  refine ⟨hsound, hview.trans (List.filter_congr fun a ha => ?_)⟩
  obtain ⟨elem, helem, rfl⟩ := List.mem_map.mp ha
  have hlookup := (h.entries (c.item elem).1 elem).mpr ⟨helem, rfl⟩
  have hmem : (c.item elem).1 ∈ (range.order c.entries.entries).map Sigma.fst :=
    List.mem_map.mpr ⟨⟨_, elem⟩, hperm.mem_iff.mpr (AList.mem_lookup_iff.mp hlookup), rfl⟩
  simp [hmem]

end LRU

/-! ### Calls on the view -/

/-- What a call does to the keys with their blocks. -/
def stepView (cap : Nat) (l : List (Key × Bytes)) : Call → List (Key × Bytes)
  | .get key => touch key l
  | .set key block =>
      if block.length = 0 then l
      else if cap = 0 ∨ cap < block.length then drop key l
      else trim List.length cap (put key block l)
  | .delete key => drop key l
  | .purgeTable tableID _ => l.filter fun a => a.1.tableID ≠ tableID

namespace LRU

variable {c : LRU}

theorem evictLoop_capacityBytes (rounds : Nat) (c : LRU) :
    (evictLoop rounds c).capacityBytes = c.capacityBytes := by
  induction rounds generalizing c with
  | zero => rfl
  | succ rounds ih =>
      unfold evictLoop
      split
      · split
        · rfl
        · rw [ih]
          rfl
      · rfl

theorem evictLoop_of_le {c : LRU} (h : c.usedBytes ≤ c.capacityBytes) (rounds : Nat) :
    evictLoop rounds c = c := by
  cases rounds with
  | zero => rfl
  | succ rounds => exact if_neg (by omega)

theorem deleteLocked_capacityBytes (c : LRU) (key : Key) :
    (c.deleteLocked key).capacityBytes = c.capacityBytes := by
  unfold deleteLocked
  split <;> rfl

theorem purgeTable_capacityBytes (c : LRU) (tableID : UInt64)
    (range : MapOrder (Sigma fun _ : Key => Nat)) :
    (c.purgeTable tableID range).capacityBytes = c.capacityBytes := by
  unfold purgeTable
  generalize range.order c.entries.entries = visit
  induction visit generalizing c with
  | nil => rfl
  | cons entry visit ih =>
      rw [List.foldl_cons, ih]
      split <;> rfl

@[simp] theorem apply_capacityBytes (c : LRU) (call : Call) :
    (c.apply call).capacityBytes = c.capacityBytes := by
  cases call with
  | get key =>
      show (c.get key).2.capacityBytes = _
      unfold get
      split <;> rfl
  | set key block =>
      show (c.set key block).capacityBytes = _
      unfold set
      split
      · rfl
      split
      · exact deleteLocked_capacityBytes c key
      split
      · exact evictLoop_capacityBytes _ _
      · exact evictLoop_capacityBytes _ _
  | delete key => exact deleteLocked_capacityBytes c key
  | purgeTable tableID range => exact purgeTable_capacityBytes c tableID range

theorem Sound.set (h : c.Sound) (hcap : 0 ≤ c.capacityBytes) (key : Key) (block : Bytes)
    (hfits : c.capacityBytes.toNat < block.length ∨
      weight List.length (put key block c.view) < 2 ^ 63) :
    (c.set key block).Sound ∧
      (c.set key block).view = stepView c.capacityBytes.toNat c.view (.set key block) := by
  unfold LRU.set stepView
  dsimp only
  by_cases hempty : block.length = 0
  · rw [if_pos hempty, if_pos hempty]
    exact ⟨h, rfl⟩
  rw [if_neg hempty, if_neg hempty]
  by_cases hover : c.capacityBytes = 0 ∨ c.capacityBytes < block.length
  · rw [if_pos hover, if_pos (by omega)]
    exact h.deleteLocked key
  rw [if_neg hover, if_neg (by omega)]
  have hfits' : weight List.length (put key block c.view) < 2 ^ 63 :=
    hfits.resolve_left (by omega)
  cases hlookup : c.entries.lookup key with
  | some elem =>
      obtain ⟨helem, rfl⟩ := (h.entries key elem).mp hlookup
      obtain ⟨hsound, hview⟩ := h.replace helem hfits'
      rw [← hview]
      exact hsound.evictLoop hcap le_rfl
  | none =>
      obtain ⟨hsound, hview⟩ := h.pushFront hlookup hfits'
      rw [← hview]
      exact hsound.evictLoop hcap le_rfl

/-- **Every call is its operation on the view**, unless the counter wraps around. -/
theorem apply_view (h : c.Sound) (hcap : 0 ≤ c.capacityBytes) (call : Call)
    (hfits : ∀ key block, call = .set key block → c.capacityBytes.toNat < block.length ∨
      weight List.length (put key block c.view) < 2 ^ 63) :
    (c.apply call).Sound ∧
      (c.apply call).view = stepView c.capacityBytes.toNat c.view call := by
  cases call with
  | get key => exact ⟨(h.get key).1, (h.get key).2.1⟩
  | set key block => exact h.set hcap key block (hfits key block rfl)
  | delete key => exact h.deleteLocked key
  | purgeTable tableID range => exact h.purgeTable tableID range

end LRU

theorem weight_stepView_le {cap : Nat} {l : List (Key × Bytes)} (h : weight List.length l ≤ cap)
    (call : Call) : weight List.length (stepView cap l call) ≤ cap := by
  cases call with
  | get key =>
      show weight List.length (touch key l) ≤ cap
      rw [weight_touch]
      exact h
  | set key block =>
      unfold stepView
      dsimp only
      split
      · exact h
      split
      · exact (weight_filter_le List.length _ l).trans h
      · exact weight_trim_le List.length cap _
  | delete key | purgeTable tableID range => exact (weight_filter_le List.length _ l).trans h

/-- The view after a sequence of calls. -/
def viewAfter (cap : Nat) (calls : List Call) : List (Key × Bytes) := calls.foldl (stepView cap) []

theorem viewAfter_append (cap : Nat) (calls : List Call) (call : Call) :
    viewAfter cap (calls ++ [call]) = stepView cap (viewAfter cap calls) call := by
  unfold viewAfter
  rw [List.foldl_append]
  rfl

theorem weight_viewAfter_le (cap : Nat) (calls : List Call) :
    weight List.length (viewAfter cap calls) ≤ cap := by
  induction calls using List.reverseRecOn with
  | nil => exact Nat.zero_le cap
  | append_singleton calls call ih =>
      rw [viewAfter_append]
      exact weight_stepView_le ih call

theorem LRU.run_append (c : LRU) (calls : List Call) (call : Call) :
    c.run (calls ++ [call]) = (c.run calls).apply call := by
  unfold LRU.run
  rw [List.foldl_append]
  rfl

/-- The capacity of a new cache. -/
def capacityOf (capacity : Int) : Nat := capacity.toNat

theorem newLRU_capacityBytes (capacity : Int) :
    (newLRU capacity).capacityBytes = capacityOf capacity := by
  unfold newLRU capacityOf
  dsimp only
  split <;> omega

/-- **A run of the cache**: it stays sound, and its view is the one of the calls. -/
theorem LRU.run_view {capacity : Int} (hcapacity : capacity < 2 ^ 62) (calls : List Call) :
    ((newLRU capacity).run calls).Sound ∧
      ((newLRU capacity).run calls).capacityBytes = capacityOf capacity ∧
      ((newLRU capacity).run calls).view = viewAfter (capacityOf capacity) calls := by
  induction calls using List.reverseRecOn with
  | nil => exact ⟨LRU.sound_new capacity, newLRU_capacityBytes capacity, rfl⟩
  | append_singleton calls call ih =>
      obtain ⟨hsound, hcap, hview⟩ := ih
      rw [LRU.run_append, viewAfter_append, ← hview]
      have htoNat : ((newLRU capacity).run calls).capacityBytes.toNat = capacityOf capacity := by
        rw [hcap, Int.toNat_natCast]
      have hspec := LRU.apply_view hsound (by rw [hcap]; omega) call fun key block _ => by
        -- what is there and the new block are each within the capacity
        rw [htoNat]
        by_cases hover : capacityOf capacity < block.length
        · exact .inl hover
        · right
          have hweight := weight_viewAfter_le (capacityOf capacity) calls
          rw [← hview] at hweight
          have hdrop := weight_drop_le List.length key ((newLRU capacity).run calls).view
          rw [weight_put]
          unfold capacityOf at hover hweight
          omega
      rw [htoNat] at hspec
      exact ⟨hspec.1, by rw [LRU.apply_capacityBytes]; exact hcap, hspec.2⟩

/-! ### What a sequence of calls means -/

/-- The call uses the key: a `Get`, or a `Set` that is not ignored. -/
def Call.uses (key : Key) : Call → Bool
  | .get key' => key' = key
  | .set key' block => key' = key ∧ block.length ≠ 0
  | _ => false

/-- The number of the last call that uses the key, the most recent call first; 0 for none. -/
def lastUseIn (key : Key) : List Call → Nat
  | [] => 0
  | call :: earlier => if call.uses key then earlier.length + 1 else lastUseIn key earlier

/-- The number of the last call that uses the key. -/
def lastUse (calls : List Call) (key : Key) : Nat := lastUseIn key calls.reverse

theorem lastUse_append (calls : List Call) (call : Call) (key : Key) :
    lastUse (calls ++ [call]) key =
      if call.uses key then calls.length + 1 else lastUse calls key := by
  unfold lastUse
  rw [List.reverse_append, List.reverse_singleton, List.singleton_append, lastUseIn,
    List.length_reverse]

theorem lastUse_le (calls : List Call) (key : Key) : lastUse calls key ≤ calls.length := by
  induction calls using List.reverseRecOn with
  | nil => exact Nat.le_refl 0
  | append_singleton calls call ih =>
      rw [lastUse_append, List.length_append, List.length_singleton]
      split <;> omega

/-- The block a key has after one more call, if it is not evicted. -/
def latestAfter (cap : Nat) (key : Key) (latest : Option Bytes) : Call → Option Bytes
  | .get _ => latest
  | .set key' block =>
      if key' = key ∧ block.length ≠ 0 then
        if cap = 0 ∨ cap < block.length then none else some block
      else latest
  | .delete key' => if key' = key then none else latest
  | .purgeTable tableID _ => if key.tableID = tableID then none else latest

/-- The block of the latest `Set` of the key that is not empty, unless that block is too large or
a `Delete` of the key or a `PurgeTable` of its table came later. -/
def latest (cap : Nat) (calls : List Call) (key : Key) : Option Bytes :=
  calls.foldl (latestAfter cap key) none

theorem latest_append (cap : Nat) (calls : List Call) (call : Call) (key : Key) :
    latest cap (calls ++ [call]) key = latestAfter cap key (latest cap calls key) call := by
  unfold latest
  rw [List.foldl_append]
  rfl

theorem lastUse_append_of_not {calls : List Call} {call : Call} {key : Key}
    (h : call.uses key = false) : lastUse (calls ++ [call]) key = lastUse calls key := by
  rw [lastUse_append, h]
  rfl

/-- A call that uses one key brings it to the front. -/
theorem ordered_use {calls : List Call} {l : List (Key × Bytes)} (h : Ordered (lastUse calls) l)
    {call : Call} {key : Key} (huses : ∀ key', call.uses key' = decide (key = key'))
    (block : Bytes) : Ordered (lastUse (calls ++ [call])) (put key block l) := by
  refine ordered_put block h (fun a _ hne => lastUse_append_of_not ?_) fun a _ _ => ?_
  · rw [huses]
    exact decide_eq_false (Ne.symm hne)
  · rw [lastUse_append, huses, if_pos (decide_eq_true rfl)]
    exact Nat.lt_succ_of_le (lastUse_le calls a.1)

theorem uses_set {key : Key} {block : Bytes} (h : block.length ≠ 0) (key' : Key) :
    (Call.set key block).uses key' = decide (key = key') := by
  simp [Call.uses, h]

/-- **The list is in order of the last use.** -/
theorem ordered_viewAfter (cap : Nat) (calls : List Call) :
    Ordered (lastUse calls) (viewAfter cap calls) := by
  induction calls using List.reverseRecOn with
  | nil => exact List.Pairwise.nil
  | append_singleton calls call ih =>
      rw [viewAfter_append]
      cases call with
      | get key =>
          show Ordered _ (touch key (viewAfter cap calls))
          by_cases hmem : ∃ block, (key, block) ∈ viewAfter cap calls
          · obtain ⟨block, hmem⟩ := hmem
            rw [touch_eq_put ih.nodup hmem]
            exact ordered_use ih (fun _ => rfl) block
          · have hnone : ∀ a ∈ viewAfter cap calls, a.1 ≠ key := by
              rintro a ha rfl
              exact hmem ⟨a.2, ha⟩
            rw [touch_eq_self hnone]
            refine ih.congr fun a ha => lastUse_append_of_not ?_
            exact decide_eq_false (Ne.symm (hnone a ha))
      | set key block =>
          unfold stepView
          dsimp only
          split
          · rename_i hempty
            refine ih.congr fun a _ => lastUse_append_of_not ?_
            simp [Call.uses, hempty]
          rename_i hblock
          split
          · refine (ih.sublist List.filter_sublist).congr fun a ha => lastUse_append_of_not ?_
            exact decide_eq_false fun hkey => (mem_drop.mp ha).2 hkey.1.symm
          · exact (ordered_use ih (uses_set hblock) block).sublist (trim_isPrefixOf _ _ _).sublist
      | delete key => exact (ih.sublist List.filter_sublist).congr fun a _ =>
          lastUse_append_of_not rfl
      | purgeTable tableID range =>
          exact (ih.sublist List.filter_sublist).congr fun a _ => lastUse_append_of_not rfl

/-- **A block that is in the list is the latest one of its key.** -/
theorem latest_of_mem {cap : Nat} {calls : List Call} {key : Key} {block : Bytes}
    (h : (key, block) ∈ viewAfter cap calls) : latest cap calls key = some block := by
  induction calls using List.reverseRecOn generalizing key block with
  | nil => cases h
  | append_singleton calls call ih =>
      rw [viewAfter_append] at h
      rw [latest_append]
      cases call with
      | get key' => exact ih (mem_touch.mp h)
      | set key' block' =>
          unfold stepView at h
          unfold latestAfter
          dsimp only at h ⊢
          split at h
          · rename_i hempty
            rw [if_neg (fun hset => hset.2 hempty)]
            exact ih h
          rename_i hblock
          split at h
          · obtain ⟨hmem, hne⟩ := mem_drop.mp h
            rw [if_neg (fun hset => hne hset.1.symm)]
            exact ih hmem
          · rename_i hcap
            rcases mem_put.mp ((trim_isPrefixOf _ _ _).subset h) with heq | ⟨hmem, hne⟩
            · cases heq
              rw [if_pos ⟨rfl, hblock⟩, if_neg hcap]
            · rw [if_neg (fun hset => hne hset.1.symm)]
              exact ih hmem
      | delete key' =>
          obtain ⟨hmem, hne⟩ := mem_drop.mp h
          show (if key' = key then none else latest cap calls key) = some block
          rw [if_neg (Ne.symm hne)]
          exact ih hmem
      | purgeTable tableID range =>
          obtain ⟨hmem, hne⟩ := List.mem_filter.mp h
          show (if key.tableID = tableID then none else latest cap calls key) = some block
          rw [if_neg (by simpa using hne)]
          exact ih hmem

/-! ### The cache -/

/-- The keys in the list, the most recently used first. -/
def LRU.orderKeys (c : LRU) : List Key := c.order.map fun elem => (c.items elem).key

theorem LRU.orderKeys_eq (c : LRU) : c.orderKeys = c.view.map Prod.fst := by
  unfold LRU.orderKeys LRU.view
  rw [List.map_map]
  rfl

theorem LRU.Sound.keys_perm {c : LRU} (h : c.Sound) : c.orderKeys.Perm c.entries.keys := by
  refine (List.perm_ext_iff_of_nodup ?_ c.entries.keys_nodup).mpr fun key => ?_
  · rw [LRU.orderKeys_eq]
    exact h.keys
  · rw [← AList.mem_keys, ← AList.lookup_isSome, Option.isSome_iff_exists]
    unfold LRU.orderKeys
    rw [List.mem_map]
    exact exists_congr fun elem => (h.entries key elem).symm

/-- What `Set` keeps and what it evicts, on the view. -/
theorem set_view {cap : Nat} {calls : List Call} {c c' : LRU}
    (hordered : Ordered (lastUse calls) c.view) {key : Key} {block : Bytes}
    (hview : c'.view = stepView cap c.view (.set key block)) :
    (∀ kept ∈ c'.orderKeys, ∀ evicted ∈ c.orderKeys, evicted ∉ c'.orderKeys → evicted ≠ key →
      lastUse (calls ++ [.set key block]) evicted < lastUse (calls ++ [.set key block]) kept) ∧
      (0 < block.length → block.length ≤ cap → key ∈ c'.orderKeys ∧
        c'.orderKeys <+: key :: c.orderKeys.filter fun key' => key' ≠ key) := by
  rw [LRU.orderKeys_eq, LRU.orderKeys_eq, hview]
  unfold stepView
  dsimp only
  refine ⟨fun kept hkept evicted hevicted hgone hne => ?_, fun hpos hle => ?_⟩
  · obtain ⟨a, ha, rfl⟩ := List.mem_map.mp hkept
    obtain ⟨b, hb, rfl⟩ := List.mem_map.mp hevicted
    by_cases hempty : block.length = 0
    · rw [if_pos hempty] at hgone
      exact absurd hevicted hgone
    rw [if_neg hempty] at ha hgone
    by_cases hover : cap = 0 ∨ cap < block.length
    · -- the key itself is all that goes
      rw [if_pos hover] at hgone
      exact absurd (List.mem_map_of_mem (mem_drop.mpr ⟨hb, hne⟩)) hgone
    rw [if_neg hover] at ha hgone
    refine (ordered_use hordered (uses_set hempty) block).trim_lt List.length cap ha
      (mem_put.mpr (.inr ⟨hb, hne⟩)) fun hmem => hgone (List.mem_map_of_mem hmem)
  · rw [if_neg (by omega), if_neg (by omega)]
    have hkeys : (put key block c.view).map Prod.fst =
        key :: (c.view.map Prod.fst).filter fun key' => key' ≠ key := by
      unfold put drop
      rw [List.map_cons, List.filter_map]
      rfl
    refine ⟨?_, hkeys ▸ (trim_isPrefixOf List.length cap (put key block c.view)).map Prod.fst⟩
    unfold put trim
    rw [if_pos hle]
    exact List.mem_cons_self

/-- **The LRU block cache.** For every capacity below 2^62 and every sequence of calls: map and
list hold the same keys, each once; the counter is the sum of the sizes of the blocks and within
the capacity; a `Get` returns nothing or the latest block that is still valid. After one more
`Set` the list is in order of the last use as well, a key that the call evicts was used before
every key it keeps, and a block that is not too large is there, before a front part of what was
there. -/
theorem lru_cache {capacity : Int} (hcapacity : capacity < 2 ^ 62) (calls : List Call) :
    let c := (newLRU capacity).run calls
    (c.orderKeys.Nodup ∧ c.entries.keys.Nodup ∧ c.orderKeys.Perm c.entries.keys) ∧
      (c.usedBytes = (c.order.map fun elem => (c.items elem).block.length).sum ∧
        c.usedBytes ≤ c.capacityBytes) ∧
      (∀ key block, (c.get key).1 = some block →
        latest (capacityOf capacity) calls key = some block) ∧
      ∀ key block,
        (∀ kept ∈ (c.set key block).orderKeys, ∀ evicted ∈ c.orderKeys,
          evicted ∉ (c.set key block).orderKeys → evicted ≠ key →
            lastUse (calls ++ [.set key block]) evicted <
              lastUse (calls ++ [.set key block]) kept) ∧
        (0 < block.length → block.length ≤ capacity →
          key ∈ (c.set key block).orderKeys ∧
            (c.set key block).orderKeys <+: key :: c.orderKeys.filter fun key' => key' ≠ key) := by
  intro c
  obtain ⟨hsound, hcap, hview⟩ := LRU.run_view hcapacity calls
  have hused := hsound.used
  have hweight : c.total ≤ capacityOf capacity := by
    show weight List.length c.view ≤ _
    rw [hview]
    exact weight_viewAfter_le _ calls
  refine ⟨⟨?_, c.entries.keys_nodup, hsound.keys_perm⟩, ⟨?_, ?_⟩, fun key block hget => ?_,
    fun key block => ?_⟩
  · rw [LRU.orderKeys_eq]
    exact hsound.keys
  · rw [hused]
    unfold LRU.total weight LRU.view
    rw [List.map_map]
    rfl
  · rw [hcap, hused]
    exact Int.ofNat_le.mpr hweight
  · refine latest_of_mem ?_
    rw [← hview]
    exact ((hsound.get key).2.2 block).mp hget
  · obtain ⟨-, -, hnext⟩ := LRU.run_view hcapacity (calls ++ [.set key block])
    rw [LRU.run_append, viewAfter_append, ← hview] at hnext
    obtain ⟨hevict, hstored⟩ := set_view (by rw [hview]; exact ordered_viewAfter _ calls) hnext
    exact ⟨hevict, fun hpos hle => hstored hpos (by unfold capacityOf; omega)⟩

/-- Four bytes of room: the third block evicts the first one. -/
theorem lru_cache_evicting :
    let key := fun offset : UInt64 => (⟨1, offset⟩ : Key)
    let calls : List Call := [.set (key 1) [1, 1], .set (key 2) [2, 2]]
    let c := (newLRU 4).run calls
    c.usedBytes ≤ c.capacityBytes ∧ (c.set (key 3) [3]).orderKeys = [key 3, key 2] ∧
      lastUse (calls ++ [.set (key 3) [3]]) (key 1) <
        lastUse (calls ++ [.set (key 3) [3]]) (key 2) :=
  have h := lru_cache (show (4 : Int) < 2 ^ 62 by decide)
    [.set ⟨1, 1⟩ [1, 1], .set ⟨1, 2⟩ [2, 2]]
  ⟨h.2.1.2, by decide +kernel, (h.2.2.2 ⟨1, 3⟩ [3]).1 ⟨1, 2⟩ (by decide +kernel) ⟨1, 1⟩
    (by decide +kernel) (by decide +kernel) (by decide)⟩

/-! ### Without the bound -/

/-- One block under `n` keys. -/
def fill (block : Bytes) (n : Nat) : List Call :=
  (List.range n).map fun i => .set ⟨0, UInt64.ofNat i⟩ block

theorem fill_succ (block : Bytes) (n : Nat) :
    fill block (n + 1) = fill block n ++ [.set ⟨0, UInt64.ofNat n⟩ block] := by
  unfold fill
  rw [List.range_succ, List.map_append, List.map_singleton]

/-- The keys are different ones. -/
theorem fill_offset {block : Bytes} (hpos : 0 < block.length) {n : Nat}
    (hn : n * block.length < 2 ^ 63) : (UInt64.ofNat n).toNat = n := by
  have : n ≤ n * block.length := Nat.le_mul_of_pos_right n hpos
  rw [UInt64.toNat_ofNat']
  omega

theorem capacityBytes_maxInt : (newLRU (2 ^ 63 - 1)).capacityBytes = 2 ^ 63 - 1 := rfl

/-- As long as the sum fits an `int`, all keys are there. -/
theorem run_fill {block : Bytes} (hpos : 0 < block.length) {n : Nat}
    (hn : n * block.length < 2 ^ 63) :
    ((newLRU (2 ^ 63 - 1)).run (fill block n)).Sound ∧
      ((newLRU (2 ^ 63 - 1)).run (fill block n)).capacityBytes = 2 ^ 63 - 1 ∧
      ((newLRU (2 ^ 63 - 1)).run (fill block n)).total = n * block.length ∧
      ∀ a ∈ ((newLRU (2 ^ 63 - 1)).run (fill block n)).view, a.1.offset.toNat < n := by
  induction n with
  | zero =>
      refine ⟨LRU.sound_new _, capacityBytes_maxInt, ?_, fun _ ha => (nomatch ha)⟩
      rw [Nat.zero_mul]
      rfl
  | succ n ih =>
      rw [Nat.add_mul, Nat.one_mul] at hn
      obtain ⟨hsound, hcap, htotal, hkeys⟩ := ih (by omega)
      rw [fill_succ, LRU.run_append]
      generalize (newLRU (2 ^ 63 - 1)).run (fill block n) = c at hsound hcap htotal hkeys
      have hoffset := fill_offset hpos (show n * block.length < 2 ^ 63 by omega)
      have hnew : ∀ a ∈ c.view, a.1 ≠ (⟨0, UInt64.ofNat n⟩ : Key) := by
        rintro a ha heq
        have := hkeys a ha
        rw [heq, hoffset] at this
        omega
      have hweight : weight List.length (put (⟨0, UInt64.ofNat n⟩ : Key) block c.view) =
          (n + 1) * block.length := by
        rw [weight_put, drop_eq_self hnew, show weight List.length c.view = _ from htotal,
          Nat.add_mul, Nat.one_mul, Nat.add_comm]
      have hfits : (n + 1) * block.length < 2 ^ 63 := by
        rw [Nat.add_mul, Nat.one_mul]
        exact hn
      obtain ⟨hnext, hview⟩ := hsound.set (by omega) ⟨0, UInt64.ofNat n⟩ block
        (.inr (by rw [hweight]; exact hfits))
      have hstored : (c.set ⟨0, UInt64.ofNat n⟩ block).view =
          put ⟨0, UInt64.ofNat n⟩ block c.view := by
        rw [hview]
        unfold stepView
        dsimp only
        rw [if_neg (by omega), if_neg (by omega), trim_eq_self List.length (by omega)]
      refine ⟨hnext, ?_, ?_, fun a ha => ?_⟩
      · rw [LRU.apply_capacityBytes]
        exact hcap
      · show weight List.length (c.set ⟨0, UInt64.ofNat n⟩ block).view = _
        rw [hstored, hweight]
      · rw [show (c.apply (.set ⟨0, UInt64.ofNat n⟩ block)).view = _ from hstored] at ha
        rcases mem_put.mp ha with rfl | ⟨ha, -⟩
        · show (UInt64.ofNat n).toNat < n + 1
          omega
        · exact Nat.lt_succ_of_lt (hkeys a ha)

/-- With one key more the counter wraps around, and nothing is evicted. -/
theorem run_fill_wraps {block : Bytes} (hblock : block.length < 2 ^ 63) {n : Nat}
    (h : n * block.length = 2 ^ 63) :
    ((newLRU (2 ^ 63 - 1)).run (fill block n)).usedBytes = -2 ^ 63 := by
  have hpos : 0 < block.length := by
    rcases Nat.eq_zero_or_pos block.length with hzero | hpos
    · rw [hzero] at h
      omega
    · exact hpos
  cases n with
  | zero => omega
  | succ n =>
      rw [Nat.add_mul, Nat.one_mul] at h
      obtain ⟨hsound, hcap, htotal, hkeys⟩ := run_fill hpos
        (show n * block.length < 2 ^ 63 by omega)
      rw [fill_succ, LRU.run_append]
      generalize (newLRU (2 ^ 63 - 1)).run (fill block n) = c at hsound hcap htotal hkeys
      have hoffset := fill_offset hpos (show n * block.length < 2 ^ 63 by omega)
      have hlookup : c.entries.lookup ⟨0, UInt64.ofNat n⟩ = none := by
        cases hlookup : c.entries.lookup ⟨0, UInt64.ofNat n⟩ with
        | none => rfl
        | some elem =>
            obtain ⟨helem, hkey⟩ := (hsound.entries _ elem).mp hlookup
            have hlt := hkeys (c.item elem) (List.mem_map_of_mem helem)
            rw [show (c.item elem).1 = _ from hkey, hoffset] at hlt
            omega
      have hused : (c.pushFront ⟨0, UInt64.ofNat n⟩ block).usedBytes = -2 ^ 63 := by
        show int64 (c.usedBytes + block.length) = -2 ^ 63
        rw [hsound.used, htotal,
          show ((n * block.length : Nat) : Int) + block.length = 2 ^ 63 by omega]
        rfl
      show (c.set ⟨0, UInt64.ofNat n⟩ block).usedBytes = -2 ^ 63
      unfold LRU.set
      rw [if_neg (by omega), if_neg (by omega), hlookup]
      show (LRU.evictLoop _ _).usedBytes = -2 ^ 63
      rw [LRU.evictLoop_of_le, hused]
      rw [hused, show (c.pushFront ⟨0, UInt64.ofNat n⟩ block).capacityBytes = _ from hcap]
      omega

/-- Room for 2^63-1 bytes, and a block of 1 TiB under 2^23 keys: the counter is below zero. -/
theorem usedBytes_wraps :
    ∃ (block : Bytes) (n : Nat), block.length = 2 ^ 40 ∧ n = 2 ^ 23 ∧
      ((newLRU (2 ^ 63 - 1)).run (fill block n)).usedBytes = -2 ^ 63 ∧
      ((newLRU (2 ^ 63 - 1)).run (fill block n)).usedBytes ≠
        (((newLRU (2 ^ 63 - 1)).run (fill block n)).order.map fun elem =>
          (((newLRU (2 ^ 63 - 1)).run (fill block n)).items elem).block.length).sum := by
  have hwraps : ∀ (block : Bytes) (n : Nat), block.length = 2 ^ 40 → n = 2 ^ 23 →
      ((newLRU (2 ^ 63 - 1)).run (fill block n)).usedBytes = -2 ^ 63 := by
    intro block n hblock hn
    refine run_fill_wraps (by omega) ?_
    rw [hblock, hn]
    norm_num
  have hblock : ∃ block : Bytes, block.length = 2 ^ 40 :=
    ⟨List.replicate (2 ^ 40) 0, List.length_replicate⟩
  obtain ⟨block, hblock⟩ := hblock
  obtain ⟨n, hn⟩ : ∃ n, n = 2 ^ 23 := ⟨_, rfl⟩
  have hused := hwraps block n hblock hn
  refine ⟨block, n, hblock, hn, hused, ?_⟩
  rw [hused]
  omega

end HyphaDB.BlockCache
