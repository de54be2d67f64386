import HyphaDB.Memtable
import HyphaDB.Lib.Checked
import HyphaDB.Lib.Linked
import Mathlib.Data.Finset.Card
import Mathlib.Logic.Function.Basic

/-!
# HyphaDB.SkipList.Search

The skip list of `internal/skiplist` with its nodes and pointers. `HyphaDB.Memtable` describes it by
its bottom chain alone; here are all the levels, the path a search records and the relinking of
`Put`.

Nodes live in a heap, the head at address 0. A pointer is an address or nil, and `x.next[i]` is
checked against the length of the node's slice. The outcomes of the random number generator are an
argument of `put`. A loop along pointers gets as many rounds as there are nodes: running out of them
would be a fault.

**Shape** is the invariant: which nodes each level links, and that the bottom level is in order.
Under it every search ends at the last node in front of its target, and what the readers return is
what `MemTable` returns.
-/

namespace HyphaDB

open Checked Linked

namespace SkipList

structure Node where
  key : Key := []
  record : Record := {}
  next : List (Option Nat)

/-- The address of the head. -/
def head : Nat := 0

def defaultMaxLevel : Int := 16

end SkipList

structure SkipList where
  nodes : Nat → SkipList.Node
  /-- Addresses from here on are free. -/
  allocated : Nat
  level : Nat
  maxLevel : Nat
  count : Nat
  keyCount : Nat

namespace SkipList

/-- `NewWithMaxLevel`; `none` is its panic. -/
def newWithMaxLevel (maxLevel : Int) : Option SkipList :=
  if maxLevel ≤ 0 then none
  else some {
    nodes := fun a =>
      if a = head then { next := List.replicate maxLevel.toNat none } else { next := [] }
    allocated := 1
    level := 1
    maxLevel := maxLevel.toNat
    count := 0
    keyCount := 0 }

def new : Option SkipList := newWithMaxLevel defaultMaxLevel

/-- The loop of `randomLevel`; `true` is an even number. -/
def raise (maxLevel : Nat) : List Bool → Nat → Nat
  | [], level => level
  | even :: flips, level =>
      if level < maxLevel ∧ even = true then raise maxLevel flips (level + 1) else level

def randomLevel (s : SkipList) (flips : List Bool) : Nat := raise s.maxLevel flips 1

/-- Follow the pointers of level `i` while the next node is `before` the target. -/
def walk (s : SkipList) (before : Node → Bool) (i : Nat) : Nat → Nat → Attempt Empty Nat
  | 0, _ => .error (.fault .endless)
  | fuel + 1, x => do
      match ← Checked.get (s.nodes x).next i with
      | none => pure x
      | some y => if before (s.nodes y) then s.walk before i fuel y else pure x

/-- The search of `Put` and `lowerBound` through the levels below `i`: the node it ends at and, for
each level, the last node on it. -/
def descend (s : SkipList) (before : Node → Bool) : Nat → Nat → Attempt Empty (Nat × List Nat)
  | 0, x => pure (x, [])
  | i + 1, x => do
      let x ← s.walk before i s.allocated x
      let (last, update) ← s.descend before i x
      pure (last, update ++ [x])

def lowerBound (s : SkipList) (key : Key) : Attempt Empty (Option Nat) := do
  let (x, _) ← s.descend (fun n => n.key < key) s.level head
  Checked.get (s.nodes x).next 0

def get (s : SkipList) (key : Key) : Attempt Empty (Option Record) := do
  match ← s.lowerBound key with
  | none => pure none
  | some x => if (s.nodes x).key = key then pure (some (s.nodes x).record) else pure none

/-- The loop of `GetAt`. -/
def scan (s : SkipList) (key : Key) (maxSeq : UInt64) :
    Nat → Option Nat → Attempt Empty (Option Record)
  | 0, _ => .error (.fault .endless)
  | _ + 1, none => pure none
  | fuel + 1, some x =>
      if (s.nodes x).key = key then
        if (s.nodes x).record.seq ≤ maxSeq then pure (some (s.nodes x).record)
        else do
          let next ← Checked.get (s.nodes x).next 0
          s.scan key maxSeq fuel next
      else pure none

def getAt (s : SkipList) (key : Key) (maxSeq : UInt64) : Attempt Empty (Option Record) := do
  let x ← s.lowerBound key
  s.scan key maxSeq s.allocated x

def len (s : SkipList) : Nat := s.keyCount

structure Iterator where
  current : Option Nat

/-- `SkipList.Iterator`. -/
def iterator (s : SkipList) : Attempt Empty Iterator := do
  let first ← Checked.get (s.nodes head).next 0
  pure ⟨first⟩

namespace Iterator

def seek (s : SkipList) (key : Key) (_it : Iterator) : Attempt Empty Iterator := do
  let x ← s.lowerBound key
  pure ⟨x⟩

def next (s : SkipList) (it : Iterator) : Attempt Empty Iterator :=
  match it.current with
  | none => pure it
  | some x => do
      let y ← Checked.get (s.nodes x).next 0
      pure ⟨y⟩

/-- Collect `Record` and step with `Next` while `Valid`. -/
def collect (s : SkipList) : Nat → Iterator → Attempt Empty (List Record)
  | 0, _ => .error (.fault .endless)
  | fuel + 1, it =>
      match it.current with
      | none => pure []
      | some x => do
          let it ← it.next s
          let rest ← collect s fuel it
          pure ((s.nodes x).record :: rest)

end Iterator

/-- `SkipList.Records`. -/
def records (s : SkipList) : Attempt Empty (List Record) := do
  let it ← s.iterator
  it.collect s s.allocated

/-- Seek a key and collect what follows. -/
def recordsFrom (s : SkipList) (key : Key) : Attempt Empty (List Record) := do
  let it ← s.iterator
  let it ← it.seek s key
  it.collect s s.allocated

/-! ### The shape -/

/-- The pointer `x.next[i]`. -/
def link (s : SkipList) (i x : Nat) : Option (Option Nat) := (s.nodes x).next[i]?

def recordAt (s : SkipList) (x : Nat) : Record := (s.nodes x).record

/-- `chain i` are the nodes that level `i` links. -/
structure Shape (s : SkipList) (chain : Nat → List Nat) : Prop where
  linked : ∀ i < s.maxLevel, Chain (s.link i) head (chain i)
  nested : ∀ i, (chain (i + 1)).Sublist (chain i)
  empty : ∀ i, s.level ≤ i → chain i = []
  level_pos : 0 < s.level
  level_le : s.level ≤ s.maxLevel
  keys : ∀ x ∈ chain 0, (s.nodes x).key = (s.recordAt x).key
  inHeap : ∀ x ∈ chain 0, x ≠ head ∧ x < s.allocated
  allocated_pos : head < s.allocated
  sorted : ((chain 0).map s.recordAt).Pairwise fun a b => less a b = true
  keyCount_eq : s.keyCount = (((chain 0).map s.recordAt).map (·.key)).dedup.length

section

variable {s : SkipList} {chain : Nat → List Nat} {before : Node → Bool}

/-- The bottom chain as a memtable. -/
def Shape.table (h : Shape s chain) : MemTable := ⟨(chain 0).map s.recordAt, h.sorted⟩

theorem Shape.sublist (h : Shape s chain) (i : Nat) : (chain i).Sublist (chain 0) := by
  induction i with
  | zero => exact List.Sublist.refl _
  | succ i ih => exact (h.nested i).trans ih

theorem Shape.nodup (h : Shape s chain) (i : Nat) : (head :: chain i).Nodup := by
  have hne : (chain 0).Pairwise fun a b => a ≠ b := by
    refine (List.pairwise_map.mp h.sorted).imp ?_
    rintro a b hab rfl
    rw [less_irrefl] at hab
    cases hab
  refine List.nodup_cons.mpr ⟨fun hmem => ?_, List.Pairwise.sublist (h.sublist i) hne⟩
  exact (h.inHeap head ((h.sublist i).subset hmem)).1 rfl

/-- No chain is longer than the heap, so the rounds of a loop suffice. -/
theorem Shape.length_lt (h : Shape s chain) (i : Nat) : (chain i).length < s.allocated := by
  obtain ⟨hhead, hnodup⟩ := List.nodup_cons.mp (h.nodup 0)
  have hsub : (head :: chain 0).toFinset ⊆ Finset.range s.allocated := by
    intro x hx
    rw [List.mem_toFinset] at hx
    rcases List.mem_cons.mp hx with rfl | hx
    · exact Finset.mem_range.mpr h.allocated_pos
    · exact Finset.mem_range.mpr (h.inHeap x hx).2
  have hcard := Finset.card_le_card hsub
  rw [List.toFinset_card_of_nodup (h.nodup 0), Finset.card_range, List.length_cons] at hcard
  have := (h.sublist i).length_le
  omega

/-! ### The search -/

theorem get_link {i x : Nat} {o : Option Nat} (h : s.link i x = some o) :
    (Checked.get (s.nodes x).next i : Attempt Empty (Option Nat)) = .ok o := get_eq h

theorem walk_eq {i x fuel : Nat} {l : List Nat} (h : Chain (s.link i) x l)
    (hfuel : l.length < fuel) :
    s.walk before i fuel x = .ok ((l.takeWhile fun a => before (s.nodes a)).getLastD x) := by
  induction l generalizing x fuel with
  | nil =>
      obtain ⟨fuel, rfl⟩ := Nat.exists_eq_add_one_of_ne_zero (Nat.ne_zero_of_lt hfuel)
      unfold walk
      rw [get_link h, ok_bind]
      rfl
  | cons y l ih =>
      obtain ⟨fuel, rfl⟩ := Nat.exists_eq_add_one_of_ne_zero (Nat.ne_zero_of_lt hfuel)
      unfold walk
      rw [get_link h.1, ok_bind]
      dsimp only
      cases hy : before (s.nodes y) with
      | true =>
          rw [if_pos rfl, ih h.2 (by simpa using hfuel),
            List.takeWhile_cons_of_pos (p := fun a => before (s.nodes a)) hy, List.getLastD_cons]
      | false =>
          rw [if_neg (by simp), List.takeWhile_cons_of_neg (by simp [hy])]
          rfl

/-- The last node of level `i` in front of the target. -/
def Last (s : SkipList) (chain : Nat → List Nat) (before : Node → Bool) (i : Nat) : Nat :=
  ((chain i).filter fun a => before (s.nodes a)).getLastD head

/-- The nodes before a target come first on the bottom level. -/
abbrev Ahead (s : SkipList) (chain : Nat → List Nat) (before : Node → Bool) : Prop :=
  Leading (fun a => before (s.nodes a)) (chain 0)

/-- A walk that starts where the level above ended. -/
theorem Shape.walk_below (h : Shape s chain) (hp : Ahead s chain before) {i : Nat}
    (hi : i < s.maxLevel) :
    s.walk before i s.allocated (Last s chain before (i + 1)) = .ok (Last s chain before i) := by
  have hlead := hp.sublist (h.sublist i)
  have hlen := h.length_lt i
  by_cases hnil : ((chain (i + 1)).filter fun a => before (s.nodes a)) = []
  · -- from the head
    have hfrom : Last s chain before (i + 1) = head := by
      unfold Last
      rw [hnil]
      rfl
    rw [hfrom, walk_eq (h.linked i hi) hlen, hlead.takeWhile_eq]
    rfl
  · -- from a node that is on this level too
    obtain ⟨x, hx⟩ : ∃ x, x = Last s chain before (i + 1) := ⟨_, rfl⟩
    have hmem : x ∈ (chain (i + 1)).filter fun a => before (s.nodes a) := by
      rw [hx, Last, List.getLastD_eq_getLast?, List.getLast?_eq_some_getLast hnil]
      exact List.getLast_mem hnil
    obtain ⟨hmem, hbefore⟩ := List.mem_filter.mp hmem
    obtain ⟨u, v, huv⟩ := List.append_of_mem ((h.nested i).subset hmem)
    have hlink := h.linked i hi
    rw [huv] at hlink hlead hlen
    rw [← hx, walk_eq hlink.rest (by simp at hlen; omega),
      ← hlead.getLastD_of_mem (d := head) hbefore, ← huv]
    rfl

theorem Shape.descend_below (h : Shape s chain) (hp : Ahead s chain before) {i : Nat}
    (hi : i ≤ s.maxLevel) :
    s.descend before i (Last s chain before i) =
      .ok (Last s chain before 0, (List.range i).map (Last s chain before)) := by
  induction i with
  | zero => rfl
  | succ i ih =>
      unfold descend
      rw [h.walk_below hp hi, ok_bind, ih (Nat.le_of_succ_le hi), ok_bind]
      rw [List.range_succ, List.map_append]
      rfl

/-- **The search** ends at the last node in front of the target and records the path to it. -/
theorem Shape.descend_eq (h : Shape s chain) (hp : Ahead s chain before) :
    s.descend before s.level head =
      .ok (Last s chain before 0, (List.range s.level).map (Last s chain before)) := by
  rw [← h.descend_below hp h.level_le]
  unfold Last
  rw [h.empty s.level le_rfl]
  rfl

/-- The pointer behind the last node in front of the target. -/
theorem Shape.link_last (h : Shape s chain) (hp : Ahead s chain before) {i : Nat}
    (hi : i < s.maxLevel) :
    s.link i (Last s chain before i) =
      some ((chain i).filter fun a => !before (s.nodes a)).head? := by
  have hlink := h.linked i hi
  rw [← (hp.sublist (h.sublist i)).split] at hlink
  exact hlink.next_last

theorem Shape.zero_lt (h : Shape s chain) : 0 < s.maxLevel := h.level_pos.trans_le h.level_le

theorem Shape.get_last (h : Shape s chain) (hp : Ahead s chain before) :
    (Checked.get (s.nodes (Last s chain before 0)).next 0 : Attempt Empty (Option Nat)) =
      .ok ((chain 0).filter fun a => !before (s.nodes a)).head? :=
  get_link (h.link_last hp h.zero_lt)

/-- Every target that respects the order can be searched for. -/
theorem Shape.ahead (h : Shape s chain)
    (hbefore : ∀ a ∈ chain 0, ∀ b ∈ chain 0, less (s.recordAt a) (s.recordAt b) = true →
      before (s.nodes b) = true → before (s.nodes a) = true) : Ahead s chain before :=
  (List.pairwise_map.mp h.sorted).imp_of_mem fun {a b} ha hb hab => hbefore a ha b hb hab

/-! ### Reads -/

/-- Where the keys from `key` on start. -/
def fromKey (s : SkipList) (chain : Nat → List Nat) (key : Key) : List Nat :=
  (chain 0).filter fun a => !decide ((s.nodes a).key < key)

theorem Shape.ahead_key (h : Shape s chain) (key : Key) :
    Ahead s chain (fun n => n.key < key) := by
  refine h.ahead fun a ha b hb hab hlt => ?_
  rw [decide_eq_true_eq, h.keys b hb] at hlt
  rw [decide_eq_true_eq, h.keys a ha]
  rcases less_iff.mp hab with hk | ⟨hk, -⟩
  · exact hk.trans hlt
  · exact hk ▸ hlt

theorem Shape.lowerBound_eq (h : Shape s chain) (key : Key) :
    s.lowerBound key = .ok (fromKey s chain key).head? := by
  unfold lowerBound
  rw [h.descend_eq (h.ahead_key key), ok_bind]
  exact h.get_last (h.ahead_key key)

/-- The nodes from a key on are the end of the bottom chain. -/
theorem Shape.exists_fromKey (h : Shape s chain) (key : Key) :
    ∃ front, chain 0 = front ++ fromKey s chain key :=
  ⟨_, (h.ahead_key key).split.symm⟩

theorem Shape.map_fromKey (h : Shape s chain) (key : Key) :
    (fromKey s chain key).map s.recordAt =
      h.table.records.filter (fun r => !decide (r.key < key)) := by
  show _ = ((chain 0).map s.recordAt).filter _
  rw [List.filter_map]
  unfold fromKey
  refine congrArg (List.map s.recordAt) (List.filter_congr fun a ha => ?_)
  rw [h.keys a ha]
  rfl

/-- `MemTable.GetAt` skips to the same place. -/
theorem Shape.dropWhile_eq (h : Shape s chain) (key : Key) :
    h.table.records.dropWhile (fun r => r.key < key) = (fromKey s chain key).map s.recordAt := by
  rw [h.map_fromKey key]
  refine Leading.dropWhile_eq (h.table.sorted.imp fun {a b} hab hb => ?_)
  rw [decide_eq_true_eq] at hb ⊢
  rcases less_iff.mp hab with hk | ⟨hk, -⟩
  · exact hk.trans hb
  · exact hk ▸ hb

/-- The rest of the bottom chain from any place on. -/
def Rest (s : SkipList) : List Nat → Prop
  | [] => True
  | x :: l => Chain (s.link 0) x l

theorem Shape.rest (h : Shape s chain) {front l : List Nat} (hl : chain 0 = front ++ l) :
    Rest s l := by
  have hlink := h.linked 0 h.zero_lt
  rw [hl] at hlink
  cases l with
  | nil => trivial
  | cons x l => exact hlink.rest

theorem Rest.next {x : Nat} {l : List Nat} (h : Rest s (x :: l)) :
    (Checked.get (s.nodes x).next 0 : Attempt Empty (Option Nat)) = .ok l.head? ∧ Rest s l := by
  refine ⟨get_link (Chain.next_last (u := []) h), ?_⟩
  cases l with
  | nil => trivial
  | cons y l => exact h.2

theorem Shape.scan_eq (h : Shape s chain) {front l : List Nat} (hl : chain 0 = front ++ l)
    (key : Key) (maxSeq : UInt64) {fuel : Nat} (hfuel : l.length < fuel) :
    s.scan key maxSeq fuel l.head? =
      .ok (((l.map s.recordAt).takeWhile (fun r => r.key = key)).find?
        (fun r => r.seq ≤ maxSeq)) := by
  induction l generalizing front fuel with
  | nil =>
      obtain ⟨fuel, rfl⟩ := Nat.exists_eq_add_one_of_ne_zero (Nat.ne_zero_of_lt hfuel)
      rfl
  | cons x l ih =>
      obtain ⟨fuel, rfl⟩ := Nat.exists_eq_add_one_of_ne_zero (Nat.ne_zero_of_lt hfuel)
      have hkey : (s.nodes x).key = (s.recordAt x).key := h.keys x (by simp [hl])
      have hrest : chain 0 = (front ++ [x]) ++ l := by simp [hl]
      have htail := ih hrest (by simpa using hfuel)
      rw [List.head?_cons, List.map_cons]
      unfold scan
      rw [hkey]
      by_cases hk : (s.recordAt x).key = key
      · rw [if_pos hk, List.takeWhile_cons_of_pos (by simpa using hk)]
        by_cases hs : (s.recordAt x).seq ≤ maxSeq
        · rw [List.find?_cons_of_pos (by simpa using hs)]
          exact if_pos hs
        · rw [List.find?_cons_of_neg (by simpa using hs), ← htail]
          refine (if_neg hs).trans ?_
          rw [(h.rest hl).next.1, ok_bind]
      · rw [if_neg hk, List.takeWhile_cons_of_neg (by simpa using hk)]
        rfl

theorem Shape.collect_eq (h : Shape s chain) {front l : List Nat} (hl : chain 0 = front ++ l)
    {fuel : Nat} (hfuel : l.length < fuel) :
    Iterator.collect s fuel ⟨l.head?⟩ = .ok (l.map s.recordAt) := by
  induction l generalizing front fuel with
  | nil =>
      obtain ⟨fuel, rfl⟩ := Nat.exists_eq_add_one_of_ne_zero (Nat.ne_zero_of_lt hfuel)
      rfl
  | cons x l ih =>
      obtain ⟨fuel, rfl⟩ := Nat.exists_eq_add_one_of_ne_zero (Nat.ne_zero_of_lt hfuel)
      unfold Iterator.collect Iterator.next
      rw [List.head?_cons]
      dsimp only
      rw [(h.rest hl).next.1, ok_bind]
      show (Iterator.collect s fuel ⟨l.head?⟩ >>= _) = _
      have hrest : chain 0 = (front ++ [x]) ++ l := by simp [hl]
      rw [ih hrest (by simpa using hfuel), ok_bind]
      rfl

theorem Shape.fromKey_length (h : Shape s chain) (key : Key) :
    (fromKey s chain key).length < s.allocated :=
  (List.length_filter_le _ _).trans_lt (h.length_lt 0)

/-- `GetAt` reads what the memtable reads. -/
theorem Shape.getAt_eq (h : Shape s chain) (key : Key) (maxSeq : UInt64) :
    s.getAt key maxSeq = .ok (h.table.getAt key maxSeq) := by
  obtain ⟨front, hfront⟩ := h.exists_fromKey key
  unfold getAt MemTable.getAt
  rw [h.lowerBound_eq key, ok_bind, h.scan_eq hfront key maxSeq (h.fromKey_length key),
    h.dropWhile_eq key]

/-- `Get` is a read with no bound. -/
theorem Shape.get_eq (h : Shape s chain) (key : Key) {maxSeq : UInt64} (hmax : ∀ n, n ≤ maxSeq) :
    s.get key = .ok (h.table.getAt key maxSeq) := by
  obtain ⟨front, hfront⟩ := h.exists_fromKey key
  unfold get MemTable.getAt
  rw [h.lowerBound_eq key, ok_bind, h.dropWhile_eq key]
  cases hl : fromKey s chain key with
  | nil => rfl
  | cons x l =>
      have hmem : x ∈ chain 0 := by simp [hfront, hl]
      rw [List.head?_cons, List.map_cons]
      dsimp only
      rw [h.keys x hmem]
      by_cases hk : (s.recordAt x).key = key
      · rw [if_pos hk, List.takeWhile_cons_of_pos (by simpa using hk),
          List.find?_cons_of_pos (by simpa using hmax _)]
        rfl
      · rw [if_neg hk, List.takeWhile_cons_of_neg (by simpa using hk)]
        rfl

theorem Shape.get_head (h : Shape s chain) :
    (Checked.get (s.nodes head).next 0 : Attempt Empty (Option Nat)) = .ok (chain 0).head? :=
  get_link (Chain.next_last (u := []) (h.linked 0 h.zero_lt))

/-- A seek and the steps after it give the records from the key on. -/
theorem Shape.recordsFrom_eq (h : Shape s chain) (key : Key) :
    s.recordsFrom key = .ok (h.table.records.filter fun r => !decide (r.key < key)) := by
  obtain ⟨front, hfront⟩ := h.exists_fromKey key
  unfold recordsFrom iterator Iterator.seek
  rw [h.get_head, ok_bind]
  show ((s.lowerBound key >>= fun x => pure (⟨x⟩ : Iterator)) >>= _) = _
  rw [h.lowerBound_eq key, ok_bind]
  show Iterator.collect s s.allocated ⟨(fromKey s chain key).head?⟩ = _
  rw [h.collect_eq hfront (h.fromKey_length key), h.map_fromKey key]

theorem Shape.records_eq (h : Shape s chain) : s.records = .ok h.table.records := by
  unfold records iterator
  rw [h.get_head, ok_bind]
  exact h.collect_eq (show chain 0 = [] ++ chain 0 from rfl) (h.length_lt 0)

end

end SkipList

end HyphaDB
