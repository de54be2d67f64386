import HyphaDB.SkipList.Search

/-!
# HyphaDB.SkipList.Put

`SkipList.Put`: search, replace a record of the same version, or link a new node in on as many
levels as the generator gives it.

`linkLevels` is the loop that relinks. `linkLevels_spec` says once which pointers it writes; by
`Chain.insert` every level then holds the new node in its place. On the bottom level that is
`MemTable.insert` (`Shape.put_refines`), so whole runs of puts follow the memtable, for every
outcome of the generator.
-/

namespace HyphaDB

open Checked Linked

namespace SkipList

/-- `x.record = rec`. -/
def setRecord (s : SkipList) (x : Nat) (rec : Record) : SkipList :=
  { s with nodes := Function.update s.nodes x { s.nodes x with record := rec } }

/-- `x.next[i] = v`. -/
def setNext (s : SkipList) (x i : Nat) (v : Option Nat) : Attempt Empty SkipList :=
  if i < (s.nodes x).next.length then
    .ok { s with
      nodes := Function.update s.nodes x { s.nodes x with next := (s.nodes x).next.set i v } }
  else .error (.fault .outOfRange)

/-- The loop that links `newNode` in, with `left` levels to go from `i` on. -/
def linkLevels (newNode : Nat) (update : List Nat) : Nat → Nat → SkipList → Attempt Empty SkipList
  | 0, _, s => pure s
  | left + 1, i, s => do
      let x ← Checked.get update i
      let next ← Checked.get (s.nodes x).next i
      let s ← s.setNext newNode i next
      let s ← s.setNext x i (some newNode)
      linkLevels newNode update left (i + 1) s

/-- The new node, not linked yet. -/
def allocate (s : SkipList) (rec : Record) (newLevel : Nat) : SkipList :=
  { s with
    nodes := Function.update s.nodes s.allocated
      { key := rec.key, record := rec, next := List.replicate newLevel none }
    allocated := s.allocated + 1 }

/-- The rest of `Put` for a version that is not there. -/
def insertNode (s : SkipList) (rec : Record) (update : List Nat) (keyExists : Bool)
    (newLevel : Nat) : Attempt Empty SkipList := do
  let s := if keyExists then s else { s with keyCount := s.keyCount + 1 }
  -- levels that were not in use start at the head
  let update := update ++ List.replicate (newLevel - s.level) head
  let s := { s with level := max s.level newLevel }
  let newNode := s.allocated
  let s ← linkLevels newNode update newLevel 0 (s.allocate rec newLevel)
  pure { s with count := s.count + 1 }

/-- `SkipList.Put`; `flips` are what the generator gives to `randomLevel`. -/
def put (s : SkipList) (rec : Record) (flips : List Bool) : Attempt Empty SkipList := do
  let (x, update) ← s.descend (fun n => less n.record rec) s.level head
  let next ← Checked.get (s.nodes x).next 0
  let keyExists := (x ≠ head && (s.nodes x).key = rec.key) ||
    next.any (fun y => (s.nodes y).key = rec.key)
  match next with
  | some y =>
      if (s.nodes y).key = rec.key ∧ (s.nodes y).record.seq = rec.seq then pure (s.setRecord y rec)
      else s.insertNode rec update keyExists (s.randomLevel flips)
  | none => s.insertNode rec update keyExists (s.randomLevel flips)

/-- A run of puts, each with its outcomes of the generator. -/
def putAll : List (Record × List Bool) → SkipList → Attempt Empty SkipList
  | [], s => pure s
  | (rec, flips) :: puts, s => do
      let s ← s.put rec flips
      putAll puts s

/-! ### Writes -/

variable {s s' : SkipList} {chain : Nat → List Nat}

theorem le_raise (maxLevel : Nat) (flips : List Bool) (level : Nat) :
    level ≤ raise maxLevel flips level := by
  induction flips generalizing level with
  | nil => exact le_rfl
  | cons even flips ih =>
      unfold raise
      split
      · exact (Nat.le_succ level).trans (ih (level + 1))
      · exact le_rfl

theorem raise_le {maxLevel level : Nat} (flips : List Bool) (h : level ≤ maxLevel) :
    raise maxLevel flips level ≤ maxLevel := by
  induction flips generalizing level with
  | nil => exact h
  | cons even flips ih =>
      unfold raise
      split
      · next hlt => exact ih hlt.1
      · exact h

/-- A write to a pointer changes that pointer only. -/
theorem setNext_spec {x i : Nat} {o : Option Nat} (v : Option Nat) (h : s.link i x = some o) :
    ∃ s', s.setNext x i v = .ok s' ∧
      (∀ j z, s'.link j z = if z = x ∧ j = i then some v else s.link j z) ∧
      s' = { s with nodes := s'.nodes } ∧
      ∀ z, (s'.nodes z).key = (s.nodes z).key ∧ s'.recordAt z = s.recordAt z := by
  have hlt : i < (s.nodes x).next.length := (List.getElem?_eq_some_iff.mp h).1
  refine ⟨_, if_pos hlt, ?_, rfl, ?_⟩
  · intro j z
    by_cases hz : z = x
    · subst hz
      unfold link
      dsimp only
      rw [Function.update_self]
      dsimp only
      rw [List.getElem?_set]
      by_cases hj : i = j
      · rw [if_pos hj, if_pos hlt, if_pos ⟨rfl, hj.symm⟩]
      · rw [if_neg hj, if_neg fun hc => hj hc.2.symm]
    · unfold link
      rw [if_neg fun hc => hz hc.1]
      dsimp only
      rw [Function.update_of_ne hz]
  · intro z
    unfold recordAt
    dsimp only
    by_cases hz : z = x
    · subst hz
      rw [Function.update_self]
      exact ⟨rfl, rfl⟩
    · rw [Function.update_of_ne hz]
      exact ⟨rfl, rfl⟩

/-- **The relinking loop** writes, on each of its levels, the pointer of the new node and the one
that leads to it. -/
theorem linkLevels_spec {newNode : Nat} {update : List Nat} {last : Nat → Nat} {left i : Nat}
    (hupdate : ∀ j, i ≤ j → j < i + left → update[j]? = some (last j))
    (hlast : ∀ j, i ≤ j → j < i + left → last j ≠ newNode ∧ ∃ o, s.link j (last j) = some o)
    (hnew : ∀ j, i ≤ j → j < i + left → ∃ o, s.link j newNode = some o) :
    ∃ s', linkLevels newNode update left i s = .ok s' ∧
      (∀ j z, s'.link j z =
        if i ≤ j ∧ j < i + left then
          if z = newNode then s.link j (last j)
          else if z = last j then some (some newNode)
          else s.link j z
        else s.link j z) ∧
      s' = { s with nodes := s'.nodes } ∧
      ∀ z, (s'.nodes z).key = (s.nodes z).key ∧ s'.recordAt z = s.recordAt z := by
  induction left generalizing i s with
  | zero =>
      refine ⟨s, rfl, fun j z => ?_, rfl, fun z => ⟨rfl, rfl⟩⟩
      rw [if_neg (by omega)]
  | succ left ih =>
      obtain ⟨hne, next, hnext⟩ := hlast i le_rfl (by omega)
      obtain ⟨o, ho⟩ := hnew i le_rfl (by omega)
      obtain ⟨s₁, hs₁, hlink₁, heq₁, hsame₁⟩ := setNext_spec next ho
      have hlast₁ : s₁.link i (last i) = some next := by
        rw [hlink₁, if_neg fun hc => hne hc.1, hnext]
      obtain ⟨s₂, hs₂, hlink₂, heq₂, hsame₂⟩ := setNext_spec (some newNode) hlast₁
      -- the other levels are as before
      have hother : ∀ j z, j ≠ i → s₂.link j z = s.link j z := by
        intro j z hj
        rw [hlink₂, if_neg fun hc => hj hc.2, hlink₁, if_neg fun hc => hj hc.2]
      obtain ⟨s', hs', hlink, heq, hsame⟩ := ih (s := s₂)
        (fun j (hj : i + 1 ≤ j) hj' => hupdate j (by omega) (by omega))
        (fun j hj hj' => by
          rw [hother j _ (by omega)]
          exact hlast j (by omega) (by omega))
        (fun j hj hj' => by
          rw [hother j _ (by omega)]
          exact hnew j (by omega) (by omega))
      refine ⟨s', ?_, ?_, ?_, ?_⟩
      · unfold linkLevels
        rw [Checked.get_eq (hupdate i le_rfl (by omega)), ok_bind, get_link hnext, ok_bind, hs₁,
          ok_bind, hs₂, ok_bind, hs']
      · intro j z
        rw [hlink]
        by_cases hj : j = i
        · subst hj
          rw [if_neg (by omega), if_pos (by omega), hlink₂, hlink₁]
          by_cases hz : z = newNode
          · subst hz
            rw [if_neg fun hc => hne hc.1.symm, if_pos ⟨rfl, rfl⟩, if_pos rfl, hnext]
          · by_cases hz' : z = last j
            · rw [if_pos ⟨hz', rfl⟩, if_neg hz, if_pos hz']
            · rw [if_neg fun hc => hz' hc.1, if_neg fun hc => hz hc.1, if_neg hz, if_neg hz']
        · rw [hother j z hj, hother j (last j) hj]
          by_cases hin : i + 1 ≤ j ∧ j < i + 1 + left
          · have hin' : i ≤ j ∧ j < i + (left + 1) := by omega
            rw [if_pos hin, if_pos hin']
          · have hin' : ¬ (i ≤ j ∧ j < i + (left + 1)) := by omega
            rw [if_neg hin, if_neg hin']
      · rw [heq, heq₂, heq₁]
      · intro z
        exact ⟨(hsame z).1.trans ((hsame₂ z).1.trans (hsame₁ z).1),
          (hsame z).2.trans ((hsame₂ z).2.trans (hsame₁ z).2)⟩

/-! ### A new node -/

theorem last_mem (s : SkipList) (chain : Nat → List Nat) (before : Node → Bool) (i : Nat) :
    Last s chain before i = head ∨
      Last s chain before i ∈ (chain i).filter fun a => before (s.nodes a) := by
  unfold Last
  cases hl : (chain i).filter fun a => before (s.nodes a) with
  | nil => exact Or.inl rfl
  | cons a l =>
      right
      rw [List.getLastD_cons]
      cases l with
      | nil => exact List.mem_cons_self
      | cons b l => exact List.mem_cons_of_mem a (List.getLast_mem (List.cons_ne_nil b l))

theorem Shape.last_lt (h : Shape s chain) (before : Node → Bool) (i : Nat) :
    Last s chain before i < s.allocated := by
  rcases last_mem s chain before i with heq | hmem
  · rw [heq]
    exact h.allocated_pos
  · exact (h.inHeap _ ((h.sublist i).subset (List.mem_of_mem_filter hmem))).2

/-- The path a search leaves, with the head for the levels above. -/
theorem Shape.path_get (h : Shape s chain) (before : Node → Bool) {newLevel j : Nat}
    (hj : j < newLevel) :
    ((List.range s.level).map (Last s chain before) ++
      List.replicate (newLevel - s.level) head)[j]? = some (Last s chain before j) := by
  by_cases hlow : j < s.level
  · rw [List.getElem?_append_left (by simpa using hlow), List.getElem?_map,
      List.getElem?_range hlow]
    rfl
  · have hlast : Last s chain before j = head := by
      unfold Last
      rw [h.empty j (Nat.le_of_not_lt hlow)]
      rfl
    rw [List.getElem?_append_right (by simpa using hlow), List.getElem?_replicate, hlast]
    rw [if_pos (by simp; omega)]

/-- The chains with a node linked in on the levels below `newLevel`. -/
def splice (s : SkipList) (chain : Nat → List Nat) (before : Node → Bool) (newNode newLevel : Nat)
    (i : Nat) : List Nat :=
  if i < newLevel then
    (chain i).filter (fun a => before (s.nodes a)) ++
      newNode :: (chain i).filter (fun a => !before (s.nodes a))
  else chain i

theorem splice_nested {before : Node → Bool} (h : Shape s chain) (hp : Ahead s chain before)
    (newNode newLevel i : Nat) :
    (splice s chain before newNode newLevel (i + 1)).Sublist
      (splice s chain before newNode newLevel i) := by
  unfold splice
  by_cases hi : i + 1 < newLevel
  · rw [if_pos hi, if_pos (by omega)]
    exact ((h.nested i).filter _).append (((h.nested i).filter _).cons_cons newNode)
  · rw [if_neg hi]
    by_cases hi' : i < newLevel
    · rw [if_pos hi']
      refine (h.nested i).trans ?_
      nth_rewrite 1 [← (hp.sublist (h.sublist i)).split]
      exact (List.Sublist.refl _).append (List.sublist_cons_self _ _)
    · rw [if_neg hi']
      exact h.nested i

theorem mem_splice {before : Node → Bool} {newNode newLevel i x : Nat}
    (hx : x ∈ splice s chain before newNode newLevel i) : x = newNode ∨ x ∈ chain i := by
  unfold splice at hx
  split at hx
  · rcases List.mem_append.mp hx with hx | hx
    · exact Or.inr (List.mem_of_mem_filter hx)
    · rcases List.mem_cons.mp hx with hx | hx
      · exact Or.inl hx
      · exact Or.inr (List.mem_of_mem_filter hx)
  · exact Or.inr hx

/-- What `insertNode` leaves: the new node is linked in on its levels, and every other node keeps
its record. -/
theorem Shape.insertNode_spec {before : Node → Bool} (h : Shape s chain)
    (hp : Ahead s chain before) (rec : Record) (keyExists : Bool) {newLevel : Nat}
    (hlevel : newLevel ≤ s.maxLevel) :
    ∃ s', s.insertNode rec ((List.range s.level).map (Last s chain before)) keyExists newLevel =
        .ok s' ∧
      (∀ i < s.maxLevel,
        Chain (s'.link i) head (splice s chain before s.allocated newLevel i)) ∧
      s'.level = max s.level newLevel ∧ s'.maxLevel = s.maxLevel ∧
      s'.allocated = s.allocated + 1 ∧
      s'.keyCount = (if keyExists then s.keyCount else s.keyCount + 1) ∧
      ((s'.nodes s.allocated).key = rec.key ∧ s'.recordAt s.allocated = rec) ∧
      ∀ z, z ≠ s.allocated → (s'.nodes z).key = (s.nodes z).key ∧ s'.recordAt z = s.recordAt z := by
  obtain ⟨s₀, hs₀⟩ : ∃ s₀ : SkipList, s₀ = { s with
      keyCount := if keyExists then s.keyCount else s.keyCount + 1
      level := max s.level newLevel } := ⟨_, rfl⟩
  have hnodes : s₀.nodes = s.nodes := by rw [hs₀]
  have halloc : s₀.allocated = s.allocated := by rw [hs₀]
  -- the node is there but no pointer leads to it
  have hlinkNew : ∀ j < newLevel, (s₀.allocate rec newLevel).link j s.allocated = some none := by
    intro j hj
    unfold allocate link
    rw [halloc]
    dsimp only
    rw [Function.update_self]
    dsimp only
    rw [List.getElem?_replicate, if_pos hj]
  have hlinkOld : ∀ j z, z ≠ s.allocated → (s₀.allocate rec newLevel).link j z = s.link j z := by
    intro j z hz
    unfold allocate link
    rw [halloc]
    dsimp only
    rw [Function.update_of_ne hz, hnodes]
  have hne : ∀ j, Last s chain before j ≠ s.allocated := fun j => (h.last_lt before j).ne
  have hpath : ∀ j, 0 ≤ j → j < 0 + newLevel →
      ((List.range s.level).map (Last s chain before) ++
        List.replicate (newLevel - s.level) head)[j]? = some (Last s chain before j) :=
    fun j _ hj => h.path_get before (by omega)
  have hlasts : ∀ j, 0 ≤ j → j < 0 + newLevel → Last s chain before j ≠ s.allocated ∧
      ∃ o, (s₀.allocate rec newLevel).link j (Last s chain before j) = some o := by
    intro j _ hj
    refine ⟨hne j, _, (hlinkOld j _ (hne j)).trans (h.link_last hp (by omega))⟩
  obtain ⟨s₁, hs₁, hlink, heq, hsame⟩ := linkLevels_spec hpath hlasts
    fun j _ hj => ⟨none, hlinkNew j (by omega)⟩
  refine ⟨{ s₁ with count := s₁.count + 1 }, ?_, ?_, ?_, ?_, ?_, ?_, ?_, ?_⟩
  · rw [hs₀] at hs₁
    unfold insertNode
    cases keyExists with
    | true => exact congrArg (· >>= fun s => pure { s with count := s.count + 1 }) hs₁
    | false => exact congrArg (· >>= fun s => pure { s with count := s.count + 1 }) hs₁
  · intro i hi
    have hold := h.linked i hi
    have hnew : s.allocated ∉ head :: chain i := by
      intro hmem
      rcases List.mem_cons.mp hmem with heq | hmem
      · exact h.allocated_pos.ne' heq
      · exact (h.inHeap _ ((h.sublist i).subset hmem)).2.ne rfl
    have hlink' : ∀ z, z ≠ s.allocated → (i < newLevel → z ≠ Last s chain before i) →
        s₁.link i z = s.link i z := by
      intro z hz hz'
      rw [hlink]
      by_cases hi' : i < newLevel
      · rw [if_pos (by omega), if_neg hz, if_neg (hz' hi'), hlinkOld i z hz]
      · rw [if_neg (by omega), hlinkOld i z hz]
    show Chain (s₁.link i) head _
    unfold splice
    by_cases hi' : i < newLevel
    · rw [if_pos hi']
      have hsplit := (hp.sublist (h.sublist i)).split
      have hnodup := h.nodup i
      rw [← hsplit] at hold hnodup hnew
      refine hold.insert hnodup hnew ?_ ?_ (fun z hz hz' => hlink' z hz fun _ => hz')
      · rw [hlink, if_pos (by omega), if_pos rfl, hlinkOld i _ (hne i)]
        rfl
      · have hlast : s₁.link i (Last s chain before i) = some (some s.allocated) := by
          rw [hlink, if_pos (by omega), if_neg (hne i), if_pos rfl]
        exact hlast
    · rw [if_neg hi']
      refine hold.congr fun z hz => hlink' z ?_ (fun hc => absurd hc hi')
      rintro rfl
      exact hnew hz
  · rw [heq]
    show s₀.level = _
    rw [hs₀]
  · rw [heq]
    show s₀.maxLevel = _
    rw [hs₀]
  · rw [heq]
    show s₀.allocated + 1 = _
    rw [halloc]
  · rw [heq]
    show s₀.keyCount = _
    rw [hs₀]
  · obtain ⟨hkey, hrec⟩ := hsame s.allocated
    refine ⟨hkey.trans ?_, hrec.trans ?_⟩
    · unfold allocate
      rw [halloc]
      dsimp only
      rw [Function.update_self]
    · unfold allocate recordAt
      rw [halloc]
      dsimp only
      rw [Function.update_self]
  · intro z hz
    obtain ⟨hkey, hrec⟩ := hsame z
    refine ⟨hkey.trans ?_, hrec.trans ?_⟩
    · unfold allocate
      rw [halloc]
      dsimp only
      rw [Function.update_of_ne hz, hnodes]
    · unfold allocate recordAt
      rw [halloc]
      dsimp only
      rw [Function.update_of_ne hz, hnodes]

/-! ### A put -/

section

variable {rec : Record}

/-- The nodes in front of `rec`. -/
abbrev below (rec : Record) (n : Node) : Bool := less n.record rec

theorem Shape.ahead_below (h : Shape s chain) (rec : Record) : Ahead s chain (below rec) :=
  h.ahead fun _ _ _ _ hab hb => less_trans hab hb

/-- The records of the bottom chain, split where `rec` belongs. -/
theorem Shape.records_split (h : Shape s chain) (rec : Record) :
    (chain 0).map s.recordAt =
      ((chain 0).filter fun a => below rec (s.nodes a)).map s.recordAt ++
        ((chain 0).filter fun a => !below rec (s.nodes a)).map s.recordAt := by
  rw [← List.map_append, (h.ahead_below rec).split]

theorem Shape.insert_eq (h : Shape s chain) (rec : Record) :
    MemTable.insert rec ((chain 0).map s.recordAt) =
      ((chain 0).filter fun a => below rec (s.nodes a)).map s.recordAt ++
        MemTable.insert rec
          (((chain 0).filter fun a => !below rec (s.nodes a)).map s.recordAt) := by
  rw [h.records_split rec, MemTable.insert_append]
  intro r hr
  obtain ⟨a, ha, rfl⟩ := List.mem_map.mp hr
  exact (List.mem_filter.mp ha).2

theorem not_less_of_mem {y : Nat} {l : List Nat}
    (hl : (chain 0).filter (fun a => !below rec (s.nodes a)) = y :: l) :
    y ∈ chain 0 ∧ less (s.recordAt y) rec = false := by
  have hmem : y ∈ (chain 0).filter fun a => !below rec (s.nodes a) := by simp [hl]
  obtain ⟨hy, hbelow⟩ := List.mem_filter.mp hmem
  exact ⟨hy, Bool.not_eq_true' _ ▸ hbelow⟩

theorem key_le_of_less {a b : Record} (h : less a b = true) : a.key ≤ b.key := by
  rcases less_iff.mp h with hk | ⟨hk, -⟩
  · exact hk.le
  · exact hk.le

/-- Along the bottom chain keys do not fall. -/
theorem Shape.key_le (h : Shape s chain) {u v : List Nat} {a b : Nat}
    (hsub : (u ++ b :: v).Sublist (chain 0))
    (ha : a ∈ u) : (s.recordAt a).key ≤ (s.recordAt b).key := by
  have hsorted := List.Pairwise.sublist (hsub.map s.recordAt) h.sorted
  rw [List.map_append, List.pairwise_append] at hsorted
  exact key_le_of_less (hsorted.2.2 _ (List.mem_map_of_mem ha) _ (by simp))

/-- The test of `Put`: a key is there already iff a neighbour of the place has it. -/
theorem Shape.keyExists_iff (h : Shape s chain) (rec : Record) :
    ((Last s chain (below rec) 0 ≠ head && (s.nodes (Last s chain (below rec) 0)).key = rec.key) ||
      ((chain 0).filter fun a => !below rec (s.nodes a)).head?.any
        (fun y => (s.nodes y).key = rec.key)) = true ↔
      rec.key ∈ ((chain 0).map s.recordAt).map (·.key) := by
  rw [List.map_map, List.mem_map, Bool.or_eq_true, Bool.and_eq_true]
  constructor
  · rintro (⟨hne, hkey⟩ | hnext)
    · rcases last_mem s chain (below rec) 0 with heq | hmem
      · simp [heq] at hne
      · have hmem := List.mem_of_mem_filter hmem
        rw [decide_eq_true_eq, h.keys _ hmem] at hkey
        exact ⟨_, hmem, hkey⟩
    · rw [Option.any_eq_true] at hnext
      obtain ⟨y, hy, hkey⟩ := hnext
      have hmem := List.mem_of_mem_filter (List.mem_of_mem_head? hy)
      rw [decide_eq_true_eq, h.keys y hmem] at hkey
      exact ⟨y, hmem, hkey⟩
  · rintro ⟨a, ha, hkey⟩
    cases hbelow : below rec (s.nodes a) with
    | true =>
        -- the last node in front has a key between the node's and the record's
        left
        have hfront : a ∈ (chain 0).filter fun a => below rec (s.nodes a) :=
          List.mem_filter.mpr ⟨ha, hbelow⟩
        have hne := List.ne_nil_of_mem hfront
        obtain ⟨u, x, hx⟩ : ∃ u x, (chain 0).filter (fun a => below rec (s.nodes a)) = u ++ [x] :=
          ⟨_, _, (List.dropLast_append_getLast hne).symm⟩
        have hlast : Last s chain (below rec) 0 = x := by
          unfold Last
          rw [hx, getLastD_append_cons]
          rfl
        have hsub : (u ++ x :: []).Sublist (chain 0) := hx ▸ List.filter_sublist
        have hxmem : x ∈ (chain 0).filter fun a => below rec (s.nodes a) := by simp [hx]
        obtain ⟨hxchain, hxbelow⟩ := List.mem_filter.mp hxmem
        have hle : (s.recordAt a).key ≤ (s.recordAt x).key := by
          rw [hx] at hfront
          rcases List.mem_append.mp hfront with hu | hu
          · exact h.key_le hsub hu
          · rw [List.mem_singleton.mp hu]
        have hkeyx : (s.recordAt x).key = rec.key :=
          le_antisymm (key_le_of_less hxbelow) (hkey ▸ hle)
        rw [hlast, h.keys x hxchain]
        exact ⟨by simpa using (h.inHeap x hxchain).1, by simpa using hkeyx⟩
    | false =>
        -- so has the first node behind
        right
        have hback : a ∈ (chain 0).filter fun a => !below rec (s.nodes a) :=
          List.mem_filter.mpr ⟨ha, by rw [hbelow]; rfl⟩
        cases hl : (chain 0).filter fun a => !below rec (s.nodes a) with
        | nil =>
            rw [hl] at hback
            cases hback
        | cons y l =>
            obtain ⟨hychain, hnotless⟩ := not_less_of_mem hl
            have hge : rec.key ≤ (s.recordAt y).key := by
              rcases less_eq_false.mp hnotless with hk | ⟨hk, -⟩
              · exact hk.le
              · exact hk.le
            have hle : (s.recordAt y).key ≤ (s.recordAt a).key := by
              rw [hl] at hback
              rcases List.mem_cons.mp hback with rfl | hback
              · exact le_rfl
              · obtain ⟨u, v, rfl⟩ := List.append_of_mem hback
                have hsub : (y :: (u ++ a :: v)).Sublist (chain 0) := hl ▸ List.filter_sublist
                exact h.key_le (u := y :: u) hsub List.mem_cons_self
            have hkeyy : (s.recordAt y).key = rec.key := le_antisymm (hkey ▸ hle) hge
            rw [List.head?_cons, Option.any_some, decide_eq_true_eq, h.keys y hychain]
            exact hkeyy

/-- A replaced record: no pointer changes. -/
theorem Shape.setRecord_refines (h : Shape s chain) {y : Nat} {l : List Nat}
    (hl : (chain 0).filter (fun a => !below rec (s.nodes a)) = y :: l)
    (hsame : SameVersion (s.recordAt y) rec) :
    Shape (s.setRecord y rec) chain ∧
      (chain 0).map (s.setRecord y rec).recordAt =
        MemTable.insert rec ((chain 0).map s.recordAt) := by
  obtain ⟨hy, hnotless⟩ := not_less_of_mem hl
  have hother : ∀ z, z ≠ y → (s.setRecord y rec).nodes z = s.nodes z :=
    fun z hz => Function.update_of_ne hz _ _
  have hself : (s.setRecord y rec).nodes y = { s.nodes y with record := rec } :=
    Function.update_self _ _ _
  have hlink : ∀ i z, (s.setRecord y rec).link i z = s.link i z := by
    intro i z
    unfold link
    by_cases hz : z = y
    · rw [hz, hself]
    · rw [hother z hz]
  have hrecords : (chain 0).map (s.setRecord y rec).recordAt =
      MemTable.insert rec ((chain 0).map s.recordAt) := by
    have hsplit := (h.ahead_below rec).split
    rw [hl] at hsplit
    have hnodup := (List.nodup_cons.mp (h.nodup 0)).2
    rw [← hsplit, List.nodup_append] at hnodup
    rw [h.insert_eq rec, hl, List.map_cons, MemTable.insert, if_neg (by simp [hnotless]),
      if_pos hsame]
    nth_rewrite 1 [← hsplit]
    rw [List.map_append, List.map_cons]
    have hkeep : ∀ z, z ≠ y → (s.setRecord y rec).recordAt z = s.recordAt z := by
      intro z hz
      unfold recordAt
      rw [hother z hz]
    have hfront := List.map_congr_left (l := (chain 0).filter fun a => below rec (s.nodes a))
      fun z hz => hkeep z fun heq => hnodup.2.2 z hz y List.mem_cons_self heq
    have hback := List.map_congr_left (l := l)
      fun z hz => hkeep z fun heq => (List.nodup_cons.mp hnodup.2.1).1 (heq ▸ hz)
    have hrec : (s.setRecord y rec).recordAt y = rec := by
      unfold recordAt
      rw [hself]
    rw [hfront, hback, hrec]
  refine ⟨?_, hrecords⟩
  have hrec : rec.key ∈ ((chain 0).map s.recordAt).map (·.key) := by
    rw [List.map_map, List.mem_map]
    exact ⟨y, hy, hsame.1⟩
  exact {
    linked := fun i hi => (h.linked i hi).congr fun z _ => hlink i z
    nested := h.nested
    empty := h.empty
    level_pos := h.level_pos
    level_le := h.level_le
    keys := by
      intro x hx
      unfold recordAt
      by_cases hxy : x = y
      · rw [hxy, hself]
        exact (h.keys y hy).trans hsame.1
      · rw [hother x hxy]
        exact h.keys x hx
    inHeap := h.inHeap
    allocated_pos := h.allocated_pos
    sorted := hrecords ▸ MemTable.insert_sorted h.sorted
    keyCount_eq := by
      rw [hrecords, MemTable.length_keys_insert h.sorted, if_pos hrec]
      exact h.keyCount_eq }

/-- A new node: the bottom chain is the insertion's. -/
theorem Shape.insertNode_refines (h : Shape s chain) {keyExists : Bool} {newLevel : Nat}
    (hexists : keyExists = true ↔ rec.key ∈ ((chain 0).map s.recordAt).map (·.key))
    (hpos : 0 < newLevel) (hle : newLevel ≤ s.maxLevel)
    (hnone : ∀ y l, (chain 0).filter (fun a => !below rec (s.nodes a)) = y :: l →
      ¬ SameVersion (s.recordAt y) rec) :
    ∃ s', s.insertNode rec ((List.range s.level).map (Last s chain (below rec))) keyExists
        newLevel = .ok s' ∧
      Shape s' (splice s chain (below rec) s.allocated newLevel) ∧ s'.maxLevel = s.maxLevel ∧
      (splice s chain (below rec) s.allocated newLevel 0).map s'.recordAt =
        MemTable.insert rec ((chain 0).map s.recordAt) := by
  have hp := h.ahead_below rec
  obtain ⟨s', hs', hlinked, hlevel, hmax, halloc, hcount, hnew, hold⟩ :=
    h.insertNode_spec hp rec keyExists hle
  have hfresh : ∀ z ∈ chain 0, z ≠ s.allocated := fun z hz => (h.inHeap z hz).2.ne
  have hkeep : ∀ p : Nat → Bool, ((chain 0).filter p).map s'.recordAt =
      ((chain 0).filter p).map s.recordAt := fun p =>
    List.map_congr_left fun z hz => (hold z (hfresh z (List.mem_of_mem_filter hz))).2
  have hrecords : (splice s chain (below rec) s.allocated newLevel 0).map s'.recordAt =
      MemTable.insert rec ((chain 0).map s.recordAt) := by
    unfold splice
    rw [if_pos hpos, h.insert_eq rec, List.map_append, List.map_cons, hkeep, hkeep, hnew.2]
    cases hl : (chain 0).filter fun a => !below rec (s.nodes a) with
    | nil => rfl
    | cons y l =>
        obtain ⟨-, hnotless⟩ := not_less_of_mem hl
        rw [List.map_cons, MemTable.insert, if_neg (by simp [hnotless]), if_neg (hnone y l hl)]
  refine ⟨s', hs', ?_, hmax, hrecords⟩
  exact {
    linked := fun i hi => hlinked i (hmax ▸ hi)
    nested := splice_nested h hp s.allocated newLevel
    empty := by
      intro i hi
      rw [hlevel] at hi
      unfold splice
      rw [if_neg (by omega)]
      exact h.empty i (by omega)
    level_pos := by
      have := h.level_pos
      omega
    level_le := by
      have := h.level_le
      omega
    keys := by
      intro x hx
      rcases mem_splice hx with rfl | hx
      · rw [hnew.1, hnew.2]
      · rw [(hold x (hfresh x hx)).1, (hold x (hfresh x hx)).2]
        exact h.keys x hx
    inHeap := by
      intro x hx
      rw [halloc]
      rcases mem_splice hx with rfl | hx
      · exact ⟨h.allocated_pos.ne', Nat.lt_succ_self _⟩
      · exact ⟨(h.inHeap x hx).1, (h.inHeap x hx).2.trans (Nat.lt_succ_self _)⟩
    allocated_pos := by
      rw [halloc]
      exact h.allocated_pos.trans (Nat.lt_succ_self _)
    sorted := hrecords ▸ MemTable.insert_sorted h.sorted
    keyCount_eq := by
      rw [hrecords, MemTable.length_keys_insert h.sorted, hcount, h.keyCount_eq]
      by_cases hk : keyExists = true
      · rw [if_pos hk, if_pos (hexists.mp hk)]
      · rw [if_neg hk, if_neg fun hc => hk (hexists.mpr hc)] }

/-- **One put** ends and does to the bottom chain what `MemTable.Put` does, whatever the generator
gives. -/
theorem Shape.put_refines (h : Shape s chain) (rec : Record) (flips : List Bool) :
    ∃ s' chain', s.put rec flips = .ok s' ∧ Shape s' chain' ∧ s'.maxLevel = s.maxLevel ∧
      (chain' 0).map s'.recordAt = MemTable.insert rec ((chain 0).map s.recordAt) := by
  have hp := h.ahead_below rec
  have hpos : 0 < s.randomLevel flips := le_raise s.maxLevel flips 1
  have hle : s.randomLevel flips ≤ s.maxLevel := raise_le flips h.zero_lt
  have hexists := h.keyExists_iff rec
  unfold put
  rw [h.descend_eq hp, ok_bind]
  dsimp only
  rw [h.get_last hp, ok_bind]
  cases hl : (chain 0).filter fun a => !below rec (s.nodes a) with
  | nil =>
      rw [hl] at hexists
      obtain ⟨s', hs', hshape, hmax, hrecords⟩ := h.insertNode_refines hexists hpos hle
        (fun y l hc => by rw [hl] at hc; cases hc)
      exact ⟨s', _, hs', hshape, hmax, hrecords⟩
  | cons y l =>
      obtain ⟨hy, -⟩ := not_less_of_mem hl
      rw [hl] at hexists
      rw [List.head?_cons] at hexists ⊢
      dsimp only
      rw [h.keys y hy]
      by_cases hsame : SameVersion (s.recordAt y) rec
      · obtain ⟨hshape, hrecords⟩ := h.setRecord_refines hl hsame
        exact ⟨_, chain, if_pos hsame, hshape, rfl, hrecords⟩
      · obtain ⟨s', hs', hshape, hmax, hrecords⟩ := h.insertNode_refines hexists hpos hle
          (fun z l' hc => by
            rw [hl] at hc
            cases hc
            exact hsame)
        exact ⟨s', _, (if_neg hsame).trans hs', hshape, hmax, hrecords⟩

end

/-! ### Runs -/

/-- A new list is empty on every level. -/
theorem newWithMaxLevel_shape {maxLevel : Int} (h : 1 ≤ maxLevel) :
    ∃ s, newWithMaxLevel maxLevel = some s ∧ s.maxLevel = maxLevel.toNat ∧ Shape s fun _ => [] := by
  refine ⟨_, if_neg (by omega), rfl, ?_⟩
  exact {
    linked := by
      intro i hi
      show (List.replicate maxLevel.toNat none)[i]? = some none
      rw [List.getElem?_replicate, if_pos hi]
    nested := fun _ => List.Sublist.refl _
    empty := fun _ _ => rfl
    level_pos := Nat.one_pos
    level_le := by
      show 1 ≤ maxLevel.toNat
      omega
    keys := fun x hx => by cases hx
    inHeap := fun x hx => by cases hx
    allocated_pos := Nat.one_pos
    sorted := List.Pairwise.nil
    keyCount_eq := rfl }

/-- **A run of puts** does to the bottom chain what the memtable does. -/
theorem Shape.putAll_refines (h : Shape s chain) (puts : List (Record × List Bool)) :
    ∃ s' chain', putAll puts s = .ok s' ∧ ∃ h' : Shape s' chain', s'.maxLevel = s.maxLevel ∧
      h'.table = h.table.putAll (puts.map Prod.fst) := by
  induction puts generalizing s chain with
  | nil => exact ⟨s, chain, rfl, h, rfl, rfl⟩
  | cons put puts ih =>
      obtain ⟨rec, flips⟩ := put
      obtain ⟨s₁, chain₁, hs₁, h₁, hmax₁, hrecords⟩ := h.put_refines rec flips
      obtain ⟨s', chain', hs', h', hmax, htable⟩ := ih h₁
      have hput : h₁.table = h.table.put rec := MemTable.mk.injEq .. ▸ hrecords
      refine ⟨s', chain', ?_, h', hmax.trans hmax₁, ?_⟩
      · unfold putAll
        rw [hs₁, ok_bind, hs']
      · rw [htable, hput]
        rfl

/-- What a read of `k` without a bound may return: its version with the largest sequence. -/
def ReadsLatest (recs : List Record) (k : Key) : Option Record → Prop
  | none => ∀ r ∈ recs, r.key ≠ k
  | some r => r ∈ recs ∧ r.key = k ∧ ∀ r' ∈ recs, r'.key = k → r'.seq ≤ r.seq

theorem readsLatest_of_readsAt {recs : List Record} {k : Key} {maxSeq : UInt64}
    (hmax : ∀ n, n ≤ maxSeq) {o : Option Record} (h : ReadsAt (recordsOf recs) k maxSeq o) :
    ReadsLatest recs k o := by
  cases o with
  | none => exact fun r hr hk => h r hr hk (hmax r.seq)
  | some r => exact ⟨h.mem, h.key_eq, fun r' hr' hk => h.max r' hr' hk (hmax r'.seq)⟩

theorem le_maxSeq (n : UInt64) : n ≤ UInt64.ofNat (2 ^ 64 - 1) := by
  rw [UInt64.le_iff_toNat_le]
  have := n.toNat_lt
  have hmax : (UInt64.ofNat (2 ^ 64 - 1)).toNat = 2 ^ 64 - 1 := by decide
  omega

/-- **The skip list** after any puts, for every height and every outcome of the generator: each
level links a part of the level below; the bottom level is strictly in order and holds the last
record put of each version; `Len` counts keys; reads find the newest version; an iteration gives the
records from a key on. -/
theorem putAll_skipList {maxLevel : Int} (hmax : 1 ≤ maxLevel)
    (puts : List (Record × List Bool)) :
    ∃ (empty s : SkipList) (chain : Nat → List Nat),
      newWithMaxLevel maxLevel = some empty ∧ putAll puts empty = .ok s ∧
      s.maxLevel = maxLevel.toNat ∧
      (∀ i < s.maxLevel, Chain (s.link i) head (chain i)) ∧
      (∀ i, (chain (i + 1)).Sublist (chain i)) ∧
      ∃ recs, recs = (chain 0).map s.recordAt ∧
        recs.Pairwise (fun a b => less a b = true) ∧
        (∀ r, r ∈ recs ↔ MemTable.LastPut (puts.map Prod.fst) r) ∧
        s.len = (puts.map fun put => put.1.key).dedup.length ∧
        (∀ k, ∃ o, s.get k = .ok o ∧ ReadsLatest recs k o) ∧
        (∀ k maxSeq, ∃ o, s.getAt k maxSeq = .ok o ∧ ReadsAt (recordsOf recs) k maxSeq o) ∧
        s.records = .ok recs ∧
        ∀ k, s.recordsFrom k = .ok (recs.filter fun r => k ≤ r.key) := by
  obtain ⟨empty, hempty, hlevels, h₀⟩ := newWithMaxLevel_shape hmax
  obtain ⟨s, chain, hs, h, hsmax, htable⟩ := h₀.putAll_refines puts
  have hnew : h.table = MemTable.new.putAll (puts.map Prod.fst) := htable
  refine ⟨empty, s, chain, hempty, hs, hsmax.trans hlevels, h.linked, h.nested, h.table.records,
    rfl, h.sorted, ?_, ?_, ?_, ?_, h.records_eq, ?_⟩
  · intro r
    rw [hnew]
    exact MemTable.mem_putAll_new
  · have hlen := MemTable.len_putAll_new (puts.map Prod.fst)
    rw [← hnew, List.map_map] at hlen
    exact h.keyCount_eq.trans hlen
  · exact fun k => ⟨_, h.get_eq k le_maxSeq,
      readsLatest_of_readsAt le_maxSeq (h.table.getAt_reads k _)⟩
  · exact fun k maxSeq => ⟨_, h.getAt_eq k maxSeq, h.table.getAt_reads k maxSeq⟩
  · intro k
    rw [h.recordsFrom_eq k]
    simp only [← not_lt, decide_not]

/-- Two versions of a key and another key on three levels. -/
theorem putAll_skipList_three :
    ∃ empty s, newWithMaxLevel 3 = some empty ∧
      putAll [({ key := [2], seq := 1 }, [true, true, true]), ({ key := [1], seq := 2 }, []),
        ({ key := [2], seq := 3 }, [true, false])] empty = .ok s ∧ s.len = 2 := by
  obtain ⟨empty, s, -, hempty, hs, -, -, -, -, -, -, -, hlen, -⟩ :=
    @putAll_skipList 3 (by decide)
      [({ key := [2], seq := 1 }, [true, true, true]), ({ key := [1], seq := 2 }, []),
        ({ key := [2], seq := 3 }, [true, false])]
  exact ⟨empty, s, hempty, hs, hlen.trans (by decide)⟩

end SkipList

end HyphaDB
