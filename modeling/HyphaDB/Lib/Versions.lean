import Mathlib.Data.Finset.Max
import Mathlib.Data.Set.Finite.Lemmas

/-!
# HyphaDB.Lib.Versions

**Multi-version reads.** A store is a set of versions, each with a key and a sequence
number. A read of a key at a bound `s` finds the **newest** version at or below `s`.

Stores are unions of sources, each of which answers on its own, so the lemmas say how
newest versions behave under union and under taking a subset, and that choosing the
candidate of the largest sequence number over all sources (`better`) reads the union.
-/

namespace HyphaDB.Versions

variable {ρ κ σ : Type} [LinearOrder σ] (key : ρ → κ) (seq : ρ → σ)

/-- `r` is the newest version of `k` in `S` at or below `s`. -/
structure NewestAt (S : Set ρ) (k : κ) (s : σ) (r : ρ) : Prop where
  mem : r ∈ S
  key_eq : key r = k
  seq_le : seq r ≤ s
  max : ∀ r' ∈ S, key r' = k → seq r' ≤ s → seq r' ≤ seq r

/-- `S` has no version of `k` at or below `s`. -/
def NoneAt (S : Set ρ) (k : κ) (s : σ) : Prop := ∀ r ∈ S, key r = k → ¬ seq r ≤ s

/-- What a read at `s` may return. -/
def ReadsAt (S : Set ρ) (k : κ) (s : σ) : Option ρ → Prop
  | none => NoneAt key seq S k s
  | some r => NewestAt key seq S k s r

/-- One version a key and sequence number. -/
def Consistent (S : Set ρ) : Prop :=
  ∀ r ∈ S, ∀ r' ∈ S, key r = key r' → seq r = seq r' → r = r'

variable {key seq}

omit [LinearOrder σ] in
theorem Consistent.mono {S T : Set ρ} (h : Consistent key seq T) (hsub : S ⊆ T) :
    Consistent key seq S :=
  fun r hr r' hr' hk hs => h r (hsub hr) r' (hsub hr') hk hs

theorem NewestAt.unique {S : Set ρ} {k : κ} {s : σ} {r r' : ρ} (hc : Consistent key seq S)
    (h : NewestAt key seq S k s r) (h' : NewestAt key seq S k s r') : r = r' := by
  apply hc r h.mem r' h'.mem (h.key_eq.trans h'.key_eq.symm)
  exact le_antisymm (h'.max r h.mem h.key_eq h.seq_le) (h.max r' h'.mem h'.key_eq h'.seq_le)

theorem NewestAt.not_noneAt {S : Set ρ} {k : κ} {s : σ} {r : ρ} (h : NewestAt key seq S k s r) :
    ¬ NoneAt key seq S k s :=
  fun hnone => hnone r h.mem h.key_eq h.seq_le

/-- Two reads of one consistent store agree. -/
theorem ReadsAt.unique {S : Set ρ} {k : κ} {s : σ} {o o' : Option ρ}
    (hc : Consistent key seq S) (h : ReadsAt key seq S k s o) (h' : ReadsAt key seq S k s o') :
    o = o' := by
  cases o with
  | none =>
      cases o' with
      | none => rfl
      | some r' => exact absurd h (NewestAt.not_noneAt h')
  | some r =>
      cases o' with
      | none => exact absurd h' (NewestAt.not_noneAt h)
      | some r' => exact congrArg some (NewestAt.unique hc h h')

/-- A newest version stays newest in any smaller store that still holds it. -/
theorem NewestAt.anti {S T : Set ρ} {k : κ} {s : σ} {r : ρ} (h : NewestAt key seq T k s r)
    (hsub : ∀ r' ∈ S, key r' = k → r' ∈ T) (hmem : r ∈ S) : NewestAt key seq S k s r :=
  ⟨hmem, h.key_eq, h.seq_le, fun r' hr' hk hs => h.max r' (hsub r' hr' hk) hk hs⟩

/-- A read depends only on the versions of its key. -/
theorem ReadsAt.congr {S T : Set ρ} {k : κ} {s : σ} {o : Option ρ}
    (h : ReadsAt key seq S k s o) (hiff : ∀ r, key r = k → (r ∈ T ↔ r ∈ S)) :
    ReadsAt key seq T k s o := by
  cases o with
  | none => exact fun r hr hk => h r ((hiff r hk).mp hr) hk
  | some r =>
      exact NewestAt.anti h (fun r' hr' hk => (hiff r' hk).mp hr') ((hiff r h.key_eq).mpr h.mem)

/-- Versions above the bound do not matter. -/
theorem ReadsAt.add_above {S T : Set ρ} {k : κ} {s : σ} {o : Option ρ}
    (h : ReadsAt key seq S k s o) (hsub : S ⊆ T) (hnew : ∀ r ∈ T, r ∈ S ∨ s < seq r) :
    ReadsAt key seq T k s o := by
  have hold : ∀ r ∈ T, seq r ≤ s → r ∈ S :=
    fun r hr hs => (hnew r hr).resolve_right (not_lt.mpr hs)
  cases o with
  | none => exact fun r hr hk hs => h r (hold r hr hs) hk hs
  | some r =>
      exact ⟨hsub h.mem, h.key_eq, h.seq_le, fun x hx hk hs => h.max x (hold x hx hs) hk hs⟩

/-- A bound above all versions finds what any larger bound finds. -/
theorem ReadsAt.raise {S : Set ρ} {k : κ} {s t : σ} {o : Option ρ} (h : ReadsAt key seq S k s o)
    (hle : ∀ r ∈ S, seq r ≤ s) (hst : s ≤ t) : ReadsAt key seq S k t o := by
  cases o with
  | none => exact fun r hr hk _ => h r hr hk (hle r hr)
  | some r => exact ⟨h.mem, h.key_eq, h.seq_le.trans hst, fun x hx hk _ => h.max x hx hk (hle x hx)⟩

/-- And a read at a larger bound finds nothing else. -/
theorem ReadsAt.lower {S : Set ρ} {k : κ} {s t : σ} {o : Option ρ} (h : ReadsAt key seq S k t o)
    (hle : ∀ r ∈ S, seq r ≤ s) (hst : s ≤ t) : ReadsAt key seq S k s o := by
  cases o with
  | none => exact fun r hr hk hs => h r hr hk (hs.trans hst)
  | some r => exact ⟨h.mem, h.key_eq, hle r h.mem, fun x hx hk hs => h.max x hx hk (hs.trans hst)⟩

/-! ### Reading a union -/

variable (seq) in
/-- Keep the candidate of the larger sequence number, the earlier one on a tie. -/
def better (best : Option ρ) (candidate : Option ρ) : Option ρ :=
  match best, candidate with
  | none, c => c
  | some b, none => some b
  | some b, some c => if seq b < seq c then some c else some b

theorem ReadsAt.union {S T : Set ρ} {k : κ} {s : σ} {a b : Option ρ}
    (ha : ReadsAt key seq S k s a) (hb : ReadsAt key seq T k s b) :
    ReadsAt key seq (S ∪ T) k s (better seq a b) := by
  cases a with
  | none =>
      cases b with
      | none => exact fun r hr hk => hr.elim (fun h => ha r h hk) (fun h => hb r h hk)
      | some y =>
          refine ⟨Or.inr hb.mem, hb.key_eq, hb.seq_le, ?_⟩
          rintro r' (hr' | hr') hk hs
          · exact absurd hs (ha r' hr' hk)
          · exact hb.max r' hr' hk hs
  | some x =>
      cases b with
      | none =>
          refine ⟨Or.inl ha.mem, ha.key_eq, ha.seq_le, ?_⟩
          rintro r' (hr' | hr') hk hs
          · exact ha.max r' hr' hk hs
          · exact absurd hs (hb r' hr' hk)
      | some y =>
          by_cases hlt : seq x < seq y
          · rw [better, if_pos hlt]
            refine ⟨Or.inr hb.mem, hb.key_eq, hb.seq_le, ?_⟩
            rintro r' (hr' | hr') hk hs
            · exact (ha.max r' hr' hk hs).trans hlt.le
            · exact hb.max r' hr' hk hs
          · rw [better, if_neg hlt]
            refine ⟨Or.inl ha.mem, ha.key_eq, ha.seq_le, ?_⟩
            rintro r' (hr' | hr') hk hs
            · exact ha.max r' hr' hk hs
            · exact (hb.max r' hr' hk hs).trans (not_lt.mp hlt)

variable (key seq) in
/-- A finite store can be read. -/
theorem exists_readsAt {S : Set ρ} (hS : S.Finite) (k : κ) (s : σ) :
    ∃ o, ReadsAt key seq S k s o := by
  by_cases hnone : NoneAt key seq S k s
  · exact ⟨none, hnone⟩
  · have hvisible : {r ∈ S | key r = k ∧ seq r ≤ s}.Nonempty := by
      unfold NoneAt at hnone
      push Not at hnone
      obtain ⟨r, hr, hk, hs⟩ := hnone
      exact ⟨r, hr, hk, hs⟩
    obtain ⟨r, ⟨hr, hk, hs⟩, hmax⟩ := Set.exists_max_image _ seq (hS.sep _) hvisible
    exact ⟨some r, hr, hk, hs, fun r' hr' hk' hs' => hmax r' ⟨hr', hk', hs'⟩⟩

/-- Folding `better` over the candidates of a list of sources reads their union. -/
theorem ReadsAt.foldl {ι : Type} {source : ι → Set ρ} {candidate : ι → Option ρ} {k : κ} {s : σ}
    {is : List ι} (h : ∀ i ∈ is, ReadsAt key seq (source i) k s (candidate i)) {S : Set ρ}
    {a : Option ρ} (ha : ReadsAt key seq S k s a) :
    ReadsAt key seq (S ∪ {r | ∃ i ∈ is, r ∈ source i}) k s
      (is.foldl (fun best i => better seq best (candidate i)) a) := by
  induction is generalizing S a with
  | nil => exact ha.congr (by simp)
  | cons i is ih =>
      have hi := ha.union (h i List.mem_cons_self)
      refine (ih (fun j hj => h j (List.mem_cons_of_mem _ hj)) hi).congr ?_
      intro r _
      simp only [Set.mem_union, Set.mem_ofPred_eq, List.mem_cons, exists_eq_or_imp, or_assoc]

/-- A candidate that nothing exceeds stays. -/
theorem foldl_better_of_le {ι : Type} {candidate : ι → Option ρ} {is : List ι} {r : ρ}
    (h : ∀ i ∈ is, ∀ c, candidate i = some c → seq c ≤ seq r) :
    is.foldl (fun best i => better seq best (candidate i)) (some r) = some r := by
  induction is with
  | nil => rfl
  | cons i is ih =>
      rw [List.foldl_cons]
      have hi : better seq (some r) (candidate i) = some r := by
        unfold better
        cases hc : candidate i with
        | none => rfl
        | some c => exact if_neg (not_lt.mpr (h i List.mem_cons_self c hc))
      rw [hi, ih (fun j hj => h j (List.mem_cons_of_mem _ hj))]

end HyphaDB.Versions
