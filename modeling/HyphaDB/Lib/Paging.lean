import Mathlib.Data.List.Basic
import Mathlib.Data.List.Perm.Subperm
import Mathlib.Order.Lattice

/-!
# HyphaDB.Lib.Paging

**Reading a changing table page by page.** The table is a list of entries by ascending key. A
client takes pages of at most `limit` entries, each from the contents the table has at that
time, and goes on behind the last key it was given, until a page is the last one.

Whatever happens to the table between the pages, the client sees ascending keys, and every
entry that was there at each page (`Covers`). From a table that does not change it gets the
whole contents (`pages_const`).
-/

namespace HyphaDB.Paging

variable {κ ν : Type} [LinearOrder κ]

/-- Entries by strictly ascending key. -/
def Ascending (entries : List (κ × ν)) : Prop := entries.Pairwise (fun a b => a.1 < b.1)

/-- The entries behind a key, or all of them. -/
def behind : Option κ → List (κ × ν) → List (κ × ν)
  | none, entries => entries
  | some k, entries => entries.filter (k < ·.1)

/-- The next page, and the key to go on from if it is not the last one. -/
def page (limit : Nat) (entries : List (κ × ν)) : List (κ × ν) × Option κ :=
  (entries.take limit,
    if limit < entries.length then (entries.take limit).getLast?.map Prod.fst else none)

/-- The entries of the first `n` pages, and where the client goes on if there are more: at the
start or behind a key. -/
def pages (limit : Nat) (contents : Nat → List (κ × ν)) : Nat → List (κ × ν) × Option (Option κ)
  | 0 => ([], some none)
  | n + 1 =>
      match pages limit contents n with
      | (seen, none) => (seen, none)
      | (seen, some cursor) =>
          let (entries, next) := page limit (behind cursor (contents n))
          (seen ++ entries, next.map some)

theorem Ascending.behind {entries : List (κ × ν)} (h : Ascending entries) (cursor : Option κ) :
    Ascending (behind cursor entries) := by
  cases cursor with
  | none => exact h
  | some k => exact List.Pairwise.filter _ h

theorem mem_behind {cursor : Option κ} {entries : List (κ × ν)} {e : κ × ν} :
    e ∈ behind cursor entries ↔ e ∈ entries ∧ ∀ k, cursor = some k → k < e.1 := by
  cases cursor with
  | none => simp [behind]
  | some k => simp [behind]

omit [LinearOrder κ] in
theorem page_last {limit : Nat} {entries : List (κ × ν)} (h : (page limit entries).2 = none)
    (hlimit : 0 < limit) : (page limit entries).1 = entries := by
  unfold page at h ⊢
  dsimp only at h ⊢
  by_cases hlen : limit < entries.length
  · rw [if_pos hlen, Option.map_eq_none_iff, List.getLast?_eq_none_iff] at h
    have := congrArg List.length h
    rw [List.length_take, List.length_nil] at this
    omega
  · exact List.take_of_length_le (not_lt.mp hlen)

/-- A page that is not the last one is full, and its last key divides the entries. -/
theorem page_more {limit : Nat} {entries : List (κ × ν)} {k : κ} (hasc : Ascending entries)
    (h : (page limit entries).2 = some k) :
    (page limit entries).1.length = limit ∧ (∃ v, (k, v) ∈ (page limit entries).1) ∧
      ∀ e ∈ entries, e ∈ (page limit entries).1 ↔ e.1 ≤ k := by
  unfold page at h ⊢
  dsimp only at h ⊢
  by_cases hlen : limit < entries.length
  · rw [if_pos hlen] at h
    obtain ⟨last, hlast, rfl⟩ := Option.map_eq_some_iff.mp h
    have hsplit : Ascending (entries.take limit ++ entries.drop limit) := by
      rw [List.take_append_drop]
      exact hasc
    obtain ⟨htake, -, hcross⟩ := List.pairwise_append.mp hsplit
    have hmem : last ∈ entries.take limit := List.mem_of_getLast? hlast
    obtain ⟨init, hinit⟩ := List.getLast?_eq_some_iff.mp hlast
    have hmax : ∀ e ∈ entries.take limit, e.1 ≤ last.1 := by
      intro e he
      rw [hinit] at he htake
      rcases List.mem_append.mp he with he | he
      · exact ((List.pairwise_append.mp htake).2.2 e he last List.mem_cons_self).le
      · rw [List.mem_singleton.mp he]
    refine ⟨List.length_take_of_le hlen.le, ⟨last.2, hmem⟩, fun e he => ⟨hmax e, fun hle => ?_⟩⟩
    rw [← List.take_append_drop limit entries] at he
    rcases List.mem_append.mp he with he | he
    · exact he
    · exact absurd hle (not_le.mpr (hcross last hmem e he))
  · rw [if_neg hlen] at h
    cases h

/-- What a client knows after `n` pages. -/
structure Covers (contents : Nat → List (κ × ν)) (n : Nat) (seen : List (κ × ν))
    (cursor : Option (Option κ)) : Prop where
  ascending : Ascending seen
  mem : ∀ e ∈ seen, ∃ i < n, e ∈ contents i
  bounded : ∀ cur, cursor = some cur → ∀ e ∈ seen, ∃ k, cur = some k ∧ e.1 ≤ k
  stable : ∀ e, (∀ i < n, e ∈ contents i) →
    (∀ cur, cursor = some cur → ∃ k, cur = some k ∧ e.1 ≤ k) → e ∈ seen
  progress : cursor ≠ none → n ≤ seen.length

section Run

variable {limit : Nat} (hlimit : 0 < limit) {contents : Nat → List (κ × ν)}
  (hasc : ∀ i, Ascending (contents i))

include hlimit hasc

/-- One more page. -/
theorem Covers.step {n : Nat} {seen : List (κ × ν)} {cur : Option κ}
    (h : Covers contents n seen (some cur)) :
    Covers contents (n + 1) (seen ++ (page limit (behind cur (contents n))).1)
      ((page limit (behind cur (contents n))).2.map some) := by
  have hback := (hasc n).behind cur
  have hsub : ∀ e ∈ (page limit (behind cur (contents n))).1,
      e ∈ contents n ∧ ∀ k, cur = some k → k < e.1 :=
    fun e he => mem_behind.mp (List.mem_of_mem_take he)
  have hgap : ∀ a ∈ seen, ∀ b ∈ (page limit (behind cur (contents n))).1, a.1 < b.1 := by
    intro a ha b hb
    obtain ⟨k, hk, hle⟩ := h.bounded cur rfl a ha
    exact lt_of_le_of_lt hle ((hsub b hb).2 k hk)
  refine ⟨?_, fun e he => ?_, fun cur' hcur e he => ?_, fun e he hbound => ?_, fun hmore => ?_⟩
  · exact List.pairwise_append.mpr ⟨h.ascending, hback.sublist (List.take_sublist _ _), hgap⟩
  · rcases List.mem_append.mp he with he | he
    · obtain ⟨i, hi, hmem⟩ := h.mem e he
      exact ⟨i, by omega, hmem⟩
    · exact ⟨n, by omega, (hsub e he).1⟩
  · obtain ⟨k, hk, rfl⟩ := Option.map_eq_some_iff.mp hcur
    obtain ⟨-, ⟨v, hlast⟩, hdiv⟩ := page_more hback hk
    refine ⟨k, rfl, ?_⟩
    rcases List.mem_append.mp he with he | he
    · exact (hgap e he _ hlast).le
    · exact (hdiv e (List.mem_of_mem_take he)).mp he
  · -- an entry that is always there was given before, or it is behind the cursor now
    by_cases hold : ∀ c, some cur = some c → ∃ k, c = some k ∧ e.1 ≤ k
    · exact List.mem_append_left _ (h.stable e (fun i hi => he i (by omega)) hold)
    · have hmem : e ∈ behind cur (contents n) := by
        refine mem_behind.mpr ⟨he n (by omega), fun k hk => ?_⟩
        by_contra hle
        refine hold fun c hc => ⟨k, ?_, not_lt.mp hle⟩
        rw [← Option.some.inj hc]
        exact hk
      refine List.mem_append_right _ ?_
      cases hnext : (page limit (behind cur (contents n))).2 with
      | none =>
          rw [page_last hnext hlimit]
          exact hmem
      | some k =>
          obtain ⟨k', hk', hle⟩ := hbound (some k) (by rw [hnext]; rfl)
          obtain rfl := Option.some.inj hk'
          exact ((page_more hback hnext).2.2 e hmem).mpr hle
  · cases hnext : (page limit (behind cur (contents n))).2 with
    | none =>
        rw [hnext] at hmore
        exact absurd rfl hmore
    | some k =>
        have hlen := (page_more hback hnext).1
        have hseen := h.progress (by simp)
        rw [List.length_append]
        omega

/-- **Every run of pages** knows what it should. -/
theorem covers_pages (n : Nat) :
    Covers contents n (pages limit contents n).1 (pages limit contents n).2 := by
  induction n with
  | zero =>
      exact ⟨List.Pairwise.nil, by simp [pages], by simp [pages], by simp [pages], by simp⟩
  | succ n ih =>
      rw [pages]
      cases hp : pages limit contents n with
      | mk seen cursor =>
          rw [hp] at ih
          cases cursor with
          | none =>
              refine ⟨ih.ascending, fun e he => ?_, by simp, fun e he _ => ?_, by simp⟩
              · obtain ⟨i, hi, hmem⟩ := ih.mem e he
                exact ⟨i, by omega, hmem⟩
              · exact ih.stable e (fun i hi => he i (by omega)) (by simp)
          | some cur => exact ih.step hlimit hasc

end Run

theorem Ascending.nodup {entries : List (κ × ν)} (h : Ascending entries) : entries.Nodup :=
  h.imp fun hlt heq => hlt.ne (congrArg Prod.fst heq)

/-- A list by ascending key is given by its members. -/
theorem Ascending.ext {xs ys : List (κ × ν)} (hx : Ascending xs) (hy : Ascending ys)
    (h : ∀ e, e ∈ xs ↔ e ∈ ys) : xs = ys := by
  refine ((List.perm_ext_iff_of_nodup hx.nodup hy.nodup).mpr h).eq_of_pairwise ?_ hx hy
  exact fun a b _ _ hab hba => absurd (hab.trans hba) (lt_irrefl _)

/-- **A table that does not change** is read completely, in at most one page more than it has
entries. -/
theorem pages_const {limit : Nat} (hlimit : 0 < limit) {entries : List (κ × ν)}
    (hasc : Ascending entries) {n : Nat} (hn : entries.length < n) :
    pages limit (fun _ => entries) n = (entries, none) := by
  have h := covers_pages hlimit (fun _ => hasc) n
  have hsub : ∀ e ∈ (pages limit (fun _ => entries) n).1, e ∈ entries :=
    fun e he => (h.mem e he).elim fun _ hi => hi.2
  have hend : (pages limit (fun _ => entries) n).2 = none := by
    by_contra hmore
    have hlen := (List.subperm_of_subset h.ascending.nodup hsub).length_le
    have := h.progress hmore
    omega
  have hall : (pages limit (fun _ => entries) n).1 = entries := by
    refine h.ascending.ext hasc fun e => ⟨hsub e, fun he => ?_⟩
    exact h.stable e (fun _ _ => he) fun cur hcur => by rw [hend] at hcur; cases hcur
  exact Prod.ext hall hend

end HyphaDB.Paging
