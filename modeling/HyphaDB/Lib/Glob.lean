import Mathlib.Data.List.Basic

/-!
# HyphaDB.Lib.Glob

**File name patterns** with the usual special characters: `*` for any characters but the
separator, `?` for one of them, `[..]` for a character class and a backslash in front of a
character that is meant itself. A pattern is read from left to right into **terms**; the mode
says where in the pattern the reader is, and a pattern that ends in the middle of a class or
behind a backslash is malformed.

A text without special characters matches itself and nothing else (`parse_plain`). A text
with special characters may match itself, but then it matches another name as well
(`exists_other_match`).
-/

namespace HyphaDB.Glob

abbrev Path := List Char

def separator : Char := '/'

inductive Term
  | lit (c : Char)
  | anyChar
  | anySeq
  | charClass (negated : Bool) (ranges : List (Char × Char))
  deriving Repr, DecidableEq

/-- Whether a term for one character takes this one. -/
def Term.accepts : Term → Char → Bool
  | lit c, x => c = x
  | anyChar, x => x ≠ separator
  | anySeq, _ => false
  | charClass negated ranges, x => (ranges.any fun r => r.1 ≤ x && x ≤ r.2) != negated

/-- Skip some characters, none of them a separator. -/
def skipThen (f : Path → Bool) : Path → Bool
  | [] => f []
  | x :: xs => f (x :: xs) || (x ≠ separator && skipThen f xs)

/-- The terms match the whole name. -/
def matchTerms : List Term → Path → Bool
  | [], s => s.isEmpty
  | .anySeq :: ts, s => skipThen (matchTerms ts) s
  | _ :: _, [] => false
  | t :: ts, x :: xs => t.accepts x && matchTerms ts xs

/-! ### Reading a pattern -/

/-- Where the reader is: in plain text, behind a backslash, or at some place of a class. -/
inductive Mode
  | text
  | escape
  | opened
  | range (negated : Bool) (ranges : List (Char × Char))
  | lowEscape (negated : Bool) (ranges : List (Char × Char))
  | low (negated : Bool) (ranges : List (Char × Char)) (lo : Char)
  | high (negated : Bool) (ranges : List (Char × Char)) (lo : Char)
  | highEscape (negated : Bool) (ranges : List (Char × Char)) (lo : Char)
  deriving Repr, DecidableEq

/-- Inside a class, where a range starts or, behind the first one, the class ends. -/
def rangeStep (negated : Bool) (ranges : List (Char × Char)) (c : Char) :
    Option (Option Term × Mode) :=
  if c = ']' ∧ ranges ≠ [] then some (some (.charClass negated ranges), .text)
  else if c = '-' ∨ c = ']' then none
  else if c = '\\' then some (none, .lowEscape negated ranges)
  else some (none, .low negated ranges c)

/-- Read one character: the term it completes, and the mode behind it. -/
def Mode.step : Mode → Char → Option (Option Term × Mode)
  | .text, c =>
      if c = '*' then some (some .anySeq, .text)
      else if c = '?' then some (some .anyChar, .text)
      else if c = '\\' then some (none, .escape)
      else if c = '[' then some (none, .opened)
      else some (some (.lit c), .text)
  | .escape, c => some (some (.lit c), .text)
  | .opened, c => if c = '^' then some (none, .range true []) else rangeStep false [] c
  | .range negated ranges, c => rangeStep negated ranges c
  | .lowEscape negated ranges, c => some (none, .low negated ranges c)
  | .low negated ranges lo, c =>
      if c = '-' then some (none, .high negated ranges lo)
      else rangeStep negated (ranges ++ [(lo, lo)]) c
  | .high negated ranges lo, c =>
      if c = '-' ∨ c = ']' then none
      else if c = '\\' then some (none, .highEscape negated ranges lo)
      else some (none, .range negated (ranges ++ [(lo, c)]))
  | .highEscape negated ranges lo, c => some (none, .range negated (ranges ++ [(lo, c)]))

/-- The terms of a pattern, or nothing when it is malformed. -/
def parse : Mode → Path → Option (List Term)
  | m, [] => if m = .text then some [] else none
  | m, c :: cs =>
      match m.step c with
      | none => none
      | some (t, m') => (parse m' cs).map (t.toList ++ ·)

/-- The files whose names match a pattern; no answer if it is malformed. -/
def glob (pattern : Path) (files : List Path) : Option (List Path) :=
  (parse .text pattern).map fun ts => files.filter (matchTerms ts)

/-- The characters that do not stand for themselves. -/
def special (c : Char) : Bool := c = '*' || c = '?' || c = '[' || c = '\\'

/-! ### Matching -/

theorem skipThen_iff {f : Path → Bool} {s : Path} :
    skipThen f s = true ↔ ∃ x y, s = x ++ y ∧ (∀ c ∈ x, c ≠ separator) ∧ f y = true := by
  induction s with
  | nil =>
      refine ⟨fun h => ⟨[], [], rfl, by simp, h⟩, fun h => ?_⟩
      obtain ⟨x, y, hs, -, hf⟩ := h
      obtain ⟨rfl, rfl⟩ := List.append_eq_nil_iff.mp hs.symm
      exact hf
  | cons a s ih =>
      rw [skipThen, Bool.or_eq_true, Bool.and_eq_true, ih]
      constructor
      · intro h
        rcases h with h | ⟨ha, x, y, rfl, hx, hf⟩
        · exact ⟨[], a :: s, rfl, by simp, h⟩
        · refine ⟨a :: x, y, rfl, fun c hc => ?_, hf⟩
          rcases List.mem_cons.mp hc with rfl | hc
          · simpa using ha
          · exact hx c hc
      · intro h
        obtain ⟨x, y, hs, hx, hf⟩ := h
        cases x with
        | nil => exact Or.inl (by rw [show a :: s = y from hs]; exact hf)
        | cons b x =>
            obtain ⟨rfl, rfl⟩ := List.cons.inj hs
            refine Or.inr ⟨by simpa using hx a List.mem_cons_self, x, y, rfl, fun c hc => ?_, hf⟩
            exact hx c (List.mem_cons_of_mem _ hc)

theorem matchTerms_one {t : Term} (ht : t ≠ .anySeq) {ts : List Term} {s : Path} :
    matchTerms (t :: ts) s = true ↔
      ∃ x xs, s = x :: xs ∧ t.accepts x = true ∧ matchTerms ts xs = true := by
  cases s with
  | nil => cases t <;> simp [matchTerms] at ht ⊢
  | cons x xs =>
      have heq : matchTerms (t :: ts) (x :: xs) = (t.accepts x && matchTerms ts xs) := by
        cases t <;> first | rfl | exact absurd rfl ht
      rw [heq, Bool.and_eq_true]
      constructor
      · intro h
        exact ⟨x, xs, rfl, h⟩
      · intro h
        obtain ⟨y, ys, heq, h⟩ := h
        obtain ⟨rfl, rfl⟩ := List.cons.inj heq
        exact h

theorem matchTerms_append {as bs : List Term} {s : Path} :
    matchTerms (as ++ bs) s = true ↔
      ∃ x y, s = x ++ y ∧ matchTerms as x = true ∧ matchTerms bs y = true := by
  induction as generalizing s with
  | nil =>
      refine ⟨fun h => ⟨[], s, rfl, rfl, h⟩, fun h => ?_⟩
      obtain ⟨x, y, rfl, hx, hy⟩ := h
      have hnil : x = [] := by simpa [matchTerms] using hx
      rw [hnil]
      exact hy
  | cons t as ih =>
      rw [List.cons_append]
      by_cases ht : t = .anySeq
      · subst ht
        rw [show matchTerms (.anySeq :: (as ++ bs)) s = skipThen (matchTerms (as ++ bs)) s from rfl,
          skipThen_iff]
        constructor
        · intro h
          obtain ⟨x, y, rfl, hx, hm⟩ := h
          obtain ⟨y, z, rfl, hy, hz⟩ := ih.mp hm
          exact ⟨x ++ y, z, (List.append_assoc _ _ _).symm,
            skipThen_iff.mpr ⟨x, y, rfl, hx, hy⟩, hz⟩
        · intro h
          obtain ⟨u, z, rfl, hu, hz⟩ := h
          obtain ⟨x, y, rfl, hx, hy⟩ := skipThen_iff.mp hu
          exact ⟨x, y ++ z, List.append_assoc _ _ _, hx, ih.mpr ⟨y, z, rfl, hy, hz⟩⟩
      · rw [matchTerms_one ht]
        constructor
        · intro h
          obtain ⟨x, xs, rfl, hx, hm⟩ := h
          obtain ⟨y, z, rfl, hy, hz⟩ := ih.mp hm
          exact ⟨x :: y, z, rfl, (matchTerms_one ht).mpr ⟨x, y, rfl, hx, hy⟩, hz⟩
        · intro h
          obtain ⟨u, z, rfl, hu, hz⟩ := h
          obtain ⟨x, y, rfl, hx, hy⟩ := (matchTerms_one ht).mp hu
          exact ⟨x, y ++ z, rfl, hx, ih.mpr ⟨y, z, rfl, hy, hz⟩⟩

theorem matchTerms_lits {cs s : Path} : matchTerms (cs.map .lit) s = true ↔ s = cs := by
  induction cs generalizing s with
  | nil => simp [matchTerms]
  | cons c cs ih =>
      rw [List.map_cons, matchTerms_one (by simp)]
      constructor
      · intro h
        obtain ⟨x, xs, rfl, hx, hm⟩ := h
        rw [ih.mp hm, show c = x by simpa [Term.accepts] using hx]
      · intro h
        subst h
        exact ⟨c, cs, rfl, by simp [Term.accepts], ih.mpr rfl⟩

/-- Without `*`, each term takes one character. -/
theorem length_of_matchTerms {ts : List Term} {s : Path} (hno : .anySeq ∉ ts)
    (h : matchTerms ts s = true) : s.length = ts.length := by
  induction ts generalizing s with
  | nil => simpa [matchTerms] using h
  | cons t ts ih =>
      rw [List.mem_cons, not_or] at hno
      obtain ⟨x, xs, rfl, -, hm⟩ := (matchTerms_one (Ne.symm hno.1)).mp h
      rw [List.length_cons, List.length_cons, ih hno.2 hm]

/-! ### Parsing -/

theorem parse_cons_some {m m' : Mode} {t : Option Term} {c : Char} {cs : Path}
    (h : m.step c = some (t, m')) : parse m (c :: cs) = (parse m' cs).map (t.toList ++ ·) := by
  rw [parse, h]

theorem step_text {c : Char} (h : special c = false) :
    Mode.text.step c = some (some (.lit c), .text) := by
  simp only [special, Bool.or_eq_false_iff, decide_eq_false_iff_not] at h
  obtain ⟨⟨⟨hstar, hone⟩, hclass⟩, hslash⟩ := h
  simp [Mode.step, hstar, hone, hclass, hslash]

/-- Text without special characters stands for itself. -/
theorem parse_plain {cs rest : Path} (h : ∀ c ∈ cs, special c = false) :
    parse .text (cs ++ rest) = (parse .text rest).map (cs.map Term.lit ++ ·) := by
  induction cs with
  | nil => simp
  | cons c cs ih =>
      rw [List.cons_append, parse_cons_some (step_text (h c List.mem_cons_self)),
        ih fun x hx => h x (List.mem_cons_of_mem _ hx), Option.map_map]
      rfl

/-- Whether the reader is inside a class. -/
def Mode.inClass : Mode → Bool
  | .text => false
  | .escape => false
  | _ => true

theorem rangeStep_inClass {negated : Bool} {ranges : List (Char × Char)} {c : Char}
    (hc : c ≠ ']') {p : Option Term × Mode} (h : rangeStep negated ranges c = some p) :
    p.2.inClass = true := by
  unfold rangeStep at h
  rw [if_neg (fun h => hc h.1)] at h
  split at h
  · cases h
  · split at h
    · obtain rfl := Option.some.inj h
      rfl
    · obtain rfl := Option.some.inj h
      rfl

/-- Only its bracket closes a class. -/
theorem step_inClass {m : Mode} (hm : m.inClass = true) {c : Char} (hc : c ≠ ']')
    {p : Option Term × Mode} (h : m.step c = some p) : p.2.inClass = true := by
  cases m with
  | text => cases hm
  | escape => cases hm
  | opened =>
      rw [Mode.step] at h
      split at h
      · obtain rfl := Option.some.inj h
        rfl
      · exact rangeStep_inClass hc h
  | range negated ranges => exact rangeStep_inClass hc h
  | lowEscape negated ranges =>
      obtain rfl := Option.some.inj h
      rfl
  | low negated ranges lo =>
      rw [Mode.step] at h
      split at h
      · obtain rfl := Option.some.inj h
        rfl
      · exact rangeStep_inClass hc h
  | high negated ranges lo =>
      rw [Mode.step] at h
      split at h
      · cases h
      · split at h
        · obtain rfl := Option.some.inj h
          rfl
        · obtain rfl := Option.some.inj h
          rfl
  | highEscape negated ranges lo =>
      obtain rfl := Option.some.inj h
      rfl

/-- A class that is never closed makes a pattern malformed. -/
theorem parse_inClass {m : Mode} (hm : m.inClass = true) {cs : Path} (hcs : ']' ∉ cs) :
    parse m cs = none := by
  induction cs generalizing m with
  | nil =>
      have hne : m ≠ .text := fun h => by rw [h] at hm; cases hm
      simp [parse, hne]
  | cons c cs ih =>
      rw [List.mem_cons, not_or] at hcs
      rw [parse]
      cases hstep : m.step c with
      | none => rfl
      | some p =>
          dsimp only
          rw [ih (step_inClass hm (Ne.symm hcs.1) hstep) hcs.2]
          rfl

/-- The term of a character outside classes. -/
def plainTerm (c : Char) : Term :=
  if c = '*' then .anySeq else if c = '?' then .anyChar else .lit c

/-- In plain text, only the start of a class and a backslash complete no term. -/
theorem step_text_some {c : Char} {t : Term} {m : Mode} (h : Mode.text.step c = some (some t, m)) :
    t = plainTerm c ∧ m = .text ∧ c ≠ '[' ∧ c ≠ '\\' := by
  rw [Mode.step] at h
  unfold plainTerm
  by_cases hstar : c = '*'
  · rw [if_pos hstar] at h ⊢
    obtain ⟨ht, rfl⟩ := Prod.mk.inj (Option.some.inj h)
    exact ⟨(Option.some.inj ht).symm, rfl, by rw [hstar]; decide, by rw [hstar]; decide⟩
  · rw [if_neg hstar] at h ⊢
    by_cases hone : c = '?'
    · rw [if_pos hone] at h ⊢
      obtain ⟨ht, rfl⟩ := Prod.mk.inj (Option.some.inj h)
      exact ⟨(Option.some.inj ht).symm, rfl, by rw [hone]; decide, by rw [hone]; decide⟩
    · rw [if_neg hone] at h ⊢
      by_cases hslash : c = '\\'
      · rw [if_pos hslash] at h
        cases h
      · rw [if_neg hslash] at h
        by_cases hclass : c = '['
        · rw [if_pos hclass] at h
          cases h
        · rw [if_neg hclass] at h
          obtain ⟨ht, rfl⟩ := Prod.mk.inj (Option.some.inj h)
          exact ⟨(Option.some.inj ht).symm, rfl, hclass, hslash⟩

/-- What a part of a pattern is read as: as many terms as it has characters only if each character
is a term of its own. -/
def Reads (cs : Path) (ts : List Term) : Prop :=
  ts.length = cs.length → ts = cs.map plainTerm ∧ '[' ∉ cs ∧ '\\' ∉ cs

/-- **A pattern in two parts**, where the second starts with a plain character and closes no
class: the first part is read on its own. -/
theorem parse_split {m : Mode} {cs rest : Path} {c : Char} {ts : List Term}
    (hplain : special c = false) (hopen : ']' ∉ c :: rest)
    (h : parse m (cs ++ c :: rest) = some ts) :
    ∃ ts₁ ts₂, ts = ts₁ ++ .lit c :: ts₂ ∧ parse .text rest = some ts₂ ∧
      ts₁.length ≤ cs.length ∧ (m = .text → Reads cs ts₁) := by
  induction cs generalizing m ts with
  | nil =>
      rw [List.nil_append] at h
      have hout : m.inClass = false := by
        by_contra hin
        rw [parse_inClass (by simpa using hin) hopen] at h
        cases h
      have hstep : m.step c = some (some (.lit c), .text) := by
        cases m with
        | text => exact step_text hplain
        | escape => rfl
        | _ => cases hout
      rw [parse_cons_some hstep] at h
      obtain ⟨ts₂, hrest, rfl⟩ := Option.map_eq_some_iff.mp h
      exact ⟨[], ts₂, rfl, hrest, Nat.le_refl _, fun _ _ => ⟨rfl, by simp, by simp⟩⟩
  | cons x cs ih =>
      rw [List.cons_append, parse] at h
      cases hstep : m.step x with
      | none => rw [hstep] at h; cases h
      | some p =>
          obtain ⟨t, m'⟩ := p
          rw [hstep] at h
          obtain ⟨ts', hts', rfl⟩ := Option.map_eq_some_iff.mp h
          obtain ⟨ts₁, ts₂, rfl, hrest, hle, hreads⟩ := ih hts'
          have ht : t.toList.length ≤ 1 := by cases t <;> simp
          refine ⟨t.toList ++ ts₁, ts₂, (List.append_assoc _ _ _).symm, hrest, ?_, fun hm => ?_⟩
          · rw [List.length_append, List.length_cons]
            omega
          · subst hm
            intro hlen
            rw [List.length_append, List.length_cons] at hlen
            -- every character must complete a term, so none opens a class or escapes
            have hone : t.toList.length = 1 := by omega
            obtain ⟨u, rfl⟩ : ∃ u, t = some u := by
              cases t with
              | none => cases hone
              | some u => exact ⟨u, rfl⟩
            obtain ⟨rfl, hm', hclass, hslash⟩ := step_text_some hstep
            obtain ⟨heq, hno, hno'⟩ := hreads hm' (by omega)
            refine ⟨by rw [heq]; rfl, ?_, ?_⟩
            · rw [List.mem_cons, not_or]
              exact ⟨Ne.symm hclass, hno⟩
            · rw [List.mem_cons, not_or]
              exact ⟨Ne.symm hslash, hno'⟩

/-- **A name with special characters that matches itself matches another name too.** -/
theorem exists_other_match {cs : Path} {ts : List Term} (hreads : Reads cs ts)
    (hspecial : ∃ c ∈ cs, special c = true) (h : matchTerms ts cs = true) :
    ∃ s, s ≠ cs ∧ matchTerms ts s = true := by
  by_cases hseq : .anySeq ∈ ts
  · -- `*` can take one more character
    obtain ⟨as, bs, rfl⟩ := List.append_of_mem hseq
    obtain ⟨x, y, rfl, hx, hy⟩ := matchTerms_append.mp h
    obtain ⟨u, v, rfl, hu, hv⟩ := skipThen_iff.mp hy
    refine ⟨x ++ ('a' :: u ++ v), fun heq => ?_, matchTerms_append.mpr
      ⟨x, 'a' :: u ++ v, rfl, hx, skipThen_iff.mpr ⟨'a' :: u, v, rfl, ?_, hv⟩⟩⟩
    · have := congrArg List.length heq
      simp at this
    · intro c hc
      rcases List.mem_cons.mp hc with rfl | hc
      · decide
      · exact hu c hc
  · -- every term is one character, so the special ones are `?`
    obtain ⟨heq, hclass, hslash⟩ := hreads (length_of_matchTerms hseq h).symm
    obtain ⟨c, hc, hs⟩ := hspecial
    have hone : c = '?' := by
      have hstar : c ≠ '*' := by
        rintro rfl
        exact hseq (heq ▸ List.mem_map.mpr ⟨'*', hc, rfl⟩)
      simp only [special, Bool.or_eq_true, decide_eq_true_eq] at hs
      rcases hs with ((h | h) | h) | h
      · exact absurd h hstar
      · exact h
      · exact absurd (h ▸ hc) hclass
      · exact absurd (h ▸ hc) hslash
    subst hone
    obtain ⟨as, bs, rfl⟩ := List.append_of_mem hc
    rw [heq, List.map_append, List.map_cons] at h ⊢
    obtain ⟨x, y, hxy, hx, hy⟩ := matchTerms_append.mp h
    obtain ⟨z, zs, rfl, hz, hzs⟩ := (matchTerms_one (by decide)).mp hy
    by_cases hza : z = 'a'
    · refine ⟨x ++ 'b' :: zs, fun hne => ?_, matchTerms_append.mpr ⟨x, 'b' :: zs, rfl, hx,
        (matchTerms_one (by decide)).mpr ⟨'b', zs, rfl, by decide, hzs⟩⟩⟩
      have := List.append_cancel_left (hne.trans hxy)
      rw [hza] at this
      exact absurd (List.cons.inj this).1 (by decide)
    · refine ⟨x ++ 'a' :: zs, fun hne => ?_, matchTerms_append.mpr ⟨x, 'a' :: zs, rfl, hx,
        (matchTerms_one (by decide)).mpr ⟨'a', zs, rfl, by decide, hzs⟩⟩⟩
      exact hza (List.cons.inj (List.append_cancel_left (hne.trans hxy))).1.symm

end HyphaDB.Glob
