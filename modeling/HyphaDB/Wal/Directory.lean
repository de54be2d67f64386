import HyphaDB.Lib.Glob
import HyphaDB.Lib.MachineInt
import Mathlib.Data.List.Induction
import Mathlib.Data.List.Sort

/-!
# HyphaDB.Wal.Directory

**Finding the segments of a directory.** `NewSegmentInDir` and `RemoveSegmentInDir` go by the
literal path of a segment; `ListSegmentsInDir` goes by a file name pattern that starts with
the directory's path, and reads the identifiers back out of the names it finds.

The two agree when the path has no character that is special in a pattern. Every other path
is either not matched by its own pattern, or it shares the pattern with another directory
(`listSegments_exact_iff`).

Of the file system only the names of the files matter here. `filepath.Join` is taken to put a
separator between its arguments, and `filepath.Glob` to read its whole argument as a pattern; a
class with a separator in it, which the library rejects, finds no file here.
-/

namespace HyphaDB.Wal

open Glob

/-- `filepath.Join` of a directory and a name. -/
def joinPath (dir name : Path) : Path := dir ++ separator :: name

def namePre : Path := "wal-".toList
def nameExt : Path := ".log".toList

def segmentPathInDir (dir : Path) (id : UInt64) : Path :=
  joinPath dir (namePre ++ Nat.toDigits 10 id.toNat ++ nameExt)

/-- A file of the listing. -/
structure SegmentFile where
  id : UInt64
  path : Path
  deriving Repr, DecidableEq

/-! ### Creating and removing -/

inductive DirCall
  | newSegment (id : UInt64)
  | removeSegment (id : UInt64)
  deriving Repr, DecidableEq

/-- The files behind a call: opening a segment creates its file if there is none, and a
removal of a missing file does nothing. -/
def DirCall.apply (dir : Path) (files : List Path) : DirCall → List Path
  | newSegment id => files.insert (segmentPathInDir dir id)
  | removeSegment id => files.erase (segmentPathInDir dir id)

def runCalls (dir : Path) (files : List Path) (calls : List DirCall) : List Path :=
  calls.foldl (DirCall.apply dir) files

/-- The identifiers created and not removed, behind a call. -/
def DirCall.mark (ids : UInt64 → Bool) : DirCall → UInt64 → Bool
  | newSegment id => Function.update ids id true
  | removeSegment id => Function.update ids id false

/-- The identifiers created and not removed. -/
def created (calls : List DirCall) : UInt64 → Bool := calls.foldl DirCall.mark fun _ => false

/-! ### Listing -/

/-- `filepath.Base`: what is behind the last separator. -/
def base (path : Path) : Path := (path.reverse.takeWhile (· ≠ separator)).reverse

/-- `strconv.ParseUint` with base 10 and 64 bits. -/
def parseUint (s : Path) : Option UInt64 :=
  if s = [] then none
  else
    (s.foldlM
      (fun (n : Nat) (c : Char) =>
        if c.isDigit then
          let m := 10 * n + (c.toNat - '0'.toNat)
          if m < 2 ^ 64 then some m else none
        else none)
      0).map UInt64.ofNat

/-- `parseSegmentID`. -/
def parseSegmentID (path : Path) : Option UInt64 :=
  let name := base path
  if !(namePre.isPrefixOf name && nameExt.isSuffixOf name) then none
  else
    let rest := name.drop namePre.length
    parseUint (if nameExt.isSuffixOf rest then rest.take (rest.length - nameExt.length) else rest)

/-- `ListSegmentsInDir`; no answer stands for the error of a malformed pattern. -/
def listSegmentsInDir (files : List Path) (dir : Path) : Option (List SegmentFile) :=
  (glob (joinPath dir "wal-*.log".toList) files).map fun matched =>
    (matched.filterMap fun path => (parseSegmentID path).map (⟨·, path⟩)).insertionSort
      fun a b => a.id ≤ b.id

/-! ### Names -/

theorem digits_no_separator {n : Nat} {c : Char} (hc : c ∈ Nat.toDigits 10 n) : c ≠ separator := by
  have hdigit := Nat.isDigit_of_mem_toDigits (by decide) (by decide) hc
  rintro rfl
  exact absurd hdigit (by decide)

theorem base_joinPath {dir name : Path} (h : separator ∉ name) :
    base (joinPath dir name) = name := by
  have hall : ∀ c ∈ name.reverse, (decide (c ≠ separator)) = true := by
    intro c hc
    simp only [decide_eq_true_eq]
    rintro rfl
    exact h (List.mem_reverse.mp hc)
  unfold base joinPath
  rw [List.reverse_append, List.reverse_cons, List.append_assoc,
    List.takeWhile_append_of_pos hall]
  simp

theorem joinPath_inj {dir dir' name name' : Path} (h : separator ∉ name) (h' : separator ∉ name')
    (heq : joinPath dir name = joinPath dir' name') : dir = dir' ∧ name = name' := by
  have hname : name = name' := by
    rw [← base_joinPath h, heq, base_joinPath h']
  subst hname
  exact ⟨List.append_cancel_right heq, rfl⟩

theorem le_ofDigitChars (s : Path) (n : Nat) : n ≤ Nat.ofDigitChars 10 s n := by
  induction s generalizing n with
  | nil => exact Nat.le_refl _
  | cons c s ih =>
      rw [Nat.ofDigitChars_cons]
      exact Nat.le_trans (by omega) (ih _)

/-- A parse of digits that fit goes through them. -/
theorem parseUint_digits {s : Path} (hs : s ≠ []) (hdigits : ∀ c ∈ s, c.isDigit = true)
    (hfit : Nat.ofDigitChars 10 s 0 < 2 ^ 64) :
    parseUint s = some (UInt64.ofNat (Nat.ofDigitChars 10 s 0)) := by
  unfold parseUint
  rw [if_neg hs]
  dsimp only
  clear hs
  suffices h : ∀ n, Nat.ofDigitChars 10 s n < 2 ^ 64 →
      s.foldlM (fun (n : Nat) (c : Char) => if c.isDigit then
        if 10 * n + (c.toNat - '0'.toNat) < 2 ^ 64 then some (10 * n + (c.toNat - '0'.toNat))
        else none
      else none) n = some (Nat.ofDigitChars 10 s n) by
    rw [h 0 hfit]
    rfl
  clear hfit
  induction s with
  | nil => exact fun n _ => rfl
  | cons c s ih =>
      intro n hn
      rw [Nat.ofDigitChars_cons] at hn ⊢
      have hlt := Nat.lt_of_le_of_lt (le_ofDigitChars s _) hn
      rw [List.foldlM_cons, if_pos (hdigits c List.mem_cons_self), if_pos hlt]
      exact ih (fun x hx => hdigits x (List.mem_cons_of_mem _ hx)) _ hn

/-- The name of a segment between its first and last characters. -/
def nameOf (mid : Path) : Path := namePre ++ mid ++ nameExt

theorem nameOf_no_separator {mid : Path} (h : ∀ c ∈ mid, c ≠ separator) :
    separator ∉ nameOf mid := by
  intro hc
  rcases List.mem_append.mp hc with hc | hc
  · rcases List.mem_append.mp hc with hc | hc
    · exact absurd hc (by decide)
    · exact h _ hc rfl
  · exact absurd hc (by decide)

theorem parseSegmentID_nameOf {dir mid : Path} (h : ∀ c ∈ mid, c ≠ separator) :
    parseSegmentID (joinPath dir (nameOf mid)) = parseUint mid := by
  have hpre : namePre.isPrefixOf (nameOf mid) = true :=
    List.isPrefixOf_iff_prefix.mpr ⟨mid ++ nameExt, (List.append_assoc _ _ _).symm⟩
  have hext : nameExt.isSuffixOf (nameOf mid) = true := by
    rw [List.isSuffixOf_iff_suffix]
    exact ⟨namePre ++ mid, rfl⟩
  have hdrop : (nameOf mid).drop namePre.length = mid ++ nameExt := by
    unfold nameOf
    rw [List.append_assoc, List.drop_left]
  have hext' : nameExt.isSuffixOf (mid ++ nameExt) = true := by
    rw [List.isSuffixOf_iff_suffix]
    exact ⟨mid, rfl⟩
  unfold parseSegmentID
  dsimp only
  rw [base_joinPath (nameOf_no_separator h), hpre, hext, hdrop, if_neg (by simp), if_pos hext',
    List.length_append, Nat.add_sub_cancel, List.take_left]

/-- **The parse inverts the formatter** on all identifiers. -/
theorem parseSegmentID_segmentPath (dir : Path) (id : UInt64) :
    parseSegmentID (segmentPathInDir dir id) = some id := by
  have hdigits : ∀ c ∈ Nat.toDigits 10 id.toNat, c.isDigit = true :=
    fun c hc => Nat.isDigit_of_mem_toDigits (by decide) (by decide) hc
  have hof : Nat.ofDigitChars 10 (Nat.toDigits 10 id.toNat) 0 = id.toNat :=
    Nat.ofDigitChars_ten_toDigits
  have hparse := @parseSegmentID_nameOf dir (Nat.toDigits 10 id.toNat) fun c hc =>
    digits_no_separator hc
  refine hparse.trans ?_
  rw [parseUint_digits Nat.toDigits_ne_nil hdigits (by rw [hof]; exact id.toNat_lt), hof,
    UInt64.ofNat_toNat]

theorem segmentPathInDir_inj {dir : Path} {id id' : UInt64}
    (h : segmentPathInDir dir id = segmentPathInDir dir id') : id = id' := by
  have hparse := congrArg parseSegmentID h
  rw [parseSegmentID_segmentPath, parseSegmentID_segmentPath] at hparse
  exact Option.some.inj hparse

/-- A file of the directory that is named like a segment. -/
def NamesSegment (dir path : Path) : Prop :=
  ∃ mid, (∀ c ∈ mid, c ≠ separator) ∧ path = joinPath dir (nameOf mid)

theorem namesSegment_segmentPath (dir : Path) (id : UInt64) :
    NamesSegment dir (segmentPathInDir dir id) :=
  ⟨_, fun _ hc => digits_no_separator hc, rfl⟩

/-! ### The files behind a run -/

/-- **What a run leaves.** The files named like segments are those of the identifiers created
and not removed; no other file is touched. -/
theorem mem_runCalls {dir : Path} {others : List Path} (hnodup : others.Nodup)
    (hothers : ∀ p ∈ others, ¬ NamesSegment dir p) (calls : List DirCall) :
    (runCalls dir others calls).Nodup ∧ ∀ p, p ∈ runCalls dir others calls ↔
      p ∈ others ∨ ∃ id, created calls id = true ∧ p = segmentPathInDir dir id := by
  -- along the run, from its end
  induction calls using List.reverseRecOn with
  | nil => exact ⟨hnodup, fun p => by simp [runCalls, created]⟩
  | append_singleton calls call ih =>
      obtain ⟨hnd, hmem⟩ := ih
      have hrun : runCalls dir others (calls ++ [call]) =
          call.apply dir (runCalls dir others calls) := List.foldl_append
      have hcreated : created (calls ++ [call]) = call.mark (created calls) := List.foldl_append
      rw [hrun, hcreated]
      cases call with
      | newSegment id =>
          refine ⟨hnd.insert, fun p => ?_⟩
          rw [DirCall.apply, List.mem_insert_iff, hmem]
          constructor
          · intro h
            rcases h with rfl | h | ⟨id', hid, rfl⟩
            · exact Or.inr ⟨id, Function.update_self _ _ _, rfl⟩
            · exact Or.inl h
            · refine Or.inr ⟨id', ?_, rfl⟩
              by_cases heq : id' = id
              · rw [heq]
                exact Function.update_self _ _ _
              · exact (Function.update_of_ne heq _ _).trans hid
          · intro h
            rcases h with h | ⟨id', hid, rfl⟩
            · exact Or.inr (Or.inl h)
            · by_cases heq : id' = id
              · exact Or.inl (by rw [heq])
              · exact Or.inr (Or.inr ⟨id', (Function.update_of_ne heq _ _).symm.trans hid, rfl⟩)
      | removeSegment id =>
          refine ⟨hnd.erase _, fun p => ?_⟩
          rw [DirCall.apply, hnd.mem_erase_iff, hmem]
          constructor
          · intro h
            obtain ⟨hne, h | ⟨id', hid, rfl⟩⟩ := h
            · exact Or.inl h
            · have heq : id' ≠ id := fun heq => hne (by rw [heq])
              exact Or.inr ⟨id', (Function.update_of_ne heq _ _).trans hid, rfl⟩
          · intro h
            rcases h with h | ⟨id', hid, rfl⟩
            · refine ⟨?_, Or.inl h⟩
              rintro rfl
              exact hothers _ h (namesSegment_segmentPath dir id)
            · by_cases heq : id' = id
              · rw [heq, DirCall.mark, Function.update_self] at hid
                cases hid
              · exact ⟨fun hp => heq (segmentPathInDir_inj hp),
                  Or.inr ⟨id', (Function.update_of_ne heq _ _).symm.trans hid, rfl⟩⟩

/-! ### The listing -/

/-- The terms behind the directory. -/
def nameTerms : List Term := namePre.map .lit ++ .anySeq :: nameExt.map .lit

theorem parse_name : parse .text "wal-*.log".toList = some nameTerms := by decide

theorem matchTerms_name {s : Path} : matchTerms nameTerms s = true ↔
    ∃ mid, (∀ c ∈ mid, c ≠ separator) ∧ s = nameOf mid := by
  unfold nameTerms
  rw [matchTerms_append]
  constructor
  · intro h
    obtain ⟨x, y, rfl, hx, hy⟩ := h
    obtain ⟨mid, z, rfl, hmid, hz⟩ := skipThen_iff.mp hy
    refine ⟨mid, hmid, ?_⟩
    rw [matchTerms_lits.mp hx, matchTerms_lits.mp hz]
    exact (List.append_assoc _ _ _).symm
  · intro h
    obtain ⟨mid, hmid, rfl⟩ := h
    exact ⟨namePre, mid ++ nameExt, List.append_assoc _ _ _, matchTerms_lits.mpr rfl,
      skipThen_iff.mpr ⟨mid, nameExt, rfl, hmid, matchTerms_lits.mpr rfl⟩⟩

theorem special_separator : special separator = false := by decide

/-- A path without special characters is matched as it is. -/
theorem glob_plain {dir : Path} (hdir : ∀ c ∈ dir, special c = false) :
    ∃ ts, parse .text (joinPath dir "wal-*.log".toList) = some ts ∧
      ∀ p, matchTerms ts p = true ↔ NamesSegment dir p := by
  have hplain : ∀ c ∈ dir ++ [separator], special c = false := by
    intro c hc
    rcases List.mem_append.mp hc with hc | hc
    · exact hdir c hc
    · rw [List.mem_singleton.mp hc]
      exact special_separator
  refine ⟨(dir ++ [separator]).map .lit ++ nameTerms, ?_, fun p => ?_⟩
  · rw [show joinPath dir "wal-*.log".toList = (dir ++ [separator]) ++ "wal-*.log".toList by
      simp [joinPath], parse_plain hplain, parse_name]
    rfl
  · rw [matchTerms_append]
    constructor
    · intro h
      obtain ⟨x, y, rfl, hx, hy⟩ := h
      obtain ⟨mid, hmid, rfl⟩ := matchTerms_name.mp hy
      refine ⟨mid, hmid, ?_⟩
      rw [matchTerms_lits.mp hx]
      simp [joinPath]
    · intro h
      obtain ⟨mid, hmid, rfl⟩ := h
      exact ⟨dir ++ [separator], nameOf mid, by simp [joinPath], matchTerms_lits.mpr rfl,
        matchTerms_name.mpr ⟨mid, hmid, rfl⟩⟩

/-- The members of a listing. -/
theorem mem_listSegments {files : List Path} {dir : Path} {ts : List Term} {segs : List SegmentFile}
    (hts : parse .text (joinPath dir "wal-*.log".toList) = some ts)
    (h : listSegmentsInDir files dir = some segs) {seg : SegmentFile} :
    seg ∈ segs ↔ seg.path ∈ files ∧ matchTerms ts seg.path = true ∧
      parseSegmentID seg.path = some seg.id := by
  unfold listSegmentsInDir glob at h
  rw [hts] at h
  obtain rfl := Option.some.inj h
  rw [(List.perm_insertionSort _ _).mem_iff, List.mem_filterMap]
  constructor
  · intro h
    obtain ⟨p, hp, hseg⟩ := h
    obtain ⟨id, hid, rfl⟩ := Option.map_eq_some_iff.mp hseg
    obtain ⟨hmem, hmatch⟩ := List.mem_filter.mp hp
    exact ⟨hmem, hmatch, hid⟩
  · intro h
    obtain ⟨hmem, hmatch, hid⟩ := h
    exact ⟨seg.path, List.mem_filter.mpr ⟨hmem, hmatch⟩, by rw [hid]; rfl⟩

theorem map_path_filterMap (paths : List Path) :
    ((paths.filterMap fun path => (parseSegmentID path).map (SegmentFile.mk · path)).map
      SegmentFile.path) = paths.filter fun path => (parseSegmentID path).isSome := by
  induction paths with
  | nil => rfl
  | cons p paths ih =>
      cases hp : parseSegmentID p with
      | none =>
          rw [List.filterMap_cons_none (by rw [hp]; rfl),
            List.filter_cons_of_neg (by simp [hp]), ih]
      | some id =>
          rw [List.filterMap_cons_some (b := ⟨id, p⟩) (by rw [hp]; rfl), List.map_cons,
            List.filter_cons_of_pos (by simp [hp]), ih]

/-- A listing is sorted, and names no file twice. -/
theorem listSegments_sorted {files : List Path} {dir : Path} {segs : List SegmentFile}
    (h : listSegmentsInDir files dir = some segs) (hnodup : files.Nodup) :
    segs.Pairwise (fun a b => a.id ≤ b.id) ∧ (segs.map SegmentFile.path).Nodup := by
  unfold listSegmentsInDir at h
  obtain ⟨matched, hmatched, rfl⟩ := Option.map_eq_some_iff.mp h
  obtain ⟨ts, -, rfl⟩ := Option.map_eq_some_iff.mp hmatched
  have htotal : Std.Total (fun a b : SegmentFile => a.id ≤ b.id) := ⟨fun a b => le_total a.id b.id⟩
  have htrans : IsTrans SegmentFile (fun a b => a.id ≤ b.id) :=
    ⟨fun a b c hab hbc => le_trans hab hbc⟩
  refine ⟨List.pairwise_insertionSort _ _, ?_⟩
  rw [((List.perm_insertionSort _ _).map SegmentFile.path).nodup_iff, map_path_filterMap]
  exact (hnodup.filter _).filter _

/-- The listing of a run is the created segments, by ascending identifier. -/
def ListsExactly (dir : Path) (others : List Path) (calls : List DirCall) : Prop :=
  ∃ segs, listSegmentsInDir (runCalls dir others calls) dir = some segs ∧
    segs.Pairwise (fun a b => a.id < b.id) ∧
    ∀ seg : SegmentFile, seg ∈ segs ↔
      created calls seg.id = true ∧ seg.path = segmentPathInDir dir seg.id

theorem listsExactly_of_plain {dir : Path} (hdir : ∀ c ∈ dir, special c = false)
    {others : List Path} (hnodup : others.Nodup) (hothers : ∀ p ∈ others, ¬ NamesSegment dir p)
    (calls : List DirCall) : ListsExactly dir others calls := by
  obtain ⟨ts, hts, hmatch⟩ := glob_plain hdir
  obtain ⟨hnd, hfiles⟩ := mem_runCalls hnodup hothers calls
  obtain ⟨segs, hsegs⟩ : ∃ segs, listSegmentsInDir (runCalls dir others calls) dir = some segs := by
    unfold listSegmentsInDir glob
    rw [hts]
    exact ⟨_, rfl⟩
  obtain ⟨hsorted, hpaths⟩ := listSegments_sorted hsegs hnd
  have hmem : ∀ seg : SegmentFile, seg ∈ segs ↔
      created calls seg.id = true ∧ seg.path = segmentPathInDir dir seg.id := by
    intro seg
    rw [mem_listSegments hts hsegs, hfiles, hmatch]
    constructor
    · intro h
      obtain ⟨hin, hnames, hparse⟩ := h
      rcases hin with hin | ⟨id, hid, hpath⟩
      · exact absurd hnames (hothers _ hin)
      · rw [hpath, parseSegmentID_segmentPath] at hparse
        rw [← Option.some.inj hparse]
        exact ⟨hid, hpath⟩
    · intro h
      rw [h.2]
      exact ⟨Or.inr ⟨_, h.1, rfl⟩, namesSegment_segmentPath _ _, parseSegmentID_segmentPath _ _⟩
  refine ⟨segs, hsegs, ?_, hmem⟩
  -- no identifier occurs twice, since no path does
  have hne : segs.Pairwise (fun a b => a.path ≠ b.path) := List.pairwise_map.mp hpaths
  refine (List.Pairwise.and hsorted hne).imp_of_mem fun ha hb hab => ?_
  refine lt_of_le_of_ne hab.1 fun heq => hab.2 ?_
  rw [((hmem _).mp ha).2, ((hmem _).mp hb).2, heq]

/-- What is behind the last separator of a matched path matches the name, and what is before it
the directory. -/
theorem matchTerms_split {ts : List Term} {dir name : Path} (hname : separator ∉ name) :
    matchTerms (ts ++ .lit separator :: nameTerms) (joinPath dir name) = true ↔
      matchTerms ts dir = true ∧ matchTerms nameTerms name = true := by
  rw [matchTerms_append]
  constructor
  · intro h
    obtain ⟨x, y, heq, hx, hy⟩ := h
    obtain ⟨c, y, rfl, hc, hy⟩ := (matchTerms_one (by simp)).mp hy
    obtain rfl : separator = c := by simpa [Term.accepts] using hc
    obtain ⟨mid, hmid, rfl⟩ := matchTerms_name.mp hy
    obtain ⟨rfl, rfl⟩ := joinPath_inj hname (nameOf_no_separator hmid) heq
    exact ⟨hx, hy⟩
  · intro h
    exact ⟨dir, separator :: name, rfl, h.1,
      (matchTerms_one (by simp)).mpr ⟨separator, name, rfl, by simp [Term.accepts], h.2⟩⟩

/-- **When a directory's segments are found.** The listing is exact after every run of
creations and removals, whatever other files there are, just for the directory paths without
special characters. -/
theorem listSegments_exact_iff (dir : Path) :
    (∀ others, others.Nodup → (∀ p ∈ others, ¬ NamesSegment dir p) →
      ∀ calls, ListsExactly dir others calls) ↔
    ∀ c ∈ dir, special c = false := by
  refine ⟨fun h => ?_, fun hdir others hnodup hothers calls =>
    listsExactly_of_plain hdir hnodup hothers calls⟩
  by_contra hspecial
  have hspecial' : ∃ c ∈ dir, special c = true := by simpa using hspecial
  have hzero : separator ∉ nameOf ['0'] := by decide
  have hpath : ∀ d, segmentPathInDir d 0 = joinPath d (nameOf ['0']) := fun d => rfl
  -- the first segment is found, so the path matches its own pattern
  obtain ⟨segs, hsegs, -, hmem⟩ := h [] List.nodup_nil (by simp) [.newSegment 0]
  obtain ⟨ts, hts⟩ : ∃ ts, parse .text (joinPath dir "wal-*.log".toList) = some ts := by
    unfold listSegmentsInDir glob at hsegs
    cases hp : parse .text (joinPath dir "wal-*.log".toList) with
    | none => rw [hp] at hsegs; cases hsegs
    | some ts => exact ⟨ts, rfl⟩
  have hself := ((mem_listSegments hts hsegs).mp ((hmem ⟨0, segmentPathInDir dir 0⟩).mpr
    ⟨(by decide : created [.newSegment 0] 0 = true), rfl⟩)).2.1
  obtain ⟨ts₁, ts₂, rfl, hts₂, -, hreads⟩ := parse_split special_separator (by decide) hts
  obtain rfl := Option.some.inj (parse_name.symm.trans hts₂)
  dsimp only at hself
  rw [hpath, matchTerms_split hzero] at hself
  -- then so does another directory, and its segment is listed too
  obtain ⟨dir', hne, hmatch⟩ := exists_other_match (hreads rfl) hspecial' hself.1
  have hother : ¬ NamesSegment dir (segmentPathInDir dir' 0) := by
    rintro ⟨mid, hmid, heq⟩
    rw [hpath] at heq
    exact hne (joinPath_inj hzero (nameOf_no_separator hmid) heq).1
  obtain ⟨segs', hsegs', -, hmem'⟩ := h [segmentPathInDir dir' 0] (List.nodup_singleton _)
    (fun p hp => List.mem_singleton.mp hp ▸ hother) []
  have hlisted : (⟨0, segmentPathInDir dir' 0⟩ : SegmentFile) ∈ segs' := by
    refine (mem_listSegments hts hsegs').mpr ⟨List.mem_singleton.mpr rfl, ?_,
      parseSegmentID_segmentPath _ _⟩
    dsimp only
    rw [hpath]
    exact (matchTerms_split hzero).mpr ⟨hmatch, hself.2⟩
  exact absurd ((hmem' _).mp hlisted).1 (by simp [created])

/-- A directory with a plain path. -/
theorem listSegments_exact_iff_plain :
    ListsExactly "data".toList ["data/MANIFEST".toList]
      [.newSegment 9, .newSegment 10, .removeSegment 9, .newSegment 2] := by
  refine (listSegments_exact_iff "data".toList).mpr (by simp [special]) ["data/MANIFEST".toList]
    (List.nodup_singleton _) (fun p hp => ?_) _
  rintro ⟨mid, -, heq⟩
  rw [List.mem_singleton.mp hp] at heq
  have hchar : some 'M' = some 'w' := congrArg (fun s : Path => s[5]?) heq
  exact absurd hchar (by decide)

/-- A directory whose path holds a character class: its segment is not found. -/
theorem listSegments_bracket :
    listSegmentsInDir (runCalls "db[1]".toList [] [.newSegment 0]) "db[1]".toList = some [] := by
  decide

end HyphaDB.Wal
