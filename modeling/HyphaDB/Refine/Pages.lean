import HyphaDB.Engine.Service
import HyphaDB.Lib.Paging
import HyphaDB.Refine.Scan

/-!
# HyphaDB.Refine.Pages

**Paginated scans.** A page of `Service.Scan` is a page of the entries in the request's range
(`scan_first`, `scan_next`), so a client that follows the tokens reads the range as
`Paging.pages` does, as long as the tokens say what they should.

They do not when a page ends with the empty key: its token is the empty token, and the client
takes it for the end. The empty key comes first of all, so this happens to the first page
only, and only if it has room for one entry (`stopsAtEmptyKey`).
-/

namespace HyphaDB.Refine

open Store Versions Merge Compaction

/-! ### Databases that serve scans -/

/-- An open database with these limits, whose sources are sorted, agree with each other, and
hold admitted keys and sequence numbers that were given out. -/
structure Serving (limits : Limits) (s : Sys) : Prop where
  isOpen : s.db.closed = false
  limits_eq : s.db.limits = limits
  tables : TablesInOrder s
  consistent : Consistent (held s)
  keys : ∀ r ∈ held s, r.key.length ≤ limits.maxKeyBytes
  seqs : ∀ r ∈ held s, r.seq ≤ s.db.currentSequence

/-- The key with its value. -/
def entryOf (r : Record) : ScanEntry := (r.key, r.value)

section Serving

variable {limits : Limits} {s : Sys} (hs : Serving limits s)

include hs

/-- A read at the current sequence is a `Get`. -/
theorem Serving.get_eq {k : Key} (hk : k.length ≤ limits.maxKeyBytes) :
    get s k = getAt s k s.db.currentSequence := by
  rw [get_eq_getAt hs.isOpen (by rw [hs.limits_eq]; exact hk)]
  obtain ⟨o, hfind, ho⟩ := hs.tables.findAt k newest
  obtain ⟨o', hfind', ho'⟩ := hs.tables.findAt k s.db.currentSequence
  have heq : o = o' :=
    ReadsAt.unique hs.consistent ho (ho'.raise hs.seqs (le_newest _))
  unfold getAt
  rw [hfind, hfind', heq]

/-- A value is only found under an admitted key. -/
theorem Serving.key_le {k : Key} {v : Bytes} (h : getAt s k s.db.currentSequence = .ok v) :
    k.length ≤ limits.maxKeyBytes := by
  obtain ⟨o, hfind, ho⟩ := hs.tables.findAt k s.db.currentSequence
  unfold getAt at h
  rw [hfind] at h
  cases o with
  | none => cases h
  | some r =>
      have hkey : r.key = k := ho.key_eq
      rw [← hkey]
      exact hs.keys r ho.mem

/-- **What a range holds**: the entries of an iterator over it. -/
theorem Serving.entries {opts : IteratorOptions} (hstart : opts.start.length ≤ limits.maxKeyBytes)
    (hstop : opts.stop.length ≤ limits.maxKeyBytes) :
    ∃ it, openIterator s opts = .ok it ∧ Paging.Ascending (it.output.map entryOf) ∧
      ∀ e : ScanEntry, e ∈ it.output.map entryOf ↔
        (opts.start ≤ e.1 ∧ (opts.stop = [] ∨ e.1 < opts.stop)) ∧ get s e.1 = .ok e.2 := by
  obtain ⟨it, hit, -, -, -, hasc, hmem⟩ :=
    hs.tables.scan_getAt hs.consistent opts s.db.currentSequence
  refine ⟨it, ?_, List.pairwise_map.mpr hasc, fun e => ?_⟩
  · unfold openIterator
    rw [if_neg (by simp [hs.isOpen]), hs.limits_eq, validateKey_eq_ok.mpr hstart,
      validateKey_eq_ok.mpr hstop, hit]
  · obtain ⟨k, v⟩ := e
    have hiff := hmem k v
    rw [List.mem_map]
    constructor
    · intro h
      obtain ⟨r, hr, heq⟩ := h
      obtain ⟨hk, hv⟩ := Prod.mk.inj heq
      obtain ⟨hrange, hget⟩ := hiff.mp ⟨r, hr, hk, hv⟩
      exact ⟨hrange, (hs.get_eq (hs.key_le hget)).trans hget⟩
    · intro h
      have hlen : k.length ≤ limits.maxKeyBytes := by
        by_contra hlong
        have herr : get s k = .error (.keyTooLarge k.length limits.maxKeyBytes) := by
          unfold get Limits.validateKey
          rw [if_neg (by simp [hs.isOpen]), hs.limits_eq, if_pos (not_le.mp hlong)]
        rw [herr] at h
        cases h.2
      obtain ⟨r, hr, hk, hv⟩ := hiff.mpr ⟨h.1, (hs.get_eq hlen).symm.trans h.2⟩
      exact ⟨r, hr, Prod.ext hk hv⟩

end Serving

/-! ### One page -/

/-- The loop over records none of which is left out, without a limit. -/
theorem scanLoop_all {req : ScanRequest} {start : Key} (hlimit : req.limit = 0)
    (hfirst : req.pageToken = []) (entries : List ScanEntry) (recs : List Record) :
    scanLoop req start entries recs = ⟨entries ++ recs.map entryOf, []⟩ := by
  induction recs generalizing entries with
  | nil => simp [scanLoop]
  | cons r recs ih =>
      rw [scanLoop, if_neg (fun h => h.1 hfirst), if_neg (by omega), ih]
      simp [entryOf]

/-- The loop over records none of which is left out: a page. -/
theorem scanLoop_page {req : ScanRequest} {start : Key} {limit : Nat}
    (hlimit : req.limit = limit) {entries : List ScanEntry} {recs : List Record}
    (hroom : entries.length < limit)
    (hkeep : ∀ r ∈ recs, ¬ (req.pageToken ≠ [] ∧ r.key = start)) :
    scanLoop req start entries recs =
      ⟨entries ++ (recs.map entryOf).take (limit - entries.length),
        if limit - entries.length < recs.length then
          encodePageToken ((((recs.map entryOf).take (limit - entries.length)).getLast?.map
            Prod.fst).getD [])
        else []⟩ := by
  induction recs generalizing entries with
  | nil => simp [scanLoop]
  | cons r recs ih =>
      rw [scanLoop, if_neg (hkeep r List.mem_cons_self)]
      dsimp only
      have hlen : (entries ++ [(r.key, r.value)]).length = entries.length + 1 := by simp
      obtain ⟨left, hleft⟩ : ∃ left, limit - entries.length = left + 1 :=
        ⟨limit - entries.length - 1, by omega⟩
      by_cases hfull : entries.length + 1 = limit
      · have hone : left = 0 := by omega
        rw [if_pos (by rw [hlimit, hlen]; omega), hleft, hone]
        cases recs with
        | nil => simp [entryOf]
        | cons x recs => simp [entryOf]
      · rw [if_neg (by rw [hlimit, hlen]; omega), ih (by rw [hlen]; omega)
          fun x hx => hkeep x (List.mem_cons_of_mem _ hx), hlen, hleft]
        obtain ⟨rest, hrest⟩ : ∃ rest, left = rest + 1 := ⟨left - 1, by omega⟩
        have hsub : limit - (entries.length + 1) = rest + 1 := by omega
        rw [hsub, hrest]
        cases recs with
        | nil => simp [entryOf]
        | cons x recs => simp [entryOf, List.getLast?_cons_cons]

/-- The token of the key to go on from. -/
def tokenOf (next : Option Key) : Bytes := (next.map encodePageToken).getD []

/-- A page over records none of which is left out. -/
theorem scanLoop_eq_page {req : ScanRequest} {start : Key} {limit : Nat}
    (hlimit : req.limit = limit) (hpos : 0 < limit) {recs : List Record}
    (hkeep : ∀ r ∈ recs, ¬ (req.pageToken ≠ [] ∧ r.key = start)) :
    scanLoop req start [] recs =
      ⟨(Paging.page limit (recs.map entryOf)).1,
        tokenOf (Paging.page limit (recs.map entryOf)).2⟩ := by
  rw [scanLoop_page hlimit (by simpa using hpos) hkeep]
  unfold Paging.page tokenOf
  simp only [List.nil_append, List.length_nil, Nat.sub_zero, List.length_map]
  by_cases hmore : limit < recs.length
  · have hne : (recs.map entryOf).take limit ≠ [] := by
      intro hnil
      have := congrArg List.length hnil
      rw [List.length_take, List.length_map, List.length_nil] at this
      omega
    rw [if_pos hmore, if_pos hmore, List.getLast?_eq_some_getLast hne]
    rfl
  · rw [if_neg hmore, if_neg hmore]
    rfl

section Page

variable {limits : Limits} {s : Sys} (hs : Serving limits s) {req : ScanRequest}
  (hstart : req.start.length ≤ limits.maxKeyBytes) (hstop : req.stop.length ≤ limits.maxKeyBytes)

include hs hstart hstop

/-- **The entries of the request's range**, as a scan without a limit gives them. -/
theorem scan_unlimited :
    ∃ entries, scan s { req with limit := 0, pageToken := [] } = .ok ⟨entries, []⟩ ∧
    Paging.Ascending entries ∧ ∀ e : ScanEntry, e ∈ entries ↔
      (req.start ≤ e.1 ∧ (req.stop = [] ∨ e.1 < req.stop)) ∧ get s e.1 = .ok e.2 := by
  obtain ⟨it, hit, hasc, hmem⟩ := @Serving.entries _ _ hs ⟨req.start, req.stop⟩ hstart hstop
  refine ⟨it.output.map entryOf, ?_, hasc, hmem⟩
  unfold scan
  dsimp only
  rw [if_neg (by decide), if_neg (by simp)]
  dsimp only
  rw [hit]
  exact congrArg Except.ok (scanLoop_all rfl rfl [] _)

/-- The first page. -/
theorem scan_first {limit : Nat} (hlimit : req.limit = limit) (hpos : 0 < limit)
    {entries : List ScanEntry}
    (hall : scan s { req with limit := 0, pageToken := [] } = .ok ⟨entries, []⟩) :
    scan s { req with pageToken := [] } =
      .ok ⟨(Paging.page limit entries).1, tokenOf (Paging.page limit entries).2⟩ := by
  obtain ⟨it, hit, hasc, hmem⟩ := @Serving.entries _ _ hs ⟨req.start, req.stop⟩ hstart hstop
  unfold scan at hall ⊢
  dsimp only at hall ⊢
  rw [if_neg (by decide), if_neg (by simp)] at hall
  rw [if_neg (by omega), if_neg (by simp)]
  dsimp only at hall ⊢
  rw [hit] at hall ⊢
  have heq := congrArg ScanResponse.entries
    ((scanLoop_all rfl rfl [] it.output).symm.trans (Except.ok.inj hall))
  rw [← show it.output.map entryOf = entries from heq]
  exact congrArg Except.ok
    (@scanLoop_eq_page { req with pageToken := [] } req.start limit hlimit hpos it.output
      fun r _ h => h.1 rfl)

/-- A page behind a key of the range. -/
theorem scan_next {limit : Nat} (hlimit : req.limit = limit) (hpos : 0 < limit)
    {entries : List ScanEntry}
    (hall : scan s { req with limit := 0, pageToken := [] } = .ok ⟨entries, []⟩) {k : Key}
    (hne : k ≠ []) (hk : req.start ≤ k) (hklen : k.length ≤ limits.maxKeyBytes) :
    scan s { req with pageToken := encodePageToken k } =
      .ok ⟨(Paging.page limit (Paging.behind (some k) entries)).1,
        tokenOf (Paging.page limit (Paging.behind (some k) entries)).2⟩ := by
  obtain ⟨entries', hall', hasc, hmem⟩ := scan_unlimited hs hstart hstop
  obtain rfl : entries' = entries := by
    have := Except.ok.inj (hall'.symm.trans hall)
    exact congrArg ScanResponse.entries this
  obtain ⟨it, hit, hasc', hmem'⟩ := @Serving.entries _ _ hs ⟨k, req.stop⟩ hklen hstop
  have htoken : encodePageToken k ≠ [] := fun h => hne (Base64.encode_eq_nil.mp h)
  unfold scan
  dsimp only
  rw [if_neg (by omega), if_pos htoken,
    show decodePageToken (encodePageToken k) = some k from Base64.decode_encode k]
  dsimp only
  rw [hit]
  refine congrArg Except.ok ?_
  -- what is left out is the first record at most
  have hskip : scanLoop { req with pageToken := encodePageToken k } k [] it.output =
      scanLoop { req with pageToken := encodePageToken k } k [] (it.output.filter (k < ·.key)) := by
    cases hout : it.output with
    | nil => rfl
    | cons r recs =>
        have hasc'' : ∀ x ∈ recs, r.key < x.key := by
          rw [hout, List.map_cons] at hasc'
          exact fun x hx => (List.pairwise_cons.mp hasc').1 _ (List.mem_map_of_mem hx)
        have hle : k ≤ r.key := by
          have hin : entryOf r ∈ it.output.map entryOf := by
            rw [hout]
            exact List.mem_cons_self
          exact ((hmem' _).mp hin).1.1
        have hrest : recs.filter (k < ·.key) = recs :=
          List.filter_eq_self.mpr fun x hx => by simpa using lt_of_le_of_lt hle (hasc'' x hx)
        rcases hle.lt_or_eq with hlt | heq
        · rw [List.filter_cons_of_pos (by simpa using hlt), hrest]
        · rw [List.filter_cons_of_neg (by simp [heq]), hrest, scanLoop, if_pos ⟨htoken, heq.symm⟩]
  rw [hskip, @scanLoop_eq_page { req with pageToken := encodePageToken k } k limit hlimit hpos _
    fun r hr h => ?_]
  · have hsame : (it.output.filter (k < ·.key)).map entryOf = Paging.behind (some k) entries' := by
      refine Paging.Ascending.ext ?_ (hasc.behind _) fun e => ?_
      · exact List.Pairwise.sublist (List.filter_sublist.map _) hasc'
      · have hmap : (it.output.filter (k < ·.key)).map entryOf =
            (it.output.map entryOf).filter (k < ·.1) := by
          rw [List.filter_map]
          rfl
        rw [hmap, List.mem_filter, hmem', Paging.mem_behind, hmem]
        constructor
        · intro h
          exact ⟨⟨⟨hk.trans h.1.1.1, h.1.1.2⟩, h.1.2⟩, fun k' hk' =>
            Option.some.inj hk' ▸ by simpa using h.2⟩
        · intro h
          have hlt := h.2 k rfl
          exact ⟨⟨⟨hlt.le, h.1.1.2⟩, h.1.2⟩, by simpa using hlt⟩
    rw [hsame]
  · have hlt : k < r.key := by simpa using (List.mem_filter.mp hr).2
    exact hlt.ne' h.2

end Page

/-! ### All pages -/

/-- The first page of the request holds the empty key alone, and there is more. -/
def stopsAtEmptyKey (s : Sys) (req : ScanRequest) : Bool :=
  match scan s { req with limit := 0, pageToken := [] } with
  | .ok ⟨(k, _) :: _ :: _, _⟩ => k = [] && req.limit = 1
  | _ => false

/-- Where a page ends with the empty key. -/
theorem page_empty_key {limit : Nat} {entries : List ScanEntry} (hasc : Paging.Ascending entries)
    (h : (Paging.page limit entries).2 = some []) :
    limit = 1 ∧ ∃ v e es, entries = ([], v) :: e :: es := by
  obtain ⟨hlen, ⟨v, hlast⟩, hdiv⟩ := Paging.page_more hasc h
  have hfull : limit < entries.length := by
    by_contra hle
    unfold Paging.page at h
    rw [if_neg hle] at h
    cases h
  have hkeys : ∀ e ∈ (Paging.page limit entries).1, e.1 = ([] : Key) := fun e he =>
    le_antisymm ((hdiv e (List.mem_of_mem_take he)).mp he) (not_lt.mp (List.not_lt_nil _))
  have hpage : (Paging.page limit entries).1 = entries.take limit := rfl
  cases entries with
  | nil => exact absurd hfull (Nat.not_lt_zero _)
  | cons a rest =>
      cases rest with
      | nil =>
          rw [hpage] at hlen hlast
          have hzero : limit = 0 := by simpa using hfull
          rw [hzero] at hlast
          cases hlast
      | cons b rest =>
          have hab := (List.pairwise_cons.mp hasc).1 b List.mem_cons_self
          have hone : limit ≤ 1 := by
            by_contra hmore
            obtain ⟨n, rfl⟩ : ∃ n, limit = n + 2 := ⟨limit - 2, by omega⟩
            have ha := hkeys a (by rw [hpage]; simp)
            have hb := hkeys b (by rw [hpage]; simp)
            rw [ha, hb] at hab
            exact lt_irrefl _ hab
          have hpos : limit ≠ 0 := by
            rintro rfl
            cases hlast
          have ha := hkeys a (by rw [hpage, show limit = 1 by omega]; simp)
          exact ⟨by omega, a.2, b, rest, by rw [← ha]⟩

section Pages

variable {limits : Limits} {req : ScanRequest} {limit : Nat}
  (hlimit : req.limit = limit) (hpos : 0 < limit)
  (hstart : req.start.length ≤ limits.maxKeyBytes) (hstop : req.stop.length ≤ limits.maxKeyBytes)
  {states : Nat → Sys} (hs : ∀ i, Serving limits (states i)) {contents : Nat → List ScanEntry}
  (hall : ∀ i, scan (states i) { req with limit := 0, pageToken := [] } = .ok ⟨contents i, []⟩)

include hs hall hstart hstop

theorem contents_spec (i : Nat) : Paging.Ascending (contents i) ∧
    ∀ e : ScanEntry, e ∈ contents i ↔
      (req.start ≤ e.1 ∧ (req.stop = [] ∨ e.1 < req.stop)) ∧ get (states i) e.1 = .ok e.2 := by
  obtain ⟨entries, hscan, hasc, hmem⟩ := scan_unlimited (hs i) hstart hstop
  obtain rfl : entries = contents i :=
    congrArg ScanResponse.entries (Except.ok.inj (hscan.symm.trans (hall i)))
  exact ⟨hasc, hmem⟩

theorem contents_key_le {i : Nat} {e : ScanEntry} (he : e ∈ contents i) :
    e.1.length ≤ limits.maxKeyBytes := by
  have hget := (((contents_spec hstart hstop hs hall i).2 e).mp he).2
  by_contra hlong
  unfold get Limits.validateKey at hget
  rw [if_neg (by simp [(hs i).isOpen]), (hs i).limits_eq, if_pos (not_le.mp hlong)] at hget
  cases hget

include hlimit hpos

/-- **The tokens tell the client where it is**, unless the first page ends with the empty key. -/
theorem scanPages_eq (hno : stopsAtEmptyKey (states 0) req = false) (n : Nat) :
    scanPages req states n = .ok ((Paging.pages limit contents n).1,
      (Paging.pages limit contents n).2.map tokenOf) ∧
    ((Paging.pages limit contents n).2 = some none → n = 0) ∧
    ∀ k, (Paging.pages limit contents n).2 = some (some k) →
      k ≠ [] ∧ req.start ≤ k ∧ k.length ≤ limits.maxKeyBytes := by
  induction n with
  | zero => exact ⟨rfl, fun _ => rfl, fun k hk => by cases hk⟩
  | succ n ih =>
      obtain ⟨hpages, hfirst, hcursor⟩ := ih
      rw [scanPages, hpages, Paging.pages]
      cases hp : Paging.pages limit contents n with
      | mk seen cursor =>
          rw [hp] at hfirst hcursor
          cases cursor with
          | none => exact ⟨rfl, fun h => (by cases h), fun k hk => by cases hk⟩
          | some cur =>
              obtain ⟨hasc, hmem⟩ := contents_spec hstart hstop hs hall n
              -- the response is the page behind the cursor
              have hscan : scan (states n) { req with pageToken := tokenOf cur } =
                  .ok ⟨(Paging.page limit (Paging.behind cur (contents n))).1,
                    tokenOf (Paging.page limit (Paging.behind cur (contents n))).2⟩ := by
                cases cur with
                | none => exact scan_first (hs n) hstart hstop hlimit hpos (hall n)
                | some k =>
                    obtain ⟨hne, hk, hklen⟩ := hcursor k rfl
                    exact scan_next (hs n) hstart hstop hlimit hpos (hall n) hne hk hklen
              -- and the key it ends with is not empty
              have hkey : ∀ k, (Paging.page limit (Paging.behind cur (contents n))).2 = some k →
                  k ≠ [] ∧ req.start ≤ k ∧ k.length ≤ limits.maxKeyBytes := by
                intro k hk
                obtain ⟨-, ⟨v, hlast⟩, -⟩ := Paging.page_more (hasc.behind cur) hk
                obtain ⟨hin, hbehind⟩ := Paging.mem_behind.mp (List.mem_of_mem_take hlast)
                refine ⟨fun hnil => ?_, ((hmem _).mp hin).1.1,
                  contents_key_le hstart hstop hs hall hin⟩
                subst hnil
                cases cur with
                | some k' => exact absurd (hbehind k' rfl) (List.not_lt_nil _)
                | none =>
                    obtain rfl := hfirst rfl
                    obtain ⟨rfl, v, e, es, hcontents⟩ := page_empty_key hasc hk
                    unfold stopsAtEmptyKey at hno
                    rw [hall 0, hcontents] at hno
                    simp [hlimit] at hno
              dsimp only [Option.map_some]
              rw [hscan]
              dsimp only
              cases hnext : (Paging.page limit (Paging.behind cur (contents n))).2 with
              | none => exact ⟨rfl, fun h => (by cases h), fun k hk => by cases hk⟩
              | some k =>
                  have htoken : tokenOf (some k) ≠ [] :=
                    fun h => (hkey k hnext).1 (Base64.encode_eq_nil.mp h)
                  refine ⟨by rw [if_neg htoken]; rfl, fun h => (by cases h), fun k' hk' => ?_⟩
                  obtain rfl := Option.some.inj (Option.some.inj hk')
                  exact hkey _ hnext

/-- Where the first page ends with the empty key, the client stops after it. -/
theorem scanPages_stopped (hstops : stopsAtEmptyKey (states 0) req = true) (n : Nat) :
    ∃ v e es, contents 0 = ([], v) :: e :: es ∧
      scanPages req states (n + 1) = .ok ([([], v)], none) := by
  unfold stopsAtEmptyKey at hstops
  rw [hall 0] at hstops
  split at hstops
  · rename_i k v e es token heq
    obtain ⟨hcontents, -⟩ := ScanResponse.mk.inj (Except.ok.inj heq)
    rw [Bool.and_eq_true, decide_eq_true_iff, decide_eq_true_iff] at hstops
    obtain ⟨rfl, hone⟩ := hstops
    have hlim : limit = 1 := by omega
    subst hlim
    refine ⟨v, e, es, hcontents, ?_⟩
    induction n with
    | zero =>
        have hscan := scan_first (hs 0) hstart hstop hlimit hpos (hall 0)
        rw [hcontents] at hscan
        rw [scanPages, scanPages]
        dsimp only
        rw [hscan]
        rfl
    | succ n ih => rw [scanPages, ih]
  · cases hstops

end Pages

/-- A scan fails as one without a limit does, before any entry is read. -/
theorem scan_error {s : Sys} {req : ScanRequest} {e : ServiceError} (hpos : 0 < req.limit)
    (h : scan s { req with limit := 0, pageToken := [] } = .error e) :
    scan s { req with pageToken := [] } = .error e := by
  unfold scan at h ⊢
  dsimp only at h ⊢
  rw [if_neg (by decide), if_neg (by simp)] at h
  rw [if_neg (by omega), if_neg (by simp)]
  dsimp only at h ⊢
  split at h
  · exact h
  · cases h

/-- Where a scan does not fail, the bounds of its range are admitted. -/
theorem bounds_of_scan {limits : Limits} {s : Sys} (hs : Serving limits s) {req : ScanRequest}
    {resp : ScanResponse} (h : scan s { req with limit := 0, pageToken := [] } = .ok resp) :
    req.start.length ≤ limits.maxKeyBytes ∧ req.stop.length ≤ limits.maxKeyBytes := by
  unfold scan openIterator at h
  dsimp only at h
  rw [if_neg (by decide), if_neg (by simp)] at h
  dsimp only at h
  rw [if_neg (by simp [hs.isOpen]), hs.limits_eq] at h
  cases hstart : limits.validateKey req.start with
  | error e => rw [hstart] at h; cases h
  | ok _ =>
      cases hstop : limits.validateKey req.stop with
      | error e => rw [hstart, hstop] at h; cases h
      | ok _ => exact ⟨validateKey_eq_ok.mp hstart, validateKey_eq_ok.mp hstop⟩

/-- In a list by ascending key an entry is the only one of its key. -/
theorem filter_key {entries : List ScanEntry} (hasc : Paging.Ascending entries)
    {k : Key} {v : Bytes}
    (h : (k, v) ∈ entries) : entries.filter (fun e => e.1 = k) = [(k, v)] := by
  obtain ⟨pre, post, rfl⟩ := List.append_of_mem h
  obtain ⟨-, hpost, hcross⟩ := List.pairwise_append.mp hasc
  have hbefore : pre.filter (fun e => e.1 = k) = [] := List.filter_eq_nil_iff.mpr fun e he => by
    simpa using (hcross e he (k, v) List.mem_cons_self).ne
  have hafter : post.filter (fun e => e.1 = k) = [] := List.filter_eq_nil_iff.mpr fun e he => by
    simpa using ((List.pairwise_cons.mp hpost).1 e he).ne'
  rw [List.filter_append, List.filter_cons_of_pos (by simp), hbefore, hafter]
  rfl

/-- **Paginated scans.** A client that follows the tokens reads an unchanging database
completely just when the first page does not end with the empty key. Under that condition,
and with any changes between the pages, it sees strictly increasing keys, and in the end
exactly one entry of each key that kept its value throughout. -/
theorem scanPages_complete_iff (limits : Limits) (req : ScanRequest) (hpos : 0 < req.limit) :
    (∀ s, Serving limits s →
      match scan s { req with limit := 0, pageToken := [] } with
      | .error e => ∀ n, scanPages req (fun _ => s) (n + 1) = .error e
      | .ok all => (∃ n, ∀ m ≥ n, scanPages req (fun _ => s) m = .ok (all.entries, none)) ↔
          stopsAtEmptyKey s req = false) ∧
    ∀ states : Nat → Sys, (∀ i, Serving limits (states i)) →
      limits.validateKey req.start = .ok () → limits.validateKey req.stop = .ok () →
      stopsAtEmptyKey (states 0) req = false → ∀ n, ∃ entries token,
        scanPages req states n = .ok (entries, token) ∧
        entries.Pairwise (fun a b => a.1 < b.1) ∧
        (token = none → ∀ k v, req.start ≤ k → (req.stop = [] ∨ k < req.stop) →
          (∀ i < n, get (states i) k = .ok v) → entries.filter (fun e => e.1 = k) = [(k, v)]) := by
  obtain ⟨limit, hlimit⟩ : ∃ limit : Nat, req.limit = limit := ⟨req.limit.toNat, by omega⟩
  have hpos' : 0 < limit := by omega
  constructor
  · intro s hs
    split
    · rename_i e herr
      intro n
      induction n with
      | zero =>
          rw [scanPages, scanPages]
          dsimp only
          rw [scan_error hpos herr]
      | succ n ih => rw [scanPages, ih]
    · rename_i all hok
      obtain ⟨hstart, hstop⟩ := bounds_of_scan hs hok
      obtain ⟨entries, hall, hasc, -⟩ := scan_unlimited hs hstart hstop
      obtain rfl := Except.ok.inj (hall.symm.trans hok)
      cases hstops : stopsAtEmptyKey s req with
      | false =>
          refine iff_of_true ⟨entries.length + 1, fun m hm => ?_⟩ rfl
          rw [(scanPages_eq hlimit hpos' hstart hstop (fun _ => hs) (fun _ => hall) hstops m).1,
            Paging.pages_const hpos' hasc hm]
          rfl
      | true =>
          refine iff_of_false (fun h => ?_) (by simp)
          obtain ⟨n, hn⟩ := h
          obtain ⟨v, e, es, hcontents, hpages⟩ := scanPages_stopped hlimit hpos' hstart hstop
            (fun _ => hs) (fun _ => hall) hstops n
          have heq := Except.ok.inj ((hn (n + 1) (by omega)).symm.trans hpages)
          have hentries : entries = [([], v)] := congrArg Prod.fst heq
          rw [hcontents] at hentries
          simp at hentries
  · intro states hs hstart hstop hno n
    have hstart' := validateKey_eq_ok.mp hstart
    have hstop' := validateKey_eq_ok.mp hstop
    choose contents hall hasc hmem using fun i => scan_unlimited (hs i) hstart' hstop'
    have hpages := (scanPages_eq hlimit hpos' hstart' hstop' hs hall hno n).1
    have hcovers := Paging.covers_pages hpos' hasc n
    refine ⟨_, _, hpages, hcovers.ascending, fun hend k v hk hk' hget => ?_⟩
    refine filter_key hcovers.ascending (hcovers.stable (k, v) (fun i hi => ?_) fun cur hcur => ?_)
    · exact (hmem i (k, v)).mpr ⟨⟨hk, hk'⟩, hget i hi⟩
    · rw [hcur] at hend
      cases hend

/-- A database without tables. -/
def memoryOnly (recs : List Record) (maxSeq : UInt64) : Sys :=
  ⟨{}, newDB ⟨8, 4, ⟨16, 16, 16, 64⟩⟩ (MemTable.new.putAll recs) {} maxSeq⟩

theorem serving_memoryOnly {recs : List Record} {maxSeq : UInt64}
    (h : ∀ r ∈ (MemTable.new.putAll recs).records, r.key.length ≤ 16 ∧ r.seq ≤ maxSeq) :
    Serving ⟨16, 16, 16, 64⟩ (memoryOnly recs maxSeq) := by
  have hheld : ∀ r, r ∈ held (memoryOnly recs maxSeq) ↔
      r ∈ (MemTable.new.putAll recs).records := by
    intro r
    rw [mem_held]
    simp [memoryOnly, newDB, DB.active]
  refine ⟨rfl, rfl, fun t ht => (by cases ht), fun r hr r' hr' => ?_, fun r hr => ?_,
    fun r hr => ?_⟩
  · exact consistent_recordsOf _ r ((hheld r).mp hr) r' ((hheld r').mp hr')
  · exact (h r ((hheld r).mp hr)).1
  · have hseq : (memoryOnly recs maxSeq).db.currentSequence = maxSeq := by
      simp [memoryOnly, newDB, DB.currentSequence]
    rw [hseq]
    exact (h r ((hheld r).mp hr)).2

/-- Two pages, between which the key of the first is overwritten. -/
theorem scanPages_complete_iff_changing :
    ∃ entries token,
      scanPages { limit := 1 } (fun i => if i = 0 then
          memoryOnly [putOf [1] 1 [7], putOf [2] 2 [8]] 2
        else memoryOnly [putOf [1] 3 [9], putOf [2] 2 [8]] 3) 2 = .ok (entries, token) ∧
      entries.Pairwise (fun a b => a.1 < b.1) ∧
      (token = none → entries.filter (fun e => e.1 = [2]) = [([2], [8])]) := by
  have hfirst : Serving ⟨16, 16, 16, 64⟩ (memoryOnly [putOf [1] 1 [7], putOf [2] 2 [8]] 2) :=
    serving_memoryOnly (by decide +kernel)
  have hsecond : Serving ⟨16, 16, 16, 64⟩ (memoryOnly [putOf [1] 3 [9], putOf [2] 2 [8]] 3) :=
    serving_memoryOnly (by decide +kernel)
  obtain ⟨entries, token, hpages, hasc, hstable⟩ :=
    (scanPages_complete_iff ⟨16, 16, 16, 64⟩ { limit := 1 } (by decide)).2
      (fun i => if i = 0 then memoryOnly [putOf [1] 1 [7], putOf [2] 2 [8]] 2
        else memoryOnly [putOf [1] 3 [9], putOf [2] 2 [8]] 3)
      (fun i => by
        by_cases hi : i = 0
        · simp only [hi, if_true]
          exact hfirst
        · simp only [hi, if_false]
          exact hsecond)
      rfl rfl (by decide +kernel) 2
  refine ⟨entries, token, hpages, hasc, fun hend => hstable hend [2] [8] (by decide) (by decide) ?_⟩
  decide +kernel

/-- With the empty key first, a client that takes one entry a page never sees the second key. -/
theorem scanPages_emptyKey :
    Serving ⟨16, 16, 16, 64⟩ (memoryOnly [putOf [] 1 [7], putOf [1] 2 [8]] 2) ∧
    (scan (memoryOnly [putOf [] 1 [7], putOf [1] 2 [8]] 2) {}).toOption =
      some ⟨[([], [7]), ([1], [8])], []⟩ ∧
    (scanPages { limit := 1 }
        (fun _ => memoryOnly [putOf [] 1 [7], putOf [1] 2 [8]] 2) 1).toOption =
      some ([([], [7])], none) := by
  refine ⟨serving_memoryOnly (by decide +kernel), ?_, ?_⟩
  · decide +kernel
  · decide +kernel

end HyphaDB.Refine
