import HyphaDB.Table.Cached
import HyphaDB.Table.Tampered

/-!
# HyphaDB.Physical.Tables

**Tables whose files may have been damaged.** Each table was written with its `contents`, and a byte
of its blocks may have changed since (`Kept`). An iterator that reads through the shared cache gives
the contents one by one, and where a block is damaged it reports an error (`next_tries`).
-/

namespace HyphaDB.Physical

open Checked Interleaved Table Table.Cached

/-! ### Files -/

/-- The file was written with the records `recs`. -/
def WrittenWith (env : Env) (file : TableFile) (recs : List Record) : Prop :=
  ∃ it hint opts created, createFromIteratorWithOptions env it hint opts = .ok created ∧
    (∀ r ∈ it.records, r.Fits) ∧ WithinLimits created.file ∧ it.records = recs ∧
    file = created.file

/-- The file was written with the records `recs`, and a byte of its blocks has changed since. -/
def Altered (env : Env) (file' : TableFile) (recs : List Record) : Prop :=
  ∃ file, WrittenWith env file recs ∧ TamperedIn .blocks file file'

/-- Tables with IDs of their own, and what was written to each. -/
structure Kept {τ : Type} (env : Env) (tables : τ → Handle) (contents : τ → List Record) :
    Prop where
  ids : ∀ t t', (tables t).id = (tables t').id → t = t'
  files : ∀ t, WrittenWith env (tables t).file (contents t) ∨
    Altered env (tables t).file (contents t)

/-- The index of the file opens chunks of the records `recs`. -/
def Stands (env : Env) (damaged : Prop) (file : TableFile) (recs : List Record) : Prop :=
  ∃ md interval chunks, loadMetadata file = .ok md ∧ Opens env damaged file md interval chunks ∧
    chunks.flatten = recs

section Files

variable {env : Env} {file file' : TableFile} {recs : List Record} {damaged : Prop}

theorem WrittenWith.stands (hlz4 : env.lz4.Inverts) (h : WrittenWith env file recs) :
    Stands env damaged file recs := by
  obtain ⟨it, hint, opts, created, hcreate, hfits, hlimits, rfl, rfl⟩ := h
  obtain ⟨md, interval, chunks, hmd, hopens, -, -, hflat, -⟩ :=
    created_opens hlz4 hcreate hfits hlimits
  exact ⟨md, interval, chunks, hmd, hopens.weaken damaged, hflat⟩

/-- A file with a damaged block has the metadata of the file that was written. -/
theorem tampered_loads {it : RecordIterator} {hint : Int} {opts : WriteOptions} {created : Created}
    (hcreate : createFromIteratorWithOptions env it hint opts = .ok created)
    (h : TamperedIn .blocks created.file file') :
    loadMetadata file' = loadMetadata created.file := by
  obtain ⟨opts', filter, -, -, ⟨W⟩⟩ := created_written hcreate
  obtain ⟨data', hdata, hfile'⟩ := W.tampered_part h
  exact W.loadMetadata_blocks hdata.length_eq.symm hfile'

theorem Altered.stands (hcrc : Distinguishes env.crc) (hlz4 : env.lz4.Inverts)
    (h : Altered env file' recs) (hdamaged : damaged) : Stands env damaged file' recs := by
  obtain ⟨_, ⟨it, hint, opts, created, hcreate, hfits, hlimits, rfl, rfl⟩, htampered⟩ := h
  have hload := tampered_loads hcreate htampered
  obtain ⟨opts', filter, -, -, ⟨W⟩⟩ := created_written hcreate
  obtain ⟨data', hdata, hfile'⟩ := W.tampered_part htampered
  obtain ⟨footer, hfooter, hindex, hfilter⟩ := hlimits
  rw [W.readFooter_eq] at hfooter
  cases hfooter
  exact ⟨_, _, W.chunks, hload.trans (W.loadMetadata_eq ⟨hfits, hindex, hfilter⟩),
    W.opens_blocks hcrc hlz4 ⟨hfits, hindex, hfilter⟩ hdata hfile' hdamaged, W.chunks_flatten⟩

theorem WrittenWith.offsets (h : WrittenWith env file recs) : OffsetsDiffer file := by
  obtain ⟨it, hint, opts, created, hcreate, hfits, hlimits, rfl, rfl⟩ := h
  exact created_offsets hcreate hfits hlimits

theorem Altered.offsets (h : Altered env file' recs) : OffsetsDiffer file' := by
  obtain ⟨_, hwritten, htampered⟩ := h
  have hoffsets := hwritten.offsets
  obtain ⟨it, hint, opts, created, hcreate, -, -, -, rfl⟩ := hwritten
  unfold OffsetsDiffer InIndex
  rw [tampered_loads hcreate htampered]
  exact hoffsets

end Files

section Kept

variable {τ : Type} {env : Env} {tables : τ → Handle} {contents : τ → List Record}

theorem Kept.distinct (h : Kept env tables contents) : Distinct tables :=
  ⟨h.ids, fun t => (h.files t).elim WrittenWith.offsets Altered.offsets⟩

theorem Kept.stands (h : Kept env tables contents) (hcrc : Distinguishes env.crc)
    (hlz4 : env.lz4.Inverts) {damaged : Prop} {t : τ}
    (hdamaged : Altered env (tables t).file (contents t) → damaged) :
    Stands env damaged (tables t).file (contents t) :=
  (h.files t).elim (·.stands hlz4) fun haltered => haltered.stands hcrc hlz4 (hdamaged haltered)

end Kept

/-! ### Iterators -/

section Iterators

variable {τ : Type} {env : Env} {tables : τ → Handle} {damaged : Prop} {t : τ}

/-- The iterator has the records `rest` still to give. -/
def Giving (env : Env) (damaged : Prop) (file : TableFile) (it : Iterator) (rest : List Record) :
    Prop :=
  ∃ md interval chunks, loadMetadata file = .ok md ∧ Opens env damaged file md interval chunks ∧
    Iterator.At damaged md interval chunks it rest

theorem newIterator_tries [DecidableEq τ] {recs : List Record}
    (h : Stands env damaged (tables t).file recs) :
    Tries (Faithful env tables) damaged (Cached.newIterator tables t) fun it =>
      Giving env damaged (tables t).file it (recs.map Record.plain) := by
  obtain ⟨md, interval, chunks, hmd, hopens, rfl⟩ := h
  obtain ⟨it, hnew, hat⟩ := newIterator_eq damaged interval chunks hmd
  exact (newIterator_agrees t).tries hnew ⟨md, interval, chunks, hmd, hopens, hat⟩

/-- **`Next` loses no record without an error.** -/
theorem next_tries (hd : Distinct tables) {it : Iterator} {rest : List Record}
    (h : Giving env damaged (tables t).file it rest) :
    Tries (Faithful env tables) damaged
      (Cached.next env tables t it : Prog (Shared τ) Empty _) fun p =>
        damaged ∧ p.2.err.isSome = true ∨ p.2.err = none ∧ p.1 = false ∧ rest = [] ∨
          p.2.err = none ∧ p.1 = true ∧ ∃ rest', rest = p.2.current :: rest' ∧
            Giving env damaged (tables t).file p.2 rest' := by
  obtain ⟨md, interval, chunks, hmd, hopens, hat⟩ := h
  obtain ⟨p, hp, hcases⟩ := Iterator.next_eq (ε := Empty) hopens hat
  refine (next_agrees hd ⟨md, hmd, hat.index⟩).tries hp (hcases.imp_right fun hturn => ?_)
  cases rest with
  | nil => exact Or.inl ⟨hturn.2.err, hturn.1, rfl⟩
  | cons r rest =>
      obtain ⟨hmore, rfl, hat'⟩ := hturn
      exact Or.inr ⟨hat'.err, hmore, rest, rfl, md, interval, chunks, hmd, hopens, hat'⟩

end Iterators

end HyphaDB.Physical
