import HyphaDB.Lib.LittleEndian
import Mathlib.Data.List.Basic

/-!
# HyphaDB.Lib.Checked

**Computations that can go wrong at run time.** A reader of untrusted bytes stops in one of two
ways: it reports an error, which is what it is for, or it faults: it slices or indexes out of
range, it uses a number that has wrapped around its width, or a loop does not end within the
bound its code implies. A program is written with checked operations, so that a fault shows as
a result, and `Gives x P` says that `x` does not fault and that its value satisfies `P`.
`Delivers damaged x P` says also when errors are allowed: only if there is damage.
-/

namespace HyphaDB.Checked

/-- What a program must never do. -/
inductive Fault
  /-- A slice or an index outside of its list. -/
  | outOfRange
  /-- A number that does not fit its width, or a difference below zero. -/
  | wrapped
  /-- A loop that is not done after the rounds it should take. -/
  | endless
  deriving Repr, DecidableEq

inductive Stop (ε : Type)
  | failed (e : ε)
  | fault (f : Fault)
  deriving Repr, DecidableEq

/-- A value, an error, or a fault. -/
abbrev Attempt (ε α : Type) : Type := Except (Stop ε) α

variable {ε ε' α β : Type}

/-- Report an error. -/
def fail (e : ε) : Attempt ε α := .error (.failed e)

/-- The elements from `i` up to `j`. -/
def slice (xs : List β) (i j : Nat) : Attempt ε (List β) :=
  if i ≤ j ∧ j ≤ xs.length then .ok ((xs.drop i).take (j - i)) else .error (.fault .outOfRange)

/-- The element at `i`. -/
def get (xs : List β) (i : Nat) : Attempt ε β :=
  match xs[i]? with
  | some x => .ok x
  | none => .error (.fault .outOfRange)

/-- The element at an index that may be negative. -/
def getInt (xs : List β) (i : Int) : Attempt ε β :=
  if 0 ≤ i then get xs i.toNat else .error (.fault .outOfRange)

/-- The number in the first `w` bytes. -/
def readLE (w : Nat) (bs : List UInt8) : Attempt ε Nat :=
  if w ≤ bs.length then .ok (ofLE (bs.take w)) else .error (.fault .outOfRange)

/-- A number of `w` bits. -/
def fits (w n : Nat) : Attempt ε Nat :=
  if n < 2 ^ w then .ok n else .error (.fault .wrapped)

/-- A difference that is not negative. -/
def sub (a b : Nat) : Attempt ε Nat :=
  if b ≤ a then .ok (a - b) else .error (.fault .wrapped)

/-- Pass an error on as another one. -/
def mapError (f : ε → ε') : Attempt ε α → Attempt ε' α
  | .ok a => .ok a
  | .error (.failed e) => .error (.failed (f e))
  | .error (.fault x) => .error (.fault x)

/-- Go on after a value or after an error; a fault is a fault. -/
def handle (x : Attempt ε α) (onError : ε → Attempt ε' β) (onValue : α → Attempt ε' β) :
    Attempt ε' β :=
  match x with
  | .ok a => onValue a
  | .error (.failed e) => onError e
  | .error (.fault f) => .error (.fault f)

/-! ### Values -/

@[simp] theorem ok_bind (a : α) (f : α → Attempt ε β) :
    (Except.ok a : Attempt ε α) >>= f = f a := rfl

@[simp] theorem mapError_ok (f : ε → ε') (a : α) : mapError f (.ok a) = .ok a := rfl

theorem mapError_eq_ok {f : ε → ε'} {x : Attempt ε α} {a : α} (h : mapError f x = .ok a) :
    x = .ok a := by
  unfold mapError at h
  split at h
  · rw [Except.ok.inj h]
  · cases h
  · cases h

@[simp] theorem handle_ok (a : α) (onError : ε → Attempt ε' β) (onValue : α → Attempt ε' β) :
    handle (.ok a) onError onValue = onValue a := rfl

/-- The two halves of a successful run. -/
theorem bind_eq_ok {σ : Type} {x : Except σ α} {f : α → Except σ β} {b : β}
    (h : x >>= f = .ok b) : ∃ a, x = .ok a ∧ f a = .ok b := by
  cases x with
  | error e => cases h
  | ok a => exact ⟨a, rfl, h⟩

theorem slice_eq {xs : List β} {i j : Nat} (hi : i ≤ j) (hj : j ≤ xs.length) :
    (slice xs i j : Attempt ε (List β)) = .ok ((xs.drop i).take (j - i)) := if_pos ⟨hi, hj⟩

/-- The end of a list. -/
theorem slice_to_end {xs : List β} {i : Nat} (hi : i ≤ xs.length) :
    (slice xs i xs.length : Attempt ε (List β)) = .ok (xs.drop i) := by
  rw [slice_eq hi le_rfl, List.take_of_length_le (by simp)]

/-- The part between a head and a tail. -/
theorem slice_append (pre mid post : List β) {i j : Nat} (hi : i = pre.length)
    (hj : j = pre.length + mid.length) :
    (slice (pre ++ mid ++ post) i j : Attempt ε (List β)) = .ok mid := by
  subst hi hj
  rw [slice_eq (by omega) (by simp), List.append_assoc, List.drop_left, Nat.add_sub_cancel_left,
    List.take_left]

theorem get_eq {xs : List β} {i : Nat} {x : β} (h : xs[i]? = some x) :
    (get xs i : Attempt ε β) = .ok x := by
  unfold get
  rw [h]

theorem getInt_eq {xs : List β} {i : Nat} {x : β} (h : xs[i]? = some x) :
    (getInt xs i : Attempt ε β) = .ok x := by
  unfold getInt
  rw [if_pos (Int.natCast_nonneg i), Int.toNat_natCast, get_eq h]

theorem mem_of_get {xs : List β} {i : Nat} {x : β} (h : (get xs i : Attempt ε β) = .ok x) :
    x ∈ xs := by
  unfold get at h
  split at h
  · rename_i hx
    cases h
    exact List.mem_of_getElem? hx
  · cases h

theorem mem_of_getInt {xs : List β} {i : Int} {x : β}
    (h : (getInt xs i : Attempt ε β) = .ok x) : x ∈ xs := by
  unfold getInt at h
  split at h
  · exact mem_of_get h
  · cases h

theorem readLE_eq {w : Nat} {bs : List UInt8} (h : w ≤ bs.length) :
    (readLE w bs : Attempt ε Nat) = .ok (ofLE (bs.take w)) := if_pos h

/-- A number reads back from the front of what follows it. -/
theorem readLE_toLE {w n : Nat} (h : n < 256 ^ w) (rest : List UInt8) :
    (readLE w (toLE w n ++ rest) : Attempt ε Nat) = .ok n := by
  rw [readLE_eq (by simp), List.take_left' (toLE_length w n), ofLE_toLE_of_lt h]

theorem readLE_toLE_self {w n : Nat} (h : n < 256 ^ w) :
    (readLE w (toLE w n) : Attempt ε Nat) = .ok n := by
  rw [readLE_eq (toLE_length w n).ge, List.take_of_length_le (toLE_length w n).le,
    ofLE_toLE_of_lt h]

theorem fits_eq {w n : Nat} (h : n < 2 ^ w) : (fits w n : Attempt ε Nat) = .ok n := if_pos h

theorem sub_eq {a b : Nat} (h : b ≤ a) : (sub a b : Attempt ε Nat) = .ok (a - b) := if_pos h

theorem sub_eq_ok {a b n : Nat} (h : (sub a b : Attempt ε Nat) = .ok n) : n + b = a := by
  unfold sub at h
  split at h
  · cases h
    omega
  · cases h

/-! ### No faults -/

/-- No fault, a value that satisfies `P`, and an error only if there is damage to report. -/
def Delivers (damaged : Prop) (x : Attempt ε α) (P : α → Prop) : Prop :=
  match x with
  | .ok a => P a
  | .error (.failed _) => damaged
  | .error (.fault _) => False

/-- No fault, and a value that satisfies `P`. -/
def Gives (x : Attempt ε α) (P : α → Prop) : Prop := Delivers True x P

/-- No fault. -/
def Safe (x : Attempt ε α) : Prop := Gives x fun _ => True

section Delivers

variable {damaged damaged' : Prop} {x : Attempt ε α} {P Q : α → Prop}

theorem Delivers.mono (h : Delivers damaged x P) (hd : damaged → damaged')
    (hPQ : ∀ a, P a → Q a) : Delivers damaged' x Q := by
  cases x with
  | ok a => exact hPQ a h
  | error e =>
      cases e with
      | failed e => exact hd h
      | fault f => exact h

/-- What came of it. -/
theorem Delivers.fails_or_ok (h : Delivers damaged x P) :
    (damaged ∧ ∃ e, x = fail e) ∨ ∃ a, x = .ok a ∧ P a := by
  cases x with
  | ok a => exact Or.inr ⟨a, rfl, h⟩
  | error e =>
      cases e with
      | failed e => exact Or.inl ⟨h, e, rfl⟩
      | fault f => exact h.elim

/-- Without damage there is a value. -/
theorem Delivers.exists_ok (h : Delivers damaged x P) (hd : ¬ damaged) : ∃ a, x = .ok a ∧ P a :=
  h.fails_or_ok.resolve_left fun hfail => hd hfail.1

theorem delivers_bind {f : α → Attempt ε β} {R : β → Prop} (h : Delivers damaged x P)
    (hf : ∀ a, P a → Delivers damaged (f a) R) : Delivers damaged (x >>= f) R := by
  cases x with
  | ok a => exact hf a h
  | error e =>
      cases e with
      | failed e => exact h
      | fault f => exact h

end Delivers

section Gives

variable {x : Attempt ε α} {P Q : α → Prop}

theorem gives_pure {a : α} (h : P a) : Gives (pure a : Attempt ε α) P := h

theorem gives_mono (h : Gives x P) (hPQ : ∀ a, P a → Q a) : Gives x Q := h.mono id hPQ

theorem Gives.safe (h : Gives x P) : Safe x := gives_mono h fun _ _ => trivial

theorem Gives.of_ok (h : Gives x P) {a : α} (hx : x = .ok a) : P a := by
  subst hx
  exact h

/-- The value of a program that reports no errors and does not fault. -/
def value (x : Attempt Empty α) (h : Safe x) : α :=
  match x, h with
  | .ok a, _ => a
  | .error (.failed e), _ => e.elim
  | .error (.fault _), h => h.elim

theorem value_eq {x : Attempt Empty α} (h : Safe x) : x = .ok (value x h) := by
  cases x with
  | ok a => rfl
  | error e =>
      cases e with
      | failed e => exact e.elim
      | fault f => exact h.elim

/-- A program that reports no errors and does not fault has a value. -/
theorem Gives.exists_ok {x : Attempt Empty α} {P : α → Prop} (h : Gives x P) :
    ∃ a, x = .ok a ∧ P a :=
  ⟨value x h.safe, value_eq h.safe, h.of_ok (value_eq h.safe)⟩

theorem gives_bind {f : α → Attempt ε β} {R : β → Prop} (h : Gives x P)
    (hf : ∀ a, P a → Gives (f a) R) : Gives (x >>= f) R := delivers_bind h hf

theorem gives_mapError {f : ε → ε'} (h : Gives x P) : Gives (mapError f x) P := by
  cases x with
  | ok a => exact h
  | error e =>
      cases e with
      | failed e => trivial
      | fault f => exact h

theorem gives_ite {c : Prop} [Decidable c] {y : Attempt ε α} (ht : c → Gives x P)
    (he : ¬c → Gives y P) : Gives (if c then x else y) P := by
  split
  · exact ht ‹_›
  · exact he ‹_›

theorem gives_slice {xs : List β} {i j : Nat} (hi : i ≤ j) (hj : j ≤ xs.length) :
    Gives (slice xs i j : Attempt ε (List β)) fun ys => ys = (xs.drop i).take (j - i) := by
  rw [slice_eq hi hj]
  exact rfl

/-- A slice is as long as it says. -/
theorem gives_slice_length {xs : List β} {i j : Nat} (hi : i ≤ j) (hj : j ≤ xs.length) :
    Gives (slice xs i j : Attempt ε (List β)) fun ys => ys.length = j - i := by
  refine gives_mono (gives_slice hi hj) fun ys hys => ?_
  subst hys
  rw [List.length_take, List.length_drop]
  omega

theorem gives_get {xs : List β} {i : Nat} (hi : i < xs.length) :
    Gives (get xs i : Attempt ε β) fun x => x ∈ xs := by
  rw [get_eq (List.getElem?_eq_getElem hi)]
  exact List.getElem_mem hi

theorem gives_getInt {xs : List β} {i : Int} (h0 : 0 ≤ i) (hi : i < xs.length) :
    Gives (getInt xs i : Attempt ε β) fun x => x ∈ xs := by
  unfold getInt
  rw [if_pos h0]
  exact gives_get (by omega)

theorem gives_readLE {w : Nat} {bs : List UInt8} (h : w ≤ bs.length) :
    Gives (readLE w bs : Attempt ε Nat) fun n => n = ofLE (bs.take w) ∧ n < 256 ^ w := by
  rw [readLE_eq h]
  refine ⟨rfl, ?_⟩
  have hlt := ofLE_lt (bs.take w)
  rwa [List.length_take, Nat.min_eq_left h] at hlt

theorem gives_handle {onError : ε → Attempt ε' β} {onValue : α → Attempt ε' β} {R : β → Prop}
    (h : Gives x P) (hv : ∀ a, P a → Gives (onValue a) R) (he : ∀ e, Gives (onError e) R) :
    Gives (handle x onError onValue) R := by
  cases x with
  | ok a => exact hv a h
  | error e =>
      cases e with
      | failed e => exact he e
      | fault f => exact h

theorem gives_fits {w n : Nat} (h : n < 2 ^ w) :
    Gives (fits w n : Attempt ε Nat) fun m => m = n := by
  rw [fits_eq h]
  exact rfl

theorem gives_sub {a b : Nat} (h : b ≤ a) :
    Gives (sub a b : Attempt ε Nat) fun m => m = a - b := by
  rw [sub_eq h]
  exact rfl

end Gives

/-! ### Binary search -/

/-- The loop of a binary search for the first place between `i` and `j` where the probe says
yes. A probe that fails counts as yes, and its error is reported in the end. -/
def searchLoop (probe : Nat → Attempt ε Bool) : Nat → Nat → Nat → Option ε → Attempt ε Nat
  | fuel, i, j, err =>
      if i < j then
        match fuel with
        | 0 => .error (.fault .endless)
        | fuel + 1 =>
            let h := (i + j) / 2
            match probe h with
            | .ok true => searchLoop probe fuel i h err
            | .ok false => searchLoop probe fuel (h + 1) j err
            | .error (.failed e) => searchLoop probe fuel i h (some e)
            | .error (.fault f) => .error (.fault f)
      else
        match err with
        | some e => .error (.failed e)
        | none => .ok i

/-- `sort.Search`. -/
def search (n : Nat) (probe : Nat → Attempt ε Bool) : Attempt ε Nat := searchLoop probe n 0 n none

theorem delivers_searchLoop {damaged : Prop} {probe : Nat → Attempt ε Bool} {n : Nat}
    (hprobe : ∀ h, h < n → Delivers damaged (probe h) fun _ => True) {fuel i j : Nat}
    {err : Option ε} (herr : ∀ e, err = some e → damaged) (hfuel : j - i ≤ fuel) (hij : i ≤ j)
    (hj : j ≤ n) : Delivers damaged (searchLoop probe fuel i j err) fun k => k ≤ n := by
  induction fuel generalizing i j err with
  | zero =>
      unfold searchLoop
      rw [if_neg (by omega)]
      split
      · exact herr _ rfl
      · exact hij.trans hj
  | succ fuel ih =>
      unfold searchLoop
      split
      · rename_i hlt
        have hsafe := hprobe ((i + j) / 2) (by omega)
        dsimp only
        split
        · exact ih herr (by omega) (by omega) (by omega)
        · exact ih herr (by omega) (by omega) (by omega)
        · rename_i e hfailed
          rw [hfailed] at hsafe
          exact ih (fun _ _ => hsafe) (by omega) (by omega) (by omega)
        · rename_i f hfault
          rw [hfault] at hsafe
          exact hsafe
      · split
        · exact herr _ rfl
        · exact hij.trans hj

/-- A search ends within its range. -/
theorem delivers_search {damaged : Prop} {probe : Nat → Attempt ε Bool} {n : Nat}
    (hprobe : ∀ h, h < n → Delivers damaged (probe h) fun _ => True) :
    Delivers damaged (search n probe) fun k => k ≤ n :=
  delivers_searchLoop hprobe (fun _ h => nomatch h) (by omega) (Nat.zero_le n) le_rfl

theorem searchLoop_eq {probe : Nat → Attempt ε Bool} {p : Nat → Bool} {n : Nat}
    (hprobe : ∀ h, h < n → probe h = .ok (p h))
    (hmono : ∀ a b, a ≤ b → b < n → p a = true → p b = true) {fuel i j : Nat}
    (hfuel : j - i ≤ fuel) (hij : i ≤ j) (hj : j ≤ n) (hlow : ∀ h, h < i → p h = false)
    (hhigh : ∀ h, j ≤ h → h < n → p h = true) :
    ∃ k, searchLoop probe fuel i j none = .ok k ∧ k ≤ n ∧ (∀ h, h < k → p h = false) ∧
      ∀ h, k ≤ h → h < n → p h = true := by
  induction fuel generalizing i j with
  | zero =>
      unfold searchLoop
      rw [if_neg (by omega)]
      exact ⟨i, rfl, hij.trans hj, hlow, fun h hle => hhigh h (by omega)⟩
  | succ fuel ih =>
      unfold searchLoop
      by_cases hlt : i < j
      · rw [if_pos hlt]
        dsimp only
        rw [hprobe ((i + j) / 2) (by omega)]
        cases hp : p ((i + j) / 2) with
        | true =>
            refine ih (by omega) (by omega) (by omega) hlow fun h hle hn => ?_
            exact hmono _ h hle hn hp
        | false =>
            refine ih (by omega) (by omega) hj (fun h hle => ?_) hhigh
            -- A place below the probe that says yes would make the probe say yes.
            cases hph : p h with
            | false => rfl
            | true =>
                have := hmono h ((i + j) / 2) (by omega) (by omega) hph
                rw [hp] at this
                cases this
      · rw [if_neg hlt]
        exact ⟨i, rfl, hij.trans hj, hlow, fun h hle => hhigh h (by omega)⟩

/-- **A search finds the place where the answers turn.** -/
theorem search_eq {probe : Nat → Attempt ε Bool} {p : Nat → Bool} {n : Nat}
    (hprobe : ∀ h, h < n → probe h = .ok (p h))
    (hmono : ∀ a b, a ≤ b → b < n → p a = true → p b = true) :
    ∃ k, search n probe = .ok k ∧ k ≤ n ∧ (∀ h, h < k → p h = false) ∧
      ∀ h, k ≤ h → h < n → p h = true :=
  searchLoop_eq hprobe hmono (by omega) (Nat.zero_le n) le_rfl (fun h hh => absurd hh (by omega))
    fun h hle hlt => absurd hlt (by omega)

end HyphaDB.Checked
