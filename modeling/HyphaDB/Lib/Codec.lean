import HyphaDB.Lib.LittleEndian
import Mathlib.Data.List.Basic

/-!
# HyphaDB.Lib.Codec

**Exact byte formats.** A `Reader` takes a value off the front of a byte list. `Exact ok encode
decode` says that `decode` reads what `encode` writes, with any bytes behind it, and that it reads
nothing else: whatever it accepts is the encoding of the value it gives. The rules follow the
shape of a decoder, one for each way it is put together: `exact_bind` for a field and what comes
after it, `exact_check` for a limit, `exact_room` for a test of the bytes that are left,
`exact_many` for a counted list. `readAll` ends a format: nothing may follow.
-/

namespace HyphaDB.Codec

/-- A value off the front of the bytes, and the bytes behind it. -/
abbrev Reader (ε α : Type) : Type := StateT (List UInt8) (Except ε) α

variable {ε ε' α β γ : Type}

/-- Report an error. -/
def fail (e : ε) : Reader ε α := fun _ => .error e

/-- How many bytes are left. -/
def remaining : Reader ε Nat := fun bs => .ok (bs.length, bs)

/-- The next `n` bytes; `short` says what is wrong when there are fewer. -/
def take (short : List UInt8 → ε) (n : Nat) : Reader ε (List UInt8) := fun bs =>
  if n ≤ bs.length then .ok (bs.take n, bs.drop n) else .error (short bs)

/-- The number in the next `w` bytes. -/
def readLE (short : List UInt8 → ε) (w : Nat) : Reader ε Nat := do
  let bs ← take short w
  pure (ofLE bs)

def readUint32 (short : List UInt8 → ε) : Reader ε UInt32 := do
  let n ← readLE short 4
  pure (UInt32.ofNat n)

def readUint64 (short : List UInt8 → ε) : Reader ε UInt64 := do
  let n ← readLE short 8
  pure (UInt64.ofNat n)

/-- Pass an error on as another one. -/
def mapError (f : ε → ε') (dec : Reader ε α) : Reader ε' α := fun bs =>
  match dec bs with
  | .ok p => .ok p
  | .error e => .error (f e)

/-- `n` values, the first of which has number `i`. -/
def many (dec : Nat → Reader ε α) : Nat → Nat → Reader ε (List α)
  | _, 0 => pure []
  | i, n + 1 => do
      let a ← dec i
      let as ← many dec (i + 1) n
      pure (a :: as)

/-- The value the bytes are, when nothing follows it. -/
def readAll (trailing : Nat → ε) (dec : Reader ε α) (bs : List UInt8) : Except ε α :=
  match dec bs with
  | .ok (a, rest) => if rest.length ≠ 0 then .error (trailing rest.length) else .ok a
  | .error e => .error e

/-! ### Exactness -/

structure Exact (ok : α → Prop) (encode : α → List UInt8) (decode : Reader ε α) : Prop where
  reads : ∀ {a}, ok a → ∀ rest, decode (encode a ++ rest) = .ok (a, rest)
  canonical : ∀ {bs a rest}, decode bs = .ok (a, rest) → ok a ∧ bs = encode a ++ rest

theorem run_bind (x : Reader ε α) (f : α → Reader ε β) (bs : List UInt8) :
    (x >>= f) bs = x bs >>= fun p => f p.1 p.2 := rfl

theorem run_bind_of {x : Reader ε α} {f : α → Reader ε β} {bs rest : List UInt8} {a : α}
    (h : x bs = .ok (a, rest)) : (x >>= f) bs = f a rest := by
  rw [run_bind, h]
  rfl

/-- The two halves of a successful run. -/
theorem bind_eq_ok {x : Reader ε α} {f : α → Reader ε β} {bs rest : List UInt8} {b : β}
    (h : (x >>= f) bs = .ok (b, rest)) :
    ∃ a mid, x bs = .ok (a, mid) ∧ f a mid = .ok (b, rest) := by
  rw [run_bind] at h
  cases hx : x bs with
  | error e =>
      rw [hx] at h
      cases h
  | ok p =>
      rw [hx] at h
      exact ⟨p.1, p.2, rfl, h⟩

/-- A failed check ends the whole decoder. -/
theorem fail_or_bind {p : Prop} [Decidable p] (e : ε) (x : Reader ε α) (f : α → Reader ε β) :
    (if p then fail e else x) >>= f = if p then fail e else x >>= f := by
  split
  · rfl
  · rfl

theorem Exact.congr {ok ok' : α → Prop} {enc enc' : α → List UInt8} {dec : Reader ε α}
    (h : Exact ok enc dec) (hok : ∀ a, ok a ↔ ok' a) (henc : ∀ a, enc a = enc' a) :
    Exact ok' enc' dec := by
  refine ⟨fun ha rest => ?_, fun hdec => ?_⟩
  · rw [← henc]
    exact h.reads ((hok _).mpr ha) rest
  · rw [← henc, ← hok]
    exact h.canonical hdec

/-- The end of a decoder: the parts read so far are the value. -/
theorem exact_pure {ok : α → Prop} {a : α} (ha : ok a) (huniq : ∀ c, ok c → c = a) :
    Exact ok (fun _ => []) (pure a : Reader ε α) := by
  refine ⟨fun hc rest => ?_, fun hdec => ?_⟩
  · rw [huniq _ hc]
    rfl
  · cases hdec
    exact ⟨ha, rfl⟩

/-- A part `g c` of the value, and then the rest of it. -/
theorem exact_bind {okA : α → Prop} {encA : α → List UInt8} {decA : Reader ε α} {ok : γ → Prop}
    {g : γ → α} {encB : γ → List UInt8} {f : α → Reader ε γ} (hA : Exact okA encA decA)
    (hg : ∀ c, ok c → okA (g c)) (hf : ∀ a, okA a → Exact (fun c => ok c ∧ g c = a) encB (f a)) :
    Exact ok (fun c => encA (g c) ++ encB c) (decA >>= f) := by
  refine ⟨fun {c} hc rest => ?_, fun hdec => ?_⟩
  · rw [List.append_assoc, run_bind_of (hA.reads (hg c hc) _)]
    exact (hf (g c) (hg c hc)).reads ⟨hc, rfl⟩ rest
  · obtain ⟨a, mid, ha, hrest⟩ := bind_eq_ok hdec
    obtain ⟨hok, rfl⟩ := hA.canonical ha
    obtain ⟨⟨hc, hga⟩, rfl⟩ := (hf a hok).canonical hrest
    exact ⟨hc, by rw [hga, List.append_assoc]⟩

/-- A value read in another form. -/
theorem exact_map {okA : α → Prop} {encA : α → List UInt8} {decA : Reader ε α} {ok : β → Prop}
    {f : α → β} (hA : Exact okA encA decA) (g : β → α) (hg : ∀ b, ok b → okA (g b) ∧ f (g b) = b)
    (hf : ∀ a, okA a → ok (f a) ∧ g (f a) = a) :
    Exact ok (fun b => encA (g b)) (decA >>= fun a => pure (f a)) := by
  have h : Exact ok (fun b => encA (g b) ++ []) (decA >>= fun a => pure (f a)) := by
    refine exact_bind hA (fun b hb => (hg b hb).1) fun a ha => exact_pure (hf a ha) ?_
    rintro b ⟨hb, rfl⟩
    exact (hg b hb).2.symm
  exact h.congr (fun _ => Iff.rfl) fun _ => List.append_nil _

/-- A limit the decoder checks. -/
theorem exact_check {ok : α → Prop} {enc : α → List UInt8} {dec : Reader ε α} {p : Prop}
    [Decidable p] (e : ε) (hp : ∀ c, ok c → ¬ p) (h : ¬ p → Exact ok enc dec) :
    Exact ok enc (if p then fail e else dec) := by
  by_cases hpos : p
  · rw [if_pos hpos]
    refine ⟨fun {c} hc _ => absurd hpos (hp c hc), fun hdec => ?_⟩
    cases hdec
  · rw [if_neg hpos]
    exact h hpos

/-- A check that the bytes left can hold the rest. -/
theorem exact_room {ok : α → Prop} {enc : α → List UInt8} {dec : Reader ε α} {n : Nat}
    (e : Nat → ε) (hn : ∀ c, ok c → n ≤ (enc c).length) (h : Exact ok enc dec) :
    Exact ok enc (do
      let left ← remaining
      if left < n then fail (e left) else dec) := by
  refine ⟨fun {c} hc rest => ?_, fun {bs a rest} hdec => ?_⟩
  · have hlen : ¬ (enc c ++ rest).length < n := by
      have := hn c hc
      rw [List.length_append]
      omega
    rw [run_bind_of (show remaining (enc c ++ rest) = .ok (_, _) from rfl), if_neg hlen]
    exact h.reads hc rest
  · rw [run_bind_of (show remaining bs = .ok (_, _) from rfl)] at hdec
    split at hdec
    · cases hdec
    · exact h.canonical hdec

theorem exact_take (short : List UInt8 → ε) (n : Nat) :
    Exact (fun bs => bs.length = n) id (take short n) := by
  refine ⟨fun {a} ha rest => ?_, fun {bs a rest} hdec => ?_⟩
  · unfold take
    rw [if_pos (by rw [id, List.length_append]; omega), id, List.take_left' ha, List.drop_left' ha]
  · unfold take at hdec
    split at hdec
    · cases hdec
      exact ⟨by rw [List.length_take]; omega, (List.take_append_drop n bs).symm⟩
    · cases hdec

theorem exact_readLE (short : List UInt8 → ε) (w : Nat) :
    Exact (fun n => n < 256 ^ w) (toLE w) (readLE short w) :=
  exact_map (exact_take short w) (toLE w)
    (fun n hn => ⟨toLE_length w n, ofLE_toLE_of_lt hn⟩)
    fun bs hbs => by
      subst hbs
      exact ⟨ofLE_lt bs, toLE_ofLE bs⟩

theorem exact_readUint32 (short : List UInt8 → ε) :
    Exact (fun _ => True) (fun v : UInt32 => toLE 4 v.toNat) (readUint32 short) :=
  exact_map (exact_readLE short 4) UInt32.toNat
    (fun v _ => ⟨v.toNat_lt, UInt32.ofNat_toNat⟩)
    fun n hn => ⟨trivial, by rw [UInt32.toNat_ofNat']; omega⟩

theorem exact_readUint64 (short : List UInt8 → ε) :
    Exact (fun _ => True) (fun v : UInt64 => toLE 8 v.toNat) (readUint64 short) :=
  exact_map (exact_readLE short 8) UInt64.toNat
    (fun v _ => ⟨v.toNat_lt, UInt64.ofNat_toNat⟩)
    fun n hn => ⟨trivial, by rw [UInt64.toNat_ofNat']; omega⟩

theorem exact_mapError {ok : α → Prop} {enc : α → List UInt8} {dec : Reader ε α} (f : ε → ε')
    (h : Exact ok enc dec) : Exact ok enc (mapError f dec) := by
  refine ⟨fun ha rest => ?_, fun {bs a rest} hdec => ?_⟩
  · unfold mapError
    rw [h.reads ha rest]
  · unfold mapError at hdec
    cases hbs : dec bs with
    | ok p =>
        rw [hbs] at hdec
        cases hdec
        exact h.canonical hbs
    | error e =>
        rw [hbs] at hdec
        cases hdec

theorem exact_many {ok : α → Prop} {enc : α → List UInt8} {dec : Nat → Reader ε α}
    (h : ∀ i, Exact ok enc (dec i)) (i n : Nat) :
    Exact (fun as => as.length = n ∧ ∀ a ∈ as, ok a) (fun as => as.flatMap enc)
      (many dec i n) := by
  induction n generalizing i with
  | zero =>
      refine ⟨fun {as} has rest => ?_, fun hdec => ?_⟩
      · rw [List.length_eq_zero_iff.mp has.1]
        rfl
      · cases hdec
        exact ⟨⟨rfl, fun _ ha => nomatch ha⟩, rfl⟩
  | succ n ih =>
      refine ⟨fun {as} has rest => ?_, fun {bs as rest} hdec => ?_⟩
      · obtain ⟨a, as, rfl⟩ := List.exists_cons_of_length_eq_add_one has.1
        obtain ⟨hlen, hall⟩ := has
        unfold many
        rw [List.flatMap_cons, List.append_assoc,
          run_bind_of ((h i).reads (hall a List.mem_cons_self) _),
          run_bind_of ((ih (i + 1)).reads ⟨Nat.succ.inj hlen,
            fun b hb => hall b (List.mem_cons_of_mem a hb)⟩ rest)]
        rfl
      · unfold many at hdec
        obtain ⟨a, mid, ha, hdec⟩ := bind_eq_ok hdec
        obtain ⟨as', mid', has, hdec⟩ := bind_eq_ok hdec
        cases hdec
        obtain ⟨hok, rfl⟩ := (h i).canonical ha
        obtain ⟨⟨hlen, hall⟩, rfl⟩ := (ih (i + 1)).canonical has
        refine ⟨⟨by rw [List.length_cons, hlen], fun b hb => ?_⟩, by
          rw [List.flatMap_cons, List.append_assoc]⟩
        rcases List.mem_cons.mp hb with rfl | hb
        · exact hok
        · exact hall b hb

/-! ### Whole files -/

theorem readAll_bind (trailing : Nat → ε) (x : Reader ε α) (f : α → Reader ε β)
    (bs : List UInt8) :
    readAll trailing (x >>= f) bs = x bs >>= fun p => readAll trailing (f p.1) p.2 := by
  unfold readAll
  rw [run_bind]
  cases x bs with
  | error e => rfl
  | ok p => rfl

theorem readAll_encode {ok : α → Prop} {enc : α → List UInt8} {dec : Reader ε α}
    (h : Exact ok enc dec) (trailing : Nat → ε) {a : α} (ha : ok a) :
    readAll trailing dec (enc a) = .ok a := by
  have hdec := h.reads ha []
  rw [List.append_nil] at hdec
  unfold readAll
  rw [hdec]
  rfl

theorem readAll_eq_ok {ok : α → Prop} {enc : α → List UInt8} {dec : Reader ε α}
    (h : Exact ok enc dec) {trailing : Nat → ε} {bs : List UInt8} {a : α}
    (hall : readAll trailing dec bs = .ok a) : ok a ∧ bs = enc a := by
  unfold readAll at hall
  cases hdec : dec bs with
  | error e =>
      rw [hdec] at hall
      cases hall
  | ok p =>
      obtain ⟨c, rest⟩ := p
      rw [hdec] at hall
      dsimp only at hall
      split at hall
      · cases hall
      · rename_i hrest
        cases hall
        have hnil : rest = [] := List.length_eq_zero_iff.mp (not_not.mp hrest)
        have hcanonical := h.canonical hdec
        rwa [hnil, List.append_nil] at hcanonical

end HyphaDB.Codec
