import Mathlib.Data.List.Basic

/-!
# HyphaDB.Lib.Base64

**Unpadded base64** with the alphabet for URLs. Three bytes make four symbols of six bits; one
or two bytes at the end make two or three symbols. Decoding skips line breaks and inverts
encoding (`decode_encode`).
-/

namespace HyphaDB.Base64

/-- The symbol of a six-bit value: `A`–`Z`, `a`–`z`, `0`–`9`, `-` and `_`. -/
def symbol (n : Nat) : UInt8 :=
  if n < 26 then UInt8.ofNat (65 + n)
  else if n < 52 then UInt8.ofNat (97 + (n - 26))
  else if n < 62 then UInt8.ofNat (48 + (n - 52))
  else if n = 62 then 45
  else 95

def value? (c : UInt8) : Option Nat :=
  if 65 ≤ c ∧ c ≤ 90 then some (c.toNat - 65)
  else if 97 ≤ c ∧ c ≤ 122 then some (c.toNat - 97 + 26)
  else if 48 ≤ c ∧ c ≤ 57 then some (c.toNat - 48 + 52)
  else if c = 45 then some 62
  else if c = 95 then some 63
  else none

def encode : List UInt8 → List UInt8
  | [] => []
  | [a] => [symbol (a.toNat / 4), symbol (a.toNat % 4 * 16)]
  | [a, b] =>
      [symbol (a.toNat / 4), symbol (a.toNat % 4 * 16 + b.toNat / 16), symbol (b.toNat % 16 * 4)]
  | a :: b :: c :: rest =>
      symbol (a.toNat / 4) :: symbol (a.toNat % 4 * 16 + b.toNat / 16) ::
        symbol (b.toNat % 16 * 4 + c.toNat / 64) :: symbol (c.toNat % 64) :: encode rest

/-- Decode symbols, four at a time. The bits left over at the end are not checked. -/
def decodeSymbols : List UInt8 → Option (List UInt8)
  | [] => some []
  | [_] => none
  | [w, x] =>
      match value? w, value? x with
      | some w, some x => some [UInt8.ofNat (w * 4 + x / 16)]
      | _, _ => none
  | [w, x, y] =>
      match value? w, value? x, value? y with
      | some w, some x, some y =>
          some [UInt8.ofNat (w * 4 + x / 16), UInt8.ofNat (x % 16 * 16 + y / 4)]
      | _, _, _ => none
  | w :: x :: y :: z :: rest =>
      match value? w, value? x, value? y, value? z, decodeSymbols rest with
      | some w, some x, some y, some z, some bytes =>
          some (UInt8.ofNat (w * 4 + x / 16) :: UInt8.ofNat (x % 16 * 16 + y / 4) ::
            UInt8.ofNat (y % 4 * 64 + z) :: bytes)
      | _, _, _, _, _ => none

/-- Decode a text, in which line breaks do not count. -/
def decode (text : List UInt8) : Option (List UInt8) :=
  decodeSymbols (text.filter fun c => c ≠ 10 && c ≠ 13)

theorem value?_symbol {n : Nat} (h : n < 64) : value? (symbol n) = some n := by
  have hall : ∀ n : Fin 64, value? (symbol n) = some n.val := by decide
  exact hall ⟨n, h⟩

theorem symbol_ne_break {n : Nat} (h : n < 64) : symbol n ≠ 10 ∧ symbol n ≠ 13 := by
  have hall : ∀ n : Fin 64, symbol n ≠ 10 ∧ symbol n ≠ 13 := by decide
  exact hall ⟨n, h⟩

theorem ofNat_eq {a : UInt8} {n : Nat} (h : n = a.toNat) : UInt8.ofNat n = a := by
  rw [h]
  exact UInt8.ofNat_toNat

/-- Encoded text has no line breaks. -/
theorem encode_no_break (bytes : List UInt8) : ∀ s ∈ encode bytes, s ≠ 10 ∧ s ≠ 13 := by
  fun_induction encode bytes with
  | case1 => simp
  | case2 a =>
      have ha := a.toNat_lt
      intro s hs
      simp only [List.mem_cons, List.not_mem_nil, or_false] at hs
      rcases hs with rfl | rfl
      · exact symbol_ne_break (by omega)
      · exact symbol_ne_break (by omega)
  | case3 a b =>
      have ha := a.toNat_lt
      have hb := b.toNat_lt
      intro s hs
      simp only [List.mem_cons, List.not_mem_nil, or_false] at hs
      rcases hs with rfl | rfl | rfl
      · exact symbol_ne_break (by omega)
      · exact symbol_ne_break (by omega)
      · exact symbol_ne_break (by omega)
  | case4 a b c rest ih =>
      have ha := a.toNat_lt
      have hb := b.toNat_lt
      have hc := c.toNat_lt
      intro s hs
      simp only [List.mem_cons] at hs
      rcases hs with rfl | rfl | rfl | rfl | hs
      · exact symbol_ne_break (by omega)
      · exact symbol_ne_break (by omega)
      · exact symbol_ne_break (by omega)
      · exact symbol_ne_break (by omega)
      · exact ih s hs

theorem decodeSymbols_encode (bytes : List UInt8) : decodeSymbols (encode bytes) = some bytes := by
  fun_induction encode bytes with
  | case1 => rfl
  | case2 a =>
      have ha := a.toNat_lt
      rw [decodeSymbols, value?_symbol (by omega), value?_symbol (by omega)]
      simp only [Option.some.injEq, List.cons.injEq, and_true]
      exact ofNat_eq (by omega)
  | case3 a b =>
      have ha := a.toNat_lt
      have hb := b.toNat_lt
      rw [decodeSymbols, value?_symbol (by omega), value?_symbol (by omega),
        value?_symbol (by omega)]
      simp only [Option.some.injEq, List.cons.injEq, and_true]
      exact ⟨ofNat_eq (by omega), ofNat_eq (by omega)⟩
  | case4 a b c rest ih =>
      have ha := a.toNat_lt
      have hb := b.toNat_lt
      have hc := c.toNat_lt
      rw [decodeSymbols, value?_symbol (by omega), value?_symbol (by omega),
        value?_symbol (by omega), value?_symbol (by omega), ih]
      simp only [Option.some.injEq, List.cons.injEq, and_true]
      exact ⟨ofNat_eq (by omega), ofNat_eq (by omega), ofNat_eq (by omega)⟩

/-- **Decoding inverts encoding.** -/
theorem decode_encode (bytes : List UInt8) : decode (encode bytes) = some bytes := by
  have hfilter : (encode bytes).filter (fun c => c ≠ 10 && c ≠ 13) = encode bytes :=
    List.filter_eq_self.mpr fun s hs => by simp [encode_no_break bytes s hs]
  unfold decode
  rw [hfilter, decodeSymbols_encode]

/-- Only nothing is encoded as nothing. -/
theorem encode_eq_nil {bytes : List UInt8} : encode bytes = [] ↔ bytes = [] := by
  refine ⟨fun h => ?_, fun h => (by rw [h]; rfl)⟩
  have hdec := decode_encode bytes
  rw [h] at hdec
  exact (Option.some.inj hdec).symm

end HyphaDB.Base64
