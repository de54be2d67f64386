import HyphaDB.Lib.Checked

/-!
# HyphaDB.Lib.Reserving

**Computations that reserve memory.** A `Reserving` computation may fail, and it keeps the
capacities it has asked for on the way, also those it asked for before it failed. `Within P x`
says that all of them satisfy `P`.
-/

namespace HyphaDB

structure Reserving (σ α : Type) where
  reserved : List Nat
  outcome : Except σ α

namespace Reserving

variable {σ α β : Type}

instance : Monad (Reserving σ) where
  pure a := ⟨[], .ok a⟩
  bind x f :=
    match x.outcome with
    | .ok a => ⟨x.reserved ++ (f a).reserved, (f a).outcome⟩
    | .error e => ⟨x.reserved, .error e⟩

/-- Make room for `n` entries. -/
def reserve (n : Nat) : Reserving σ Unit := ⟨[n], .ok ()⟩

/-- A computation that reserves nothing. -/
def lift (x : Except σ α) : Reserving σ α := ⟨[], x⟩

/-- The outcome does not depend on what is reserved. -/
@[simp] theorem outcome_bind (x : Reserving σ α) (f : α → Reserving σ β) :
    (x >>= f).outcome = x.outcome >>= fun a => (f a).outcome := by
  show Reserving.outcome (match x.outcome with
    | .ok a => ⟨x.reserved ++ (f a).reserved, (f a).outcome⟩
    | .error e => ⟨x.reserved, .error e⟩) = _
  cases x.outcome with
  | ok a => rfl
  | error e => rfl

@[simp] theorem outcome_lift (x : Except σ α) : (lift x).outcome = x := rfl

@[simp] theorem outcome_reserve (n : Nat) : (reserve n : Reserving σ Unit).outcome = .ok () := rfl

/-- All that is reserved satisfies `P`. -/
def Within (P : Nat → Prop) (x : Reserving σ α) : Prop := ∀ n ∈ x.reserved, P n

variable {P : Nat → Prop}

theorem reserved_bind {x : Reserving σ α} {f : α → Reserving σ β} {a : α}
    (h : x.outcome = .ok a) : (x >>= f).reserved = x.reserved ++ (f a).reserved := by
  show Reserving.reserved (match x.outcome with
    | .ok a => ⟨x.reserved ++ (f a).reserved, (f a).outcome⟩
    | .error e => ⟨x.reserved, .error e⟩) = _
  rw [h]

theorem reserved_bind_error {x : Reserving σ α} {f : α → Reserving σ β} {e : σ}
    (h : x.outcome = .error e) : (x >>= f).reserved = x.reserved := by
  show Reserving.reserved (match x.outcome with
    | .ok a => ⟨x.reserved ++ (f a).reserved, (f a).outcome⟩
    | .error e => ⟨x.reserved, .error e⟩) = _
  rw [h]

theorem reserved_lift_bind {x : Except σ α} {f : α → Reserving σ β} {a : α} (h : x = .ok a) :
    (lift x >>= f).reserved = (f a).reserved := by
  subst h
  exact reserved_bind (outcome_lift (.ok a))

theorem reserved_lift_bind_error {x : Except σ α} {f : α → Reserving σ β} {e : σ}
    (h : x = .error e) : (lift x >>= f).reserved = [] := by
  subst h
  exact reserved_bind_error (outcome_lift (.error e))

theorem reserved_reserve_bind (n : Nat) (f : Unit → Reserving σ β) :
    (reserve n >>= f).reserved = n :: (f ()).reserved :=
  reserved_bind (outcome_reserve n)

theorem within_lift (x : Except σ α) : (lift x).Within P := fun _ hn => (nomatch hn)

theorem within_reserve {n : Nat} : (reserve n : Reserving σ Unit).Within P ↔ P n := by
  refine ⟨fun h => h n List.mem_cons_self, fun h m hm => ?_⟩
  rw [List.mem_singleton.mp hm]
  exact h

theorem within_bind {x : Reserving σ α} {f : α → Reserving σ β} (hx : x.Within P)
    (hf : ∀ a, x.outcome = .ok a → (f a).Within P) : (x >>= f).Within P := by
  intro n hn
  cases h : x.outcome with
  | error e =>
      rw [reserved_bind_error h] at hn
      exact hx n hn
  | ok a =>
      rw [reserved_bind h] at hn
      rcases List.mem_append.mp hn with hn | hn
      · exact hx n hn
      · exact hf a h n hn

end Reserving

end HyphaDB
