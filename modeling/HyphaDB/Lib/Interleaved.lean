import HyphaDB.Lib.Checked

/-!
# HyphaDB.Lib.Interleaved

**Programs that share a state.** A `Prog` touches the shared state in atomic steps, and between two
of its steps others may have changed that state. Its proof therefore knows of the state only an
invariant `I`: `Ends I Q p` says that every step of `p` keeps `I` and that, whatever the others do
under `I`, `p` ends with an outcome in `Q`. There is one rule for each way a program is built.

`Agrees I p y` is the special case in which the outcome is that of a computation `y` that has no
shared state at all: the state is not observable. `runThreads_ends` is what the rules are for: any
number of such programs, their steps in any order.
-/

namespace HyphaDB.Interleaved

open Checked

/-- A program that has ended, or does one atomic step and goes on by the state it found. -/
inductive Prog (σ ε α : Type)
  | done (r : Attempt ε α)
  | step (act : σ → σ) (next : σ → Prog σ ε α)

variable {σ ε ε' α β : Type}

namespace Prog

protected def bind : Prog σ ε α → (α → Prog σ ε β) → Prog σ ε β
  | .done (.ok a), f => f a
  | .done (.error s), _ => .done (.error s)
  | .step act next, f => .step act fun w => (next w).bind f

instance : Monad (Prog σ ε) where
  pure a := .done (.ok a)
  bind := Prog.bind

/-- A computation that does not touch the state. -/
def lift (x : Attempt ε α) : Prog σ ε α := .done x

/-- One step: an outcome and a new state. -/
def atomic (f : σ → Attempt ε α × σ) : Prog σ ε α :=
  .step (fun w => (f w).2) fun w => .done (f w).1

/-- Go on from an error as well. -/
def handle : Prog σ ε α → (ε → Prog σ ε' β) → (α → Prog σ ε' β) → Prog σ ε' β
  | .done (.ok a), _, onValue => onValue a
  | .done (.error (.failed e)), onError, _ => onError e
  | .done (.error (.fault f)), _, _ => .done (.error (.fault f))
  | .step act next, onError, onValue => .step act fun w => (next w).handle onError onValue

def mapError (f : ε → ε') (p : Prog σ ε α) : Prog σ ε' α :=
  p.handle (fun e => lift (fail (f e))) pure

/-- A program that reports no errors, among programs that do. -/
def widen (p : Prog σ Empty α) : Prog σ ε α := p.mapError Empty.elim

/-- All steps without a break. -/
def run : Prog σ ε α → σ → Attempt ε α × σ
  | .done r, w => (r, w)
  | .step act next, w => (next w).run (act w)

end Prog

theorem lift_ok_bind (a : α) (f : α → Prog σ ε β) : (Prog.lift (.ok a) >>= f) = f a := rfl

/-! ### Outcomes under an invariant -/

/-- `p` keeps `I` at each step and ends in `Q`, whatever happens between its steps under `I`. -/
inductive Ends (I : σ → Prop) (Q : Attempt ε α → Prop) : Prog σ ε α → Prop
  | done {r : Attempt ε α} (h : Q r) : Ends I Q (.done r)
  | step {act : σ → σ} {next : σ → Prog σ ε α} (hkeep : ∀ w, I w → I (act w))
      (hnext : ∀ w, I w → Ends I Q (next w)) : Ends I Q (.step act next)

section Ends

variable {I : σ → Prop} {P : Attempt ε α → Prop} {Q : Attempt ε β → Prop} {p : Prog σ ε α}

theorem Ends.mono {P' : Attempt ε α → Prop} (h : Ends I P p) (himp : ∀ r, P r → P' r) :
    Ends I P' p := by
  induction h with
  | done h => exact .done (himp _ h)
  | step hkeep _ ih => exact .step hkeep ih

theorem ends_atomic {f : σ → Attempt ε α × σ} (h : ∀ w, I w → P (f w).1 ∧ I (f w).2) :
    Ends I P (.atomic f) :=
  .step (fun w hw => (h w hw).2) fun w hw => .done (h w hw).1

theorem ends_bind {f : α → Prog σ ε β} (h : Ends I P p) (hok : ∀ a, P (.ok a) → Ends I Q (f a))
    (herr : ∀ s, P (.error s) → Q (.error s)) : Ends I Q (p >>= f) := by
  induction h with
  | @done r h =>
      cases r with
      | ok a => exact hok a h
      | error s => exact .done (herr s h)
  | step hkeep _ ih => exact .step hkeep ih

theorem ends_handle {Q : Attempt ε' β → Prop} {onError : ε → Prog σ ε' β}
    {onValue : α → Prog σ ε' β} (h : Ends I P p) (hok : ∀ a, P (.ok a) → Ends I Q (onValue a))
    (herr : ∀ e, P (.error (.failed e)) → Ends I Q (onError e))
    (hfault : ∀ f, P (.error (.fault f)) → Q (.error (.fault f))) :
    Ends I Q (p.handle onError onValue) := by
  induction h with
  | @done r h =>
      cases r with
      | ok a => exact hok a h
      | error s =>
          cases s with
          | failed e => exact herr e h
          | fault f => exact .done (hfault f h)
  | step hkeep _ ih => exact .step hkeep ih

theorem ends_mapError {Q : Attempt ε' α → Prop} {f : ε → ε'}
    (h : Ends I (fun r => Q (Checked.mapError f r)) p) : Ends I Q (p.mapError f) :=
  ends_handle h (fun _ ha => .done ha) (fun _ he => .done he) fun _ hf => hf

/-- Without others. -/
theorem Ends.run (h : Ends I P p) {w : σ} (hw : I w) : P (p.run w).1 ∧ I (p.run w).2 := by
  induction h generalizing w with
  | done h => exact ⟨h, hw⟩
  | step hkeep _ ih => exact ih w hw (hkeep w hw)

end Ends

/-! ### A state that is not observable -/

/-- `p` has the outcome of `y`. -/
abbrev Agrees (I : σ → Prop) (p : Prog σ ε α) (y : Attempt ε α) : Prop := Ends I (· = y) p

section Agrees

variable {I : σ → Prop} {p : Prog σ ε α} {y : Attempt ε α}

theorem agrees_lift (y : Attempt ε α) : Agrees I (.lift y) y := .done rfl

theorem agrees_pure (a : α) : Agrees I (pure a : Prog σ ε α) (pure a) := .done rfl

theorem agrees_bind {f : α → Prog σ ε β} {g : α → Attempt ε β} (h : Agrees I p y)
    (hf : ∀ a, y = .ok a → Agrees I (f a) (g a)) : Agrees I (p >>= f) (y >>= g) := by
  cases y with
  | ok a => exact ends_bind h (fun b hb => Except.ok.inj hb ▸ hf a rfl) fun s hs => by cases hs
  | error s => exact ends_bind h (fun b hb => by cases hb) fun s' hs => by cases hs; rfl

theorem agrees_handle {onError : ε → Prog σ ε' β} {onValue : α → Prog σ ε' β}
    {onError' : ε → Attempt ε' β} {onValue' : α → Attempt ε' β} (h : Agrees I p y)
    (hok : ∀ a, y = .ok a → Agrees I (onValue a) (onValue' a))
    (herr : ∀ e, Agrees I (onError e) (onError' e)) :
    Agrees I (p.handle onError onValue) (Checked.handle y onError' onValue') := by
  refine ends_handle h (fun a ha => ?_) (fun e he => ?_) fun f hf => ?_
  · subst ha
    exact hok a rfl
  · subst he
    exact herr e
  · subst hf
    rfl

theorem agrees_mapError {f : ε → ε'} (h : Agrees I p y) :
    Agrees I (p.mapError f) (Checked.mapError f y) :=
  ends_mapError (Ends.mono h fun _ hr => hr ▸ rfl)

theorem agrees_ite {c : Prop} [Decidable c] {q : Prog σ ε α} {z : Attempt ε α}
    (ht : c → Agrees I p y) (he : ¬c → Agrees I q z) :
    Agrees I (if c then p else q) (if c then y else z) := by
  split
  · exact ht ‹_›
  · exact he ‹_›

end Agrees

/-! ### Programs that may fail -/

/-- `p` has a value in `P`, or it fails and that is allowed. -/
abbrev Tries (I : σ → Prop) (fallible : Prop) (p : Prog σ ε α) (P : α → Prop) : Prop :=
  Ends I (fun r => (∃ a, r = .ok a ∧ P a) ∨ fallible ∧ ∃ e, r = fail e) p

section Tries

variable {I : σ → Prop} {fallible : Prop} {p : Prog σ ε α} {P : α → Prop} {Q : β → Prop}

theorem tries_pure {a : α} (h : P a) : Tries I fallible (pure a : Prog σ ε α) P :=
  .done (Or.inl ⟨a, rfl, h⟩)

theorem tries_fail (h : fallible) (e : ε) : Tries I fallible (.lift (fail e) : Prog σ ε α) P :=
  .done (Or.inr ⟨h, e, rfl⟩)

theorem tries_bind {f : α → Prog σ ε β} (h : Tries I fallible p P)
    (hf : ∀ a, P a → Tries I fallible (f a) Q) : Tries I fallible (p >>= f) Q := by
  refine ends_bind h (fun a ha => ?_) fun s hs => ?_
  · rcases ha with ⟨b, hb, hP⟩ | ⟨-, e, he⟩
    · cases hb
      exact hf a hP
    · cases he
  · rcases hs with ⟨b, hb, -⟩ | ⟨hfail, e, he⟩
    · cases hb
    · cases he
      exact Or.inr ⟨hfail, e, rfl⟩

theorem Tries.mono {P' : α → Prop} (h : Tries I fallible p P) (himp : ∀ a, P a → P' a) :
    Tries I fallible p P' := by
  refine Ends.mono h fun r hr => hr.imp_left fun hr => ?_
  obtain ⟨a, ha, hP⟩ := hr
  exact ⟨a, ha, himp a hP⟩

theorem Agrees.tries {y : Attempt ε α} (h : Agrees I p y) {a : α} (hy : y = .ok a) (hP : P a) :
    Tries I fallible p P :=
  Ends.mono h fun _ hr => Or.inl ⟨a, hr.trans hy, hP⟩

theorem tries_mapError {f : ε → ε'} (h : Tries I fallible p P) :
    Ends I (fun r => (∃ a, r = .ok a ∧ P a) ∨ fallible ∧ ∃ e, r = fail (f e)) (p.mapError f) := by
  refine ends_mapError (Ends.mono h fun r hr => ?_)
  rcases hr with ⟨a, rfl, hP⟩ | ⟨hfail, e, rfl⟩
  · exact Or.inl ⟨a, rfl, hP⟩
  · exact Or.inr ⟨hfail, e, rfl⟩

theorem tries_widen {p : Prog σ Empty α} (h : Tries I fallible p P) :
    Tries I fallible (p.widen : Prog σ ε α) P :=
  Ends.mono (tries_mapError h) fun _ hr => hr.imp_right fun h => h.2.elim fun e _ => e.elim

end Tries

/-! ### Threads -/

/-- Thread `i` does its next step, if it has one. -/
def turn (c : σ × List (Prog σ ε α)) (i : Nat) : σ × List (Prog σ ε α) :=
  match c.2[i]? with
  | some (.step act next) => (act c.1, c.2.set i (next c.1))
  | _ => c

/-- A schedule says which thread is next. -/
def runThreads (c : σ × List (Prog σ ε α)) (schedule : List Nat) : σ × List (Prog σ ε α) :=
  schedule.foldl turn c

section Threads

variable {ι : Type} {I : σ → Prop} {outcome : ι → Attempt ε α → Prop} {jobs : List ι}

/-- Every thread is on its way to the outcome of its job. -/
def OnTheWay (I : σ → Prop) (outcome : ι → Attempt ε α → Prop) (jobs : List ι)
    (c : σ × List (Prog σ ε α)) : Prop :=
  I c.1 ∧ ∀ i : Nat, Option.Rel (fun job => Ends I (outcome job)) jobs[i]? c.2[i]?

theorem turn_onTheWay {c : σ × List (Prog σ ε α)} (h : OnTheWay I outcome jobs c) (i : Nat) :
    OnTheWay I outcome jobs (turn c i) := by
  obtain ⟨w, ps⟩ := c
  obtain ⟨hw, hps⟩ := h
  unfold turn
  dsimp only at hw hps ⊢
  cases hi : ps[i]? with
  | none => exact ⟨hw, hps⟩
  | some p =>
      cases p with
      | done r => exact ⟨hw, hps⟩
      | step act next =>
          have hrel := hps i
          rw [hi] at hrel
          generalize hjob : jobs[i]? = job at hrel
          cases hrel with
          | some hends =>
              cases hends with
              | step hkeep hnext =>
                  refine ⟨hkeep w hw, fun j => ?_⟩
                  by_cases hij : i = j
                  · subst hij
                    rw [hjob, List.getElem?_set_self (List.getElem?_eq_some_iff.mp hi).1]
                    exact .some (hnext w hw)
                  · rw [List.getElem?_set_ne hij]
                    exact hps j

theorem runThreads_onTheWay {c : σ × List (Prog σ ε α)} (h : OnTheWay I outcome jobs c)
    (schedule : List Nat) : OnTheWay I outcome jobs (runThreads c schedule) := by
  induction schedule generalizing c with
  | nil => exact h
  | cons i schedule ih => exact ih (turn_onTheWay h i)

/-- **Every order of steps.** A thread has one of its outcomes when it has ended, and gets there
when it is left alone. -/
theorem runThreads_ends {prog : ι → Prog σ ε α} {w : σ} (hw : I w)
    (h : ∀ job ∈ jobs, Ends I (outcome job) (prog job)) (schedule : List Nat) {i : Nat} {job : ι}
    (hi : jobs[i]? = some job) :
    let c := runThreads (w, jobs.map prog) schedule
    ∃ p, c.2[i]? = some p ∧ outcome job (p.run c.1).1 := by
  have hway : OnTheWay I outcome jobs (w, jobs.map prog) := by
    refine ⟨hw, fun j => ?_⟩
    rw [List.getElem?_map]
    cases hj : jobs[j]? with
    | none => exact .none
    | some job => exact .some (h job (List.mem_of_getElem? hj))
  obtain ⟨hw', hps⟩ := runThreads_onTheWay hway schedule
  have hrel := hps i
  rw [hi] at hrel
  generalize hp : (runThreads (w, jobs.map prog) schedule).2[i]? = p at hrel
  cases hrel with
  | some hends => exact ⟨_, hp, (hends.run hw').1⟩

end Threads

end HyphaDB.Interleaved
