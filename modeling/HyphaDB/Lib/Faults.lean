import Mathlib.Logic.Function.Basic

/-!
# HyphaDB.Lib.Faults

**Programs whose calls may fail.** A program changes a state through calls of the
environment; each call meets a **fate**: it is done, it fails after some part of its work
and the program sees an error, or the process is killed in the middle of it. A list of
fates makes a run of a program a function, so that it can be evaluated; a **fault
model** says which fates which kind of call can meet, and a fate outside the model reads
as `done`.

`wp M p Q s` says that every run of `p` from `s` under `M` ends in `Q`, which has one
condition for each way to end. The rules below are what a proof about a program uses in
place of its runs.
-/

namespace HyphaDB.Faults

/-- What happens to one call. The number says how much of its work was done. -/
inductive Fate
  | done
  | fail (n : Nat)
  | kill (n : Nat)
  deriving Repr, DecidableEq

/-- How a program ends. -/
inductive Outcome (σ ε α : Type)
  | ret (a : α) (s : σ) (fates : List Fate)
  | err (e : ε) (s : σ) (fates : List Fate)
  | killed (s : σ)

/-- Which fates a call of a kind can meet. -/
def Model (κ : Type) : Type := κ → Fate → Bool

/-- A program over states `σ` with errors `ε`, whose calls are of kinds `κ`. -/
def Prog (κ σ ε α : Type) : Type := Model κ → σ → List Fate → Outcome σ ε α

namespace Prog

variable {κ σ ε α β : Type}

/-- One call: `eff` is its effect under each fate, `e` the error it fails with. -/
def call (c : κ) (e : ε) (eff : σ → Fate → σ) : Prog κ σ ε Unit
  | _, s, [] => .ret () (eff s .done) []
  | _, s, .done :: fates => .ret () (eff s .done) fates
  | M, s, .fail n :: fates =>
      if M c (.fail n) then .err e (eff s (.fail n)) fates else .ret () (eff s .done) fates
  | M, s, .kill n :: fates =>
      if M c (.kill n) then .killed (eff s (.kill n)) else .ret () (eff s .done) fates

instance : Monad (Prog κ σ ε) where
  pure a := fun _ s fates => .ret a s fates
  bind p f := fun M s fates =>
    match p M s fates with
    | .ret a s fates => f a M s fates
    | .err e s fates => .err e s fates
    | .killed s => .killed s

theorem bind_eq (p : Prog κ σ ε α) (f : α → Prog κ σ ε β) (M : Model κ) (s : σ)
    (fates : List Fate) :
    (p >>= f) M s fates =
      match p M s fates with
      | .ret a s fates => f a M s fates
      | .err e s fates => .err e s fates
      | .killed s => .killed s := rfl

def throw (e : ε) : Prog κ σ ε α := fun _ s fates => .err e s fates

def get : Prog κ σ ε σ := fun _ s fates => .ret s s fates

def modify (f : σ → σ) : Prog κ σ ε Unit := fun _ s fates => .ret () (f s) fates

/-- Go on with a result or an error that needs no call. -/
def ofExcept : Except ε α → Prog κ σ ε α
  | .ok a => pure a
  | .error e => throw e

/-- Run a program and hand its error to the code that follows. -/
def attempt (p : Prog κ σ ε α) : Prog κ σ ε (Except ε α) := fun M s fates =>
  match p M s fates with
  | .ret a s fates => .ret (.ok a) s fates
  | .err e s fates => .ret (.error e) s fates
  | .killed s => .killed s

/-- Run a program on a part of the state. -/
def zoom {τ : Type} (part : σ → τ) (put : τ → σ → σ) (p : Prog κ τ ε α) : Prog κ σ ε α :=
  fun M s fates =>
    match p M (part s) fates with
    | .ret a t fates => .ret a (put t s) fates
    | .err e t fates => .err e (put t s) fates
    | .killed t => .killed (put t s)

/-- Run a program for each element of a list, first to last. -/
def forEach (f : β → Prog κ σ ε Unit) : List β → Prog κ σ ε Unit
  | [] => pure ()
  | b :: bs => do f b; forEach f bs

end Prog

/-! ### Weakest preconditions -/

/-- A condition for each way a program can end. -/
structure Post (σ ε α : Type) where
  ret : α → σ → Prop
  err : ε → σ → Prop
  kill : σ → Prop

section Wp

variable {κ σ ε α β : Type} {M : Model κ} {Q : Post σ ε α} {s : σ}

def Outcome.Sat (Q : Post σ ε α) : Outcome σ ε α → Prop
  | .ret a s _ => Q.ret a s
  | .err e s _ => Q.err e s
  | .killed s => Q.kill s

/-- Every run of `p` from `s` ends in `Q`. -/
def wp (M : Model κ) (p : Prog κ σ ε α) (Q : Post σ ε α) (s : σ) : Prop :=
  ∀ fates, (p M s fates).Sat Q

theorem wp_mono {Q' : Post σ ε α} {p : Prog κ σ ε α} (h : wp M p Q s)
    (hret : ∀ a t, Q.ret a t → Q'.ret a t) (herr : ∀ e t, Q.err e t → Q'.err e t)
    (hkill : ∀ t, Q.kill t → Q'.kill t) : wp M p Q' s := by
  intro fates
  have h1 := h fates
  cases hp : p M s fates with
  | ret a t rest => rw [hp] at h1; exact hret a t h1
  | err e t rest => rw [hp] at h1; exact herr e t h1
  | killed t => rw [hp] at h1; exact hkill t h1

theorem wp_and {Q' : Post σ ε α} {p : Prog κ σ ε α} (h : wp M p Q s) (h' : wp M p Q' s) :
    wp M p ⟨fun a t => Q.ret a t ∧ Q'.ret a t, fun e t => Q.err e t ∧ Q'.err e t,
      fun t => Q.kill t ∧ Q'.kill t⟩ s := by
  intro fates
  have h1 := h fates
  have h2 := h' fates
  cases hp : p M s fates with
  | ret a t rest => rw [hp] at h1 h2; exact ⟨h1, h2⟩
  | err e t rest => rw [hp] at h1 h2; exact ⟨h1, h2⟩
  | killed t => rw [hp] at h1 h2; exact ⟨h1, h2⟩

theorem wp_true (p : Prog κ σ ε α) :
    wp M p ⟨fun _ _ => True, fun _ _ => True, fun _ => True⟩ s := by
  intro fates
  cases p M s fates with
  | ret a t rest => trivial
  | err e t rest => trivial
  | killed t => trivial

theorem wp_pure {a : α} (h : Q.ret a s) : wp M (pure a) Q s := fun _ => h

theorem wp_throw {e : ε} (h : Q.err e s) : wp M (Prog.throw e) Q s := fun _ => h

theorem wp_get {Q : Post σ ε σ} (h : Q.ret s s) : wp M Prog.get Q s := fun _ => h

theorem wp_modify {Q : Post σ ε Unit} {f : σ → σ} (h : Q.ret () (f s)) :
    wp M (Prog.modify f) Q s := fun _ => h

theorem wp_bind {Q : Post σ ε β} {p : Prog κ σ ε α} {f : α → Prog κ σ ε β}
    (h : wp M p ⟨fun a t => wp M (f a) Q t, Q.err, Q.kill⟩ s) : wp M (p >>= f) Q s := by
  intro fates
  have h1 := h fates
  rw [Prog.bind_eq]
  cases hp : p M s fates with
  | ret a t rest => rw [hp] at h1; exact h1 rest
  | err e t rest => rw [hp] at h1; exact h1
  | killed t => rw [hp] at h1; exact h1

/-- A call: it is done, or it meets one of the fates the model allows. -/
theorem wp_call {Q : Post σ ε Unit} {c : κ} {e : ε} {eff : σ → Fate → σ}
    (hdone : Q.ret () (eff s .done))
    (hfail : ∀ n, M c (.fail n) = true → Q.err e (eff s (.fail n)))
    (hkill : ∀ n, M c (.kill n) = true → Q.kill (eff s (.kill n))) :
    wp M (Prog.call c e eff) Q s := by
  intro fates
  match fates with
  | [] => exact hdone
  | .done :: _ => exact hdone
  | .fail n :: rest =>
      show Outcome.Sat Q (if M c (.fail n) then .err e (eff s (.fail n)) rest else _)
      split
      · exact hfail n ‹_›
      · exact hdone
  | .kill n :: rest =>
      show Outcome.Sat Q (if M c (.kill n) then .killed (eff s (.kill n)) else _)
      split
      · exact hkill n ‹_›
      · exact hdone

theorem wp_ofExcept {x : Except ε α} (hok : ∀ a, x = .ok a → Q.ret a s)
    (herr : ∀ e, x = .error e → Q.err e s) : wp M (Prog.ofExcept x) Q s := by
  cases x with
  | ok a => exact wp_pure (hok a rfl)
  | error e => exact wp_throw (herr e rfl)

theorem wp_attempt {Q : Post σ ε (Except ε α)} {p : Prog κ σ ε α}
    (h : wp M p ⟨fun a t => Q.ret (.ok a) t, fun e t => Q.ret (.error e) t, Q.kill⟩ s) :
    wp M (Prog.attempt p) Q s := by
  intro fates
  have h1 := h fates
  unfold Prog.attempt
  cases hp : p M s fates with
  | ret a t rest => rw [hp] at h1; exact h1
  | err e t rest => rw [hp] at h1; exact h1
  | killed t => rw [hp] at h1; exact h1

theorem wp_zoom {τ : Type} {part : σ → τ} {put : τ → σ → σ} {p : Prog κ τ ε α}
    (h : wp M p ⟨fun a t => Q.ret a (put t s), fun e t => Q.err e (put t s),
      fun t => Q.kill (put t s)⟩ (part s)) : wp M (Prog.zoom part put p) Q s := by
  intro fates
  have h1 := h fates
  unfold Prog.zoom
  cases hp : p M (part s) fates with
  | ret a t rest => rw [hp] at h1; exact h1
  | err e t rest => rw [hp] at h1; exact h1
  | killed t => rw [hp] at h1; exact h1

/-- A loop keeps what each of its turns keeps; `I` speaks of the elements still to come. -/
theorem wp_forEach {Q : Post σ ε Unit} {f : β → Prog κ σ ε Unit} (I : List β → σ → Prop)
    (hstep : ∀ b bs t, I (b :: bs) t → wp M (f b) ⟨fun _ u => I bs u, Q.err, Q.kill⟩ t)
    (hdone : ∀ t, I [] t → Q.ret () t) {bs : List β} (h : I bs s) :
    wp M (Prog.forEach f bs) Q s := by
  induction bs generalizing s with
  | nil => exact wp_pure (hdone s h)
  | cons b bs ih =>
      apply wp_bind
      exact wp_mono (hstep b bs s h) (fun _ t ht => ih ht) (fun _ _ he => he) (fun _ hk => hk)

end Wp

/-! ### What a program keeps -/

section Keeps

variable {κ σ τ ε α β : Type} {I : σ → Prop}

/-- Whatever becomes of its calls, the program keeps `I`. -/
def Keeps (I : σ → Prop) (p : Prog κ σ ε α) : Prop :=
  ∀ M s, I s → wp M p ⟨fun _ t => I t, fun _ t => I t, I⟩ s

theorem keeps_pure (a : α) : Keeps I (pure a : Prog κ σ ε α) := fun _ _ h => wp_pure h

theorem keeps_throw (e : ε) : Keeps I (Prog.throw e : Prog κ σ ε α) := fun _ _ h => wp_throw h

theorem keeps_get : Keeps I (Prog.get : Prog κ σ ε σ) := fun _ _ h => wp_get h

theorem keeps_modify {f : σ → σ} (hf : ∀ s, I s → I (f s)) :
    Keeps I (Prog.modify f : Prog κ σ ε Unit) := fun _ s h => wp_modify (hf s h)

theorem keeps_call {c : κ} {e : ε} {eff : σ → Fate → σ} (heff : ∀ s fate, I s → I (eff s fate)) :
    Keeps I (Prog.call c e eff) :=
  fun _ s h => wp_call (heff s _ h) (fun _ _ => heff s _ h) fun _ _ => heff s _ h

theorem keeps_bind {p : Prog κ σ ε α} {f : α → Prog κ σ ε β} (hp : Keeps I p)
    (hf : ∀ a, Keeps I (f a)) : Keeps I (p >>= f) :=
  fun M s h => wp_bind (wp_mono (hp M s h) (fun a t ht => hf a M t ht) (fun _ _ ht => ht)
    fun _ ht => ht)

theorem keeps_ofExcept (x : Except ε α) : Keeps I (Prog.ofExcept x : Prog κ σ ε α) :=
  fun _ _ h => wp_ofExcept (fun _ _ => h) fun _ _ => h

theorem keeps_attempt {p : Prog κ σ ε α} (hp : Keeps I p) : Keeps I (Prog.attempt p) :=
  fun M s h => wp_attempt (hp M s h)

/-- A program on a part of the state keeps what it keeps of that part, the rest being fixed. -/
theorem keeps_zoom {part : σ → τ} {put : τ → σ → σ} (hput : ∀ s, put (part s) s = s)
    {p : Prog κ τ ε α} (hp : ∀ s, Keeps (fun t => I (put t s)) p) :
    Keeps I (Prog.zoom part put p) := by
  intro M s h
  refine wp_zoom (hp s M (part s) ?_)
  show I (put (part s) s)
  rw [hput s]
  exact h

theorem keeps_forEach {f : β → Prog κ σ ε Unit} (hf : ∀ b, Keeps I (f b)) (bs : List β) :
    Keeps I (Prog.forEach f bs) := by
  induction bs with
  | nil => exact keeps_pure ()
  | cons b bs ih => exact keeps_bind (hf b) fun _ => ih

end Keeps

/-! ### Two runs side by side -/

section Coupled

variable {κ σ τ ε α β : Type} {M : Model κ} {R : σ → σ → Prop} {s t : σ}

/-- Two programs that ended the same way, with the same fates left over, in related states. -/
inductive Outcome.Coupled (R : σ → σ → Prop) : Outcome σ ε α → Outcome σ ε α → Prop
  | ret {a : α} {s t : σ} {fates : List Fate} (h : R s t) :
      Outcome.Coupled R (.ret a s fates) (.ret a t fates)
  | err {e : ε} {s t : σ} {fates : List Fate} (h : R s t) :
      Outcome.Coupled R (.err e s fates) (.err e t fates)
  | killed {s t : σ} (h : R s t) : Outcome.Coupled R (.killed s) (.killed t)

/-- With the same fates `p` from `s` and `q` from `t` end the same way. -/
def coupled (M : Model κ) (R : σ → σ → Prop) (p q : Prog κ σ ε α) (s t : σ) : Prop :=
  ∀ fates, (p M s fates).Coupled R (q M t fates)

theorem coupled_pure {a : α} (h : R s t) :
    coupled M R (pure a : Prog κ σ ε α) (pure a) s t := fun _ => .ret h

theorem coupled_throw {e : ε} (h : R s t) :
    coupled M R (Prog.throw e : Prog κ σ ε α) (Prog.throw e) s t := fun _ => .err h

theorem coupled_modify {f g : σ → σ} (h : R (f s) (g t)) :
    coupled M R (Prog.modify f : Prog κ σ ε Unit) (Prog.modify g) s t := fun _ => .ret h

theorem coupled_ofExcept {x : Except ε α} (h : R s t) :
    coupled M R (Prog.ofExcept x : Prog κ σ ε α) (Prog.ofExcept x) s t := by
  cases x with
  | ok a => exact coupled_pure h
  | error e => exact coupled_throw h

/-- What follows a read of the state is compared at the two states read. -/
theorem coupled_get {f g : σ → Prog κ σ ε α} (h : coupled M R (f s) (g t) s t) :
    coupled M R (Prog.get >>= f) (Prog.get >>= g) s t := h

/-- A part of a program may keep the states closer together than the whole does. -/
theorem coupled_bind_of {R' : σ → σ → Prop} {p q : Prog κ σ ε α} {f g : α → Prog κ σ ε β}
    (h : coupled M R' p q s t) (hR : ∀ s t, R' s t → R s t)
    (hf : ∀ a s' t', R' s' t' → coupled M R (f a) (g a) s' t') :
    coupled M R (p >>= f) (q >>= g) s t := by
  intro fates
  have hp := h fates
  show Outcome.Coupled R (match p M s fates with
      | .ret a s fates => f a M s fates
      | .err e s fates => .err e s fates
      | .killed s => .killed s)
    (match q M t fates with
      | .ret a s fates => g a M s fates
      | .err e s fates => .err e s fates
      | .killed s => .killed s)
  generalize p M s fates = o at hp
  generalize q M t fates = o' at hp
  cases hp with
  | ret h => exact hf _ _ _ h _
  | err h => exact .err (hR _ _ h)
  | killed h => exact .killed (hR _ _ h)

theorem coupled_bind {p q : Prog κ σ ε α} {f g : α → Prog κ σ ε β} (h : coupled M R p q s t)
    (hf : ∀ a s' t', R s' t' → coupled M R (f a) (g a) s' t') :
    coupled M R (p >>= f) (q >>= g) s t := coupled_bind_of h (fun _ _ h => h) hf

theorem coupled_call {c : κ} {e : ε} {eff eff' : σ → Fate → σ}
    (h : ∀ fate, R (eff s fate) (eff' t fate)) :
    coupled M R (Prog.call c e eff) (Prog.call c e eff') s t := by
  intro fates
  match fates with
  | [] => exact .ret (h _)
  | .done :: _ => exact .ret (h _)
  | .fail n :: rest =>
      show Outcome.Coupled R (if M c (.fail n) then _ else _) (if M c (.fail n) then _ else _)
      split
      · exact .err (h _)
      · exact .ret (h _)
  | .kill n :: rest =>
      show Outcome.Coupled R (if M c (.kill n) then _ else _) (if M c (.kill n) then _ else _)
      split
      · exact .killed (h _)
      · exact .ret (h _)

theorem coupled_attempt {p q : Prog κ σ ε α} (h : coupled M R p q s t) :
    coupled M R (Prog.attempt p) (Prog.attempt q) s t := by
  intro fates
  have hp := h fates
  unfold Prog.attempt
  generalize p M s fates = o at hp ⊢
  generalize q M t fates = o' at hp ⊢
  cases hp with
  | ret h => exact .ret h
  | err h => exact .ret h
  | killed h => exact .killed h

theorem coupled_zoom {R' : τ → τ → Prop} {part : σ → τ} {put : τ → σ → σ} {p q : Prog κ τ ε α}
    (h : coupled M R' p q (part s) (part t)) (hput : ∀ x y, R' x y → R (put x s) (put y t)) :
    coupled M R (Prog.zoom part put p) (Prog.zoom part put q) s t := by
  intro fates
  have hp := h fates
  unfold Prog.zoom
  generalize p M (part s) fates = o at hp ⊢
  generalize q M (part t) fates = o' at hp ⊢
  cases hp with
  | ret h => exact .ret (hput _ _ h)
  | err h => exact .err (hput _ _ h)
  | killed h => exact .killed (hput _ _ h)

theorem coupled_forEach {f g : β → Prog κ σ ε Unit}
    (hf : ∀ b s t, R s t → coupled M R (f b) (g b) s t) (bs : List β) (h : R s t) :
    coupled M R (Prog.forEach f bs) (Prog.forEach g bs) s t := by
  induction bs generalizing s t with
  | nil => exact coupled_pure h
  | cons b bs ih => exact coupled_bind (hf b s t h) fun _ _ _ h' => ih h'

end Coupled

/-! ### Runs in which every call is done -/

section Does

variable {κ σ τ ε α β : Type} {s t u : σ}

/-- What a program does when no fate is decided in advance: every call is done, whatever the
model. -/
def Does (p : Prog κ σ ε α) (s : σ) (a : α) (t : σ) : Prop := ∀ M, p M s [] = .ret a t []

theorem does_pure (a : α) : Does (pure a : Prog κ σ ε α) s a s := fun _ => rfl

theorem does_get : Does (Prog.get : Prog κ σ ε σ) s s s := fun _ => rfl

theorem does_modify (f : σ → σ) : Does (Prog.modify f : Prog κ σ ε Unit) s () (f s) := fun _ => rfl

theorem does_call (c : κ) (e : ε) (eff : σ → Fate → σ) :
    Does (Prog.call c e eff) s () (eff s .done) := fun _ => rfl

theorem does_bind {p : Prog κ σ ε α} {f : α → Prog κ σ ε β} {a : α} {b : β}
    (hp : Does p s a t) (hf : Does (f a) t b u) : Does (p >>= f) s b u := by
  intro M
  show (match p M s [] with
    | .ret a s fates => f a M s fates
    | .err e s fates => .err e s fates
    | .killed s => .killed s) = Outcome.ret b u []
  rw [hp M]
  exact hf M

theorem does_ofExcept {x : Except ε α} {a : α} (h : x = .ok a) :
    Does (Prog.ofExcept x : Prog κ σ ε α) s a s := by
  subst h
  exact does_pure a

end Does

end HyphaDB.Faults
