import Mathlib.Data.List.Basic

/-!
# HyphaDB.Table.References

The **reference protocol** of a table (`Acquire`, `Release`, `Retire` in `internal/sstable`). Each
call holds `refMu` from its first to its last line, so any interleaving of callers is a sequence
of calls.

A channel is a number, and `channels` says of each one made so far whether it is closed. `step`
says how a call ends; closing a closed channel is the outcome `closedTwice`, the panic of the Go
runtime, which leaves what the call has written before.

The last `Release` before `Retire` closes the channel, and `Retire` closes it once more when it
finds no references: the protocol is safe exactly as long as the first `Retire` comes before any
`Acquire` or while there is a reference (`references_protocol`).
-/

namespace HyphaDB.Table

structure References where
  refs : Nat := 0
  retired : Bool := false
  noRefsCh : Nat := 0
  channels : List Bool := [false]
  deriving Repr, DecidableEq

namespace References

inductive Call
  | acquire
  | release
  | retire
  deriving Repr, DecidableEq

inductive Outcome
  | acquired
  | errRetired
  | released
  | returned (channel : Nat)
  | closedTwice
  deriving Repr, DecidableEq

/-- The channel is closed. -/
def Closed (s : References) (channel : Nat) : Prop := s.channels[channel]? = some true

instance (s : References) (channel : Nat) : Decidable (s.Closed channel) :=
  inferInstanceAs (Decidable (_ = _))

/-- `close(s.noRefsCh)`, after which the call ends with `outcome`. -/
def close (s : References) (outcome : Outcome) : Outcome × References :=
  if s.Closed s.noRefsCh then (.closedTwice, s)
  else (outcome, { s with channels := s.channels.set s.noRefsCh true })

def acquire (s : References) : Outcome × References :=
  if s.retired then (.errRetired, s)
  else if s.refs = 0 then
    (.acquired,
      { s with
        refs := s.refs + 1
        noRefsCh := s.channels.length
        channels := s.channels ++ [false] })
  else (.acquired, { s with refs := s.refs + 1 })

def release (s : References) : Outcome × References :=
  if s.refs = 0 then (.released, s)
  else
    let s := { s with refs := s.refs - 1 }
    if s.refs = 0 then s.close .released else (.released, s)

def retire (s : References) : Outcome × References :=
  if s.retired then (.returned s.noRefsCh, s)
  else
    let s := { s with retired := true }
    if s.refs = 0 then s.close (.returned s.noRefsCh) else (.returned s.noRefsCh, s)

def step (s : References) : Call → Outcome × References
  | .acquire => s.acquire
  | .release => s.release
  | .retire => s.retire

/-- How the calls end, and the state after them. -/
def run (s : References) : List Call → List (Call × Outcome) × References
  | [] => ([], s)
  | call :: calls =>
      let (outcome, s) := s.step call
      let (trace, last) := s.run calls
      ((call, outcome) :: trace, last)

/-! ### What the calls mean -/

/-- The references held after one more call: an `Acquire` that succeeds takes one, a `Release`
gives one back if there is one. -/
def heldAfter (held : Nat) : Call × Outcome → Nat
  | (_, .acquired) => held + 1
  | (.release, _) => held - 1
  | _ => held

/-- The references that were acquired and not released. -/
def held (trace : List (Call × Outcome)) : Nat := trace.foldl heldAfter 0

/-- The same where every `Acquire` succeeds. -/
def holdingAfter (held : Nat) : Call → Nat
  | .acquire => held + 1
  | .release => held - 1
  | .retire => held

/-- The references held after calls none of which is `Retire`. -/
def holding (calls : List Call) : Nat := calls.foldl holdingAfter 0

/-- The first `Retire` comes before any `Acquire` or while there is a reference. -/
def RetiredInUse (calls : List Call) : Prop :=
  ∀ before after, calls = before ++ .retire :: after → .retire ∉ before →
    .acquire ∉ before ∨ 0 < holding before

/-- The state after calls that leave `held` references; `used` says that an `Acquire` has
succeeded. The channel is closed when there are no references, except before the first one. -/
structure Agrees (s : References) (held : Nat) (used : Bool) : Prop where
  refs : s.refs = held
  made : s.noRefsCh < s.channels.length
  closed : s.Closed s.noRefsCh ↔ s.refs = 0 ∧ (used = true ∨ s.retired = true)
  taken : 0 < held → used = true

theorem agrees_new : Agrees {} 0 false :=
  ⟨rfl, by decide, by decide, by decide⟩

theorem closed_set {s : References} (h : s.noRefsCh < s.channels.length) :
    ({ s with channels := s.channels.set s.noRefsCh true } : References).Closed s.noRefsCh := by
  show (s.channels.set s.noRefsCh true)[s.noRefsCh]? = some true
  rw [List.getElem?_set_self h]

/-- What one call does. -/
structure Steps (s : References) (held : Nat) (used : Bool) (call : Call) (outcome : Outcome)
    (s' : References) : Prop where
  agrees : s'.Agrees (heldAfter held (call, outcome)) (used || outcome == .acquired)
  twice : outcome = .closedTwice ↔
    call = .retire ∧ s.retired = false ∧ held = 0 ∧ used = true
  acquired : outcome = .acquired ↔ call = .acquire ∧ s.retired = false
  retired : s'.retired = (s.retired || call == .retire)
  channel : s.retired = true → s'.noRefsCh = s.noRefsCh
  returned : ∀ channel, outcome = .returned channel → channel = s'.noRefsCh

section Steps

variable {s : References} {held : Nat} {used : Bool}

theorem steps_acquire (h : s.Agrees held used) :
    Steps s held used .acquire s.acquire.1 s.acquire.2 := by
  unfold acquire
  by_cases hretired : s.retired = true
  · rw [if_pos hretired]
    refine ⟨?_, by simp, by simp [hretired], by simp, fun _ => rfl, by simp⟩
    rw [show (used || Outcome.errRetired == .acquired) = used by cases used <;> rfl]
    exact h
  rw [if_neg hretired]
  have hopen : s.retired = false := by simpa using hretired
  by_cases hzero : s.refs = 0
  · rw [if_pos hzero]
    refine ⟨⟨?_, ?_, ?_, ?_⟩, by simp, by simp [hopen], by simp, by simp [hopen], by simp⟩
    · show s.refs + 1 = held + 1
      rw [h.refs]
    · show s.channels.length < (s.channels ++ [false]).length
      simp
    · -- the new channel is open
      simp [Closed]
    · simp
  · rw [if_neg hzero]
    refine ⟨⟨?_, h.made, ?_, ?_⟩, by simp, by simp [hopen], by simp, by simp, by simp⟩
    · show s.refs + 1 = held + 1
      rw [h.refs]
    · have hclosed : ¬ s.Closed s.noRefsCh := fun hc => hzero (h.closed.mp hc).1
      simp only [Nat.add_eq_zero_iff, Nat.one_ne_zero, and_false, false_and, iff_false]
      exact hclosed
    · simp

theorem steps_release (h : s.Agrees held used) :
    Steps s held used .release s.release.1 s.release.2 := by
  have hused : ∀ o : Outcome, o = .released → (used || o == .acquired) = used := by
    rintro o rfl
    cases used <;> rfl
  unfold release
  by_cases hzero : s.refs = 0
  · rw [if_pos hzero]
    refine ⟨?_, by simp, by simp, by simp, fun _ => rfl, by simp⟩
    rw [hused _ rfl]
    have hheld : held = 0 := h.refs.symm.trans hzero
    subst hheld
    exact h
  rw [if_neg hzero]
  dsimp only
  have hclosed : ¬ s.Closed s.noRefsCh := fun hc => hzero (h.closed.mp hc).1
  have hrefs := h.refs
  have htaken : used = true := h.taken (by omega)
  by_cases hone : s.refs - 1 = 0
  · rw [if_pos hone]
    unfold close
    rw [if_neg (show ¬ References.Closed { s with refs := s.refs - 1 } s.noRefsCh from hclosed)]
    refine ⟨⟨?_, ?_, ?_, ?_⟩, by simp, by simp, by simp, fun _ => rfl, by simp⟩
    · show s.refs - 1 = held - 1
      omega
    · show s.noRefsCh < (s.channels.set s.noRefsCh true).length
      rw [List.length_set]
      exact h.made
    · rw [htaken]
      have := closed_set h.made
      simp only [hone, Bool.true_or, true_or, and_self, iff_true]
      exact this
    · intro hpos
      exact absurd hpos (by show ¬ 0 < held - 1; omega)
  · rw [if_neg hone]
    refine ⟨⟨?_, h.made, ?_, ?_⟩, by simp, by simp, by simp, fun _ => rfl, by simp⟩
    · show s.refs - 1 = held - 1
      omega
    · simp only [hone, false_and, iff_false]
      exact hclosed
    · rw [htaken]
      simp

theorem steps_retire (h : s.Agrees held used) :
    Steps s held used .retire s.retire.1 s.retire.2 := by
  have hrefs := h.refs
  unfold retire
  by_cases hretired : s.retired = true
  · rw [if_pos hretired]
    refine ⟨?_, by simp [hretired], by simp, by simp [hretired], fun _ => rfl, by simp⟩
    rw [show (used || Outcome.returned s.noRefsCh == .acquired) = used by cases used <;> rfl]
    exact h
  rw [if_neg hretired]
  have hopen : s.retired = false := by simpa using hretired
  dsimp only
  by_cases hzero : s.refs = 0
  · rw [if_pos hzero]
    have hheld : held = 0 := hrefs.symm.trans hzero
    have hclosed : s.Closed s.noRefsCh ↔ used = true := by
      rw [h.closed]
      simp [hzero, hopen]
    unfold close
    by_cases hc : s.Closed s.noRefsCh
    · -- the last `Release` has closed the channel
      rw [if_pos (show References.Closed { s with retired := true } s.noRefsCh from hc)]
      refine ⟨⟨hrefs, h.made, ?_, ?_⟩, by simp [hopen, hheld, hclosed.mp hc], by simp, by simp,
        fun _ => rfl, by simp⟩
      · simp only [hzero, or_true, and_self, iff_true]
        exact hc
      · intro _
        rw [hclosed.mp hc]
        rfl
    · rw [if_neg (show ¬ References.Closed { s with retired := true } s.noRefsCh from hc)]
      have hunused : used = false := by simpa using fun hu => hc (hclosed.mpr hu)
      refine ⟨⟨hrefs, ?_, ?_, ?_⟩, by simp [hunused], by simp, by simp, fun _ => rfl, by simp⟩
      · show s.noRefsCh < (s.channels.set s.noRefsCh true).length
        rw [List.length_set]
        exact h.made
      · simp only [hzero, or_true, and_self, iff_true]
        exact closed_set h.made
      · intro hpos
        exact absurd hpos (by show ¬ 0 < held; omega)
  · rw [if_neg hzero]
    refine ⟨⟨hrefs, h.made, ?_, ?_⟩, ?_, by simp, by simp, fun _ => rfl, by simp⟩
    · have hc : ¬ s.Closed s.noRefsCh := fun hc => hzero (h.closed.mp hc).1
      simp only [hzero, false_and, iff_false]
      exact hc
    · intro _
      rw [h.taken (by omega)]
      rfl
    · have : held ≠ 0 := by omega
      simp [this]

theorem steps (h : s.Agrees held used) (call : Call) :
    Steps s held used call (s.step call).1 (s.step call).2 := by
  cases call with
  | acquire => exact steps_acquire h
  | release => exact steps_release h
  | retire => exact steps_retire h

end Steps

/-! ### Runs -/

@[simp] theorem run_nil (s : References) : s.run [] = ([], s) := rfl

theorem run_cons (s : References) (call : Call) (calls : List Call) :
    s.run (call :: calls) =
      ((call, (s.step call).1) :: ((s.step call).2.run calls).1, ((s.step call).2.run calls).2) :=
  rfl

theorem run_append (s : References) (calls later : List Call) :
    s.run (calls ++ later) =
      ((s.run calls).1 ++ ((s.run calls).2.run later).1, ((s.run calls).2.run later).2) := by
  induction calls generalizing s with
  | nil => rfl
  | cons call calls ih => rw [List.cons_append, run_cons, ih, run_cons, List.cons_append]

/-- The trace of a call in the middle of a run. -/
theorem mem_trace {s : References} {calls : List Call} {call : Call} {outcome : Outcome} :
    (call, outcome) ∈ (s.run calls).1 ↔
      ∃ before after, calls = before ++ call :: after ∧
        ((s.run before).2.step call).1 = outcome := by
  induction calls generalizing s with
  | nil => simp
  | cons first calls ih =>
      rw [run_cons, List.mem_cons, ih]
      constructor
      · rintro (hfirst | ⟨before, after, rfl, hout⟩)
        · cases hfirst
          exact ⟨[], calls, rfl, rfl⟩
        · exact ⟨first :: before, after, rfl, hout⟩
      · rintro ⟨before, after, hcalls, hout⟩
        cases before with
        | nil =>
            cases hcalls
            exact .inl (by rw [← hout]; rfl)
        | cons _ before =>
            cases hcalls
            exact .inr ⟨before, after, rfl, hout⟩

/-- An `Acquire` has succeeded. -/
def used (trace : List (Call × Outcome)) : Bool := trace.any fun e => e.2 == .acquired

/-- **Every run keeps the state and the references in step**, from any state in which they are,
and notes whether the table is retired. -/
theorem run_agrees {s : References} {held₀ : Nat} {used₀ : Bool} (h : s.Agrees held₀ used₀)
    (calls : List Call) :
    (s.run calls).2.Agrees ((s.run calls).1.foldl heldAfter held₀) (used₀ || used (s.run calls).1) ∧
      ((s.run calls).2.retired = true ↔ s.retired = true ∨ .retire ∈ calls) ∧
      (s.retired = true → (s.run calls).2.noRefsCh = s.noRefsCh) := by
  induction calls generalizing s held₀ used₀ with
  | nil =>
      refine ⟨?_, by simp, fun _ => rfl⟩
      rw [show (used₀ || used (s.run []).1) = used₀ by cases used₀ <;> rfl]
      exact h
  | cons call calls ih =>
      have hstep := steps h call
      obtain ⟨hagrees, hretired, hchannel⟩ := ih hstep.agrees
      rw [run_cons]
      refine ⟨?_, ?_, fun hs => ?_⟩
      · have hused : (used₀ || used ((call, (s.step call).1) :: ((s.step call).2.run calls).1)) =
            (used₀ || (s.step call).1 == .acquired || used ((s.step call).2.run calls).1) := by
          rw [Bool.or_assoc]
          rfl
        rw [hused]
        exact hagrees
      · rw [hretired, hstep.retired, List.mem_cons, Bool.or_eq_true, beq_iff_eq, or_assoc,
          eq_comm (a := call)]
      · rw [hchannel (by rw [hstep.retired, hs]; rfl), hstep.channel hs]

/-- The state after calls on a new table. -/
theorem run_new (calls : List Call) :
    (run {} calls).2.Agrees (held (run {} calls).1) (used (run {} calls).1) ∧
      ((run {} calls).2.retired = true ↔ .retire ∈ calls) := by
  obtain ⟨hagrees, hretired, -⟩ := run_agrees agrees_new calls
  exact ⟨hagrees, by simpa using hretired⟩

/-- Before the first `Retire` every `Acquire` succeeds. -/
theorem run_unretired {s : References} {held₀ : Nat} {used₀ : Bool} (h : s.Agrees held₀ used₀)
    (hs : s.retired = false) {calls : List Call} (hcalls : .retire ∉ calls) :
    (s.run calls).1.foldl heldAfter held₀ = calls.foldl holdingAfter held₀ ∧
      (used (s.run calls).1 = true ↔ .acquire ∈ calls) := by
  induction calls generalizing s held₀ used₀ with
  | nil => exact ⟨rfl, by simp [used]⟩
  | cons call calls ih =>
      obtain ⟨hcall, hrest⟩ := not_or.mp (List.mem_cons.not.mp hcalls)
      have hstep := steps h call
      have hretired : (s.step call).2.retired = false := by
        rw [hstep.retired, hs]
        cases call with
        | retire => exact absurd rfl hcall
        | acquire => rfl
        | release => rfl
      obtain ⟨hheld, hused⟩ := ih hstep.agrees hretired hrest
      rw [run_cons]
      cases call with
      | retire => exact absurd rfl hcall
      | acquire =>
          have hout : (s.step .acquire).1 = .acquired := hstep.acquired.mpr ⟨rfl, hs⟩
          rw [hout] at hheld
          refine ⟨?_, by simp [used, hout]⟩
          rw [hout]
          exact hheld
      | release =>
          have hout : (s.step .release).1 ≠ .acquired := fun ho => nomatch (hstep.acquired.mp ho).1
          have hafter : heldAfter held₀ (.release, (s.step .release).1) = held₀ - 1 := by
            cases ho : (s.step .release).1 with
            | acquired => exact absurd ho hout
            | errRetired | released | returned channel | closedTwice => rfl
          rw [hafter] at hheld
          refine ⟨?_, ?_⟩
          · rw [List.foldl_cons, hafter]
            exact hheld
          · rw [List.mem_cons, ← hused]
            simp [used, hout]

/-- When a `Retire` closes a closed channel. -/
theorem retire_closedTwice_iff {before : List Call} (hbefore : .retire ∉ before) :
    ((run {} before).2.step .retire).1 = .closedTwice ↔
      .acquire ∈ before ∧ holding before = 0 := by
  obtain ⟨hagrees, hretired⟩ := run_new before
  obtain ⟨hheld, hused⟩ := run_unretired agrees_new rfl hbefore
  have hopen : (run {} before).2.retired = false := by
    cases hr : (run {} before).2.retired with
    | false => rfl
    | true => exact absurd (hretired.mp hr) hbefore
  rw [(steps hagrees .retire).twice, hused]
  constructor
  · rintro ⟨-, -, hzero, hacquire⟩
    exact ⟨hacquire, hheld.symm.trans hzero⟩
  · rintro ⟨hacquire, hzero⟩
    exact ⟨rfl, hopen, hheld.trans hzero, hacquire⟩

/-- **The reference protocol.** For every sequence of calls on a new table: no call closes a
closed channel exactly when the first `Retire` comes before any `Acquire` or while there is a
reference. After `Retire` no `Acquire` succeeds, and the channel a `Retire` returns is closed in
a later state exactly when all references that were acquired have been released. -/
theorem references_protocol (calls : List Call) :
    ((∀ call, (call, .closedTwice) ∉ (run {} calls).1) ↔ RetiredInUse calls) ∧
      (∀ before call after, calls = before ++ call :: after → .retire ∈ before →
        ((run {} before).2.step call).1 ≠ .acquired) ∧
      ∀ before later channel, calls = before ++ .retire :: later →
        ((run {} before).2.step .retire).1 = .returned channel →
          ((run {} calls).2.Closed channel ↔ held (run {} calls).1 = 0) := by
  refine ⟨⟨fun h before after hcalls hbefore => ?_, fun h call hmem => ?_⟩,
    fun before call after hcalls hbefore hout => ?_, fun before later channel hcalls hout => ?_⟩
  · have hnot : ((run {} before).2.step .retire).1 ≠ .closedTwice := fun hout =>
      h .retire (mem_trace.mpr ⟨before, after, hcalls, hout⟩)
    rw [Ne, retire_closedTwice_iff hbefore, not_and_or] at hnot
    exact hnot.imp id Nat.pos_of_ne_zero
  · obtain ⟨before, after, hcalls, hout⟩ := mem_trace.mp hmem
    obtain ⟨hagrees, hretired⟩ := run_new before
    obtain ⟨rfl, hopen, -, -⟩ := (steps hagrees call).twice.mp hout
    have hbefore : .retire ∉ before := fun hr => by
      rw [hretired.mpr hr] at hopen
      cases hopen
    obtain ⟨hacquire, hzero⟩ := (retire_closedTwice_iff hbefore).mp hout
    rcases h before after hcalls hbefore with hnone | hpos
    · exact hnone hacquire
    · omega
  · obtain ⟨hagrees, hretired⟩ := run_new before
    have hopen := ((steps hagrees call).acquired.mp hout).2
    rw [hretired.mpr hbefore] at hopen
    cases hopen
  · -- the channel stays the one of the table from this `Retire` on
    obtain ⟨hagrees, -⟩ := run_new before
    have hstep := steps hagrees .retire
    have hgone : ((run {} before).2.step .retire).2.retired = true := by
      rw [hstep.retired]
      exact Bool.or_true _
    obtain ⟨-, -, hchannel⟩ := run_agrees hstep.agrees later
    have hlast : (run {} calls).2 = (((run {} before).2.step .retire).2.run later).2 := by
      rw [hcalls, run_append, run_cons]
    obtain ⟨hcurrent, hretired⟩ := run_new calls
    have hmember : .retire ∈ calls := by
      rw [hcalls]
      exact List.mem_append_right _ List.mem_cons_self
    have hsame : channel = (run {} calls).2.noRefsCh := by
      rw [hlast, hchannel hgone]
      exact hstep.returned channel hout
    rw [hsame, hcurrent.closed, hcurrent.refs, hretired.mpr hmember]
    simp

theorem retiredInUse_reader : RetiredInUse [.acquire, .retire, .acquire, .release] := by
  intro before after hcalls hbefore
  rcases before with _ | ⟨first, _ | ⟨second, before⟩⟩
  · cases hcalls
  · cases hcalls
    exact .inr (by decide)
  · have hsecond : .retire = second := (List.cons.inj (List.cons.inj hcalls).2).1
    rw [← hsecond] at hbefore
    exact absurd (List.mem_cons_of_mem _ List.mem_cons_self) hbefore

/-- A reader is still there when the table is retired. -/
theorem references_protocol_reader :
    (∀ call, (call, .closedTwice) ∉ (run {} [.acquire, .retire, .acquire, .release]).1) ∧
      ((run {} [.acquire, .retire, .acquire, .release]).2.Closed 1 ↔
        held (run {} [.acquire, .retire, .acquire, .release]).1 = 0) :=
  have h := references_protocol [.acquire, .retire, .acquire, .release]
  ⟨h.1.mpr retiredInUse_reader, h.2.2 [.acquire] [.acquire, .release] 1 rfl (by decide)⟩

/-- A reader comes and goes, and then the table is retired: the channel is closed twice. -/
theorem retired_after_reader :
    (.retire, .closedTwice) ∈ (run {} [.acquire, .release, .retire]).1 := by
  decide

end References

end HyphaDB.Table
