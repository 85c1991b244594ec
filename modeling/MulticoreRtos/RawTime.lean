import Mathlib.Data.Nat.Bitwise
import Mathlib.Logic.Function.Basic
import MulticoreRtos.Transition

/-!
The two readings of `hw/timer.c`. A read of `TIMELR` answers the low word of the
counter and keeps the high word in one register, and `TIMEHR` is that register. A
caller is a thread or an interrupt handler on either core; a handler that
preempts a thread is another caller whose reads fall between those of the thread.
-/

namespace MulticoreRtos.RawTime

open Transition

inductive Reading where
  | rawTime
  | rawTimeMs
  deriving DecidableEq

/-- `((high << 32) | low)` in 64 bits, and what each function makes of it. -/
def joined (high low : Nat) : Nat := (high <<< 32 ||| low) % 2 ^ 64

def answer : Reading → Nat → Nat → Nat
  | .rawTime, high, low => joined high low
  | .rawTimeMs, high, low => joined high low / 1000 % 2 ^ 32

/-- A call between its two reads. `counter` is history: the counter at the first. -/
structure Call where
  reading : Reading
  low : Nat
  counter : Nat

/-- A call that has returned; `latched` is the counter at the last read of `TIMELR`
in front of its read of `TIMEHR`, whoever made it. -/
structure Record where
  reading : Reading
  value : Nat
  counter : Nat
  latched : Nat

structure Timer (Caller : Type) where
  counter : Nat
  timehr : Nat
  latched : Nat
  call : Caller → Option Call
  returned : List Record

inductive Action (Caller : Type) where
  | tick
  | readLow (caller : Caller) (reading : Reading)
  | readHigh (caller : Caller)

variable {Caller : Type} [DecidableEq Caller]

def step (t : Timer Caller) : Action Caller → Option (Timer Caller)
  | .tick => some { t with counter := (t.counter + 1) % 2 ^ 64 }
  | .readLow caller reading =>
      match t.call caller with
      | some _ => none
      | none => some { t with
          timehr := t.counter / 2 ^ 32
          latched := t.counter
          call := Function.update t.call caller (some ⟨reading, t.counter % 2 ^ 32, t.counter⟩) }
  | .readHigh caller =>
      (t.call caller).map fun call => { t with
        call := Function.update t.call caller none
        returned := ⟨call.reading, answer call.reading t.timehr call.low, call.counter, t.latched⟩ ::
          t.returned }

omit [DecidableEq Caller] in
/-- Any value of the counter, and in `TIMEHR` the high word of some earlier one. -/
structure Begun (t : Timer Caller) : Prop where
  counter : t.counter < 2 ^ 64
  latched : t.latched < 2 ^ 64
  timehr : t.timehr = t.latched / 2 ^ 32
  idle : t.call = fun _ => none
  returned : t.returned = []

def SameHigh (first second : Nat) : Prop := first / 2 ^ 32 = second / 2 ^ 32

instance (first second : Nat) : Decidable (SameHigh first second) :=
  inferInstanceAs (Decidable (_ = _))

/-- No read of `TIMELR` changes the high word that a call under way relies on. -/
def Undisturbed (t : Timer Caller) : Action Caller → Prop
  | .readLow _ _ => ∀ other call, t.call other = some call → SameHigh t.counter call.counter
  | _ => True

/-- The value that a call would have returned, had it read the whole counter at
its own read of `TIMELR`. -/
def valueAt : Reading → Nat → Nat
  | .rawTime, counter => counter
  | .rawTimeMs, counter => counter / 1000 % 2 ^ 32

omit [DecidableEq Caller] in
theorem joined_eq {high low : Nat} (high_word : high < 2 ^ 32) (low_word : low < 2 ^ 32) :
    joined high low = high * 2 ^ 32 + low := by
  rw [joined, ← Nat.shiftLeft_add_eq_or_of_lt low_word, Nat.shiftLeft_eq]
  exact Nat.mod_eq_of_lt (by omega)

theorem joined_same {latched counter : Nat} (bound : latched < 2 ^ 64) :
    joined (latched / 2 ^ 32) (counter % 2 ^ 32) = counter ↔ SameHigh latched counter := by
  rw [joined_eq (by omega) (Nat.mod_lt _ (by decide)), SameHigh]
  omega

omit [DecidableEq Caller] in
/-- What holds between any two accesses. -/
structure Sound (t : Timer Caller) : Prop where
  counter : t.counter < 2 ^ 64
  latched : t.latched < 2 ^ 64
  timehr : t.timehr = t.latched / 2 ^ 32
  call : ∀ caller call, t.call caller = some call → call.low = call.counter % 2 ^ 32
  returned : ∀ r ∈ t.returned, r.latched < 2 ^ 64 ∧
    r.value = answer r.reading (r.latched / 2 ^ 32) (r.counter % 2 ^ 32)

section Runs
variable {t after : Timer Caller}

theorem step_cases {action : Action Caller} (stepped : step t action = some after) :
    (action = .tick ∧ after = { t with counter := (t.counter + 1) % 2 ^ 64 }) ∨
    (∃ caller reading, action = .readLow caller reading ∧ t.call caller = none ∧
      after = { t with
        timehr := t.counter / 2 ^ 32
        latched := t.counter
        call := Function.update t.call caller (some ⟨reading, t.counter % 2 ^ 32, t.counter⟩) }) ∨
    (∃ caller call, action = .readHigh caller ∧ t.call caller = some call ∧
      after = { t with
        call := Function.update t.call caller none
        returned := ⟨call.reading, answer call.reading t.timehr call.low, call.counter, t.latched⟩ ::
          t.returned }) := by
  cases action with
  | tick => exact .inl ⟨rfl, (Option.some.inj stepped).symm⟩
  | readLow caller reading =>
      cases idle : t.call caller with
      | some call => simp [step, idle] at stepped
      | none =>
          simp only [step, idle, Option.some.injEq] at stepped
          exact .inr (.inl ⟨caller, reading, rfl, idle, stepped.symm⟩)
  | readHigh caller =>
      simp only [step, Option.map_eq_some_iff] at stepped
      obtain ⟨call, under_way, rfl⟩ := stepped
      exact .inr (.inr ⟨caller, call, rfl, under_way, rfl⟩)

theorem call_after {calls : Caller → Option Call} {caller other : Caller} {entry : Option Call}
    {call : Call} (there : Function.update calls caller entry other = some call) :
    entry = some call ∨ calls other = some call := by
  by_cases same : other = caller
  · rw [same, Function.update_self] at there
    exact .inl there
  · rw [Function.update_of_ne same] at there
    exact .inr there

omit [DecidableEq Caller] in
theorem begun_sound (begun : Begun t) : Sound t := by
  obtain ⟨counter, latched, timehr, idle, returned⟩ := begun
  exact ⟨counter, latched, timehr, by simp [idle], by simp [returned]⟩

theorem sound_step (action : Action Caller) (sound : Sound t) (stepped : step t action = some after) :
    Sound after := by
  obtain ⟨counter, latched, timehr, low, returned⟩ := sound
  rcases step_cases stepped with ⟨_, rfl⟩ | ⟨caller, reading, _, _, rfl⟩ |
    ⟨caller, call, _, under_way, rfl⟩
  · exact ⟨Nat.mod_lt _ (by decide), latched, timehr, low, returned⟩
  · refine ⟨counter, counter, rfl, fun other call here => ?_, returned⟩
    rcases call_after here with entered | earlier
    · obtain rfl := Option.some.inj entered
      rfl
    · exact low other call earlier
  · refine ⟨counter, latched, timehr, fun other call here => ?_, fun r member => ?_⟩
    · rcases call_after here with entered | earlier
      · cases entered
      · exact low other call earlier
    · rcases List.mem_cons.mp member with rfl | earlier
      · exact ⟨latched, by rw [timehr, low caller call under_way]⟩
      · exact returned r earlier

theorem run_sound (reached : Reaches step free Begun t) : Sound t :=
  reached.invariant Sound (fun _ => begun_sound) fun _ action _ sound _ => sound_step action sound

omit [DecidableEq Caller] in
/-- `TIMEHR` still has the high word of every call under way, and had it when a
call returned. -/
structure Kept (t : Timer Caller) : Prop where
  call : ∀ caller call, t.call caller = some call → SameHigh t.latched call.counter
  returned : ∀ r ∈ t.returned, SameHigh r.latched r.counter

theorem kept_step (action : Action Caller) (kept : Kept t) (undisturbed : Undisturbed t action)
    (stepped : step t action = some after) : Kept after := by
  obtain ⟨under_way, returned⟩ := kept
  rcases step_cases stepped with ⟨_, rfl⟩ | ⟨caller, reading, rfl, _, rfl⟩ |
    ⟨caller, call, _, here, rfl⟩
  · exact ⟨under_way, returned⟩
  · refine ⟨fun other call there => ?_, returned⟩
    rcases call_after there with entered | earlier
    · obtain rfl := Option.some.inj entered
      exact rfl
    · exact undisturbed other call earlier
  · refine ⟨fun other call there => ?_, fun r member => ?_⟩
    · rcases call_after there with entered | earlier
      · cases entered
      · exact under_way other call earlier
    · rcases List.mem_cons.mp member with rfl | earlier
      · exact under_way caller call here
      · exact returned r earlier

theorem run_kept (reached : Reaches step Undisturbed Begun t) : Kept t := by
  refine reached.invariant Kept (fun t begun => ?_) fun _ action _ kept => kept_step action kept
  exact ⟨by simp [begun.idle], by simp [begun.returned]⟩

end Runs

structure Consistent (returned : List Record) : Prop where
  exact_value : ∀ r ∈ returned, r.value = valueAt r.reading r.counter
  difference : ∀ r ∈ returned, ∀ s ∈ returned, r.reading = .rawTime → s.reading = .rawTime →
    (r.value : Int) - s.value = r.counter - s.counter

/-- In a run without a disturbing read every reading is right, and in any run a
reading is right exactly if the last read of `TIMELR` had its high word. -/
theorem raw_time_along_runs (t : Timer Caller) :
    (Reaches step Undisturbed Begun t → Consistent t.returned) ∧
    (Reaches step free Begun t → ∀ r ∈ t.returned, r.reading = .rawTime →
      (r.value = r.counter ↔ SameHigh r.latched r.counter)) := by
  constructor
  · intro reached
    have sound := run_sound (reached.weaken fun _ _ _ => trivial)
    have kept := run_kept reached
    have right : ∀ r ∈ t.returned, r.value = valueAt r.reading r.counter := by
      intro r member
      obtain ⟨bound, value⟩ := sound.returned r member
      have joined := (joined_same bound).mpr (kept.returned r member)
      rw [value]
      cases r.reading with
      | rawTime => exact joined
      | rawTimeMs => rw [answer, joined, valueAt]
    refine ⟨right, fun r r_in s s_in r_raw s_raw => ?_⟩
    rw [right r r_in, right s s_in, r_raw, s_raw, valueAt, valueAt]
  · intro reached r member raw
    obtain ⟨bound, value⟩ := (run_sound reached).returned r member
    rw [value, raw]
    exact joined_same bound

def beforeCarry : Timer Bool := ⟨2 ^ 32 - 1, 0, 0, fun _ => none, []⟩

theorem beforeCarry_begun : Begun beforeCarry := ⟨by decide, by decide, rfl, rfl, rfl⟩

theorem raw_time_across_carry :
    ∃ t, exec step beforeCarry [.readLow true .rawTime, .tick, .readHigh true] = some t ∧
      t.counter = 2 ^ 32 ∧ Consistent t.returned := by
  obtain ⟨t, executed, carried⟩ :
      ∃ t ∈ exec step beforeCarry [.readLow true .rawTime, .tick, .readHigh true],
        t.counter = 2 ^ 32 := by
    decide
  have allowed : Allowed step Undisturbed beforeCarry
      [.readLow true .rawTime, .tick, .readHigh true] := by
    simp [Allowed, Undisturbed, step, beforeCarry]
  exact ⟨t, executed, carried,
    (raw_time_along_runs t).1 (exec_reaches _ (.start beforeCarry_begun) allowed executed)⟩

/-- The other core reads the clock after the carry, and the first call joins its
high word to the low word from before. -/
theorem latch_overwritten :
    ∃ t, Reaches step free Begun t ∧ ¬ Consistent (t : Timer Bool).returned := by
  obtain ⟨t, executed, wrong⟩ : ∃ t ∈ exec step beforeCarry
      [.readLow true .rawTime, .tick, .readLow false .rawTime, .readHigh true],
      ∃ r ∈ t.returned, r.value ≠ valueAt r.reading r.counter := by
    decide
  refine ⟨t, exec_reaches _ (.start beforeCarry_begun) (allowed_free _ _ _) executed, ?_⟩
  intro consistent
  obtain ⟨r, member, other⟩ := wrong
  exact other (consistent.exact_value r member)

end MulticoreRtos.RawTime
