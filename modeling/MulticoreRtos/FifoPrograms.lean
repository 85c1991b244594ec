import Mathlib.Algebra.BigOperators.Ring.Finset
import MulticoreRtos.MpmcFifoThreads

/-!
Threads that work through lists of `fifo_put` and `fifo_get` calls on one FIFO.
Under every schedule they come to an end, the threads that are left wait for the
same side, and producers and consumers have passed on as many values as the two
sides and the FIFO allow. The semaphores are the atomic ones of `MpmcFifoThreads`.
-/

namespace MulticoreRtos.MpmcFifo

open Transition Population

variable {Thread Value : Type}

/-- `todo` lists the calls that a thread has not begun. -/
structure Working (Thread Value : Type) where
  shared : State Thread Value
  todo : Thread → List (Transfer Value)

/-- What a thread does next. `buffer` is what the caller's buffer of a `fifo_get` held. -/
def nextAction (w : Working Thread Value) (thread : Thread) (buffer : Value) :
    Option (Action Thread Value) :=
  match w.shared.stage thread with
  | .outside => (w.todo thread).head?.map (.enter thread)
  | .counted _ => some (.lock thread)
  | .locked _ => some (.copy thread buffer)
  | .copied _ => some (.advance thread)
  | .advanced _ => some (.unlock thread)
  | .unlocked _ => some (.leave thread)

def remaining : Stage Value → List (Transfer Value) → List (Transfer Value)
  | .outside, calls => calls.tail
  | _, calls => calls

def turn [DecidableEq Thread] (w : Working Thread Value) :
    Thread × Value → Option (Working Thread Value)
  | (thread, buffer) =>
      (nextAction w thread buffer).bind fun action =>
        (step w.shared action).map fun shared =>
          ⟨shared, Function.update w.todo thread
            (remaining (w.shared.stage thread) (w.todo thread))⟩

/-! What is left of a thread's list. -/

def Transfer.isPut : Transfer Value → Bool
  | .put _ => true
  | .get => false

def Transfer.isGet : Transfer Value → Bool
  | .put _ => false
  | .get => true

def values (calls : List (Transfer Value)) : List Value :=
  calls.filterMap fun
    | .put value => some value
    | .get => none

def owed : Stage Value → List (Transfer Value)
  | .counted transfer => [transfer]
  | .locked transfer => [transfer]
  | _ => []

/-- The calls of a thread whose element has not been copied. -/
def ahead (w : Working Thread Value) (thread : Thread) : List (Transfer Value) :=
  owed (w.shared.stage thread) ++ w.todo thread

def stepsLeft : Stage Value → Nat
  | .outside => 0
  | .counted _ => 5
  | .locked _ => 4
  | .copied _ => 3
  | .advanced _ => 2
  | .unlocked _ => 1

def share (w : Working Thread Value) (thread : Thread) : Nat :=
  stepsLeft (w.shared.stage thread) + 6 * (w.todo thread).length

section Turns
variable [DecidableEq Thread] {w after : Working Thread Value} {thread : Thread} {buffer : Value}

inductive Copies (w after : Working Thread Value) (thread : Thread) : Prop where
  | nothing (same : ahead after thread = ahead w thread)
      (put : after.shared.put = w.shared.put) (got : after.shared.got = w.shared.got)
  | element (transfer : Transfer Value) (first : ahead w thread = transfer :: ahead after thread)
      (put : after.shared.put = w.shared.put ++ values [transfer])
      (got : after.shared.got.length = w.shared.got.length + transfer.isGet.toNat)

structure Turned (w after : Working Thread Value) (thread : Thread) : Prop where
  others : ∀ t, t ≠ thread → ahead after t = ahead w t ∧ share after t = share w t
  shorter : share w thread = share after thread + 1
  copies : Copies w after thread

theorem turned_of {shared : State Thread Value} {target : Stage Value} {rest : List (Transfer Value)}
    (stage : shared.stage = Function.update w.shared.stage thread target)
    (less : share w thread = stepsLeft target + 6 * rest.length + 1)
    (copies : Copies w ⟨shared, Function.update w.todo thread rest⟩ thread) :
    Turned w ⟨shared, Function.update w.todo thread rest⟩ thread where
  others t other := by simp [ahead, share, stage, other]
  shorter := by simpa [share, stage] using less
  copies := copies

theorem turned_quiet {fifo : Fifo Value} {target : Stage Value} {rest : List (Transfer Value)}
    (calls : owed target ++ rest = ahead w thread)
    (less : share w thread = stepsLeft target + 6 * rest.length + 1) :
    Turned w ⟨moveTo { w.shared with fifo := fifo } thread target,
      Function.update w.todo thread rest⟩ thread := by
  apply turned_of rfl less
  apply Copies.nothing
  · rw [← calls]
    simp [ahead]
  · rfl
  · rfl

theorem turn_turned (turned : turn w (thread, buffer) = some after) : Turned w after thread := by
  simp only [turn, Option.bind_eq_some_iff, Option.map_eq_some_iff] at turned
  obtain ⟨action, next, shared, stepped, rfl⟩ := turned
  cases here : w.shared.stage thread with
  | outside =>
      cases calls : w.todo thread with
      | nil => simp [nextAction, here, calls] at next
      | cons transfer rest =>
          obtain rfl : .enter thread transfer = action := by simpa [nextAction, here, calls] using next
          simp only [step, here, Option.map_eq_some_iff] at stepped
          obtain ⟨fifo, _, rfl⟩ := stepped
          apply turned_quiet
          · simp [ahead, owed, remaining, here, calls]
          · simp only [share, stepsLeft, remaining, here, calls, List.tail_cons, List.length_cons]
            omega
  | counted transfer =>
      obtain rfl : .lock thread = action := by simpa [nextAction, here] using next
      simp only [step, here, Option.map_eq_some_iff] at stepped
      obtain ⟨mutex, _, rfl⟩ := stepped
      apply turned_quiet
      · simp [ahead, owed, remaining, here]
      · simp only [share, stepsLeft, remaining, here]
        omega
  | locked transfer =>
      -- the only stage that copies an element
      obtain rfl : .copy thread buffer = action := by simpa [nextAction, here] using next
      simp only [step, here, Option.some.injEq] at stepped
      subst stepped
      have less : share w thread = stepsLeft (.copied transfer) + 6 * (w.todo thread).length + 1 := by
        simp only [share, stepsLeft, here]
        omega
      cases transfer with
      | put value =>
          apply turned_of rfl less
          apply Copies.element (.put value)
          · simp [ahead, owed, here]
          · rfl
          · rfl
      | get =>
          apply turned_of rfl less
          apply Copies.element .get
          · simp [ahead, owed, here]
          · exact (List.append_nil _).symm
          · exact List.length_append
  | copied transfer =>
      obtain rfl : .advance thread = action := by simpa [nextAction, here] using next
      simp only [step, here, Option.map_eq_some_iff] at stepped
      obtain ⟨fifo, _, rfl⟩ := stepped
      apply turned_quiet
      · simp [ahead, owed, remaining, here]
      · simp only [share, stepsLeft, remaining, here]
        omega
  | advanced transfer =>
      obtain rfl : .unlock thread = action := by simpa [nextAction, here] using next
      simp only [step, here, Option.some.injEq] at stepped
      subst stepped
      apply turned_quiet
      · simp [ahead, owed, remaining, here]
      · simp only [share, stepsLeft, remaining, here]
        omega
  | unlocked transfer =>
      obtain rfl : .leave thread = action := by simpa [nextAction, here] using next
      simp only [step, here, Option.map_eq_some_iff] at stepped
      obtain ⟨fifo, _, rfl⟩ := stepped
      apply turned_quiet
      · simp [ahead, owed, remaining, here]
      · simp only [share, stepsLeft, remaining, here]
        omega

theorem turn_step (turned : turn w (thread, buffer) = some after) :
    ∃ action, step w.shared action = some after.shared := by
  simp only [turn, Option.bind_eq_some_iff, Option.map_eq_some_iff] at turned
  obtain ⟨action, _, shared, stepped, rfl⟩ := turned
  exact ⟨action, stepped⟩

end Turns

/-! What runs keep. -/

section Runs
variable [Fintype Thread] [DecidableEq Thread] {n : Nat} {w before after : Working Thread Value}
  {program : Thread → List (Transfer Value)}

def workload (w : Working Thread Value) : Nat := ∑ thread, share w thread

def calls (kind : Transfer Value → Bool) (lists : Thread → List (Transfer Value)) : Nat :=
  ∑ thread, (lists thread).countP kind

theorem turn_workload {choice : Thread × Value} (turned : turn w choice = some after) :
    workload w = workload after + 1 := by
  have effect := turn_turned turned
  have changed := sum_changed choice.1 fun t other => (effect.others t other).2
  have shorter := effect.shorter
  unfold workload
  omega

theorem run_workload (turns : List (Thread × Value)) (executed : exec turn w turns = some after) :
    turns.length + workload after = workload w := by
  induction turns generalizing w with
  | nil =>
      cases executed
      exact Nat.zero_add _
  | cons choice rest ih =>
      cases turned : turn w choice with
      | none => simp [exec, turned] at executed
      | some next =>
          simp only [exec, turned] at executed
          have first := turn_workload turned
          have others := ih executed
          rw [List.length_cons]
          omega

structure Delivers (program : Thread → List (Transfer Value)) (w : Working Thread Value) : Prop where
  puts : w.shared.put.length + calls Transfer.isPut (ahead w) = calls Transfer.isPut program
  gets : w.shared.got.length + calls Transfer.isGet (ahead w) = calls Transfer.isGet program
  rest : ∀ thread, ahead w thread <:+ program thread

theorem calls_shorter (kind : Transfer Value → Bool) {lists lists' : Thread → List (Transfer Value)}
    {thread : Thread} {transfer : Transfer Value}
    (others : ∀ t, t ≠ thread → lists' t = lists t)
    (first : lists thread = transfer :: lists' thread) :
    calls kind lists = calls kind lists' + (kind transfer).toNat := by
  have kept : ∀ t, t ≠ thread → (lists' t).countP kind = (lists t).countP kind := by
    intro t other
    rw [others t other]
  have changed := sum_changed thread kept
  have counted : (lists thread).countP kind = (lists' thread).countP kind + (kind transfer).toNat := by
    rw [first, List.countP_cons]
    cases kind transfer <;> rfl
  unfold calls
  omega

omit [Fintype Thread] in
theorem ahead_suffix {thread : Thread} (turned : Turned w after thread) (t : Thread) :
    ahead after t <:+ ahead w t := by
  by_cases own : t = thread
  · subst own
    cases turned.copies with
    | nothing same => rw [same]
    | element transfer first => rw [first]; exact List.suffix_cons _ _
  · rw [(turned.others t own).1]

theorem delivers_turn {choice : Thread × Value} (delivers : Delivers program w)
    (turned : turn w choice = some after) : Delivers program after := by
  have effect := turn_turned turned
  have others t (other : t ≠ choice.1) := (effect.others t other).1
  have puts := delivers.puts
  have gets := delivers.gets
  have rest t := (ahead_suffix effect t).trans (delivers.rest t)
  cases effect.copies with
  | nothing same put got =>
      have unchanged : ahead after = ahead w := by
        funext t
        by_cases own : t = choice.1
        · rw [own, same]
        · exact others t own
      exact ⟨by rw [put, unchanged, puts], by rw [got, unchanged, gets], rest⟩
  -- one call fewer on a list is one element more in a log
  | element transfer first put got =>
      have fewer_puts := calls_shorter Transfer.isPut others first
      have fewer_gets := calls_shorter Transfer.isGet others first
      have stored : after.shared.put.length = w.shared.put.length + transfer.isPut.toNat := by
        rw [put, List.length_append]
        cases transfer <;> rfl
      exact ⟨by omega, by omega, rest⟩

omit [DecidableEq Thread] in
theorem delivers_start (fifo : Fifo Value) :
    Delivers program ⟨created fifo, program⟩ :=
  ⟨Nat.zero_add _, Nat.zero_add _, fun _ => List.suffix_rfl⟩

omit [Fintype Thread] in
theorem order_turn {owner : Value → Thread} {choice : Thread × Value} (turned : turn w choice = some after)
    (named : ∀ thread value, value ∈ values (ahead w thread) → owner value = thread)
    (order : ∀ thread, (w.shared.put.filter fun value => owner value = thread) ++
      values (ahead w thread) = values (program thread)) (thread : Thread) :
    (after.shared.put.filter fun value => owner value = thread) ++ values (ahead after thread) =
      values (program thread) := by
  have effect := turn_turned turned
  rw [← order thread]
  by_cases own : thread = choice.1
  · subst own
    cases effect.copies with
    | nothing same put got => rw [same, put]
    | element transfer first put got =>
        rw [first, put, List.filter_append, List.append_assoc]
        cases transfer with
        | put value =>
            have mine : owner value = choice.1 := named _ value (by rw [first]; exact .head _)
            simp [values, mine]
        | get => simp [values]
  · -- what another thread puts does not pass the filter
    rw [(effect.others thread own).1]
    cases effect.copies with
    | nothing same put got => rw [put]
    | element transfer first put got =>
        rw [put, List.filter_append]
        cases transfer with
        | put value =>
            have theirs : owner value = choice.1 := named _ value (by rw [first]; exact .head _)
            simp [values, theirs, Ne.symm own]
        | get => simp [values]

end Runs

/-! Threads that cannot go on. -/

inductive Waits (w : Working Thread Value) (thread : Thread) : Prop where
  | finished (here : w.shared.stage thread = .outside) (calls : w.todo thread = [])
  | forSpace (value : Value) (rest : List (Transfer Value)) (here : w.shared.stage thread = .outside)
      (next : w.todo thread = .put value :: rest) (full : w.shared.fifo.full = 0)
  | forValue (rest : List (Transfer Value)) (here : w.shared.stage thread = .outside)
      (next : w.todo thread = .get :: rest) (empty : w.shared.fifo.empty = 0)
  | forMutex (transfer : Transfer Value) (here : w.shared.stage thread = .counted transfer)
      (taken : w.shared.fifo.mutex ≠ 0)

section Stuck
variable [Fintype Thread] [DecidableEq Thread] {n : Nat} {w : Working Thread Value} {thread : Thread}
  {buffer : Value}

omit [DecidableEq Thread] in
theorem Units.small {s : State Thread Value} (units : Units n s) (small : (n : Int) < int32Max) :
    s.fifo.full ≠ int32Max ∧ s.fifo.empty ≠ int32Max := by
  have full := units.full_nonneg
  have empty := units.empty_nonneg
  have queue := units.queue
  have space := units.space
  constructor <;> omega

theorem cWait_none {value : Int} (nonneg : 0 ≤ value) : cWait value = none ↔ value = 0 := by
  have lowest : value ≠ int32Min := by
    unfold int32Min
    omega
  simp [cWait, lowest]

theorem waits_of_stuck (queued : Queued n w.shared) (small : (n : Int) < int32Max)
    (stuck : turn w (thread, buffer) = none) : Waits w thread := by
  obtain ⟨full, empty⟩ := queued.units.small small
  have sized : w.shared.fifo.size ≠ 0 := ((Nat.zero_le n).trans_lt queued.indexed.room).ne'
  cases here : w.shared.stage thread with
  | outside =>
      cases calls : w.todo thread with
      | nil => exact .finished here calls
      | cons transfer rest =>
          cases transfer with
          | put value =>
              have waits : cWait w.shared.fifo.full = none := by
                simpa [turn, nextAction, step, takeUnit, here, calls] using stuck
              exact .forSpace value rest here calls ((cWait_none queued.units.full_nonneg).mp waits)
          | get =>
              have waits : cWait w.shared.fifo.empty = none := by
                simpa [turn, nextAction, step, takeUnit, here, calls] using stuck
              exact .forValue rest here calls ((cWait_none queued.units.empty_nonneg).mp waits)
  | counted transfer =>
      have waits : bWait w.shared.fifo.mutex = none := by
        simpa [turn, nextAction, step, here] using stuck
      exact .forMutex transfer here (by simpa [bWait] using waits)
  | locked transfer => simp [turn, nextAction, step, here] at stuck
  | copied transfer =>
      cases transfer <;>
        simp [turn, nextAction, step, advanceIndex, advanceTail, advanceHead, advance, here, sized]
          at stuck
  | advanced transfer => simp [turn, nextAction, step, here] at stuck
  | unlocked transfer =>
      cases transfer <;>
        simp [turn, nextAction, step, giveUnit, cSignal, here, full, empty] at stuck

/-- A mutex that is taken is held by a thread that can go on. -/
theorem mutex_free (queued : Queued n w.shared) (small : (n : Int) < int32Max)
    (stuck : ∀ thread, turn w (thread, buffer) = none) : w.shared.fifo.mutex = 0 := by
  have mutex := queued.indexed.mutex
  by_contra taken
  -- somebody is between `b_wait` and `b_signal`, and no thread waits there
  obtain ⟨thread, held⟩ : ∃ thread, settled (w.shared.stage thread) ∨
      storing (w.shared.stage thread) ∨ loading (w.shared.stage thread) := by
    by_contra nobody
    push Not at nobody
    have no_settled := tally_zero settled w.shared.stage fun t => by simp [(nobody t).1]
    have no_storing := tally_zero storing w.shared.stage fun t => by simp [(nobody t).2.1]
    have no_loading := tally_zero loading w.shared.stage fun t => by simp [(nobody t).2.2]
    omega
  cases waits_of_stuck queued small (stuck thread) with
  | finished here => simp [here, settled, storing, loading] at held
  | forSpace value rest here => simp [here, settled, storing, loading] at held
  | forValue rest here => simp [here, settled, storing, loading] at held
  | forMutex transfer here => simp [here, settled, storing, loading] at held

theorem stuck_outside (queued : Queued n w.shared) (small : (n : Int) < int32Max)
    (stuck : ∀ thread, turn w (thread, buffer) = none) (thread : Thread) :
    w.shared.stage thread = .outside := by
  cases waits_of_stuck queued small (stuck thread) with
  | finished here => exact here
  | forSpace value rest here => exact here
  | forValue rest here => exact here
  | forMutex transfer here taken => exact absurd (mutex_free queued small stuck) taken

theorem stuck_counts (queued : Queued n w.shared) (small : (n : Int) < int32Max)
    (stuck : ∀ thread, turn w (thread, buffer) = none) :
    (w.shared.put.length : Int) = w.shared.got.length + w.shared.fifo.empty ∧
      w.shared.fifo.full + w.shared.put.length = n + w.shared.got.length := by
  have outside := stuck_outside queued small stuck
  have no_pending := tally_zero pending w.shared.stage fun t => by simp [outside t, pending]
  have no_reserved := tally_zero reserved w.shared.stage fun t => by simp [outside t, reserved]
  have queue := queued.units.queue
  have space := queued.units.space
  constructor <;> omega

theorem stuck_lists (queued : Queued n w.shared) (small : (n : Int) < int32Max)
    (stuck : ∀ thread, turn w (thread, buffer) = none) (thread : Thread) :
    w.todo thread = [] ∨
      (w.shared.fifo.full = 0 ∧ ∃ value rest, w.todo thread = .put value :: rest) ∨
      (w.shared.fifo.empty = 0 ∧ ∃ rest, w.todo thread = .get :: rest) := by
  cases waits_of_stuck queued small (stuck thread) with
  | finished here calls => exact .inl calls
  | forSpace value rest here next full => exact .inr (.inl ⟨full, value, rest, next⟩)
  | forValue rest here next empty => exact .inr (.inr ⟨empty, rest, next⟩)
  | forMutex transfer here taken => exact absurd (mutex_free queued small stuck) taken

end Stuck

section Programs
variable [Fintype Thread] [DecidableEq Thread] {n elementSize : Nat} {before w : Working Thread Value}

omit [Fintype Thread] [DecidableEq Thread] in
theorem begun_small {s : State Thread Value} (copied : Copied elementSize)
    (fits : sizeofFifo + n * elementSize < 2 ^ 32) (begun : Begun n elementSize s) :
    (n : Int) < int32Max := by
  obtain ⟨heapPtr, tree, memory, after, fifo, made, rfl⟩ := begun
  obtain ⟨size, _⟩ := fifoInit_counted copied fits made
  obtain ⟨small, rfl⟩ := fifoInit_some made
  have positive : 1 ≤ elementSize := by rcases copied with rfl | rfl | rfl | rfl <;> decide
  -- the FIFO came out of the heap, which is smaller than an `int32_t` can count
  have elements := Nat.mul_le_mul_left n positive
  have wide : Heap.heapSize = 131072 := rfl
  change initByteCount n elementSize = _ at size
  unfold int32Max
  omega

theorem run_working (copied : Copied elementSize) (fits : sizeofFifo + n * elementSize < 2 ^ 32)
    (begun : Begun n elementSize before.shared) (reached : Reaches turn free (· = before) w) :
    Queued n w.shared ∧ Delivers before.todo w := by
  apply reached.invariant fun w => Queued n w.shared ∧ Delivers before.todo w
  · rintro first rfl
    obtain ⟨_, _, _, _, fifo, _, fresh⟩ := id begun
    have start : Delivers first.todo ⟨created fifo, first.todo⟩ := delivers_start fifo
    rw [← fresh] at start
    exact ⟨begun_queued copied fits begun, start⟩
  · intro earlier choice later ⟨queued, delivers⟩ _ turned
    obtain ⟨action, stepped⟩ := turn_step turned
    exact ⟨queued_step action _ queued stepped, delivers_turn delivers turned⟩

theorem run_order (owner : Value → Thread)
    (named : ∀ thread, ∀ value ∈ values (before.todo thread), owner value = thread)
    (begun : Begun n elementSize before.shared) (reached : Reaches turn free (· = before) w)
    (thread : Thread) :
    (w.shared.put.filter fun value => owner value = thread) ++ values (ahead w thread) =
      values (before.todo thread) := by
  have both : Delivers before.todo w ∧ ∀ thread,
      (w.shared.put.filter fun value => owner value = thread) ++ values (ahead w thread) =
        values (before.todo thread) := by
    apply reached.invariant fun w => Delivers before.todo w ∧ ∀ thread,
      (w.shared.put.filter fun value => owner value = thread) ++ values (ahead w thread) =
        values (before.todo thread)
    · rintro first rfl
      obtain ⟨_, _, _, _, fifo, _, fresh⟩ := begun
      have start : Delivers first.todo ⟨created fifo, first.todo⟩ := delivers_start fifo
      rw [← fresh] at start
      constructor
      · exact start
      · intro thread
        simp [ahead, owed, fresh, created]
    · intro earlier choice later held _ turned
      obtain ⟨delivers, order⟩ := held
      constructor
      · exact delivers_turn delivers turned
      · apply order_turn turned _ order
        intro t value member
        exact named t value ((delivers.rest t).filterMap _ |>.subset member)
  exact both.2 thread

/-- A run of programs comes to an end, and what is left of them waits for one side. -/
theorem programs_come_to_rest (n elementSize : Nat) (copied : Copied elementSize)
    (fits : sizeofFifo + n * elementSize < 2 ^ 32) (positive : 0 < n) (before : Working Thread Value)
    (begun : Begun n elementSize before.shared) :
    (∀ turns after, exec turn before turns = some after →
      turns.length ≤ 6 * ∑ thread, (before.todo thread).length) ∧
    ∀ w buffer, Reaches turn free (· = before) w → (∀ thread, turn w (thread, buffer) = none) →
      (∀ thread, w.shared.stage thread = .outside) ∧
      ((∀ thread, w.todo thread = []) ∨
        (w.shared.put.length = w.shared.got.length + n ∧
          ∀ thread, w.todo thread = [] ∨ ∃ value rest, w.todo thread = .put value :: rest) ∨
        (w.shared.put.length = w.shared.got.length ∧
          ∀ thread, w.todo thread = [] ∨ ∃ rest, w.todo thread = .get :: rest)) := by
  have small := begun_small copied fits begun
  constructor
  · intro turns after executed
    obtain ⟨_, _, _, _, fifo, made, fresh⟩ := begun
    have account := run_workload turns executed
    have whole : workload before = 6 * ∑ thread, (before.todo thread).length := by
      simp only [workload, share, stepsLeft, fresh, created, Nat.zero_add, Finset.mul_sum]
    omega
  · intro w buffer reached stuck
    have queued := (run_working copied fits begun reached).1
    have counts := stuck_counts queued small stuck
    have lists := stuck_lists queued small stuck
    constructor
    · exact stuck_outside queued small stuck
    · by_cases full : w.shared.fifo.full = 0
      · right
        left
        constructor
        · omega
        · intro thread
          rcases lists thread with calls | ⟨_, put⟩ | ⟨empty, _⟩
          · exact .inl calls
          · exact .inr put
          · omega
      · by_cases empty : w.shared.fifo.empty = 0
        · right
          right
          constructor
          · omega
          · intro thread
            rcases lists thread with calls | ⟨none_left, _⟩ | ⟨_, get⟩
            · exact .inl calls
            · exact absurd none_left full
            · exact .inr get
        · left
          intro thread
          rcases lists thread with calls | ⟨none_left, _⟩ | ⟨none_left, _⟩
          · exact calls
          · exact absurd none_left full
          · exact absurd none_left empty

def OneSided (program : Thread → List (Transfer Value)) : Prop :=
  ∀ thread, (∀ transfer ∈ program thread, transfer.isPut) ∨
    ∀ transfer ∈ program thread, transfer.isGet

instance (program : Thread → List (Transfer Value)) : Decidable (OneSided program) :=
  inferInstanceAs (Decidable (∀ _, _ ∨ _))

omit [Fintype Thread] [DecidableEq Thread] in
/-- What is left of a thread's list has the kind of its first call. -/
theorem OneSided.same_kind {program : Thread → List (Transfer Value)} (sided : OneSided program)
    {thread : Thread} {first : Transfer Value} {rest : List (Transfer Value)}
    (left : first :: rest <:+ program thread) {transfer : Transfer Value}
    (member : transfer ∈ first :: rest) :
    transfer.isPut = first.isPut ∧ transfer.isGet = first.isGet := by
  have here := left.subset member
  have there := left.subset (.head rest)
  rcases sided thread with puts | gets
  · have own := puts _ here
    have other := puts _ there
    cases transfer with
    | get => cases own
    | put value =>
        cases first with
        | get => cases other
        | put value' => exact ⟨rfl, rfl⟩
  · have own := gets _ here
    have other := gets _ there
    cases transfer with
    | put value => cases own
    | get =>
        cases first with
        | put value => cases other
        | get => exact ⟨rfl, rfl⟩

omit [DecidableEq Thread] in
theorem none_left (kind : Transfer Value → Bool) (delivers : Delivers before.todo w)
    (outside : ∀ thread, w.shared.stage thread = .outside)
    (same : ∀ thread first rest, first :: rest <:+ before.todo thread →
      ∀ transfer ∈ first :: rest, kind transfer = kind first)
    (not_first : ∀ thread first rest, w.todo thread = first :: rest → ¬ kind first) :
    calls kind (ahead w) = 0 := by
  apply Finset.sum_eq_zero
  intro thread _
  have listed : ahead w thread = w.todo thread := by simp [ahead, outside thread, owed]
  have suffix := delivers.rest thread
  rw [listed] at suffix ⊢
  cases left : w.todo thread with
  | nil => rfl
  | cons first rest =>
      apply List.countP_eq_zero.mpr
      intro transfer member
      rw [left] at suffix
      rw [same thread first rest suffix transfer member]
      exact not_first thread first rest left

/-- Producers and consumers pass on all they can, and the values of each producer
stay in order. -/
theorem producers_and_consumers (n elementSize : Nat) (copied : Copied elementSize)
    (fits : sizeofFifo + n * elementSize < 2 ^ 32) (positive : 0 < n) (before : Working Thread Value)
    (begun : Begun n elementSize before.shared) (sided : OneSided before.todo)
    (owner : Value → Thread)
    (named : ∀ thread, ∀ value ∈ values (before.todo thread), owner value = thread)
    (w : Working Thread Value) (reached : Reaches turn free (· = before) w) :
    (∀ thread, (w.shared.got.filter fun value => owner value = thread) <+:
      values (before.todo thread)) ∧
    ∀ buffer, (∀ thread, turn w (thread, buffer) = none) →
      w.shared.put.length =
        min (calls Transfer.isPut before.todo) (calls Transfer.isGet before.todo + n) ∧
      w.shared.got.length =
        min (calls Transfer.isGet before.todo) (calls Transfer.isPut before.todo) := by
  have small := begun_small copied fits begun
  obtain ⟨queued, delivers⟩ := run_working copied fits begun reached
  constructor
  · intro thread
    have order := run_order owner named begun reached thread
    rw [← order]
    exact (queued.stored.copies.filter _).trans (List.prefix_append _ _)
  · intro buffer stuck
    have outside := stuck_outside queued small stuck
    have lists := stuck_lists queued small stuck
    have counts := stuck_counts queued small stuck
    have puts := delivers.puts
    have gets := delivers.gets
    have full_nonneg := queued.units.full_nonneg
    have empty_nonneg := queued.units.empty_nonneg
    have no_put : w.shared.fifo.full ≠ 0 → calls Transfer.isPut (ahead w) = 0 := by
      intro room
      apply none_left _ delivers outside
      · intro thread first rest left transfer member
        exact (sided.same_kind left member).1
      · intro thread first rest here
        rcases lists thread with calls | ⟨full, _⟩ | ⟨_, others, calls⟩
        · simp [here] at calls
        · exact absurd full room
        · rw [here] at calls
          cases calls
          exact Bool.false_ne_true
    have no_get : w.shared.fifo.empty ≠ 0 → calls Transfer.isGet (ahead w) = 0 := by
      intro filled
      apply none_left _ delivers outside
      · intro thread first rest left transfer member
        exact (sided.same_kind left member).2
      · intro thread first rest here
        rcases lists thread with calls | ⟨_, value, others, calls⟩ | ⟨empty, _⟩
        · simp [here] at calls
        · rw [here] at calls
          cases calls
          exact Bool.false_ne_true
        · exact absurd empty filled
    by_cases full : w.shared.fifo.full = 0
    · have all_got := no_get (by omega)
      omega
    · have all_put := no_put full
      by_cases empty : w.shared.fifo.empty = 0
      · omega
      · have all_got := no_get empty
        omega

end Programs

def handover : Working (Fin 2) Nat where
  shared := created (byteFifo 1)
  todo thread := if thread = 0 then [.put 7, .put 8] else [.get, .get]

theorem handover_begun : Begun 1 1 handover.shared :=
  ⟨0x20000800, Heap.heapInit, fun _ => 0, _, byteFifo 1, rfl, rfl⟩

def handoverTurns : List (Fin 2 × Nat) :=
  List.replicate 6 (0, 0) ++ List.replicate 6 (1, 0) ++ List.replicate 6 (0, 0) ++
    List.replicate 6 (1, 0)

theorem handover_rests : ∃ w ∈ exec turn handover handoverTurns,
    ∀ thread, turn w (thread, 0) = none := by
  obtain ⟨w, executed, stuck⟩ : ∃ w ∈ exec turn handover handoverTurns,
      ∀ thread, (turn w (thread, 0)).isNone := by decide
  exact ⟨w, executed, fun thread => Option.isNone_iff_eq_none.mp (stuck thread)⟩

theorem programs_come_to_rest_handover :
    ∃ w ∈ exec turn handover handoverTurns,
      handoverTurns.length ≤ 6 * ∑ thread, (handover.todo thread).length ∧
      ∀ thread, w.shared.stage thread = .outside := by
  obtain ⟨bounded, rest⟩ := programs_come_to_rest 1 1 (by decide) (by decide) (by decide) handover
    handover_begun
  obtain ⟨w, executed, stuck⟩ := handover_rests
  have begun : Reaches turn free (· = handover) handover := .start rfl
  have reached := exec_reaches handoverTurns begun (allowed_free _ _ _) executed
  exact ⟨w, executed, bounded handoverTurns w executed, (rest w 0 reached stuck).1⟩

theorem producers_and_consumers_handover :
    ∃ w ∈ exec turn handover handoverTurns, w.shared.got.length = 2 ∧ w.shared.got <+: [7, 8] := by
  obtain ⟨w, executed, stuck⟩ := handover_rests
  have begun : Reaches turn free (· = handover) handover := .start rfl
  have reached := exec_reaches handoverTurns begun (allowed_free _ _ _) executed
  obtain ⟨order, counts⟩ := producers_and_consumers 1 1 (by decide) (by decide) (by decide) handover
    handover_begun (by decide) (fun _ => 0) (by decide) w reached
  have first : w.shared.got <+: [7, 8] := by simpa [values, handover] using order 0
  exact ⟨w, executed, (counts 0 stuck).2, first⟩

end MulticoreRtos.MpmcFifo
