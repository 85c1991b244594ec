import Mathlib.Logic.Relation
import MulticoreRtos.FifoSizes
import MulticoreRtos.UartTransmit

/-!
Output from the masked timer interrupt. `schedule_background` runs a background
task on core 0 with PRIMASK set, and `uart_tx_interrupt` runs on core 0 only, so
nothing leaves `tx_fifo` before the task returns.
-/

namespace MulticoreRtos.UartMasked

open Transition
open SpscFifo (advance_inside)
open UartTransmit (Byte Hardware Uart Sender Handler senderStep handlerStep writeData writeData_tx
  writeData_room sizeNonblocking sub32 pl011 emptyTx)
open Scheduler (Core)

/-- `task` is where the background task is in `uart_out_byte`, and it has `left`
more bytes to print. `masked` lasts as long as `timer1_interrupt`. -/
structure Console (Thread : Type) where
  uart : Uart
  sender : Thread → Sender
  core : Thread → Core
  handler : Handler
  masked : Bool
  task : Sender
  left : Nat

inductive Action (Thread : Type) where
  | call (thread : Thread) (data : Byte)
  | send (thread : Thread)
  | move (thread : Thread) (core : Core)
  | raise
  | enter
  | handle
  | drain
  -- `timer1_interrupt`, with a task that prints `bytes` bytes
  | fire (bytes : Nat)
  | print (data : Byte)
  | access
  | finish

variable {Thread : Type}

def Held (c : Console Thread) (thread : Thread) : Prop :=
  c.core thread = .cpu0 ∧ (c.masked = true ∨ c.handler ≠ .outside)

instance (c : Console Thread) (thread : Thread) : Decidable (Held c thread) :=
  inferInstanceAs (Decidable (_ ∧ _))

section Step
variable [DecidableEq Thread]

/-- Neither interrupt starts while the other one is handled. -/
def step (hardware : Hardware) (c : Console Thread) : Action Thread → Option (Console Thread)
  | .call thread data =>
      if Held c thread then none
      else match c.sender thread with
        | .outside => some { c with sender := Function.update c.sender thread (.testTail data) }
        | _ => none
  | .send thread =>
      if Held c thread then none
      else (senderStep hardware c.uart (c.sender thread)).map fun (uart, sender) =>
        { c with uart := uart, sender := Function.update c.sender thread sender }
  | .move thread core =>
      if Held c thread then none else some { c with core := Function.update c.core thread core }
  | .raise => some { c with uart := { c.uart with pending := true } }
  | .enter =>
      match c.masked, c.handler with
      | false, .outside => some { c with handler := .status }
      | _, _ => none
  | .handle => (handlerStep hardware c.uart c.handler).map fun (uart, handler) =>
      { c with uart := uart, handler := handler }
  | .drain => (UartTransmit.drain hardware c.uart).map fun uart => { c with uart := uart }
  | .fire bytes =>
      match c.masked, c.handler with
      | false, .outside => some { c with masked := true, task := .outside, left := bytes }
      | _, _ => none
  | .print data =>
      match c.masked, c.task, c.left with
      | true, .outside, left + 1 => some { c with task := .testTail data, left := left }
      | _, _, _ => none
  | .access =>
      if c.masked then (senderStep hardware c.uart c.task).map fun (uart, task) =>
        { c with uart := uart, task := task }
      else none
  | .finish =>
      match c.masked, c.task, c.left with
      | true, .outside, 0 => some { c with masked := false }
      | _, _, _ => none

end Step

def started (tx : SpscFifo.Ring Byte) (core : Thread → Core) : Console Thread :=
  ⟨⟨tx, 0, [], false⟩, fun _ => .outside, core, .outside, false, .outside, 0⟩

def Begun (c : Console Thread) : Prop :=
  ∃ tx core, UartTransmit.TxMade tx ∧ c = started tx core

/-- The task is about to be refused by `fifo_put_nonblock`, and to try again with
nobody to empty `tx_fifo`. -/
def SpinsMasked (c : Console Thread) : Prop :=
  c.masked = true ∧ ∃ data tail, c.task = .fullHead data tail ∧
    MpmcFifo.advance tail c.uart.tx.size = some c.uart.tx.head

/-- While core 0 is masked, the threads of core 1 store neither `tail` nor a byte
in the hardware FIFO. -/
def Alone (c : Console Thread) : Action Thread → Prop
  | .send thread => c.masked → ¬ (c.sender thread).writes ∧ ¬ (c.sender thread).queues
  | _ => True

/-! What the byte count of a task has to do with the room in both FIFOs. -/

structure InRange (tx : SpscFifo.Ring Byte) : Prop where
  head : tx.head < tx.size
  tail : tx.tail < tx.size
  narrow : tx.size < 2 ^ 31

/-- `fifo_size_nonblocking` between two calls. -/
def fill (tx : SpscFifo.Ring Byte) : Nat := FifoSizes.distance tx.tail tx.head tx.size

def room (hardware : Hardware) (uart : Uart) : Nat :=
  uart.tx.size - 1 - fill uart.tx +
    if uart.tx.head = uart.tx.tail then hardware.depth - uart.level else 0

/-- `left` bytes are still to be printed behind the byte of this call, and there is
room for all of them. -/
def Budget (hardware : Hardware) (uart : Uart) (left : Nat) : Sender → Prop
  | .outside => left ≤ room hardware uart
  | .testTail _ => left < room hardware uart
  | .testHead _ _ => left < room hardware uart
  | .sizeTail _ ahead =>
      ahead = decide (uart.tx.head ≤ uart.tx.tail) ∧ left < room hardware uart
  | .sizeHead _ ahead _ =>
      ahead = decide (uart.tx.head ≤ uart.tx.tail) ∧ left < room hardware uart
  | .flag _ => uart.tx.head = uart.tx.tail ∧ left < room hardware uart
  | .direct _ =>
      uart.tx.head = uart.tx.tail ∧ uart.level < hardware.depth ∧ left < room hardware uart
  | _ => left < uart.tx.size - 1 - fill uart.tx

structure Fits (hardware : Hardware) (uart : Uart) (left : Nat) (task : Sender) : Prop where
  current : task.Current uart.tx.tail
  budget : Budget hardware uart left task

section Accesses
variable {hardware : Hardware} {uart after : Uart} {left : Nat} {task next : Sender}

theorem fill_zero (inside : InRange uart.tx) : fill uart.tx = 0 ↔ uart.tx.head = uart.tx.tail := by
  obtain ⟨head, tail, _⟩ := inside
  rw [fill, FifoSizes.distance]
  split <;> omega

theorem fill_bound (inside : InRange uart.tx) : fill uart.tx < uart.tx.size := by
  obtain ⟨head, tail, _⟩ := inside
  rw [fill, FifoSizes.distance]
  split <;> omega

theorem advance_tail (inside : InRange uart.tx) :
    MpmcFifo.advance uart.tx.tail uart.tx.size = some ((uart.tx.tail + 1) % uart.tx.size) := by
  have narrow := inside.narrow
  exact advance_inside uart.tx.tail uart.tx.size inside.tail (by omega)

theorem next_index {index size : Nat} (inside : index < size) :
    (index + 1) % size = if index + 1 = size then 0 else index + 1 := by
  split
  next last => rw [last, Nat.mod_self]
  next more => exact Nat.mod_eq_of_lt (by omega)

theorem full_fill (inside : InRange uart.tx) :
    (uart.tx.tail + 1) % uart.tx.size = uart.tx.head ↔ fill uart.tx = uart.tx.size - 1 := by
  obtain ⟨head, tail, _⟩ := inside
  rw [next_index tail, fill, FifoSizes.distance]
  split <;> split <;> omega

theorem fill_store (inside : InRange uart.tx)
    (space : (uart.tx.tail + 1) % uart.tx.size ≠ uart.tx.head) :
    fill { uart.tx with tail := (uart.tx.tail + 1) % uart.tx.size } = fill uart.tx + 1 := by
  obtain ⟨head, tail, _⟩ := inside
  rw [next_index tail] at space ⊢
  simp only [fill, FifoSizes.distance]
  split at space <;> split <;> split <;> split <;> omega

theorem sizeNonblocking_exact (inside : InRange uart.tx) :
    sizeNonblocking (decide (uart.tx.head ≤ uart.tx.tail)) uart.tx.tail uart.tx.head
      uart.tx.size = 0 ↔ uart.tx.head = uart.tx.tail := by
  obtain ⟨head, tail, narrow⟩ := inside
  by_cases ahead : uart.tx.head ≤ uart.tx.tail <;>
    simp only [sizeNonblocking, sub32, ahead, decide_true, decide_false, if_true, Bool.false_eq_true,
      if_false] <;> omega

theorem Fits.mono (fits : Fits hardware uart left task) (head : after.tx.head = uart.tx.head)
    (tail : after.tx.tail = uart.tx.tail) (size : after.tx.size = uart.tx.size)
    (level : after.level ≤ uart.level) : Fits hardware after left task := by
  have same : fill after.tx = fill uart.tx := by rw [fill, fill, head, tail, size]
  have more : room hardware uart ≤ room hardware after := by
    rw [room, room, same, head, tail, size]
    split <;> omega
  obtain ⟨current, budget⟩ := fits
  refine ⟨tail ▸ current, ?_⟩
  cases task with
  | sizeTail data ahead | sizeHead data ahead copy =>
      simp only [Budget, head, tail] at budget ⊢
      exact ⟨budget.1, budget.2.trans_le more⟩
  | _ =>
      simp only [Budget, head, tail, size, same] at budget ⊢
      omega

structure Same (uart after : Uart) : Prop where
  head : after.tx.head = uart.tx.head
  tail : after.tx.tail = uart.tx.tail
  size : after.tx.size = uart.tx.size
  level : after.level ≤ uart.level

theorem sender_frame (inside : InRange uart.tx)
    (stepped : senderStep hardware uart task = some (after, next)) :
    InRange after.tx ∧ (¬ task.writes → ¬ task.queues → Same uart after) := by
  have unchanged : Same uart uart := ⟨rfl, rfl, rfl, le_refl _⟩
  cases task with
  | outside => simp [senderStep] at stepped
  | testTail data | testHead data copy | sizeTail data ahead | fullTail data | slotTail data
  | nextTail data =>
      simp only [senderStep, Option.some.injEq, Prod.mk.injEq] at stepped
      obtain ⟨rfl, rfl⟩ := stepped
      exact ⟨inside, fun _ _ => unchanged⟩
  | sizeHead data ahead copy =>
      rw [senderStep] at stepped
      split at stepped <;> simp only [Option.some.injEq, Prod.mk.injEq] at stepped <;>
        obtain ⟨rfl, rfl⟩ := stepped <;> exact ⟨inside, fun _ _ => unchanged⟩
  | flag data =>
      rw [senderStep] at stepped
      split at stepped <;> simp only [Option.some.injEq, Prod.mk.injEq] at stepped <;>
        obtain ⟨rfl, rfl⟩ := stepped <;> exact ⟨inside, fun _ _ => unchanged⟩
  | direct data =>
      simp only [senderStep, Option.some.injEq, Prod.mk.injEq] at stepped
      obtain ⟨rfl, rfl⟩ := stepped
      exact ⟨by rwa [writeData_tx], fun quiet => absurd rfl quiet⟩
  | fullHead data copy =>
      simp only [senderStep, Option.map_eq_some_iff] at stepped
      obtain ⟨index, _, answer⟩ := stepped
      split at answer <;> simp only [Prod.mk.injEq] at answer <;>
        obtain ⟨rfl, rfl⟩ := answer <;> exact ⟨inside, fun _ _ => unchanged⟩
  | slot data copy =>
      simp only [senderStep, Option.some.injEq, Prod.mk.injEq] at stepped
      obtain ⟨rfl, rfl⟩ := stepped
      exact ⟨⟨inside.head, inside.tail, inside.narrow⟩, fun _ _ => ⟨rfl, rfl, rfl, le_refl _⟩⟩
  | index data copy =>
      simp only [senderStep, Option.map_eq_some_iff, Prod.mk.injEq] at stepped
      obtain ⟨index, advanced, rfl, rfl⟩ := stepped
      simp only [MpmcFifo.advance, Option.ite_none_left_eq_some, Option.some.injEq] at advanced
      obtain ⟨_, rfl⟩ := advanced
      have low : (copy + 1) % 2 ^ 32 % uart.tx.size < uart.tx.size :=
        Nat.mod_lt _ (Nat.zero_lt_of_lt inside.head)
      exact ⟨⟨inside.head, low, inside.narrow⟩, fun _ quiet => absurd rfl quiet⟩

theorem handler_frame {handler later : Handler} (inside : InRange uart.tx)
    (stepped : handlerStep hardware uart handler = some (after, later)) : InRange after.tx := by
  cases handler with
  | outside => simp [handlerStep] at stepped
  | clear | emptyHead | slotHead | slot copy | nextHead byte =>
      simp only [handlerStep, Option.some.injEq, Prod.mk.injEq] at stepped
      obtain ⟨rfl, rfl⟩ := stepped
      exact inside
  | status | flag | emptyTail copy =>
      rw [handlerStep] at stepped
      split at stepped <;> simp only [Option.some.injEq, Prod.mk.injEq] at stepped <;>
        obtain ⟨rfl, rfl⟩ := stepped <;> exact inside
  | index byte copy =>
      simp only [handlerStep, Option.map_eq_some_iff, Prod.mk.injEq] at stepped
      obtain ⟨index, advanced, rfl, rfl⟩ := stepped
      simp only [MpmcFifo.advance, Option.ite_none_left_eq_some, Option.some.injEq] at advanced
      obtain ⟨_, rfl⟩ := advanced
      have low : (copy + 1) % 2 ^ 32 % uart.tx.size < uart.tx.size :=
        Nat.mod_lt _ (Nat.zero_lt_of_lt inside.head)
      exact ⟨low, inside.tail, inside.narrow⟩
  | write byte =>
      simp only [handlerStep, Option.some.injEq, Prod.mk.injEq] at stepped
      obtain ⟨rfl, rfl⟩ := stepped
      rwa [writeData_tx]

theorem fits_size {data : Byte} (inside : InRange uart.tx) (low : left < room hardware uart)
    (stepped : senderStep hardware uart
      (.sizeHead data (decide (uart.tx.head ≤ uart.tx.tail)) uart.tx.tail) = some (after, next)) :
    Fits hardware after left next := by
  by_cases empty : uart.tx.head = uart.tx.tail
  · rw [senderStep, if_pos ((sizeNonblocking_exact inside).mpr empty)] at stepped
    simp only [Option.some.injEq, Prod.mk.injEq] at stepped
    obtain ⟨rfl, rfl⟩ := stepped
    exact ⟨trivial, empty, low⟩
  · rw [senderStep, if_neg (mt (sizeNonblocking_exact inside).mp empty)] at stepped
    simp only [Option.some.injEq, Prod.mk.injEq] at stepped
    obtain ⟨rfl, rfl⟩ := stepped
    rw [room, if_neg empty] at low
    exact ⟨trivial, low⟩

theorem fits_flag {data : Byte} (empty : uart.tx.head = uart.tx.tail)
    (low : left < room hardware uart)
    (stepped : senderStep hardware uart (.flag data) = some (after, next)) :
    Fits hardware after left next := by
  by_cases space : uart.level < hardware.depth
  · simp only [senderStep, space, if_true, Option.some.injEq, Prod.mk.injEq] at stepped
    obtain ⟨rfl, rfl⟩ := stepped
    exact ⟨trivial, empty, space, low⟩
  · simp only [senderStep, space, if_false, Option.some.injEq, Prod.mk.injEq] at stepped
    obtain ⟨rfl, rfl⟩ := stepped
    rw [room, if_pos empty, Nat.sub_eq_zero_of_le (Nat.not_lt.mp space)] at low
    exact ⟨trivial, low⟩

theorem fits_direct {data : Byte} (empty : uart.tx.head = uart.tx.tail)
    (space : uart.level < hardware.depth) (low : left < room hardware uart)
    (stepped : senderStep hardware uart (.direct data) = some (after, next)) :
    Fits hardware after left next := by
  simp only [senderStep, writeData_room space, Option.some.injEq, Prod.mk.injEq] at stepped
  obtain ⟨rfl, rfl⟩ := stepped
  rw [room, if_pos empty] at low
  refine ⟨trivial, ?_⟩
  simp only [Budget, room, if_pos empty]
  omega

theorem not_full (inside : InRange uart.tx) (low : left < uart.tx.size - 1 - fill uart.tx) :
    (uart.tx.tail + 1) % uart.tx.size ≠ uart.tx.head := by
  have bound := fill_bound inside
  rw [Ne, full_fill inside]
  omega

theorem fits_index {data : Byte} (inside : InRange uart.tx)
    (low : left < uart.tx.size - 1 - fill uart.tx)
    (stepped : senderStep hardware uart (.index data uart.tx.tail) = some (after, next)) :
    Fits hardware after left next := by
  have advanced := advance_tail inside
  simp only [senderStep, advanced, Option.map_some, Option.some.injEq, Prod.mk.injEq] at stepped
  obtain ⟨rfl, rfl⟩ := stepped
  have filled := fill_store inside (not_full inside low)
  refine ⟨trivial, ?_⟩
  simp only [Budget, room, filled]
  omega

/-- Each byte of the task takes one place. -/
theorem fits_access (inside : InRange uart.tx) (fits : Fits hardware uart left task)
    (stepped : senderStep hardware uart task = some (after, next)) :
    Fits hardware after left next := by
  obtain ⟨current, budget⟩ := fits
  cases task with
  | outside => simp [senderStep] at stepped
  | testTail data | fullTail data | slotTail data | nextTail data =>
      simp only [senderStep, Option.some.injEq, Prod.mk.injEq] at stepped
      obtain ⟨rfl, rfl⟩ := stepped
      exact ⟨by simp [Sender.Current], budget⟩
  | testHead data copy =>
      obtain rfl : copy = uart.tx.tail := current
      simp only [senderStep, Option.some.injEq, Prod.mk.injEq] at stepped
      obtain ⟨rfl, rfl⟩ := stepped
      exact ⟨trivial, rfl, budget⟩
  | sizeTail data ahead =>
      simp only [senderStep, Option.some.injEq, Prod.mk.injEq] at stepped
      obtain ⟨rfl, rfl⟩ := stepped
      exact ⟨rfl, budget⟩
  | sizeHead data ahead copy =>
      obtain rfl : copy = uart.tx.tail := current
      obtain ⟨rfl, low⟩ := budget
      exact fits_size inside low stepped
  | flag data =>
      obtain ⟨empty, low⟩ := budget
      exact fits_flag empty low stepped
  | direct data =>
      obtain ⟨empty, space, low⟩ := budget
      exact fits_direct empty space low stepped
  | fullHead data copy =>
      obtain rfl : copy = uart.tx.tail := current
      have advanced := advance_tail inside
      simp only [senderStep, advanced, Option.map_some, not_full inside budget, if_false,
        Option.some.injEq, Prod.mk.injEq] at stepped
      obtain ⟨rfl, rfl⟩ := stepped
      exact ⟨trivial, budget⟩
  | slot data copy =>
      obtain rfl : copy = uart.tx.tail := current
      simp only [senderStep, Option.some.injEq, Prod.mk.injEq] at stepped
      obtain ⟨rfl, rfl⟩ := stepped
      exact ⟨trivial, budget⟩
  | index data copy =>
      obtain rfl : copy = uart.tx.tail := current
      exact fits_index inside budget stepped

abbrev Path (hardware : Hardware) : Uart × Sender → Uart × Sender → Prop :=
  Relation.ReflTransGen fun before after => senderStep hardware before.1 before.2 = some after

theorem test_path (inside : InRange uart.tx) (data : Byte) :
    Path hardware (uart, .testTail data) (uart,
      if uart.tx.head = uart.tx.tail ∧ uart.level < hardware.depth then .direct data
      else .fullTail data) := by
  refine .head rfl (.head rfl (.head rfl ?_))
  by_cases empty : uart.tx.head = uart.tx.tail
  · refine .head (if_pos ((sizeNonblocking_exact inside).mpr empty)) ?_
    by_cases space : uart.level < hardware.depth
    · rw [if_pos ⟨empty, space⟩]
      exact .single (if_pos space)
    · rw [if_neg fun both => space both.2]
      exact .single (if_neg space)
  · rw [if_neg fun both => empty both.1]
    exact .single (if_neg (mt (sizeNonblocking_exact inside).mp empty))

theorem put_path (inside : InRange uart.tx) (data : Byte)
    (space : (uart.tx.tail + 1) % uart.tx.size ≠ uart.tx.head) :
    Path hardware (uart, .fullTail data) ({ uart with tx := { uart.tx with
      data := Function.update uart.tx.data uart.tx.tail data
      tail := (uart.tx.tail + 1) % uart.tx.size } }, .outside) := by
  have advanced := advance_tail inside
  let stored : Uart :=
    { uart with tx := { uart.tx with data := Function.update uart.tx.data uart.tx.tail data } }
  have tested : Path hardware (uart, .fullTail data) (uart, .slotTail data) :=
    .head rfl (.single (by simp [senderStep, advanced, space]))
  have copied : Path hardware (uart, .slotTail data) (stored, .nextTail data) :=
    .head rfl (.single rfl)
  have moved : Path hardware (stored, .nextTail data)
      ({ stored with tx := { stored.tx with tail := (uart.tx.tail + 1) % uart.tx.size } }, .outside) :=
    .head rfl (.single (by simp [senderStep, stored, advanced]))
  exact tested.trans (copied.trans moved)

theorem call_path (inside : InRange uart.tx) (data : Byte) (some_room : 0 < room hardware uart) :
    ∃ after, Path hardware (uart, .testTail data) (after, .outside) ∧ InRange after.tx ∧
      after.tx.size = uart.tx.size ∧ room hardware after + 1 = room hardware uart := by
  have tested := @test_path hardware uart inside data
  have bound := fill_bound inside
  have zero := fill_zero inside
  by_cases direct : uart.tx.head = uart.tx.tail ∧ uart.level < hardware.depth
  · rw [if_pos direct] at tested
    refine ⟨writeData hardware uart data, tested.tail rfl, by rwa [writeData_tx],
      by rw [writeData_tx], ?_⟩
    rw [writeData_room direct.2, room, room]
    simp only [if_pos direct.1]
    omega
  · rw [if_neg direct] at tested
    have left_over : 0 < uart.tx.size - 1 - fill uart.tx := by
      rw [room] at some_room
      split at some_room <;> omega
    have space := not_full inside left_over
    have filled := fill_store inside space
    have low : (uart.tx.tail + 1) % uart.tx.size < uart.tx.size :=
      Nat.mod_lt _ (Nat.zero_lt_of_lt inside.head)
    refine ⟨_, tested.trans (put_path inside data space), ⟨inside.head, low, inside.narrow⟩, rfl, ?_⟩
    rw [room, if_neg (Ne.symm space)]
    change uart.tx.size - 1 - fill { uart.tx with tail := _ } + 0 + 1 = _
    rw [filled, room]
    split <;> omega

theorem room_behind (inside : InRange uart.tx) (low : room hardware uart < uart.tx.size - 1) :
    uart.tx.head ≠ uart.tx.tail ∧ fill uart.tx + room hardware uart = uart.tx.size - 1 := by
  have bound := fill_bound inside
  have queued : uart.tx.head ≠ uart.tx.tail := by
    intro empty
    rw [room, (fill_zero inside).mpr empty] at low
    omega
  refine ⟨queued, ?_⟩
  rw [room, if_neg queued]
  omega

theorem refused_path (inside : InRange uart.tx) (data : Byte) (no_room : room hardware uart = 0) :
    Path hardware (uart, .testTail data) (uart, .fullHead data uart.tx.tail) ∧
      (uart.tx.tail + 1) % uart.tx.size = uart.tx.head := by
  have tested := @test_path hardware uart inside data
  have bound := fill_bound inside
  have zero := fill_zero inside
  rw [room] at no_room
  have direct : ¬ (uart.tx.head = uart.tx.tail ∧ uart.level < hardware.depth) := by
    rintro ⟨empty, space⟩
    rw [if_pos empty] at no_room
    omega
  rw [if_neg direct] at tested
  exact ⟨tested.tail rfl, (full_fill inside).mpr (by omega)⟩

end Accesses

def Budgeted (hardware : Hardware) (c : Console Thread) (action : Action Thread) : Prop :=
  Alone c action ∧ ∀ bytes, action = .fire bytes → bytes ≤ room hardware c.uart

def InSection (c : Console Thread) (action : Action Thread) : Prop :=
  Alone c action ∧ ∀ bytes, action ≠ .fire bytes

structure Safe (hardware : Hardware) (c : Console Thread) : Prop where
  inside : InRange c.uart.tx
  handler : c.masked = true → c.handler = .outside
  fits : c.masked = true → Fits hardware c.uart c.left c.task

section Steps
variable [DecidableEq Thread] {hardware : Hardware} {c after : Console Thread}

/-- Everything a step can do, as far as the task is concerned. -/
theorem step_cases {action : Action Thread} (stepped : step hardware c action = some after) :
    (Same c.uart after.uart ∧ after.masked = c.masked ∧ after.handler = c.handler ∧
      after.task = c.task ∧ after.left = c.left) ∨
    (∃ thread uart sender, action = .send thread ∧
      senderStep hardware c.uart (c.sender thread) = some (uart, sender) ∧
      after = { c with uart := uart, sender := Function.update c.sender thread sender }) ∨
    (c.masked = false ∧ after = { c with handler := .status }) ∨
    (∃ uart handler, handlerStep hardware c.uart c.handler = some (uart, handler) ∧
      after = { c with uart := uart, handler := handler }) ∨
    (∃ bytes, action = .fire bytes ∧ c.masked = false ∧ c.handler = .outside ∧
      after = { c with masked := true, task := .outside, left := bytes }) ∨
    (∃ data left, c.masked = true ∧ c.task = .outside ∧ c.left = left + 1 ∧
      after = { c with task := .testTail data, left := left }) ∨
    (∃ uart task, c.masked = true ∧ senderStep hardware c.uart c.task = some (uart, task) ∧
      after = { c with uart := uart, task := task }) ∨
    after = { c with masked := false } := by
  have unchanged : Same c.uart c.uart := ⟨rfl, rfl, rfl, le_refl _⟩
  cases action with
  | call thread data =>
      simp only [step, Option.ite_none_left_eq_some] at stepped
      obtain ⟨_, stepped⟩ := stepped
      cases here : c.sender thread <;> simp only [here, reduceCtorEq, Option.some.injEq] at stepped
      subst stepped
      exact .inl ⟨unchanged, rfl, rfl, rfl, rfl⟩
  | send thread =>
      simp only [step, Option.ite_none_left_eq_some, Option.map_eq_some_iff, Prod.exists] at stepped
      obtain ⟨_, uart, sender, accessed, rfl⟩ := stepped
      exact .inr (.inl ⟨thread, uart, sender, rfl, accessed, rfl⟩)
  | move thread core =>
      simp only [step, Option.ite_none_left_eq_some, Option.some.injEq] at stepped
      obtain ⟨_, rfl⟩ := stepped
      exact .inl ⟨unchanged, rfl, rfl, rfl, rfl⟩
  | raise =>
      obtain rfl := Option.some.inj stepped
      exact .inl ⟨⟨rfl, rfl, rfl, le_refl _⟩, rfl, rfl, rfl, rfl⟩
  | enter =>
      cases masked : c.masked <;> cases handler : c.handler <;>
        simp only [step, masked, handler, reduceCtorEq, Option.some.injEq] at stepped
      exact .inr (.inr (.inl ⟨rfl, stepped.symm⟩))
  | handle =>
      simp only [step, Option.map_eq_some_iff, Prod.exists] at stepped
      obtain ⟨uart, handler, accessed, rfl⟩ := stepped
      exact .inr (.inr (.inr (.inl ⟨uart, handler, accessed, rfl⟩)))
  | drain =>
      simp only [step, UartTransmit.drain, Option.map_eq_some_iff, Option.ite_none_left_eq_some,
        Option.some.injEq] at stepped
      obtain ⟨_, ⟨_, rfl⟩, rfl⟩ := stepped
      exact .inl ⟨⟨rfl, rfl, rfl, Nat.sub_le _ _⟩, rfl, rfl, rfl, rfl⟩
  | fire bytes =>
      cases masked : c.masked <;> cases handler : c.handler <;>
        simp only [step, masked, handler, reduceCtorEq, Option.some.injEq] at stepped
      exact .inr (.inr (.inr (.inr (.inl ⟨bytes, rfl, rfl, rfl, stepped.symm⟩))))
  | print data =>
      cases masked : c.masked <;> cases task : c.task <;> cases left : c.left <;>
        simp only [step, masked, task, left, reduceCtorEq, Option.some.injEq] at stepped
      exact .inr (.inr (.inr (.inr (.inr (.inl
        ⟨data, _, rfl, rfl, rfl, stepped.symm⟩)))))
  | access =>
      simp only [step, Option.ite_none_right_eq_some, Option.map_eq_some_iff, Prod.exists] at stepped
      obtain ⟨masked, uart, task, accessed, rfl⟩ := stepped
      exact .inr (.inr (.inr (.inr (.inr (.inr (.inl ⟨uart, task, masked, accessed, rfl⟩))))))
  | finish =>
      cases masked : c.masked <;> cases task : c.task <;> cases left : c.left <;>
        simp only [step, masked, task, left, reduceCtorEq, Option.some.injEq] at stepped
      exact .inr (.inr (.inr (.inr (.inr (.inr (.inr stepped.symm))))))

theorem Same.inside {uart later : Uart} (same : Same uart later) (inside : InRange uart.tx) :
    InRange later.tx := by
  obtain ⟨head, tail, size, _⟩ := same
  exact ⟨by rw [head, size]; exact inside.head, by rw [tail, size]; exact inside.tail,
    by rw [size]; exact inside.narrow⟩

theorem inside_step (inside : InRange c.uart.tx) (action : Action Thread)
    (stepped : step hardware c action = some after) : InRange after.uart.tx := by
  rcases step_cases stepped with ⟨same, _⟩ | ⟨_, _, _, _, accessed, rfl⟩ | ⟨_, rfl⟩ |
    ⟨_, _, accessed, rfl⟩ | ⟨_, _, _, _, rfl⟩ | ⟨_, _, _, _, _, rfl⟩ | ⟨_, _, _, accessed, rfl⟩ | rfl
  · exact same.inside inside
  · exact (sender_frame inside accessed).1
  · exact inside
  · exact handler_frame inside accessed
  · exact inside
  · exact inside
  · exact (sender_frame inside accessed).1
  · exact inside

theorem safe_step (safe : Safe hardware c) (action : Action Thread)
    (budgeted : Budgeted hardware c action) (stepped : step hardware c action = some after) :
    Safe hardware after := by
  have inside := inside_step safe.inside action stepped
  rcases step_cases stepped with ⟨same, masked, handler, task, left⟩ |
    ⟨thread, uart, sender, rfl, accessed, rfl⟩ | ⟨unmasked, rfl⟩ | ⟨uart, handler, accessed, rfl⟩ |
    ⟨bytes, rfl, _, idle, rfl⟩ | ⟨data, left, masked, task, count, rfl⟩ |
    ⟨uart, task, masked, accessed, rfl⟩ | rfl
  · refine ⟨inside, fun set => handler.trans (safe.handler (masked ▸ set)), fun set => ?_⟩
    rw [task, left]
    exact (safe.fits (masked ▸ set)).mono same.head same.tail same.size same.level
  · refine ⟨inside, safe.handler, fun masked => ?_⟩
    -- a thread of core 1, which stores neither an index nor a byte meanwhile
    obtain ⟨quiet, still⟩ := budgeted.1 masked
    obtain ⟨head, tail, size, level⟩ := (sender_frame safe.inside accessed).2 quiet still
    exact (safe.fits masked).mono head tail size level
  · exact ⟨inside, fun masked => absurd (unmasked.symm.trans masked) (by simp),
      fun masked => absurd (unmasked.symm.trans masked) (by simp)⟩
  · have unmasked : ¬ c.masked = true := by
      intro masked
      rw [safe.handler masked] at accessed
      simp [handlerStep] at accessed
    exact ⟨inside, fun masked => absurd masked unmasked, fun masked => absurd masked unmasked⟩
  · exact ⟨inside, fun _ => idle, fun _ => ⟨trivial, budgeted.2 bytes rfl⟩⟩
  · have fits := safe.fits masked
    rw [task, count] at fits
    exact ⟨inside, safe.handler, fun _ => ⟨trivial, fits.budget⟩⟩
  · exact ⟨inside, safe.handler, fun _ => fits_access safe.inside (safe.fits masked) accessed⟩
  · exact ⟨inside, by simp, by simp⟩

omit [DecidableEq Thread] in
/-- With room for every byte that is left, no put is refused. -/
theorem safe_not_spins (safe : Safe hardware c) : ¬ SpinsMasked c := by
  rintro ⟨masked, data, tail, here, refused⟩
  obtain ⟨current, budget⟩ := safe.fits masked
  rw [here] at current budget
  obtain rfl : tail = c.uart.tx.tail := current
  rw [advance_tail safe.inside, Option.some.injEq] at refused
  exact not_full safe.inside budget refused

theorem task_path {guard : Console Thread → Action Thread → Prop} {start : Console Thread → Prop}
    (allowed : ∀ c, guard c .access) {before later : Uart × Sender}
    (path : Path hardware before later) :
    ∀ c, Reaches (step hardware) guard start c → c.masked = true → (c.uart, c.task) = before →
      Reaches (step hardware) guard start { c with uart := later.1, task := later.2 } := by
  induction path with
  | refl =>
      rintro c reached _ rfl
      exact reached
  | tail _ accessed ih =>
      intro c reached masked same
      refine .next .access (ih c reached masked same) (allowed _) ?_
      simp only [step, masked, if_true, accessed, Option.map_some]

theorem thread_path {guard : Console Thread → Action Thread → Prop} {start : Console Thread → Prop}
    (thread : Thread) (allowed : ∀ c, c.masked = false → guard c (.send thread))
    {before later : Uart × Sender} (path : Path hardware before later) :
    ∀ c, Reaches (step hardware) guard start c → c.masked = false → c.handler = .outside →
      (c.uart, c.sender thread) = before →
      Reaches (step hardware) guard start
        { c with uart := later.1, sender := Function.update c.sender thread later.2 } := by
  induction path with
  | refl =>
      rintro c reached _ _ rfl
      rwa [Function.update_eq_self]
  | @tail middle final _ accessed ih =>
      intro c reached unmasked idle same
      refine .next (.send thread) (ih c reached unmasked idle same) (allowed _ unmasked) ?_
      have free : ¬ Held { c with
          uart := middle.1, sender := Function.update c.sender thread middle.2 } thread := by
        simp [Held, unmasked, idle]
      rw [step, if_neg free]
      simp only [Function.update_self, accessed, Option.map_some, Function.update_idem]

/-- A task prints as many bytes as there is room for. -/
theorem task_prints {guard : Console Thread → Action Thread → Prop}
    {start : Console Thread → Prop} (prints : ∀ c, guard c (.print 0))
    (accesses : ∀ c, guard c .access) (count : Nat) :
    ∀ c : Console Thread, Reaches (step hardware) guard start c → c.masked = true →
      c.task = .outside → InRange c.uart.tx → count ≤ c.left → count ≤ room hardware c.uart →
      ∃ c' : Console Thread, Reaches (step hardware) guard start c' ∧ c'.masked = true ∧
        c'.task = .outside ∧ InRange c'.uart.tx ∧ c'.uart.tx.size = c.uart.tx.size ∧
          c'.left + count = c.left ∧ room hardware c'.uart + count = room hardware c.uart := by
  induction count with
  | zero => exact fun c reached masked task inside _ _ => ⟨c, reached, masked, task, inside, rfl, rfl, rfl⟩
  | succ count ih =>
      intro c reached masked task inside more some_room
      obtain ⟨left, same⟩ := Nat.exists_eq_add_of_le' more
      let called : Console Thread := { c with task := .testTail 0, left := left + count }
      have print : step hardware c (.print 0) = some called := by
        simp [step, masked, task, same, called, ← Nat.add_assoc]
      have entered : Reaches (step hardware) guard start called :=
        .next (.print 0) reached (prints c) print
      obtain ⟨later, path, inside', size, less⟩ := @call_path hardware c.uart inside 0 (by omega)
      have reached' := task_path accesses path called entered masked rfl
      obtain ⟨c', final, still, task', within, size', lefts, rooms⟩ :=
        ih _ reached' masked rfl inside' (Nat.le_add_left _ _) (by simp only; omega)
      exact ⟨c', final, still, task', within, size'.trans size, by simp only [called] at lefts; omega,
        by simp only at rooms; omega⟩

/-- A task with more bytes than there is room for comes to a full `tx_fifo`. -/
theorem spins_without_room {guard : Console Thread → Action Thread → Prop}
    {start : Console Thread → Prop} (prints : ∀ c, guard c (.print 0))
    (accesses : ∀ c, guard c .access) {c : Console Thread}
    (reached : Reaches (step hardware) guard start c) (masked : c.masked = true)
    (task : c.task = .outside) (inside : InRange c.uart.tx) (short : room hardware c.uart < c.left) :
    ∃ c', Reaches (step hardware) guard start c' ∧ SpinsMasked c' := by
  obtain ⟨c', reached', masked', task', inside', _, lefts, rooms⟩ :=
    task_prints prints accesses _ c reached masked task inside short.le le_rfl
  obtain ⟨left, same⟩ := Nat.exists_eq_add_of_lt (show 0 < c'.left by omega)
  let called : Console Thread := { c' with task := .testTail 0, left := left }
  have print : step hardware c' (.print 0) = some called := by
    simp [step, masked', task', same, called]
  have entered : Reaches (step hardware) guard start called :=
    .next (.print 0) reached' (prints c') print
  obtain ⟨path, full⟩ := @refused_path hardware c'.uart inside' 0 (by omega)
  have refused := task_path accesses path called entered masked' rfl
  have advanced := (advance_tail inside').trans (congrArg some full)
  exact ⟨_, refused, masked', 0, c'.uart.tx.tail, rfl, advanced⟩

theorem fills_up {guard : Console Thread → Action Thread → Prop} {start : Console Thread → Prop}
    (thread : Thread) (calls : ∀ c, guard c (.call thread 0))
    (sends : ∀ c, c.masked = false → guard c (.send thread)) (count : Nat) :
    ∀ c : Console Thread, Reaches (step hardware) guard start c → c.masked = false →
      c.handler = .outside → c.sender thread = .outside → InRange c.uart.tx →
      count ≤ room hardware c.uart →
      ∃ c' : Console Thread, Reaches (step hardware) guard start c' ∧ c'.masked = false ∧
        c'.handler = .outside ∧ InRange c'.uart.tx ∧ c'.uart.tx.size = c.uart.tx.size ∧
          room hardware c'.uart + count = room hardware c.uart := by
  induction count with
  | zero =>
      exact fun c reached unmasked idle _ inside _ => ⟨c, reached, unmasked, idle, inside, rfl, rfl⟩
  | succ count ih =>
      intro c reached unmasked idle outside inside some_room
      let called : Console Thread :=
        { c with sender := Function.update c.sender thread (.testTail 0) }
      have call : step hardware c (.call thread 0) = some called := by
        simp [step, Held, unmasked, idle, outside, called]
      obtain ⟨later, path, inside', size, less⟩ := @call_path hardware c.uart inside 0 (by omega)
      have entered : Reaches (step hardware) guard start called :=
        .next (.call thread 0) reached (calls c) call
      have reached' := thread_path thread sends path called entered unmasked idle (by simp [called])
      obtain ⟨c', final, masked, handler, within, size', full⟩ :=
        ih _ reached' unmasked idle (by simp) inside' (by simp only; omega)
      exact ⟨c', final, masked, handler, within, size'.trans size, by simp only at full; omega⟩

omit [DecidableEq Thread] in
theorem begun_inside (begun : Begun c) : InRange c.uart.tx := by
  obtain ⟨tx, core, made, rfl⟩ := begun
  obtain ⟨head, tail, size⟩ := UartTransmit.made_created made
  exact ⟨by simp [started, head, size], by simp [started, tail, size], by simp [started, size]⟩

theorem run_inside {guard : Console Thread → Action Thread → Prop}
    (reached : Reaches (step hardware) guard Begun c) : InRange c.uart.tx :=
  reached.invariant (fun c => InRange c.uart.tx) (fun _ begun => begun_inside begun)
    fun _ action _ inside _ stepped => inside_step inside action stepped

theorem run_safe (reached : Reaches (step hardware) (Budgeted hardware) Begun c) :
    Safe hardware c := by
  refine reached.invariant (Safe hardware) ?_
    fun _ action _ safe budgeted stepped => safe_step safe action budgeted stepped
  intro c begun
  refine ⟨begun_inside begun, ?_, ?_⟩ <;> obtain ⟨tx, core, _, rfl⟩ := begun <;> simp [started]

/-- From the start of one `timer1_interrupt` on. -/
theorem section_iff (inside : InRange c.uart.tx) (bytes : Nat)
    (fired : step hardware c (.fire bytes) = some after) :
    (∀ c', Reaches (step hardware) InSection (· = after) c' → ¬ SpinsMasked c') ↔
      bytes ≤ room hardware c.uart := by
  have unmasked : c.masked = false ∧ c.handler = .outside ∧
      after = { c with masked := true, task := .outside, left := bytes } := by
    cases masked : c.masked <;> cases handler : c.handler <;>
      simp only [step, masked, handler, reduceCtorEq, Option.some.injEq] at fired
    exact ⟨rfl, rfl, fired.symm⟩
  obtain ⟨_, idle, rfl⟩ := unmasked
  constructor
  · intro never
    by_contra short
    let entered : Console Thread := { c with masked := true, task := .outside, left := bytes }
    have begins : Reaches (step hardware) InSection (· = entered) entered := .start rfl
    obtain ⟨c', reached, spins⟩ := spins_without_room (fun _ => ⟨trivial, by simp⟩)
      (fun _ => ⟨trivial, by simp⟩) begins rfl rfl inside (Nat.not_le.mp short)
    exact never c' reached spins
  · intro enough c' reached
    have safe : Safe hardware c' := by
      refine reached.invariant (Safe hardware) ?_ ?_
      · rintro _ rfl
        exact ⟨inside, fun _ => idle, fun _ => ⟨trivial, enough⟩⟩
      · intro before action later safe within stepped
        exact safe_step safe action ⟨within.1, fun k fires => absurd fires (within.2 k)⟩ stepped
    exact safe_not_spins safe

end Steps

/-- A masked task never comes to a full `tx_fifo` in a run in which each task finds
room for all its bytes; and from every state reached, a task that starts there is
safe at every speed of the hardware exactly when it finds that room. -/
theorem masked_output_iff (Thread : Type) [DecidableEq Thread] (hardware : Hardware) :
    (∀ c : Console Thread, Reaches (step hardware) (Budgeted hardware) Begun c →
      ¬ SpinsMasked c) ∧
    (∀ (c after : Console Thread) (bytes : Nat), Reaches (step hardware) free Begun c →
      step hardware c (.fire bytes) = some after →
        ((∀ c', Reaches (step hardware) InSection (· = after) c' → ¬ SpinsMasked c') ↔
          bytes ≤ room hardware c.uart)) :=
  ⟨fun _ reached => safe_not_spins (run_safe reached),
    fun _ _ bytes reached fired => section_iff (run_inside reached) bytes fired⟩

def quietConsole : Console Unit := started emptyTx fun _ => .cpu0

theorem quiet_begun : Begun quietConsole := ⟨_, _, UartTransmit.emptyTx_made, rfl⟩

theorem quiet_room : room pl011 quietConsole.uart = 327 := by decide

/-- A thread has printed 305 bytes when a task with 22 more comes. The last of them is
tested with one place of `tx_fifo` free. -/
theorem masked_output_last_place :
    ∃ c after c' : Console Unit, Reaches (step pl011) (Budgeted pl011) Begun c ∧
      fill c.uart.tx = 273 ∧ step pl011 c (.fire 22) = some after ∧ ¬ SpinsMasked after ∧
      Reaches (step pl011) InSection (· = after) c' ∧ fill c'.uart.tx = 294 ∧
      c'.task = .fullHead 0 c'.uart.tx.tail ∧ ¬ SpinsMasked c' := by
  have begins : Reaches (step pl011) (Budgeted pl011) Begun quietConsole := .start quiet_begun
  obtain ⟨c, reached, unmasked, idle, inside, size, rooms⟩ := fills_up ()
    (fun _ => ⟨trivial, by simp⟩) (fun c unmasked => ⟨by simp [Alone, unmasked], by simp⟩) 305
    quietConsole begins rfl rfl rfl (begun_inside quiet_begun) (by decide)
  have size : c.uart.tx.size = 296 := size
  have filled := (@room_behind pl011 c.uart inside (by rw [quiet_room] at rooms; omega)).2
  rw [quiet_room] at rooms
  let after : Console Unit := { c with masked := true, task := .outside, left := 22 }
  have fired : step pl011 c (.fire 22) = some after := by
    simp [step, unmasked, idle, after]
  have budgeted : Budgeted pl011 c (.fire 22) := by
    refine ⟨trivial, fun bytes same => ?_⟩
    obtain rfl : 22 = bytes := by simpa using same
    omega
  have both := masked_output_iff Unit pl011
  have enough : 22 ≤ room pl011 c.uart := by omega
  have printing : Reaches (step pl011) InSection (· = after) after := .start rfl
  obtain ⟨b, printed, masked, task, inside', size', lefts, rooms'⟩ :=
    task_prints (fun _ => ⟨trivial, by simp⟩) (fun _ => ⟨trivial, by simp⟩) 21 after printing rfl rfl
      inside (show 21 ≤ 22 by decide) (by simp only [after]; omega)
  simp only [after] at size' lefts rooms'
  obtain ⟨queued, filled'⟩ := @room_behind pl011 b.uart inside' (by omega)
  let called : Console Unit := { b with task := .testTail 0, left := 0 }
  have print : step pl011 b (.print 0) = some called := by
    have last : b.left = 1 := by omega
    simp [step, masked, task, last, called]
  have path : Path pl011 (b.uart, .testTail 0) (b.uart, .fullHead 0 b.uart.tx.tail) := by
    have tested := @test_path pl011 b.uart inside' 0
    rw [if_neg fun direct => queued direct.1] at tested
    exact tested.tail rfl
  have reached' := task_path (fun _ => ⟨trivial, by simp⟩) path called
    (.next (.print 0) printed ⟨trivial, by simp⟩ print) masked rfl
  refine ⟨c, after, _, reached, by omega, fired, both.1 _ (.next _ reached budgeted fired), reached',
    ?_, rfl, (both.2 c after 22 (reached.weaken fun _ _ _ => trivial) fired).mpr enough _ reached'⟩
  simp only
  omega

/-- A thread has filled both FIFOs when the timer interrupt comes. -/
theorem full_fifo_spins :
    ∃ c : Console Unit, Reaches (step pl011) free Begun c ∧ SpinsMasked c := by
  have begins : Reaches (step pl011) free Begun quietConsole := .start quiet_begun
  obtain ⟨c, reached, unmasked, idle, inside, _, full⟩ := fills_up () (by exact fun _ => trivial)
    (by exact fun _ _ => trivial) 327 quietConsole begins rfl rfl rfl (begun_inside quiet_begun)
    quiet_room.ge
  have fired : step pl011 c (.fire 22) =
      some { c with masked := true, task := .outside, left := 22 } := by
    simp [step, unmasked, idle]
  rw [quiet_room] at full
  have short : room pl011 c.uart < 22 := by omega
  exact spins_without_room (fun _ => trivial) (fun _ => trivial)
    (.next (.fire 22) reached trivial fired) rfl rfl inside short

end MulticoreRtos.UartMasked
