import MulticoreRtos.MpmcFifoBounds
import MulticoreRtos.Scheduler
import MulticoreRtos.SpscFifo

/-!
The transmit side of `hw/uart.c`, one access to memory or to a register at a
time: `uart_out_byte` in a thread, and `uart0_handler` with `uart_tx_interrupt`
on core 0. What a function has read so far is kept in the stage it stands at.
-/

namespace MulticoreRtos.UartTransmit

open CyclicBuffer SpscFifo Transition
open Scheduler (Core)

abbrev Byte := BitVec 8

/-- The hardware FIFO holds `depth` bytes and raises its interrupt when it drains
down to `trigger`. -/
structure Hardware where
  depth : Nat
  trigger : Nat
  below : trigger < depth

/-- `entered` are the bytes that have entered the hardware FIFO, of which `level`
are still there. `pending` is the TX bit of `UARTRIS`. -/
structure Uart where
  tx : SpscFifo.Ring Byte
  level : Nat
  entered : List Byte
  pending : Bool

/-- `uart_out_byte`, named by its next access. `ahead` is the outcome of
`tail >= head`. -/
inductive Sender where
  | outside
  -- `fifo_size_nonblocking`
  | testTail (data : Byte)
  | testHead (data : Byte) (tail : Nat)
  | sizeTail (data : Byte) (ahead : Bool)
  | sizeHead (data : Byte) (ahead : Bool) (tail : Nat)
  | flag (data : Byte)
  | direct (data : Byte)
  -- `fifo_put_nonblock`
  | fullTail (data : Byte)
  | fullHead (data : Byte) (tail : Nat)
  | slotTail (data : Byte)
  | slot (data : Byte) (tail : Nat)
  | nextTail (data : Byte)
  | index (data : Byte) (tail : Nat)
  deriving DecidableEq

/-- `uart0_handler` and `uart_tx_interrupt`, named by the next access. -/
inductive Handler where
  | outside
  | status
  | clear
  | flag
  -- `fifo_get_nonblocking`
  | emptyHead
  | emptyTail (head : Nat)
  | slotHead
  | slot (head : Nat)
  | nextHead (byte : Byte)
  | index (byte : Byte) (head : Nat)
  | write (byte : Byte)
  deriving DecidableEq

def sub32 (a b : Nat) : Nat := (a + (2 ^ 32 - b)) % 2 ^ 32

def sizeNonblocking (ahead : Bool) (tail head size : Nat) : Nat :=
  if ahead then sub32 tail head else sub32 size (sub32 head tail)

section Accesses
variable (hardware : Hardware)

/-- A write to `UARTDR` is lost while the FIFO is full. -/
def writeData (uart : Uart) (byte : Byte) : Uart :=
  if uart.level < hardware.depth then
    { uart with level := uart.level + 1, entered := uart.entered ++ [byte] }
  else uart

def drain (uart : Uart) : Option Uart :=
  if uart.level = 0 then none
  else some { uart with
    level := uart.level - 1
    pending := uart.pending || uart.level = hardware.trigger + 1 }

def senderStep (uart : Uart) : Sender → Option (Uart × Sender)
  | .outside => none
  | .testTail data => some (uart, .testHead data uart.tx.tail)
  | .testHead data tail => some (uart, .sizeTail data (uart.tx.head ≤ tail))
  | .sizeTail data ahead => some (uart, .sizeHead data ahead uart.tx.tail)
  | .sizeHead data ahead tail =>
      if sizeNonblocking ahead tail uart.tx.head uart.tx.size = 0 then some (uart, .flag data)
      else some (uart, .fullTail data)
  | .flag data =>
      if uart.level < hardware.depth then some (uart, .direct data) else some (uart, .fullTail data)
  | .direct data => some (writeData hardware uart data, .outside)
  | .fullTail data => some (uart, .fullHead data uart.tx.tail)
  | .fullHead data tail =>
      (MpmcFifo.advance tail uart.tx.size).map fun next =>
        if next = uart.tx.head then (uart, .fullTail data) else (uart, .slotTail data)
  | .slotTail data => some (uart, .slot data uart.tx.tail)
  | .slot data tail =>
      some ({ uart with tx := { uart.tx with data := Function.update uart.tx.data tail data } },
        .nextTail data)
  | .nextTail data => some (uart, .index data uart.tx.tail)
  | .index _ tail =>
      (MpmcFifo.advance tail uart.tx.size).map fun next =>
        ({ uart with tx := { uart.tx with tail := next } }, .outside)

/-- The receive branch of `uart0_handler` does not touch what is modelled here. -/
def handlerStep (uart : Uart) : Handler → Option (Uart × Handler)
  | .outside => none
  | .status => if uart.pending then some (uart, .clear) else some (uart, .outside)
  | .clear => some ({ uart with pending := false }, .flag)
  | .flag => if uart.level < hardware.depth then some (uart, .emptyHead) else some (uart, .outside)
  | .emptyHead => some (uart, .emptyTail uart.tx.head)
  | .emptyTail head =>
      if head = uart.tx.tail then some (uart, .outside) else some (uart, .slotHead)
  | .slotHead => some (uart, .slot uart.tx.head)
  | .slot head => some (uart, .nextHead (uart.tx.data head))
  | .nextHead byte => some (uart, .index byte uart.tx.head)
  | .index byte head =>
      (MpmcFifo.advance head uart.tx.size).map fun next =>
        ({ uart with tx := { uart.tx with head := next } }, .write byte)
  | .write byte => some (writeData hardware uart byte, .flag)

end Accesses

/-- `handed` are the bytes that `uart_out_byte` was called with. -/
structure State where
  uart : Uart
  sender : Sender
  handler : Handler
  core : Core
  handed : List Byte

inductive Action where
  | call (data : Byte)
  | send
  | move (core : Core)
  -- the TX bit is set, at any time
  | raise
  | enter
  | handle
  | drain

/-- The handler runs on core 0 and holds up the thread there. -/
def Interrupted (s : State) : Prop := s.core = .cpu0 ∧ s.handler ≠ .outside

instance (s : State) : Decidable (Interrupted s) :=
  inferInstanceAs (Decidable (s.core = .cpu0 ∧ s.handler ≠ .outside))

def step (hardware : Hardware) (s : State) : Action → Option State
  | .call data =>
      if Interrupted s then none
      else match s.sender with
        | .outside => some { s with sender := .testTail data, handed := s.handed ++ [data] }
        | _ => none
  | .send =>
      if Interrupted s then none
      else (senderStep hardware s.uart s.sender).map fun (uart, sender) =>
        { s with uart := uart, sender := sender }
  | .move core => if Interrupted s then none else some { s with core := core }
  | .raise => some { s with uart := { s.uart with pending := true } }
  | .enter =>
      match s.handler with
      | .outside => some { s with handler := .status }
      | _ => none
  | .handle => (handlerStep hardware s.uart s.handler).map fun (uart, handler) =>
      { s with uart := uart, handler := handler }
  | .drain => (drain hardware s.uart).map fun uart => { s with uart := uart }

def started (tx : SpscFifo.Ring Byte) (core : Core) : State :=
  ⟨⟨tx, 0, [], false⟩, .outside, .outside, core, []⟩

/-- `init_uart` makes `tx_fifo` by `fifo_init(256, 1)`. -/
def TxMade (tx : SpscFifo.Ring Byte) : Prop :=
  ∃ heapPtr tree memory after fifo,
    MpmcFifo.fifoInit heapPtr tree memory 256 1 = some (after, some fifo) ∧ tx = asRing fifo

def Begun (s : State) : Prop := ∃ tx core, TxMade tx ∧ s = started tx core

/-- Half full is the trigger level after a reset. -/
def pl011 : Hardware := ⟨32, 16, by decide⟩

def emptyTx : SpscFifo.Ring Byte := ⟨0, 0, 296, fun _ => 0⟩

theorem emptyTx_made : TxMade emptyTx :=
  ⟨0x20000800, Heap.heapInit, fun _ => 0, _, ⟨0, 256, 0, 296, 1, 0, 0, fun _ => 0⟩, rfl, rfl⟩

theorem begun_empty (core : Core) : Begun (started emptyTx core) := ⟨_, core, emptyTx_made, rfl⟩

def callOf (data : Byte) (accesses : Nat) : List Action := .call data :: List.replicate accesses .send

def fillHardware : List Action := (List.range 32).flatMap fun k => callOf (BitVec.ofNat 8 k) 6

/-! What the two sides have read of their own index is still there, and `tx_fifo`
makes the steps of a FIFO with one producer and one consumer. -/

def Sender.producer : Sender → Producer Byte
  | .slotTail data => .checked data
  | .slot data _ => .checked data
  | .nextTail data => .stored data
  | .index data _ => .stored data
  | _ => .idle

def Handler.consumer : Handler → Consumer Byte
  | .slotHead => .checked
  | .slot _ => .checked
  | .nextHead byte => .loaded byte
  | .index byte _ => .loaded byte
  | _ => .idle

def Sender.Current (tail : Nat) : Sender → Prop
  | .testHead _ copy => copy = tail
  | .sizeHead _ _ copy => copy = tail
  | .fullHead _ copy => copy = tail
  | .slot _ copy => copy = tail
  | .index _ copy => copy = tail
  | _ => True

def Handler.Current (head : Nat) : Handler → Prop
  | .emptyTail copy => copy = head
  | .slot copy => copy = head
  | .index _ copy => copy = head
  | _ => True

def Sender.FoundEmpty : Sender → Prop
  | .flag _ => True
  | .direct _ => True
  | _ => False

def Sender.inHand : Sender → List Byte
  | .outside => []
  | .testTail data => [data]
  | .testHead data _ => [data]
  | .sizeTail data _ => [data]
  | .sizeHead data _ _ => [data]
  | .flag data => [data]
  | .direct data => [data]
  | .fullTail data => [data]
  | .fullHead data _ => [data]
  | .slotTail data => [data]
  | .slot data _ => [data]
  | .nextTail data => [data]
  | .index data _ => [data]

def Handler.inHand : Handler → List Byte
  | .write byte => [byte]
  | _ => []

def Handler.deciding : Handler → Bool
  | .emptyHead => true
  | .emptyTail _ => true
  | .slotHead => true
  | .slot _ => true
  | .nextHead _ => true
  | .index _ _ => true
  | .write _ => true
  | _ => false

def Sender.writes : Sender → Bool
  | .direct _ => true
  | _ => false

def Sender.queues : Sender → Bool
  | .index _ _ => true
  | _ => false

def Handler.writes : Handler → Bool
  | .write _ => true
  | _ => false

/-- `uart_tx_interrupt` is certain to look at `tx_fifo` or at a full hardware FIFO
before it returns. -/
def Handler.draining : Handler → Bool
  | .outside => false
  | .status => false
  | _ => true

abbrev Queue := SpscFifo.State (SpscFifo.Ring Byte) Byte

def queueOf (s : State) (put got : List Byte) : Queue :=
  ⟨s.uart.tx, s.sender.producer, s.handler.consumer, put, got⟩

structure Sound (s : State) : Prop where
  queue : ∃ put got count, Inv (queueOf s put got) count
  tail : s.sender.Current s.uart.tx.tail
  head : s.handler.Current s.uart.tx.head
  narrow : s.uart.tx.size < 2 ^ 31
  empty : s.sender.FoundEmpty → s.uart.tx.head = s.uart.tx.tail

theorem sizeNonblocking_zero {ahead : Bool} {tail head size : Nat} (tail_inside : tail < size)
    (head_inside : head < size) (narrow : size < 2 ^ 31)
    (zero : sizeNonblocking ahead tail head size = 0) : head = tail := by
  cases ahead <;>
    simp only [sizeNonblocking, sub32, if_true, Bool.false_eq_true, if_false] at zero <;> omega

structure Looks (hardware : Hardware) (uart : Uart) (before after : Sender) : Prop where
  inHand : after.inHand = before.inHand
  current : after.Current uart.tx.tail
  producer : after.producer = before.producer
  empty : after.FoundEmpty → before.FoundEmpty ∨ uart.tx.head = uart.tx.tail
  room : after.writes → uart.level < hardware.depth

theorem sender_cases {hardware : Hardware} {uart after : Uart} {sender next : Sender}
    (current : sender.Current uart.tx.tail) (tail : uart.tx.tail < uart.tx.size)
    (head : uart.tx.head < uart.tx.size) (narrow : uart.tx.size < 2 ^ 31)
    (stepped : senderStep hardware uart sender = some (after, next)) :
    (after = uart ∧ Looks hardware uart sender next) ∨
    (∃ data, after = uart ∧ sender = .fullHead data uart.tx.tail ∧ next = .slotTail data ∧
      (uart.tx.tail + 1) % uart.tx.size ≠ uart.tx.head) ∨
    (∃ data, sender = .slot data uart.tx.tail ∧ next = .nextTail data ∧
      after = { uart with
        tx := { uart.tx with data := Function.update uart.tx.data uart.tx.tail data } }) ∨
    (∃ data, sender = .index data uart.tx.tail ∧ next = .outside ∧
      after = { uart with tx := { uart.tx with tail := (uart.tx.tail + 1) % uart.tx.size } }) ∨
    ∃ data, sender = .direct data ∧ next = .outside ∧ after = writeData hardware uart data := by
  have advanced := advance_inside uart.tx.tail uart.tx.size tail (by omega)
  cases sender with
  | outside => simp [senderStep] at stepped
  | testTail data | testHead data copy | sizeTail data ahead | fullTail data | slotTail data
  | nextTail data =>
      simp only [senderStep, Option.some.injEq, Prod.mk.injEq] at stepped
      obtain ⟨rfl, rfl⟩ := stepped
      exact .inl ⟨rfl, rfl, by simp [Sender.Current], rfl, by simp [Sender.FoundEmpty], by simp [Sender.writes]⟩
  | sizeHead data ahead copy =>
      obtain rfl : copy = uart.tx.tail := current
      by_cases zero : sizeNonblocking ahead uart.tx.tail uart.tx.head uart.tx.size = 0
      · simp only [senderStep, zero, if_true, Option.some.injEq, Prod.mk.injEq] at stepped
        obtain ⟨rfl, rfl⟩ := stepped
        exact .inl ⟨rfl, rfl, trivial, rfl, fun _ => .inr (sizeNonblocking_zero tail head narrow zero),
          by simp [Sender.writes]⟩
      · simp only [senderStep, zero, if_false, Option.some.injEq, Prod.mk.injEq] at stepped
        obtain ⟨rfl, rfl⟩ := stepped
        exact .inl ⟨rfl, rfl, trivial, rfl, by simp [Sender.FoundEmpty], by simp [Sender.writes]⟩
  | flag data =>
      by_cases room : uart.level < hardware.depth
      · simp only [senderStep, room, if_true, Option.some.injEq, Prod.mk.injEq] at stepped
        obtain ⟨rfl, rfl⟩ := stepped
        exact .inl ⟨rfl, rfl, trivial, rfl, fun _ => .inl trivial, fun _ => room⟩
      · simp only [senderStep, room, if_false, Option.some.injEq, Prod.mk.injEq] at stepped
        obtain ⟨rfl, rfl⟩ := stepped
        exact .inl ⟨rfl, rfl, trivial, rfl, by simp [Sender.FoundEmpty], by simp [Sender.writes]⟩
  | direct data =>
      simp only [senderStep, Option.some.injEq, Prod.mk.injEq] at stepped
      obtain ⟨rfl, rfl⟩ := stepped
      exact .inr (.inr (.inr (.inr ⟨data, rfl, rfl, rfl⟩)))
  | fullHead data copy =>
      obtain rfl : copy = uart.tx.tail := current
      simp only [senderStep, advanced, Option.map_some, Option.some.injEq] at stepped
      by_cases full : (uart.tx.tail + 1) % uart.tx.size = uart.tx.head
      · simp only [full, if_true, Prod.mk.injEq] at stepped
        obtain ⟨rfl, rfl⟩ := stepped
        exact .inl ⟨rfl, rfl, trivial, rfl, by simp [Sender.FoundEmpty], by simp [Sender.writes]⟩
      · simp only [full, if_false, Prod.mk.injEq] at stepped
        obtain ⟨rfl, rfl⟩ := stepped
        exact .inr (.inl ⟨data, rfl, rfl, rfl, full⟩)
  | slot data copy =>
      obtain rfl : copy = uart.tx.tail := current
      simp only [senderStep, Option.some.injEq, Prod.mk.injEq] at stepped
      obtain ⟨rfl, rfl⟩ := stepped
      exact .inr (.inr (.inl ⟨data, rfl, rfl, rfl⟩))
  | index data copy =>
      obtain rfl : copy = uart.tx.tail := current
      simp only [senderStep, advanced, Option.map_some, Option.some.injEq, Prod.mk.injEq] at stepped
      obtain ⟨rfl, rfl⟩ := stepped
      exact .inr (.inr (.inr (.inl ⟨data, rfl, rfl, rfl⟩)))

structure Passes (hardware : Hardware) (uart : Uart) (before after : Handler) : Prop where
  inHand : after.inHand = before.inHand
  current : after.Current uart.tx.head
  consumer : after.consumer = before.consumer
  room : after.deciding → before.deciding ∨ uart.level < hardware.depth
  stops : before.draining →
    after.draining ∨ hardware.depth ≤ uart.level ∨ uart.tx.head = uart.tx.tail

theorem handler_cases {hardware : Hardware} {uart after : Uart} {handler next : Handler}
    (current : handler.Current uart.tx.head) (head : uart.tx.head < uart.tx.size)
    (narrow : uart.tx.size < 2 ^ 31)
    (stepped : handlerStep hardware uart handler = some (after, next)) :
    ((∃ pending, after = { uart with pending := pending } ∧
        (pending = uart.pending ∨ next.draining)) ∧ Passes hardware uart handler next) ∨
    (after = uart ∧ handler = .emptyTail uart.tx.head ∧ next = .slotHead ∧
      uart.tx.head ≠ uart.tx.tail) ∨
    (after = uart ∧ handler = .slot uart.tx.head ∧ next = .nextHead (uart.tx.data uart.tx.head)) ∨
    (∃ byte, handler = .index byte uart.tx.head ∧ next = .write byte ∧
      after = { uart with tx := { uart.tx with head := (uart.tx.head + 1) % uart.tx.size } }) ∨
    ∃ byte, handler = .write byte ∧ next = .flag ∧ after = writeData hardware uart byte := by
  have advanced := advance_inside uart.tx.head uart.tx.size head (by omega)
  cases handler with
  | outside => simp [handlerStep] at stepped
  | emptyHead | slotHead | nextHead byte =>
      simp only [handlerStep, Option.some.injEq, Prod.mk.injEq] at stepped
      obtain ⟨rfl, rfl⟩ := stepped
      exact .inl ⟨⟨_, rfl, .inl rfl⟩, rfl, by simp [Handler.Current], rfl, fun _ => .inl rfl,
        fun _ => .inl rfl⟩
  | clear =>
      simp only [handlerStep, Option.some.injEq, Prod.mk.injEq] at stepped
      obtain ⟨rfl, rfl⟩ := stepped
      exact .inl ⟨⟨_, rfl, .inr rfl⟩, rfl, trivial, rfl, by simp [Handler.deciding],
        fun _ => .inl rfl⟩
  | status =>
      cases pending : uart.pending <;>
        simp only [handlerStep, pending, if_true, Bool.false_eq_true, if_false, Option.some.injEq,
          Prod.mk.injEq] at stepped <;> obtain ⟨rfl, rfl⟩ := stepped <;>
        exact .inl ⟨⟨_, rfl, .inl pending⟩, rfl, trivial, rfl, by simp [Handler.deciding],
          by simp [Handler.draining]⟩
  | flag =>
      by_cases room : uart.level < hardware.depth
      · simp only [handlerStep, room, if_true, Option.some.injEq, Prod.mk.injEq] at stepped
        obtain ⟨rfl, rfl⟩ := stepped
        exact .inl ⟨⟨_, rfl, .inl rfl⟩, rfl, trivial, rfl, fun _ => .inr room, fun _ => .inl rfl⟩
      · simp only [handlerStep, room, if_false, Option.some.injEq, Prod.mk.injEq] at stepped
        obtain ⟨rfl, rfl⟩ := stepped
        exact .inl ⟨⟨_, rfl, .inl rfl⟩, rfl, trivial, rfl, by simp [Handler.deciding],
          fun _ => .inr (.inl (Nat.not_lt.mp room))⟩
  | emptyTail copy =>
      obtain rfl : copy = uart.tx.head := current
      by_cases empty : uart.tx.head = uart.tx.tail
      · simp only [handlerStep, empty, if_true, Option.some.injEq, Prod.mk.injEq] at stepped
        obtain ⟨rfl, rfl⟩ := stepped
        exact .inl ⟨⟨_, rfl, .inl rfl⟩, rfl, trivial, rfl, by simp [Handler.deciding],
          fun _ => .inr (.inr empty)⟩
      · simp only [handlerStep, empty, if_false, Option.some.injEq, Prod.mk.injEq] at stepped
        obtain ⟨rfl, rfl⟩ := stepped
        exact .inr (.inl ⟨rfl, rfl, rfl, empty⟩)
  | slot copy =>
      obtain rfl : copy = uart.tx.head := current
      simp only [handlerStep, Option.some.injEq, Prod.mk.injEq] at stepped
      obtain ⟨rfl, rfl⟩ := stepped
      exact .inr (.inr (.inl ⟨rfl, rfl, rfl⟩))
  | index byte copy =>
      obtain rfl : copy = uart.tx.head := current
      simp only [handlerStep, advanced, Option.map_some, Option.some.injEq, Prod.mk.injEq] at stepped
      obtain ⟨rfl, rfl⟩ := stepped
      exact .inr (.inr (.inr (.inl ⟨byte, rfl, rfl, rfl⟩)))
  | write byte =>
      simp only [handlerStep, Option.some.injEq, Prod.mk.injEq] at stepped
      obtain ⟨rfl, rfl⟩ := stepped
      exact .inr (.inr (.inr (.inr ⟨byte, rfl, rfl, rfl⟩)))

@[simp] theorem writeData_tx (hardware : Hardware) (uart : Uart) (byte : Byte) :
    (writeData hardware uart byte).tx = uart.tx := by
  rw [writeData]
  split <;> rfl

theorem writeData_room {hardware : Hardware} {uart : Uart} (room : uart.level < hardware.depth)
    (byte : Byte) : writeData hardware uart byte =
      { uart with level := uart.level + 1, entered := uart.entered ++ [byte] } := if_pos room

section Steps
variable {hardware : Hardware} {s : State} {uart : Uart}

theorem Sound.inside (sound : Sound s) :
    s.uart.tx.tail < s.uart.tx.size ∧ s.uart.tx.head < s.uart.tx.size := by
  obtain ⟨put, got, count, inv⟩ := sound.queue
  exact ⟨inv.tail_inside, inv.head⟩

theorem send_queue {sender : Sender} (sound : Sound s)
    (stepped : senderStep hardware s.uart s.sender = some (uart, sender))
    {put got : List Byte} {count : Nat} (inv : Inv (queueOf s put got) count) :
    (Inv (queueOf { s with uart := uart, sender := sender } put got) count ∧
      sender.inHand = s.sender.inHand ∧ uart.entered = s.uart.entered ∧
        uart.level = s.uart.level) ∨
    (∃ data, s.sender = .index data s.uart.tx.tail ∧ sender = .outside ∧
      uart = { s.uart with tx := { s.uart.tx with tail := (s.uart.tx.tail + 1) % s.uart.tx.size } } ∧
      Inv (queueOf { s with uart := uart, sender := sender } (put ++ [data]) got) (count + 1)) ∨
    (∃ data, s.sender = .direct data ∧ sender = .outside ∧ uart = writeData hardware s.uart data ∧
      Inv (queueOf { s with uart := uart, sender := sender } put got) count) := by
  obtain ⟨tail, head⟩ := sound.inside
  have advanced := advance_inside s.uart.tx.tail s.uart.tx.size tail inv.width
  rcases sender_cases sound.tail tail head sound.narrow stepped with
    ⟨rfl, looks⟩ | ⟨data, rfl, here, rfl, space⟩ | ⟨data, here, rfl, rfl⟩ | ⟨data, here, rfl, rfl⟩ |
    ⟨data, here, rfl, rfl⟩
  · refine .inl ⟨?_, looks.inHand, rfl, rfl⟩
    rw [queueOf] at inv ⊢
    rwa [looks.producer]
  · refine .inl ⟨testFull_inv inv data _ ?_, by rw [here]; rfl, rfl, rfl⟩
    simp [SpscFifo.step, queueOf, here, Sender.producer, ringParts, advanced, space]
  · refine .inl ⟨store_inv inv _ ?_, by rw [here]; rfl, rfl, rfl⟩
    simp [SpscFifo.step, queueOf, here, Sender.producer, ringParts]
  · refine .inr (.inl ⟨data, here, rfl, rfl, advanceTail_inv inv _ ?_⟩)
    simp [SpscFifo.step, queueOf, here, Sender.producer, ringParts, advanced]
  · refine .inr (.inr ⟨data, here, rfl, rfl, ?_⟩)
    simpa [queueOf, here, Sender.producer] using inv

theorem handle_queue {handler : Handler} (sound : Sound s)
    (stepped : handlerStep hardware s.uart s.handler = some (uart, handler))
    {put got : List Byte} {count : Nat} (inv : Inv (queueOf s put got) count) :
    (Inv (queueOf { s with uart := uart, handler := handler } put got) count ∧
      handler.inHand = s.handler.inHand ∧ uart.entered = s.uart.entered ∧
        uart.level = s.uart.level) ∨
    (∃ byte, s.handler = .index byte s.uart.tx.head ∧ handler = .write byte ∧
      uart = { s.uart with tx := { s.uart.tx with head := (s.uart.tx.head + 1) % s.uart.tx.size } } ∧
      Inv (queueOf { s with uart := uart, handler := handler } put (got ++ [byte])) (count - 1)) ∨
    (∃ byte, s.handler = .write byte ∧ handler = .flag ∧ uart = writeData hardware s.uart byte ∧
      Inv (queueOf { s with uart := uart, handler := handler } put got) count) := by
  obtain ⟨tail, head⟩ := sound.inside
  have advanced := advance_inside s.uart.tx.head s.uart.tx.size head inv.width
  rcases handler_cases sound.head head sound.narrow stepped with
    ⟨⟨pending, rfl, _⟩, passes⟩ | ⟨rfl, here, rfl, some_left⟩ | ⟨rfl, here, rfl⟩ |
    ⟨byte, here, rfl, rfl⟩ | ⟨byte, here, rfl, rfl⟩
  · refine .inl ⟨?_, passes.inHand, rfl, rfl⟩
    rw [queueOf] at inv ⊢
    rwa [passes.consumer]
  · refine .inl ⟨testEmpty_inv inv _ ?_, by rw [here]; rfl, rfl, rfl⟩
    simp [SpscFifo.step, queueOf, here, Handler.consumer, ringParts, some_left]
  · refine .inl ⟨load_inv inv 0 _ ?_, by rw [here]; rfl, rfl, rfl⟩
    simp [SpscFifo.step, queueOf, here, Handler.consumer, ringParts]
  · refine .inr (.inl ⟨byte, here, rfl, rfl, advanceHead_inv inv _ ?_⟩)
    simp [SpscFifo.step, queueOf, here, Handler.consumer, ringParts, advanced]
  · refine .inr (.inr ⟨byte, here, rfl, rfl, ?_⟩)
    simpa [queueOf, here, Handler.consumer] using inv

/-- While the handler holds a byte that is still in `tx_fifo`, the thread has not
found it empty. -/
theorem Sound.some_left (sound : Sound s) {byte : Byte} {copy : Nat}
    (here : s.handler = .index byte copy) : s.uart.tx.head ≠ s.uart.tx.tail := by
  obtain ⟨put, got, count, inv⟩ := sound.queue
  have unread : 0 < count := inv.checked (by simp [queueOf, here, Handler.consumer])
  intro same
  rw [inv.empty_iff.mp same] at unread
  exact absurd unread (lt_irrefl 0)

theorem sound_send {sender : Sender} (sound : Sound s)
    (stepped : senderStep hardware s.uart s.sender = some (uart, sender)) :
    Sound { s with uart := uart, sender := sender } := by
  obtain ⟨put, got, count, inv⟩ := sound.queue
  obtain ⟨tail, head⟩ := sound.inside
  have queue : ∃ put got count, Inv (queueOf { s with uart := uart, sender := sender } put got) count := by
    rcases send_queue sound stepped inv with ⟨after, _⟩ | ⟨_, _, _, _, after⟩ | ⟨_, _, _, _, after⟩
    · exact ⟨_, _, _, after⟩
    · exact ⟨_, _, _, after⟩
    · exact ⟨_, _, _, after⟩
  rcases sender_cases sound.tail tail head sound.narrow stepped with
    ⟨rfl, looks⟩ | ⟨data, rfl, here, rfl, space⟩ | ⟨data, here, rfl, rfl⟩ | ⟨data, here, rfl, rfl⟩ |
    ⟨data, here, rfl, rfl⟩
  · exact ⟨queue, looks.current, sound.head, sound.narrow,
      fun found => (looks.empty found).elim sound.empty id⟩
  · exact ⟨queue, trivial, sound.head, sound.narrow, False.elim⟩
  · exact ⟨queue, trivial, sound.head, sound.narrow, False.elim⟩
  · exact ⟨queue, trivial, sound.head, sound.narrow, False.elim⟩
  · exact ⟨queue, trivial, by simpa using sound.head, by simpa using sound.narrow, False.elim⟩

theorem sound_handle {handler : Handler} (sound : Sound s)
    (stepped : handlerStep hardware s.uart s.handler = some (uart, handler)) :
    Sound { s with uart := uart, handler := handler } := by
  obtain ⟨put, got, count, inv⟩ := sound.queue
  obtain ⟨tail, head⟩ := sound.inside
  have queue : ∃ put got count,
      Inv (queueOf { s with uart := uart, handler := handler } put got) count := by
    rcases handle_queue sound stepped inv with ⟨after, _⟩ | ⟨_, _, _, _, after⟩ | ⟨_, _, _, _, after⟩
    · exact ⟨_, _, _, after⟩
    · exact ⟨_, _, _, after⟩
    · exact ⟨_, _, _, after⟩
  rcases handler_cases sound.head head sound.narrow stepped with
    ⟨⟨pending, rfl, _⟩, passes⟩ | ⟨rfl, here, rfl, some_left⟩ | ⟨rfl, here, rfl⟩ |
    ⟨byte, here, rfl, rfl⟩ | ⟨byte, here, rfl, rfl⟩
  · exact ⟨queue, sound.tail, passes.current, sound.narrow, sound.empty⟩
  · exact ⟨queue, sound.tail, trivial, sound.narrow, sound.empty⟩
  · exact ⟨queue, sound.tail, trivial, sound.narrow, sound.empty⟩
  · exact ⟨queue, sound.tail, trivial, sound.narrow,
      fun found => absurd (sound.empty found) (sound.some_left here)⟩
  · exact ⟨queue, by simpa using sound.tail, trivial, by simpa using sound.narrow,
      by simpa using sound.empty⟩

theorem step_cases {action : Action} {after : State} (stepped : step hardware s action = some after) :
    (∃ data, action = .call data ∧ ¬ Interrupted s ∧ s.sender = .outside ∧
      after = { s with sender := .testTail data, handed := s.handed ++ [data] }) ∨
    (∃ uart sender, action = .send ∧ ¬ Interrupted s ∧
      senderStep hardware s.uart s.sender = some (uart, sender) ∧
      after = { s with uart := uart, sender := sender }) ∨
    (∃ core, action = .move core ∧ ¬ Interrupted s ∧ after = { s with core := core }) ∨
    (action = .raise ∧ after = { s with uart := { s.uart with pending := true } }) ∨
    (action = .enter ∧ s.handler = .outside ∧ after = { s with handler := .status }) ∨
    (∃ uart handler, action = .handle ∧
      handlerStep hardware s.uart s.handler = some (uart, handler) ∧
      after = { s with uart := uart, handler := handler }) ∨
    (action = .drain ∧ s.uart.level ≠ 0 ∧ after = { s with uart := { s.uart with
      level := s.uart.level - 1
      pending := s.uart.pending || s.uart.level = hardware.trigger + 1 } }) := by
  cases action with
  | call data =>
      simp only [step, Option.ite_none_left_eq_some] at stepped
      obtain ⟨free, stepped⟩ := stepped
      cases here : s.sender <;> simp only [here, reduceCtorEq, Option.some.injEq] at stepped
      exact .inl ⟨data, rfl, free, rfl, stepped.symm⟩
  | send =>
      simp only [step, Option.ite_none_left_eq_some, Option.map_eq_some_iff, Prod.exists] at stepped
      obtain ⟨free, uart, sender, accessed, rfl⟩ := stepped
      exact .inr (.inl ⟨uart, sender, rfl, free, accessed, rfl⟩)
  | move core =>
      simp only [step, Option.ite_none_left_eq_some, Option.some.injEq] at stepped
      exact .inr (.inr (.inl ⟨core, rfl, stepped.1, stepped.2.symm⟩))
  | raise => exact .inr (.inr (.inr (.inl ⟨rfl, (Option.some.inj stepped).symm⟩)))
  | enter =>
      cases here : s.handler <;> simp only [step, here, reduceCtorEq, Option.some.injEq] at stepped
      exact .inr (.inr (.inr (.inr (.inl ⟨rfl, rfl, stepped.symm⟩))))
  | handle =>
      simp only [step, Option.map_eq_some_iff, Prod.exists] at stepped
      obtain ⟨uart, handler, accessed, rfl⟩ := stepped
      exact .inr (.inr (.inr (.inr (.inr (.inl ⟨uart, handler, rfl, accessed, rfl⟩)))))
  | drain =>
      simp only [step, drain, Option.map_eq_some_iff, Option.ite_none_left_eq_some,
        Option.some.injEq] at stepped
      obtain ⟨_, ⟨some_left, rfl⟩, rfl⟩ := stepped
      exact .inr (.inr (.inr (.inr (.inr (.inr ⟨rfl, some_left, rfl⟩)))))

theorem sound_step (sound : Sound s) (action : Action) (after : State)
    (stepped : step hardware s action = some after) : Sound after := by
  obtain ⟨put, got, count, inv⟩ := sound.queue
  rcases step_cases stepped with ⟨data, rfl, _, here, rfl⟩ | ⟨uart, sender, rfl, _, accessed, rfl⟩ |
    ⟨core, rfl, _, rfl⟩ | ⟨rfl, rfl⟩ | ⟨rfl, here, rfl⟩ | ⟨uart, handler, rfl, accessed, rfl⟩ |
    ⟨rfl, _, rfl⟩
  · rw [queueOf, here] at inv
    exact ⟨⟨put, got, count, inv⟩, trivial, sound.head, sound.narrow, False.elim⟩
  · exact sound_send sound accessed
  · exact ⟨sound.queue, sound.tail, sound.head, sound.narrow, sound.empty⟩
  · exact ⟨sound.queue, sound.tail, sound.head, sound.narrow, sound.empty⟩
  · rw [queueOf, here] at inv
    exact ⟨⟨put, got, count, inv⟩, sound.tail, trivial, sound.narrow, sound.empty⟩
  · exact sound_handle sound accessed
  · exact ⟨sound.queue, sound.tail, sound.head, sound.narrow, sound.empty⟩

end Steps

theorem made_created {tx : SpscFifo.Ring Byte} (made : TxMade tx) : Created 296 tx := by
  obtain ⟨heapPtr, tree, memory, after, fifo, made, rfl⟩ := made
  obtain ⟨_, rfl⟩ := MpmcFifo.fifoInit_some made
  exact ⟨rfl, rfl, rfl⟩

theorem begun_created {s : State} (begun : Begun s) :
    ∃ tx core, Created 296 tx ∧ s = started tx core := by
  obtain ⟨tx, core, made, rfl⟩ := begun
  exact ⟨tx, core, made_created made, rfl⟩

theorem begun_sound {s : State} (begun : Begun s) : Sound s := by
  obtain ⟨tx, core, created, rfl⟩ := begun_created begun
  have inv : Inv (fresh tx : Queue) 0 := fresh_inv 296 (by decide) (by decide) tx created
  obtain ⟨head, tail, size⟩ := created
  exact ⟨⟨[], [], 0, inv⟩, trivial, trivial, by simp [started, size], False.elim⟩

theorem run_sound {hardware : Hardware} {guard : State → Action → Prop} {s : State}
    (reached : Reaches (step hardware) guard Begun s) : Sound s :=
  reached.invariant Sound (fun _ begun => begun_sound begun)
    fun _ action after sound _ stepped => sound_step sound action after stepped

end MulticoreRtos.UartTransmit
