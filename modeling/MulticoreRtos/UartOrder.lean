import MulticoreRtos.UartTransmit

/-!
The order of the bytes on their two ways into the hardware FIFO. Both writers of
`UARTDR` look at the FIFO first and write later, and nothing keeps the other one
from writing in between when the thread runs on core 1.
-/

namespace MulticoreRtos.UartOrder

open Transition UartTransmit
open SpscFifo (Inv)

variable {hardware : Hardware}

/-- Each write to `UARTDR` finds room, and `uart_out_byte` makes none while
`uart_tx_interrupt` holds an older byte. -/
def Unraced (hardware : Hardware) (s : State) : Action → Prop
  | .send => s.sender.writes → s.handler.inHand = [] ∧ s.uart.level < hardware.depth
  | .handle => s.handler.writes → s.uart.level < hardware.depth
  | _ => True

/-- Neither side writes to `UARTDR` between the other's look at `UARTFR` and the
end of that turn. -/
def Apart (s : State) : Action → Prop
  | .send => s.sender.writes → ¬ s.handler.deciding
  | .handle => s.handler.writes → ¬ s.sender.writes
  | _ => True

def OnCoreZero (s : State) (_ : Action) : Prop := s.core = .cpu0

instance (s : State) (action : Action) : Decidable (OnCoreZero s action) :=
  inferInstanceAs (Decidable (s.core = .cpu0))

def Ordered (s : State) : Prop :=
  ∃ put got count unread, Inv (queueOf s put got) count ∧ put = got ++ unread ∧
    s.handed = s.uart.entered ++ s.handler.inHand ++ unread ++ s.sender.inHand

theorem writes_direct {sender : Sender} (writes : sender.writes) : ∃ data, sender = .direct data := by
  cases sender <;> simp [Sender.writes] at writes
  exact ⟨_, rfl⟩

theorem writes_byte {handler : Handler} (writes : handler.writes) : ∃ byte, handler = .write byte := by
  cases handler <;> simp [Handler.writes] at writes
  exact ⟨_, rfl⟩

section Steps
variable {s : State} {uart : Uart}

theorem ordered_send {sender : Sender} (sound : Sound s) (ordered : Ordered s)
    (unraced : Unraced hardware s .send)
    (stepped : senderStep hardware s.uart s.sender = some (uart, sender)) :
    Ordered { s with uart := uart, sender := sender } := by
  obtain ⟨put, got, count, unread, inv, rest, handed⟩ := ordered
  rcases send_queue sound stepped inv with ⟨after, hand, entered, _⟩ |
    ⟨data, here, rfl, rfl, after⟩ | ⟨data, here, rfl, rfl, after⟩
  · refine ⟨put, got, count, unread, after, rest, ?_⟩
    simp only [hand, entered]
    exact handed
  · refine ⟨put ++ [data], got, count + 1, unread ++ [data], after, by rw [rest, List.append_assoc], ?_⟩
    simp only [handed, here, Sender.inHand, List.append_assoc, List.append_nil]
  · -- `tx_fifo` is still empty, and the handler has nothing in hand
    obtain ⟨hand, room⟩ := unraced (by rw [here]; rfl)
    have empty := inv.empty_iff.mp (sound.empty (by rw [here]; trivial))
    have values : put = got ++ CyclicBuffer.contents _ _ _ count := inv.values
    rw [empty, CyclicBuffer.contents, rest, List.append_right_inj] at values
    subst values
    refine ⟨put, got, count, [], after, rest, ?_⟩
    simp only [writeData_room room, handed, hand, here, Sender.inHand, List.append_nil]

theorem ordered_handle {handler : Handler} (sound : Sound s) (ordered : Ordered s)
    (unraced : Unraced hardware s .handle)
    (stepped : handlerStep hardware s.uart s.handler = some (uart, handler)) :
    Ordered { s with uart := uart, handler := handler } := by
  obtain ⟨put, got, count, unread, inv, rest, handed⟩ := ordered
  rcases handle_queue sound stepped inv with ⟨after, hand, entered, _⟩ |
    ⟨byte, here, rfl, rfl, after⟩ | ⟨byte, here, rfl, rfl, after⟩
  · refine ⟨put, got, count, unread, after, rest, ?_⟩
    simp only [hand, entered]
    exact handed
  · have values := after.values
    simp only [queueOf] at values
    have first := values
    rw [rest, List.append_assoc, List.append_right_inj] at first
    refine ⟨put, got ++ [byte], count - 1, _, after, values, ?_⟩
    simp only [handed, here, first, Handler.inHand, List.append_nil, List.append_assoc]
  · have room := unraced (by rw [here]; rfl)
    refine ⟨put, got, count, unread, after, rest, ?_⟩
    simp only [writeData_room room, handed, here, Handler.inHand, List.append_nil]

theorem ordered_step (sound : Sound s) (ordered : Ordered s) (action : Action)
    (unraced : Unraced hardware s action) (after : State)
    (stepped : step hardware s action = some after) : Ordered after := by
  have ⟨put, got, count, unread, inv, rest, handed⟩ := ordered
  rcases step_cases stepped with ⟨data, rfl, _, here, rfl⟩ | ⟨uart, sender, rfl, _, accessed, rfl⟩ |
    ⟨core, rfl, _, rfl⟩ | ⟨rfl, rfl⟩ | ⟨rfl, here, rfl⟩ | ⟨uart, handler, rfl, accessed, rfl⟩ |
    ⟨rfl, _, rfl⟩
  · rw [queueOf, here] at inv
    refine ⟨put, got, count, unread, inv, rest, ?_⟩
    simp only [handed, here, Sender.inHand, List.append_nil]
  · exact ordered_send sound ordered unraced accessed
  · exact ordered
  · exact ordered
  · rw [queueOf, here] at inv
    rw [here] at handed
    exact ⟨put, got, count, unread, inv, rest, handed⟩
  · exact ordered_handle sound ordered unraced accessed
  · exact ordered

/-- Once a side has seen room in the hardware FIFO, there is room until it writes. -/
structure Roomy (hardware : Hardware) (s : State) : Prop where
  sender : s.sender.writes → s.uart.level < hardware.depth
  handler : s.handler.deciding → s.uart.level < hardware.depth

theorem roomy_send {sender : Sender} (sound : Sound s) (roomy : Roomy hardware s)
    (apart : Apart s .send)
    (stepped : senderStep hardware s.uart s.sender = some (uart, sender)) :
    Roomy hardware { s with uart := uart, sender := sender } := by
  obtain ⟨tail, head⟩ := sound.inside
  rcases sender_cases sound.tail tail head sound.narrow stepped with
    ⟨rfl, looks⟩ | ⟨data, rfl, here, rfl, space⟩ | ⟨data, here, rfl, rfl⟩ | ⟨data, here, rfl, rfl⟩ |
    ⟨data, here, rfl, rfl⟩
  · exact ⟨looks.room, roomy.handler⟩
  · exact ⟨by simp [Sender.writes], roomy.handler⟩
  · exact ⟨by simp [Sender.writes], roomy.handler⟩
  · exact ⟨by simp [Sender.writes], roomy.handler⟩
  · have idle : ¬ s.handler.deciding := apart (by rw [here]; rfl)
    exact ⟨by simp [Sender.writes], fun deciding => absurd deciding idle⟩

theorem roomy_handle {handler : Handler} (sound : Sound s) (roomy : Roomy hardware s)
    (apart : Apart s .handle)
    (stepped : handlerStep hardware s.uart s.handler = some (uart, handler)) :
    Roomy hardware { s with uart := uart, handler := handler } := by
  rcases handler_cases sound.head sound.inside.2 sound.narrow stepped with
    ⟨⟨pending, rfl, _⟩, passes⟩ | ⟨rfl, here, rfl, some_left⟩ | ⟨rfl, here, rfl⟩ |
    ⟨byte, here, rfl, rfl⟩ | ⟨byte, here, rfl, rfl⟩
  · exact ⟨roomy.sender, fun deciding => (passes.room deciding).elim roomy.handler id⟩
  · exact ⟨roomy.sender, fun _ => roomy.handler (by rw [here]; rfl)⟩
  · exact ⟨roomy.sender, fun _ => roomy.handler (by rw [here]; rfl)⟩
  · exact ⟨roomy.sender, fun _ => roomy.handler (by rw [here]; rfl)⟩
  · have away : ¬ s.sender.writes := apart (by rw [here]; rfl)
    exact ⟨fun writes => absurd writes away, by simp [Handler.deciding]⟩

theorem roomy_step (sound : Sound s) (roomy : Roomy hardware s) (action : Action)
    (apart : Apart s action) (after : State) (stepped : step hardware s action = some after) :
    Roomy hardware after := by
  rcases step_cases stepped with ⟨data, rfl, _, here, rfl⟩ | ⟨uart, sender, rfl, _, accessed, rfl⟩ |
    ⟨core, rfl, _, rfl⟩ | ⟨rfl, rfl⟩ | ⟨rfl, here, rfl⟩ | ⟨uart, handler, rfl, accessed, rfl⟩ |
    ⟨rfl, _, rfl⟩
  · exact ⟨by simp [Sender.writes], roomy.handler⟩
  · exact roomy_send sound roomy apart accessed
  · exact ⟨roomy.sender, roomy.handler⟩
  · exact ⟨roomy.sender, roomy.handler⟩
  · exact ⟨roomy.sender, by simp [Handler.deciding]⟩
  · exact roomy_handle sound roomy apart accessed
  · exact ⟨fun writes => (Nat.sub_le _ 1).trans_lt (roomy.sender writes),
      fun deciding => (Nat.sub_le _ 1).trans_lt (roomy.handler deciding)⟩

theorem writes_deciding {handler : Handler} (writes : handler.writes) : handler.deciding := by
  obtain ⟨byte, rfl⟩ := writes_byte writes
  rfl

theorem idle_hand {handler : Handler} (idle : ¬ handler.deciding) : handler.inHand = [] := by
  cases handler <;> first | rfl | exact absurd rfl idle

theorem apart_unraced (roomy : Roomy hardware s) (action : Action) (apart : Apart s action) :
    Unraced hardware s action := by
  cases action with
  | send => exact fun writes => ⟨idle_hand (apart writes), roomy.sender writes⟩
  | handle => exact fun writes => roomy.handler (writes_deciding writes)
  | _ => trivial

/-- The handler has not begun to write a byte that the thread, about to write its
own, did not see. -/
def Steady (s : State) : Prop := s.sender.writes → ¬ s.handler.writes

theorem steady_step (sound : Sound s) (steady : Steady s) (action : Action)
    (zero : OnCoreZero s action) (after : State) (stepped : step hardware s action = some after) :
    Steady after := by
  rcases step_cases stepped with ⟨data, rfl, _, here, rfl⟩ |
    ⟨uart, sender, rfl, free, accessed, rfl⟩ |
    ⟨core, rfl, _, rfl⟩ | ⟨rfl, rfl⟩ | ⟨rfl, here, rfl⟩ | ⟨uart, handler, rfl, accessed, rfl⟩ |
    ⟨rfl, _, rfl⟩
  · exact fun writes => absurd writes (by simp [Sender.writes])
  · -- on core 0 the thread moves only while the handler does not run
    have idle : s.handler = .outside := by
      by_contra running
      exact free ⟨zero, running⟩
    intro _
    simp [idle, Handler.writes]
  · exact steady
  · exact steady
  · intro _
    simp [Handler.writes]
  · intro writes after_writes
    obtain ⟨data, direct⟩ := writes_direct writes
    have empty := sound.empty (by rw [direct]; trivial)
    rcases handler_cases sound.head sound.inside.2 sound.narrow accessed with
      ⟨_, passes⟩ | ⟨_, here, rfl, _⟩ | ⟨_, here, rfl⟩ | ⟨byte, here, rfl, _⟩ | ⟨byte, here, rfl, _⟩
    · obtain ⟨byte, rfl⟩ := writes_byte after_writes
      have hand := passes.inHand
      cases before : s.handler <;> simp only [before, Handler.inHand, reduceCtorEq] at hand
      exact steady writes (by rw [before]; rfl)
    · simp [Handler.writes] at after_writes
    · simp [Handler.writes] at after_writes
    · exact sound.some_left here empty
    · simp [Handler.writes] at after_writes
  · exact steady

theorem zero_apart (steady : Steady s) (action : Action) (zero : OnCoreZero s action)
    (after : State) (stepped : step hardware s action = some after) : Apart s action := by
  cases action with
  | send =>
      intro _ deciding
      have free : ¬ Interrupted s := by
        simp only [step, Option.ite_none_left_eq_some] at stepped
        exact stepped.1
      exact free ⟨zero, fun idle => by rw [idle] at deciding; simp [Handler.deciding] at deciding⟩
  | handle => exact fun writes sends => steady sends writes
  | _ => trivial

end Steps

theorem begun_ordered {s : State} (begun : Begun s) : Ordered s := by
  obtain ⟨tx, core, created, rfl⟩ := begun_created begun
  have fresh_queue := @SpscFifo.fresh_inv Byte 296 (by decide) (by decide) tx created
  exact ⟨[], [], 0, [], fresh_queue, rfl, rfl⟩

theorem run_ordered {s : State} (reached : Reaches (step hardware) (Unraced hardware) Begun s) :
    Ordered s := by
  have both : Sound s ∧ Ordered s := by
    refine reached.invariant (fun s => Sound s ∧ Ordered s)
      (fun _ begun => ⟨begun_sound begun, begun_ordered begun⟩) ?_
    rintro before action after ⟨sound, ordered⟩ unraced stepped
    exact ⟨sound_step sound action after stepped,
      ordered_step sound ordered action unraced after stepped⟩
  exact both.2

theorem apart_run {s : State} (reached : Reaches (step hardware) Apart Begun s) :
    Reaches (step hardware) (Unraced hardware) Begun s := by
  refine reached.weaken_under (fun s => Sound s ∧ Roomy hardware s) ?_ ?_ ?_
  · intro s begun
    refine ⟨begun_sound begun, ?_⟩
    obtain ⟨tx, core, _, rfl⟩ := begun_created begun
    exact ⟨by simp [started, Sender.writes], by simp [started, Handler.deciding]⟩
  · rintro before action after ⟨sound, roomy⟩ apart stepped
    exact ⟨sound_step sound action after stepped,
      roomy_step sound roomy action apart after stepped⟩
  · rintro before action after ⟨_, roomy⟩ apart _
    exact apart_unraced roomy action apart

theorem zero_run {s : State} (reached : Reaches (step hardware) OnCoreZero Begun s) :
    Reaches (step hardware) Apart Begun s := by
  refine reached.weaken_under (fun s => Sound s ∧ Steady s) ?_ ?_ ?_
  · intro s begun
    refine ⟨begun_sound begun, ?_⟩
    obtain ⟨tx, core, _, rfl⟩ := begun_created begun
    exact fun writes => absurd writes (by simp [started, Sender.writes])
  · rintro before action after ⟨sound, steady⟩ zero stepped
    exact ⟨sound_step sound action after stepped,
      steady_step sound steady action zero after stepped⟩
  · rintro before action after ⟨_, steady⟩ zero stepped
    exact zero_apart steady action zero after stepped

theorem ordered_entered {s : State} (ordered : Ordered s) : s.uart.entered <+: s.handed := by
  obtain ⟨put, got, count, unread, _, _, handed⟩ := ordered
  rw [handed, List.append_assoc, List.append_assoc]
  exact List.prefix_append _ _

/-- The hardware FIFO receives a prefix of what was handed over in every run whose
writes to `UARTDR` do not race; that is so when the look and the write of each side
are not cut by a write of the other, and always while the thread is on core 0. -/
theorem output_in_order (hardware : Hardware) (s : State) :
    (Reaches (step hardware) (Unraced hardware) Begun s → s.uart.entered <+: s.handed) ∧
    (Reaches (step hardware) Apart Begun s → s.uart.entered <+: s.handed) ∧
    (Reaches (step hardware) OnCoreZero Begun s → s.uart.entered <+: s.handed) :=
  ⟨fun reached => ordered_entered (run_ordered reached),
    fun reached => ordered_entered (run_ordered (apart_run reached)),
    fun reached => ordered_entered (run_ordered (apart_run (zero_run reached)))⟩

def byteTaken : List Action :=
  fillHardware ++ callOf 32 11 ++ List.replicate 16 .drain ++ [.enter] ++ List.replicate 9 .handle

def writtenRun : List Action := byteTaken ++ List.replicate 4 .handle ++ callOf 33 6

theorem output_in_order_core_zero :
    ∃ s, exec (step pl011) (started emptyTx .cpu0) writtenRun = some s ∧
      s.uart.entered.length = 34 ∧ s.uart.entered <+: s.handed := by
  obtain ⟨s, executed, entered⟩ : ∃ s ∈ exec (step pl011) (started emptyTx .cpu0) writtenRun,
      s.uart.entered.length = 34 := by decide +kernel
  have allowed : Allowed (step pl011) OnCoreZero (started emptyTx .cpu0) writtenRun := by
    decide +kernel
  have ran := Option.mem_def.mp executed
  have reached := exec_reaches _ (.start (begun_empty .cpu0)) allowed ran
  exact ⟨s, ran, entered, (output_in_order pl011 s).2.2 reached⟩

def overtakingRun : List Action := byteTaken ++ callOf 33 6 ++ [.handle]

theorem byte_overtaken :
    ∃ s, Reaches (step pl011) free Begun s ∧ ¬ s.uart.entered <+: s.handed := by
  obtain ⟨s, executed, overtaken⟩ : ∃ s ∈ exec (step pl011) (started emptyTx .cpu1) overtakingRun,
      ¬ s.uart.entered <+: s.handed := by decide +kernel
  have ran := Option.mem_def.mp executed
  exact ⟨s, exec_reaches _ (.start (begun_empty .cpu1)) (allowed_free _ _ _) ran, overtaken⟩

end MulticoreRtos.UartOrder
