import MulticoreRtos.UartTransmit

/-!
Bytes left behind in `tx_fifo`. The interrupt is raised by the hardware FIFO on its
way down only, so a byte stored after that must still be seen by the handler.
-/

namespace MulticoreRtos.UartProgress

open Transition UartTransmit

variable {hardware : Hardware}

/-- What is in `tx_fifo` will be looked at: the interrupt is still to be raised, it
is pending, or the handler is in its loop. -/
def Awaited (hardware : Hardware) (s : State) : Prop :=
  hardware.trigger < s.uart.level ∨ s.uart.pending ∨ s.handler.draining

instance (hardware : Hardware) (s : State) : Decidable (Awaited hardware s) :=
  inferInstanceAs (Decidable (_ ∨ _))

/-- The interrupt becomes pending by the draining of the hardware FIFO only. -/
def Edge (_ : State) : Action → Prop
  | .raise => False
  | _ => True

instance (s : State) (action : Action) : Decidable (Edge s action) :=
  match action with
  | .raise => inferInstanceAs (Decidable False)
  | .call _ => inferInstanceAs (Decidable True)
  | .send => inferInstanceAs (Decidable True)
  | .move _ => inferInstanceAs (Decidable True)
  | .enter => inferInstanceAs (Decidable True)
  | .handle => inferInstanceAs (Decidable True)
  | .drain => inferInstanceAs (Decidable True)

def Covered (hardware : Hardware) (s : State) : Action → Prop
  | .raise => False
  | .send => s.sender.queues → Awaited hardware s
  | _ => True

instance (hardware : Hardware) (s : State) (action : Action) :
    Decidable (Covered hardware s action) :=
  match action with
  | .raise => inferInstanceAs (Decidable False)
  | .send => inferInstanceAs (Decidable (_ → _))
  | .call _ => inferInstanceAs (Decidable True)
  | .move _ => inferInstanceAs (Decidable True)
  | .enter => inferInstanceAs (Decidable True)
  | .handle => inferInstanceAs (Decidable True)
  | .drain => inferInstanceAs (Decidable True)

/-- The hardware FIFO is empty, no call is in progress, and the TX interrupt is
neither pending nor running. -/
def Quiescent (s : State) : Prop :=
  s.uart.level = 0 ∧ s.sender = .outside ∧ s.uart.pending = false ∧ s.handler.draining = false

instance (s : State) : Decidable (Quiescent s) := inferInstanceAs (Decidable (_ ∧ _))

def TxEmpty (s : State) : Prop := s.uart.tx.head = s.uart.tx.tail

def Attended (hardware : Hardware) (s : State) : Prop := ¬ TxEmpty s → Awaited hardware s

section Steps
variable {s : State} {uart : Uart}

theorem queues_index {sender : Sender} (queues : sender.queues) :
    ∃ data tail, sender = .index data tail := by
  cases sender <;> simp [Sender.queues] at queues
  exact ⟨_, _, rfl⟩

theorem writeData_level (uart : Uart) (byte : Byte) :
    uart.level ≤ (writeData hardware uart byte).level ∧
      (writeData hardware uart byte).pending = uart.pending := by
  rw [writeData]
  split
  · exact ⟨Nat.le_succ _, rfl⟩
  · exact ⟨le_refl _, rfl⟩

theorem awaited_write {after : State} (awaited : Awaited hardware s) (byte : Byte)
    (written : after.uart = writeData hardware s.uart byte)
    (drains : s.handler.draining → after.handler.draining) : Awaited hardware after := by
  obtain ⟨level, pending⟩ := @writeData_level hardware s.uart byte
  rw [Awaited, written, pending]
  rcases awaited with above | raised | running
  · exact .inl (above.trans_le level)
  · exact .inr (.inl raised)
  · exact .inr (.inr (drains running))

theorem attended_send {sender : Sender} (sound : Sound s) (attended : Attended hardware s)
    (covered : Covered hardware s .send)
    (stepped : senderStep hardware s.uart s.sender = some (uart, sender)) :
    Attended hardware { s with uart := uart, sender := sender } := by
  obtain ⟨tail, head⟩ := sound.inside
  rcases sender_cases sound.tail tail head sound.narrow stepped with
    ⟨rfl, looks⟩ | ⟨data, rfl, here, rfl, space⟩ | ⟨data, here, rfl, rfl⟩ | ⟨data, here, rfl, rfl⟩ |
    ⟨data, here, rfl, rfl⟩
  · exact attended
  · exact attended
  · exact attended
  · exact fun _ => covered (by rw [here]; rfl)
  · intro some_left
    rw [TxEmpty, writeData_tx] at some_left
    exact awaited_write (attended some_left) data rfl id

theorem attended_handle {handler : Handler} (sound : Sound s) (attended : Attended hardware s)
    (stepped : handlerStep hardware s.uart s.handler = some (uart, handler)) :
    Attended hardware { s with uart := uart, handler := handler } := by
  rcases handler_cases sound.head sound.inside.2 sound.narrow stepped with
    ⟨⟨pending, rfl, raised⟩, passes⟩ | ⟨rfl, here, rfl, _⟩ | ⟨rfl, here, rfl⟩ |
    ⟨byte, here, rfl, rfl⟩ | ⟨byte, here, rfl, rfl⟩
  · intro some_left
    rcases attended some_left with above | before | running
    · exact .inl above
    · rcases raised with same | drains
      · exact .inr (.inl (same.trans before))
      · exact .inr (.inr drains)
    · -- the handler leaves its loop when the hardware FIFO is full or `tx_fifo` is empty
      rcases passes.stops running with drains | full | empty
      · exact .inr (.inr drains)
      · exact .inl (hardware.below.trans_le full)
      · exact absurd empty some_left
  · exact fun _ => .inr (.inr rfl)
  · exact fun _ => .inr (.inr rfl)
  · exact fun _ => .inr (.inr rfl)
  · exact fun _ => .inr (.inr rfl)

theorem attended_step (sound : Sound s) (attended : Attended hardware s) (action : Action)
    (covered : Covered hardware s action) (after : State)
    (stepped : step hardware s action = some after) : Attended hardware after := by
  rcases step_cases stepped with ⟨data, rfl, _, here, rfl⟩ | ⟨uart, sender, rfl, _, accessed, rfl⟩ |
    ⟨core, rfl, _, rfl⟩ | ⟨rfl, rfl⟩ | ⟨rfl, here, rfl⟩ | ⟨uart, handler, rfl, accessed, rfl⟩ |
    ⟨rfl, some_bytes, rfl⟩
  · exact attended
  · exact attended_send sound attended covered accessed
  · exact attended
  · exact covered.elim
  · intro some_left
    rcases attended some_left with above | raised | running
    · exact .inl above
    · exact .inr (.inl raised)
    · simp [here, Handler.draining] at running
  · exact attended_handle sound attended accessed
  · intro some_left
    rcases attended some_left with above | raised | running
    · by_cases last : s.uart.level = hardware.trigger + 1
      · exact .inr (.inl (by simp [last]))
      · exact .inl (by simp only; omega)
    · exact .inr (.inl (by simp [raised]))
    · exact .inr (.inr running)

theorem run_attended (reached : Reaches (step hardware) (Covered hardware) Begun s) :
    Attended hardware s := by
  have both : Sound s ∧ Attended hardware s := by
    refine reached.invariant (fun s => Sound s ∧ Attended hardware s) ?_ ?_
    · intro s begun
      refine ⟨begun_sound begun, ?_⟩
      obtain ⟨tx, core, ⟨head, tail, _⟩, rfl⟩ := begun_created begun
      exact fun some_left => absurd (head.trans tail.symm) some_left
    · rintro before action after ⟨sound, attended⟩ covered stepped
      exact ⟨sound_step sound action after stepped,
        attended_step sound attended action covered after stepped⟩
  exact both.2

theorem drains_silently {start : State → Prop} (level : Nat) :
    ∀ s : State, Reaches (step hardware) Edge start s → s.uart.level = level →
      level ≤ hardware.trigger → s.uart.pending = false →
      ∃ s', Reaches (step hardware) Edge start s' ∧ s'.uart.level = 0 ∧ s'.uart.pending = false ∧
        s'.uart.tx = s.uart.tx ∧ s'.sender = s.sender ∧ s'.handler = s.handler := by
  induction level with
  | zero => exact fun s reached empty _ pending => ⟨s, reached, empty, pending, rfl, rfl, rfl⟩
  | succ level ih =>
      intro s reached bytes low pending
      let drained : State := { s with uart := { s.uart with level := level, pending := false } }
      have stepped : step hardware s .drain = some drained := by
        have quiet : ¬ level = hardware.trigger := by omega
        simp [step, drain, bytes, pending, quiet, drained]
      obtain ⟨s', reached', empty, silent, tx, sender, handler⟩ :=
        ih drained (.next .drain reached trivial stepped) rfl (by omega) rfl
      exact ⟨s', reached', empty, silent, tx, sender, handler⟩

/-- A store of `tail` that nobody awaits leaves the byte behind. -/
theorem left_behind (reached : Reaches (step hardware) Edge Begun s)
    {after : State} (stepped : step hardware s .send = some after)
    (uncovered : ¬ Covered hardware s .send) :
    ∃ s', Reaches (step hardware) Edge Begun s' ∧ Quiescent s' ∧ ¬ TxEmpty s' := by
  have sound := run_sound reached
  obtain ⟨put, got, count, inv⟩ := sound.queue
  simp only [Covered, Classical.not_imp, Awaited, not_or, Bool.not_eq_true] at uncovered
  obtain ⟨queues, level, pending, handler⟩ := uncovered
  have reached' := Reaches.next Action.send reached trivial stepped
  simp only [step, Option.ite_none_left_eq_some, Option.map_eq_some_iff, Prod.exists] at stepped
  obtain ⟨_, uart, sender, accessed, rfl⟩ := stepped
  rcases send_queue sound accessed inv with ⟨_, hand, _⟩ | ⟨data, _, rfl, rfl, filled⟩ |
    ⟨data, here, _⟩
  · obtain ⟨data, copy, here⟩ := queues_index queues
    rw [here] at accessed hand
    simp only [senderStep, Option.map_eq_some_iff, Prod.mk.injEq] at accessed
    obtain ⟨_, _, _, rfl⟩ := accessed
    simp [Sender.inHand] at hand
  · have some_left : ¬ s.uart.tx.head = (s.uart.tx.tail + 1) % s.uart.tx.size := by
      intro empty
      exact absurd (filled.empty_iff.mp empty) (Nat.succ_ne_zero count)
    obtain ⟨s', final, empty, silent, tx, outside, same⟩ :=
      drains_silently _ _ reached' rfl (Nat.not_lt.mp level) pending
    refine ⟨s', final, ⟨empty, outside, silent, by rw [same]; exact handler⟩, ?_⟩
    rw [TxEmpty, tx]
    exact some_left
  · rw [here] at queues
    simp [Sender.queues] at queues

end Steps

/-- No byte is left behind in a run whose stores of `tail` are all awaited, and
every other store can leave one behind. -/
theorem output_not_stuck (hardware : Hardware) :
    (∀ s, Reaches (step hardware) (Covered hardware) Begun s → Quiescent s → TxEmpty s) ∧
    (∀ s after, Reaches (step hardware) Edge Begun s → step hardware s .send = some after →
      ¬ Covered hardware s .send →
        ∃ s', Reaches (step hardware) Edge Begun s' ∧ Quiescent s' ∧ ¬ TxEmpty s') := by
  refine ⟨?_, fun s after reached stepped uncovered => left_behind reached stepped uncovered⟩
  rintro s reached ⟨level, _, pending, handler⟩
  by_contra some_left
  rcases run_attended reached some_left with above | raised | running
  · omega
  · simp [pending] at raised
  · simp [handler] at running

def foundFull : List Action := fillHardware ++ callOf 32 5

def handledRun : List Action :=
  foundFull ++ List.replicate 6 .send ++ List.replicate 16 .drain ++ [.enter] ++
    List.replicate 13 .handle ++ List.replicate 17 .drain ++ [.enter] ++ List.replicate 5 .handle

theorem output_not_stuck_handled :
    ∃ s, exec (step pl011) (started emptyTx .cpu0) handledRun = some s ∧
      s.uart.entered.length = 33 ∧ Quiescent s ∧ TxEmpty s := by
  obtain ⟨s, executed, entered, quiescent⟩ :
      ∃ s ∈ exec (step pl011) (started emptyTx .cpu0) handledRun,
        s.uart.entered.length = 33 ∧ Quiescent s := by decide +kernel
  have allowed : Allowed (step pl011) (Covered pl011) (started emptyTx .cpu0) handledRun := by
    decide +kernel
  have ran := Option.mem_def.mp executed
  have reached := exec_reaches _ (.start (begun_empty .cpu0)) allowed ran
  exact ⟨s, ran, entered, quiescent, (output_not_stuck pl011).1 s reached quiescent⟩

def missedRun : List Action :=
  foundFull ++ List.replicate 16 .drain ++ [.enter] ++ List.replicate 5 .handle ++
    List.replicate 16 .drain ++ List.replicate 6 .send

theorem last_byte_stuck :
    ∃ s, Reaches (step pl011) Edge Begun s ∧ Quiescent s ∧ ¬ TxEmpty s := by
  obtain ⟨s, executed, quiescent, some_left⟩ :
      ∃ s ∈ exec (step pl011) (started emptyTx .cpu0) missedRun,
        Quiescent s ∧ s.uart.tx.head ≠ s.uart.tx.tail := by decide +kernel
  have allowed : Allowed (step pl011) Edge (started emptyTx .cpu0) missedRun := by decide +kernel
  have ran := Option.mem_def.mp executed
  exact ⟨s, exec_reaches _ (.start (begun_empty .cpu0)) allowed ran, quiescent, some_left⟩

end MulticoreRtos.UartProgress
