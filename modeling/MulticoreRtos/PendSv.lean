import MulticoreRtos.Scheduler
import MulticoreRtos.Thumb

/-!
`pendSV_handler` of `os/interrupts.c`, instruction by instruction, between the
entry into the exception and the return from it. What one call does is stated over
the 16 words that it leaves below the stack pointer of the old thread.
-/

namespace MulticoreRtos.PendSv

open Thumb
open Scheduler (Core)

def cpuid : Nat := 0xd0000000

def coreIndex : Core → Nat
  | .cpu0 => 0
  | .cpu1 => 1

def device (core : Core) (addr : Nat) : Option Nat :=
  if addr = cpuid then some (coreIndex core) else none

/-- `runPt` and `nextRunPt` are the addresses of the two arrays. -/
def pendSvHandler (runPt nextRunPt : Nat) : List Instr := [
  .cpsid,
  .ldrLit .r1 cpuid,
  .ldr .r1 .r1,
  .lsl .r1 .r1 2,
  .ldrLit .r0 runPt,
  .add .r2 .r0 .r1,
  .ldrLit .r0 nextRunPt,
  .add .r3 .r0 .r1,
  -- save context
  .push [.r4, .r5, .r6, .r7],
  .mov .r4 .r8,
  .mov .r5 .r9,
  .mov .r6 .r10,
  .mov .r7 .r11,
  .push [.r4, .r5, .r6, .r7],
  -- save old stack pointer
  .mov .r1 .sp,
  .ldr .r0 .r2,
  .str .r1 .r0,
  -- update RunPt with NextRunPt
  .ldr .r0 .r3,
  .str .r0 .r2,
  -- load new SP
  .ldr .r1 .r0,
  .mov .sp .r1,
  -- restore context
  .pop [.r4, .r5, .r6, .r7],
  .mov .r8 .r4,
  .mov .r9 .r5,
  .mov .r10 .r6,
  .mov .r11 .r7,
  .pop [.r4, .r5, .r6, .r7],
  .cpsie,
  .bx .lr]

def pendSv (runPt nextRunPt : Nat) (core : Core) (s : State) : State :=
  run (device core) (pendSvHandler runPt nextRunPt) (exceptionEntry s)

/-! The saved words -/

def savedWords (c : Context) : List Nat :=
  [c.reg .r8, c.reg .r9, c.reg .r10, c.reg .r11] ++
    [c.reg .r4, c.reg .r5, c.reg .r6, c.reg .r7] ++ hardwareFrame c

def savedSp (c : Context) : Nat := framePtr (c.reg .sp) - 32

/-- The place of a register among them; xPSR is the last and SP is not there. -/
def slot : Reg → Nat
  | .r8 => 0 | .r9 => 1 | .r10 => 2 | .r11 => 3
  | .r4 => 4 | .r5 => 5 | .r6 => 6 | .r7 => 7
  | .r0 => 8 | .r1 => 9 | .r2 => 10 | .r3 => 11
  | .r12 => 12 | .lr => 13 | .pc => 14 | .sp => 15

def restored (mem : Memory) (base : Nat) : Context where
  reg r :=
    if r = .sp then base + 64 ||| mem (base + 60) / 2 ^ 9 % 2 * 4 else mem (base + 4 * slot r)
  xpsr := withBit9 (mem (base + 60)) 0

theorem restored_congr {mem mem' : Memory} {base : Nat}
    (same : ∀ i < 16, mem' (base + 4 * i) = mem (base + 4 * i)) :
    restored mem' base = restored mem base := by
  have psr := same 15 (by decide)
  ext r
  · by_cases stack : r = .sp
    · simp only [restored, if_pos stack, psr]
    · have inside : slot r < 16 := by cases r <;> decide
      simp only [restored, if_neg stack, same _ inside]
  · simp only [restored, psr]

theorem or_bit2 {a : Nat} (clear : a % 8 = 0) : a ||| 4 = a + 4 := by
  have whole : a = 2 ^ 3 * (a / 8) := by omega
  rw [whole, ← Nat.two_pow_add_eq_or_of_lt (by decide : 4 < 2 ^ 3)]

theorem savedSp_eq {c : Context} (wellFormed : c.WellFormed) (room : 64 + c.reg .sp % 8 ≤ c.reg .sp) :
    savedSp c + 64 + c.reg .sp % 8 = c.reg .sp ∧ (savedSp c + 64) % 8 = 0 := by
  have aligned := wellFormed.aligned
  simp only [savedSp, framePtr]
  omega

theorem restored_saved {c : Context} (wellFormed : c.WellFormed) (room : 64 + c.reg .sp % 8 ≤ c.reg .sp)
    (mem : Memory) : restored (storeWords mem (savedSp c) (savedWords c)) (savedSp c) = c := by
  obtain ⟨top, even⟩ := savedSp_eq wellFormed room
  obtain ⟨aligned, reserved⟩ := wellFormed
  have stored (i : Nat) (inside : i < 16) :
      storeWords mem (savedSp c) (savedWords c) (savedSp c + 4 * i) = (savedWords c)[i] :=
    storeWords_get (savedWords c) mem (savedSp c) inside
  have psr : storeWords mem (savedSp c) (savedWords c) (savedSp c + 60) =
      withBit9 c.xpsr (c.reg .sp / 4 % 2) := stored 15 (by decide)
  ext r
  · by_cases stack : r = .sp
    · simp only [restored, if_true, psr, stack, withBit9]
      -- bit 9 of the stacked xPSR tells whether the hardware left out a word
      by_cases odd : c.reg .sp / 4 % 2 = 0
      · rw [odd, show (c.xpsr - c.xpsr / 2 ^ 9 % 2 * 2 ^ 9 + 0 * 2 ^ 9) / 2 ^ 9 % 2 * 4 = 0 by omega,
          Nat.or_zero]
        omega
      · rw [show c.reg .sp / 4 % 2 = 1 by omega,
          show (c.xpsr - c.xpsr / 2 ^ 9 % 2 * 2 ^ 9 + 1 * 2 ^ 9) / 2 ^ 9 % 2 * 4 = 4 by omega,
          or_bit2 even]
        omega
    · have inside : slot r < 16 := by cases r <;> decide
      simp only [restored, if_neg stack, stored _ inside]
      cases r <;> first | rfl | exact absurd rfl stack
  · simp only [restored, psr, withBit9]
    omega

theorem restored_wellFormed {mem : Memory} {base : Nat} (aligned : base % 4 = 0) :
    (restored mem base).WellFormed := by
  constructor
  · simp only [restored, if_true]
    have low := Nat.or_mod_two_pow (a := base + 64) (b := mem (base + 60) / 2 ^ 9 % 2 * 4) (n := 2)
    rw [show (2 : Nat) ^ 2 = 4 from rfl] at low
    rw [low, show (base + 64) % 4 = 0 by omega, Nat.mul_mod_left, Nat.or_self]
  · simp only [restored, withBit9]
    omega

/-! One call -/

/-- The words of the old thread are stored below its stack, its saved SP goes into
its TCB, and the new thread is restored from the words at its own saved SP. -/
def switch (runPt nextRunPt : Nat) (s : State) : State :=
  let stored := storeWords s.mem (savedSp s.context) (savedWords s.context)
  let left := Function.update stored (stored runPt) (savedSp s.context)
  let next := left nextRunPt
  let mem := Function.update left runPt next
  ⟨restored mem (mem next), mem, false⟩

theorem switch_context (runPt nextRunPt : Nat) (s : State) :
    (switch runPt nextRunPt s).context =
      restored (switch runPt nextRunPt s).mem
        ((switch runPt nextRunPt s).mem ((switch runPt nextRunPt s).mem runPt)) := by
  simp only [switch, Function.update_self]

theorem stored_below {f : Nat} (deep : 32 ≤ f) (mem : Memory) {high low frame : List Nat}
    (high_four : high.length = 4) (low_four : low.length = 4) :
    storeWords (storeWords (storeWords mem f frame) (f - 16) low) (f - 16 - 16) high =
      storeWords mem (f - 32) (high ++ low ++ frame) := by
  rw [storeWords_comm frame low mem (by omega), storeWords_comm frame high _ (by omega),
    storeWords_comm low high mem (by omega), storeWords_append, storeWords_append,
    List.length_append, low_four, high_four, show f - 16 - 16 = f - 32 by omega,
    show f - 32 + 4 * 4 = f - 16 by omega, show f - 32 + 4 * (4 + 4) = f by omega]

/-- Up to the pushes: R2 and R3 are the entries of this core in the two arrays. -/
def findEntries (runPt nextRunPt : Nat) : List Instr :=
  [.cpsid, .ldrLit .r1 cpuid, .ldr .r1 .r1, .lsl .r1 .r1 2, .ldrLit .r0 runPt, .add .r2 .r0 .r1,
    .ldrLit .r0 nextRunPt, .add .r3 .r0 .r1]

def pushUpper : List Instr :=
  [.push [.r4, .r5, .r6, .r7], .mov .r4 .r8, .mov .r5 .r9, .mov .r6 .r10, .mov .r7 .r11,
    .push [.r4, .r5, .r6, .r7]]

def swapStacks : List Instr :=
  [.mov .r1 .sp, .ldr .r0 .r2, .str .r1 .r0, .ldr .r0 .r3, .str .r0 .r2, .ldr .r1 .r0, .mov .sp .r1]

def popUpper : List Instr :=
  [.pop [.r4, .r5, .r6, .r7], .mov .r8 .r4, .mov .r9 .r5, .mov .r10 .r6, .mov .r11 .r7,
    .pop [.r4, .r5, .r6, .r7], .cpsie, .bx .lr]

theorem pendSvHandler_parts (runPt nextRunPt : Nat) :
    pendSvHandler runPt nextRunPt =
      findEntries runPt nextRunPt ++ (pushUpper ++ (swapStacks ++ popUpper)) := rfl

def entryOf (array : Nat) (core : Core) : Nat := array + 4 * coreIndex core

theorem entryOf_add {array : Nat} (fits : array + 8 ≤ 2 ^ 32) (core : Core) :
    (array + coreIndex core * 2 ^ 2 % 2 ^ 32) % 2 ^ 32 = entryOf array core := by
  have two : coreIndex core ≤ 1 := by cases core <;> decide
  rw [entryOf]
  omega

theorem entries_found {runPt nextRunPt : Nat} (fits : runPt + 8 ≤ 2 ^ 32)
    (next_fits : nextRunPt + 8 ≤ 2 ^ 32) (core : Core) (s : State) :
    ∃ reg, run (device core) (findEntries runPt nextRunPt) s = ⟨⟨reg, s.context.xpsr⟩, s.mem, true⟩ ∧
      reg .r2 = entryOf runPt core ∧ reg .r3 = entryOf nextRunPt core ∧
      ∀ r, r ∉ [Reg.r0, .r1, .r2, .r3] → reg r = s.context.reg r := by
  refine ⟨_, rfl, ?_, ?_, ?_⟩
  · exact entryOf_add fits core
  · exact entryOf_add next_fits core
  · intro r other
    cases r <;> first | rfl | simp at other

theorem upper_pushed (core : Core) (s : State) :
    ∃ reg, run (device core) pushUpper s = ⟨⟨reg, s.context.xpsr⟩,
        storeWords (storeWords s.mem (s.context.reg .sp - 16)
          ([Reg.r4, .r5, .r6, .r7].map s.context.reg)) (s.context.reg .sp - 16 - 16)
          ([Reg.r8, .r9, .r10, .r11].map s.context.reg), s.primask⟩ ∧
      reg .sp = s.context.reg .sp - 16 - 16 ∧ ∀ r ∈ [Reg.r2, .r3, .lr], reg r = s.context.reg r := by
  refine ⟨_, rfl, rfl, ?_⟩
  intro r member
  cases r <;> first | rfl | simp at member

theorem readWord_memory {core : Core} {mem : Memory} {addr : Nat} (memory : addr ≠ cpuid) :
    readWord (device core) mem addr = mem addr := by
  rw [readWord, device, if_neg memory, Option.getD_none]

theorem stacks_swapped {core : Core} {s : State} {left mem : Memory} {entry next : Nat}
    (entry_reg : s.context.reg .r2 = entry) (entry_memory : entry ≠ cpuid)
    (next_reg : s.context.reg .r3 = next) (next_memory : next ≠ cpuid)
    (saved : left = Function.update s.mem (s.mem entry) (s.context.reg .sp))
    (tcb_memory : left next ≠ cpuid) (moved : mem = Function.update left entry (left next)) :
    ∃ reg, run (device core) swapStacks s = ⟨⟨reg, s.context.xpsr⟩, mem, s.primask⟩ ∧
      reg .sp = mem (left next) ∧ reg .lr = s.context.reg .lr := by
  subst entry_reg next_reg
  have first : readWord (device core) s.mem (s.context.reg .r2) = s.mem (s.context.reg .r2) :=
    readWord_memory entry_memory
  have second : readWord (device core) left (s.context.reg .r3) = left (s.context.reg .r3) :=
    readWord_memory next_memory
  have third : readWord (device core) mem (left (s.context.reg .r3)) =
      mem (left (s.context.reg .r3)) := readWord_memory tcb_memory
  rw [← first] at saved
  rw [← second] at moved third tcb_memory ⊢
  subst saved
  subst moved
  exact ⟨_, rfl, third, rfl⟩

theorem upper_popped {core : Core} {s : State} (exception : s.context.reg .lr = excReturn) :
    run (device core) popUpper s = ⟨restored s.mem (s.context.reg .sp), s.mem, false⟩ := by
  have branched : run (device core) popUpper s =
      exceptionReturn (run (device core) popUpper.dropLast s) := if_pos exception
  have context : (exceptionReturn (run (device core) popUpper.dropLast s)).context =
      restored s.mem (s.context.reg .sp) := by
    ext r
    · cases r <;> rfl
    · rfl
  rw [branched, ← context]
  rfl

/-- The handler is a switch of the two threads: each register goes to its own word
and comes from it, over the frame of the hardware. -/
theorem pendSv_switch {runPt nextRunPt : Nat} (fits : runPt + 8 ≤ 2 ^ 32)
    (next_fits : nextRunPt + 8 ≤ 2 ^ 32) {core : Core} {s : State}
    (deep : 64 + s.context.reg .sp % 8 ≤ s.context.reg .sp) (aligned : s.context.reg .sp % 4 = 0)
    (entry_memory : entryOf runPt core ≠ cpuid) (next_memory : entryOf nextRunPt core ≠ cpuid)
    (tcb_memory :
      (switch (entryOf runPt core) (entryOf nextRunPt core) s).mem (entryOf runPt core) ≠ cpuid) :
    pendSv runPt nextRunPt core s = switch (entryOf runPt core) (entryOf nextRunPt core) s := by
  have frame : 32 ≤ framePtr (s.context.reg .sp) := by
    rw [framePtr]
    omega
  obtain ⟨reg, found, r2, r3, others⟩ := entries_found fits next_fits core (exceptionEntry s)
  obtain ⟨reg', pushed, sp, kept⟩ := upper_pushed core
    ⟨⟨reg, s.context.xpsr⟩, (exceptionEntry s).mem, true⟩
  have frame_sp : reg .sp = framePtr (s.context.reg .sp) := others .sp (by decide)
  have low : [Reg.r4, .r5, .r6, .r7].map reg = [Reg.r4, .r5, .r6, .r7].map s.context.reg := by
    refine List.map_congr_left fun r member => ?_
    cases r <;> first | exact others _ (by decide) | simp at member
  have high : [Reg.r8, .r9, .r10, .r11].map reg = [Reg.r8, .r9, .r10, .r11].map s.context.reg := by
    refine List.map_congr_left fun r member => ?_
    cases r <;> first | exact others _ (by decide) | simp at member
  simp only [frame_sp, low, high] at pushed sp
  have stored : storeWords (storeWords (exceptionEntry s).mem (framePtr (s.context.reg .sp) - 16)
        ([Reg.r4, .r5, .r6, .r7].map s.context.reg)) (framePtr (s.context.reg .sp) - 16 - 16)
        ([Reg.r8, .r9, .r10, .r11].map s.context.reg) =
      storeWords s.mem (savedSp s.context) (savedWords s.context) :=
    stored_below frame s.mem rfl rfl
  rw [stored] at pushed
  have saved : reg' .sp = savedSp s.context := by
    rw [sp, savedSp]
    omega
  let pushedState : State := ⟨⟨reg', s.context.xpsr⟩,
    storeWords s.mem (savedSp s.context) (savedWords s.context), true⟩
  have entry_reg : pushedState.context.reg .r2 = entryOf runPt core :=
    (kept .r2 (by decide)).trans r2
  have next_reg : pushedState.context.reg .r3 = entryOf nextRunPt core :=
    (kept .r3 (by decide)).trans r3
  have exception : pushedState.context.reg .lr = excReturn :=
    (kept .lr (by decide)).trans (others .lr (by decide))
  let left : Memory := Function.update pushedState.mem (pushedState.mem (entryOf runPt core))
    (savedSp s.context)
  let next := left (entryOf nextRunPt core)
  let mem : Memory := Function.update left (entryOf runPt core) next
  have tcb : (switch (entryOf runPt core) (entryOf nextRunPt core) s).mem (entryOf runPt core) =
      next := Function.update_self _ _ _
  rw [tcb] at tcb_memory
  obtain ⟨reg'', swapped, new_sp, lr⟩ := stacks_swapped entry_reg entry_memory next_reg next_memory
    (congrArg _ saved.symm) tcb_memory rfl
  rw [pendSv, pendSvHandler_parts, run_append, run_append, run_append, found,
    show (exceptionEntry s).context.xpsr = s.context.xpsr from rfl, pushed]
  refine (congrArg (run (device core) popUpper) swapped).trans ?_
  refine (upper_popped (lr.trans exception)).trans ?_
  exact congrArg (fun base => (⟨restored mem base, mem, false⟩ : State)) new_sp

end MulticoreRtos.PendSv
